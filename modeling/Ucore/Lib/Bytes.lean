import Mathlib.Data.List.Basic
import Mathlib.Tactic.Ring

/-!
# Byte buffers and little-endian integers

A buffer is a function from positions to bytes. Reading and writing a range are
the two halves of every transfer between memory and a disk block; integers are
stored with their low byte first.
-/

namespace Ucore

open List

/-- The contents of a byte buffer, position by position. -/
def Bytes : Type := ℕ → UInt8

namespace Bytes

/-- The buffer of zero bytes. -/
def zero : Bytes := fun _ => 0

/-- `len` bytes from position `off` on. -/
def read (b : Bytes) (off len : ℕ) : List UInt8 := (List.range len).map fun i => b (off + i)

/-- Store `data` from position `off` on. -/
def write (b : Bytes) (off : ℕ) (data : List UInt8) : Bytes := fun i =>
  if off ≤ i ∧ i < off + data.length then data.getD (i - off) 0 else b i

@[simp] theorem length_read (b : Bytes) (off len : ℕ) : (b.read off len).length = len := by
  simp [read]

theorem take_read (b : Bytes) (off len : ℕ) : (b.read off len).take len = b.read off len :=
  take_of_length_le (length_read ..).le

theorem getD_read (b : Bytes) {off len i : ℕ} (hi : i < len) :
    (b.read off len).getD i 0 = b (off + i) := by
  simp [read, getD_eq_getElem?_getD, hi]

variable {data : List UInt8}

theorem write_apply_inside (b : Bytes) {off i : ℕ} (hlo : off ≤ i) (hhi : i < off + data.length) :
    b.write off data i = data.getD (i - off) 0 := by
  simp only [write, if_pos (And.intro hlo hhi)]

theorem write_apply_outside (b : Bytes) {off i : ℕ} (h : i < off ∨ off + data.length ≤ i) :
    b.write off data i = b i := by
  simp only [write]
  rw [if_neg (by omega)]

@[simp] theorem write_nil (b : Bytes) (off : ℕ) : b.write off [] = b :=
  funext fun _ => write_apply_outside b (lt_or_ge _ _)

/-- A range that was just written reads back. -/
theorem read_write_same (b : Bytes) (off : ℕ) (data : List UInt8) :
    (b.write off data).read off data.length = data := by
  apply ext_getElem
  · simp
  · intro i hi hi'
    simp only [read, getElem_map, getElem_range]
    rw [write_apply_inside b (by omega) (by omega)]
    simp [getD_eq_getElem?_getD, hi']

/-- A write leaves every disjoint range alone. -/
theorem read_write_disjoint (b : Bytes) {off off' len : ℕ}
    (h : off' + len ≤ off ∨ off + data.length ≤ off') :
    (b.write off data).read off' len = b.read off' len := by
  apply map_congr_left
  intro i hi
  have hlt := mem_range.mp hi
  exact write_apply_outside b (by omega)

theorem read_add (b : Bytes) (off m n : ℕ) :
    b.read off (m + n) = b.read off m ++ b.read (off + m) n := by
  simp [read, range_add, Nat.add_assoc]

/-- Two writes one after another are one. -/
theorem write_write (b : Bytes) (off : ℕ) (data' : List UInt8) :
    (b.write off data).write (off + data.length) data' = b.write off (data ++ data') := by
  funext i
  simp only [write, length_append, getD_eq_getElem?_getD]
  grind

/-- A part of what was copied to the start of a buffer. -/
theorem read_copied (b c : Bytes) {src n off len : ℕ} (h : off + len ≤ n) :
    (b.write 0 (c.read src n)).read off len = c.read (src + off) len := by
  refine map_congr_left fun i hi => ?_
  have hlt := mem_range.mp hi
  rw [write_apply_inside b (by omega) (by simp; omega), getD_read c (by omega)]
  congr 1
  omega

/-- Copying a range, changing a part of the copy and storing it back changes that part. -/
theorem write_copied (b c : Bytes) {src n off : ℕ} (h : off + data.length ≤ n) :
    c.write src (((b.write 0 (c.read src n)).write off data).read 0 n) =
      c.write (src + off) data := by
  funext i
  by_cases hin : src ≤ i ∧ i < src + n
  · rw [write_apply_inside c hin.1 (by simpa using hin.2), getD_read _ (by omega)]
    simp only [write, length_read]
    rw [getD_read c (by omega)]
    grind
  · rw [write_apply_outside c (by simp; omega), write_apply_outside c (by omega)]

/-- Two buffers agree up to position `n`. -/
def Agree (n : ℕ) (b b' : Bytes) : Prop := ∀ i < n, b i = b' i

/-- Two buffers agree on what is written over both. -/
theorem agree_write {b b' : Bytes} {n : ℕ} (h : n ≤ data.length) :
    Agree n (b.write 0 data) (b'.write 0 data) := by
  intro i hi
  rw [write_apply_inside b i.zero_le (by omega), write_apply_inside b' i.zero_le (by omega)]

theorem Agree.write {b b' : Bytes} {n off : ℕ} (h : Agree n b b') :
    Agree n (b.write off data) (b'.write off data) := by
  intro i hi
  simp only [Bytes.write, h i hi]

theorem Agree.read {b b' : Bytes} {n off len : ℕ} (h : Agree n b b') (hn : off + len ≤ n) :
    b.read off len = b'.read off len := by
  refine map_congr_left fun i hi => h _ ?_
  have hlt := mem_range.mp hi
  omega

@[simp] theorem read_zero (off len : ℕ) : zero.read off len = List.replicate len 0 := by
  simp [read, zero]

end Bytes

/-- The `n` low bytes of `v`, low byte first. -/
def leBytes : ℕ → ℕ → List UInt8
  | 0, _ => []
  | n + 1, v => UInt8.ofNat (v % 256) :: leBytes n (v / 256)

/-- The integer stored in a list of bytes, low byte first. -/
def leValue : List UInt8 → ℕ
  | [] => 0
  | b :: bs => b.toNat + 256 * leValue bs

@[simp] theorem length_leBytes (n v : ℕ) : (leBytes n v).length = n := by
  induction n generalizing v with
  | zero => rfl
  | succ n ih => simp [leBytes, ih]

/-- Decoding `n` bytes gives the integer back, up to the width. -/
theorem leValue_leBytes (n v : ℕ) : leValue (leBytes n v) = v % 256 ^ n := by
  induction n generalizing v with
  | zero => simp [leBytes, leValue, Nat.mod_one]
  | succ n ih =>
    have hbyte : (UInt8.ofNat (v % 256)).toNat = v % 256 := by simp
    rw [leBytes, leValue, ih, hbyte, pow_succ, Nat.mul_comm (256 ^ n) 256, Nat.mod_mul]

/-- An integer that fits its width survives encoding. -/
theorem leValue_leBytes_of_lt {n v : ℕ} (h : v < 256 ^ n) : leValue (leBytes n v) = v := by
  rw [leValue_leBytes, Nat.mod_eq_of_lt h]

@[simp] theorem leValue_replicate_zero (n : ℕ) : leValue (List.replicate n 0) = 0 := by
  induction n with
  | zero => rfl
  | succ n ih => simp [replicate_succ, leValue, ih]

end Ucore
