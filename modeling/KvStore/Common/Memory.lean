import Mathlib

/-!
# Arrays and slices of them

A memory is a family of arrays; a slice is a range of one of them, and reading it gives
what stands there now. Writing to an array is seen through the slices of that array and
through no others.
-/

namespace KvStore.Common

variable {α : Type}

/-- Arrays by address. -/
abbrev Memory (α : Type) := ℕ → List α

/-- The elements `off`, …, `off + len - 1` of array `arr`. -/
structure Slice where
  arr : ℕ
  off : ℕ
  len : ℕ
  deriving DecidableEq, Repr

/-- What the slice holds now. -/
def Slice.read (s : Slice) (m : Memory α) : List α := ((m s.arr).drop s.off).take s.len

/-- Copy `data` into array `a` from position `pos` on. -/
def Memory.write (m : Memory α) (a pos : ℕ) (data : List α) : Memory α :=
  Function.update m a ((m a).take pos ++ (data ++ (m a).drop (pos + data.length)))

variable {m : Memory α} {s : Slice} {a pos : ℕ} {data : List α}

theorem Slice.read_congr {m' : Memory α} (h : m' s.arr = m s.arr) : s.read m' = s.read m := by
  rw [Slice.read, Slice.read, h]

theorem Memory.write_of_ne {b : ℕ} (h : b ≠ a) : m.write a pos data b = m b :=
  Function.update_of_ne h _ _

theorem Memory.take_write (data : List α) (h : pos ≤ (m a).length) :
    (m.write a pos data a).take (pos + data.length) = (m a).take pos ++ data := by
  have hlen : ((m a).take pos ++ data).length = pos + data.length := by
    simp only [List.length_append, List.length_take]
    omega
  rw [Memory.write, Function.update_self, ← List.append_assoc]
  exact List.take_left' hlen

theorem Memory.length_write (h : pos + data.length ≤ (m a).length) :
    (m.write a pos data a).length = (m a).length := by
  rw [Memory.write, Function.update_self]
  simp only [List.length_append, List.length_take, List.length_drop]
  omega

/-- A slice of the front of an array reads the same from anything that starts alike. -/
theorem Slice.read_take {n : ℕ} (h : s.off + s.len ≤ n) :
    s.read m = (((m s.arr).take n).drop s.off).take s.len := by
  rw [Slice.read, List.drop_take, List.take_take, Nat.min_eq_left (by omega)]

end KvStore.Common
