import Mathlib

/-!
# Log-linear buckets and ranks

A log-linear bucket keeps the `k + 1` leading bits of a number and leaves out the others.
`logLinear k v` numbers the buckets in the order of the values, `bucketFloor k v` is the least value
of the bucket of `v`.

* `bucketFloor_error`: a value exceeds the floor of its bucket by at most `v / 2 ^ k`.
* `logLinear_mono`: the numbering is monotone.
* `rank_bounds`: in a list with `x` as its entry number `t` in order, fewer than `t` entries are in
  buckets before that of `x`, and at least `t` are in buckets up to it.
-/

namespace KvStore.Common

/-! ## Buckets -/

/-- The number of low bits that the bucket of `v` leaves out. -/
def scale (k v : ℕ) : ℕ := Nat.log2 v - k

/-- The number of the bucket of `v`. -/
def logLinear (k v : ℕ) : ℕ := 2 ^ k * scale k v + v / 2 ^ scale k v

/-- The least value of the bucket of `v`. -/
def bucketFloor (k v : ℕ) : ℕ := v / 2 ^ scale k v * 2 ^ scale k v

variable {k v w : ℕ}

theorem div_scale_lt (k v : ℕ) : v / 2 ^ scale k v < 2 ^ (k + 1) := by
  have hlt : v < 2 ^ (Nat.log2 v + 1) := Nat.lt_log2_self
  rw [Nat.div_lt_iff_lt_mul (Nat.two_pow_pos _), ← pow_add]
  refine hlt.trans_le (Nat.pow_le_pow_right (by decide) ?_)
  unfold scale
  omega

theorem le_log2 (h : 2 ^ k ≤ v) : k ≤ Nat.log2 v := by
  have hpos : 0 < 2 ^ k := Nat.two_pow_pos k
  exact (Nat.le_log2 (by omega)).mpr h

/-- From `2 ^ k` on, the leading bit is among those kept. -/
theorem le_div_scale (h : 2 ^ k ≤ v) : 2 ^ k ≤ v / 2 ^ scale k v := by
  have hpos : 0 < 2 ^ k := Nat.two_pow_pos k
  have hlog := le_log2 h
  rw [Nat.le_div_iff_mul_le (Nat.two_pow_pos _), ← pow_add]
  have hle : 2 ^ Nat.log2 v ≤ v := Nat.log2_self_le (by omega)
  rwa [show k + scale k v = Nat.log2 v by unfold scale; omega]

theorem scale_eq_zero (h : v < 2 ^ (k + 1)) : scale k v = 0 := by
  rcases Nat.eq_zero_or_pos v with rfl | hv
  · simp [scale]
  · have hlog : Nat.log2 v < k + 1 := (Nat.log2_lt (by omega)).mpr h
    unfold scale
    omega

theorem logLinear_of_lt (h : v < 2 ^ (k + 1)) : logLinear k v = v := by
  rw [logLinear, scale_eq_zero h]
  simp

theorem bucketFloor_le (k v : ℕ) : bucketFloor k v ≤ v := Nat.div_mul_le_self v _

/-- A bucket leaves out at most the part `2 ^ k` of a value. -/
theorem bucketFloor_error (k v : ℕ) : 2 ^ k * (v - bucketFloor k v) ≤ v := by
  have hsplit := Nat.div_add_mod' v (2 ^ scale k v)
  have hrest : v - bucketFloor k v = v % 2 ^ scale k v := by
    unfold bucketFloor
    omega
  rw [hrest]
  by_cases hs : scale k v = 0
  · simp [hs, Nat.mod_one]
  · have hmod : v % 2 ^ scale k v ≤ 2 ^ scale k v := (Nat.mod_lt v (Nat.two_pow_pos _)).le
    have hv : v ≠ 0 := by
      rintro rfl
      simp [scale] at hs
    calc 2 ^ k * (v % 2 ^ scale k v) ≤ 2 ^ k * 2 ^ scale k v := Nat.mul_le_mul_left _ hmod
      _ = 2 ^ Nat.log2 v := by
        rw [← pow_add]
        congr 1
        unfold scale at hs ⊢
        omega
      _ ≤ v := Nat.log2_self_le hv

theorem log2_mono (h : v ≤ w) : Nat.log2 v ≤ Nat.log2 w := by
  rw [Nat.log2_eq_log_two, Nat.log2_eq_log_two]
  exact Nat.log_mono_right h

theorem logLinear_mono (h : v ≤ w) : logLinear k v ≤ logLinear k w := by
  have hscale : scale k v ≤ scale k w := Nat.sub_le_sub_right (log2_mono h) k
  unfold logLinear
  rcases hscale.eq_or_lt with heq | hlt
  · rw [heq]
    exact Nat.add_le_add_left (Nat.div_le_div_right h) _
  · -- the octave of `w` begins where that of `v` has ended
    have hw : 2 ^ k ≤ w := by
      by_contra hsmall
      have hzero : scale k w = 0 := scale_eq_zero (by rw [pow_succ]; omega)
      omega
    have hlo := le_div_scale hw
    have hhi := div_scale_lt k v
    have hstep : 2 ^ k * (scale k v + 1) ≤ 2 ^ k * scale k w := Nat.mul_le_mul_left _ hlt
    rw [pow_succ] at hhi
    rw [Nat.mul_succ] at hstep
    omega

/-- The bucket number taken apart. -/
theorem logLinear_div (h : 2 ^ k ≤ v) : logLinear k v / 2 ^ k = scale k v + 1 := by
  have hlo := le_div_scale h
  have hhi := div_scale_lt k v
  rw [pow_succ] at hhi
  rw [logLinear, Nat.mul_add_div (Nat.two_pow_pos k),
    Nat.div_eq_of_lt_le (k := 1) (by omega) (by omega)]

theorem logLinear_mod (h : 2 ^ k ≤ v) :
    logLinear k v % 2 ^ k = v / 2 ^ scale k v - 2 ^ k := by
  have hlo := le_div_scale h
  have hhi := div_scale_lt k v
  rw [pow_succ] at hhi
  rw [logLinear, Nat.mul_add_mod, Nat.mod_eq_sub_mod hlo, Nat.mod_eq_of_lt (by omega)]

/-! ## Ranks -/

section

variable {α : Type} [LinearOrder α] {ys : List α} {t : ℕ}

theorem countP_lt_le (hs : ys.Pairwise (· ≤ ·)) (ht : t < ys.length) :
    ys.countP (fun y => decide (y < ys[t])) ≤ t := by
  have hrest : (ys.drop t).countP (fun y => decide (y < ys[t])) = 0 := by
    rw [List.countP_eq_zero]
    intro y hy
    obtain ⟨i, hi, rfl⟩ := List.getElem_of_mem hy
    rw [List.getElem_drop]
    simpa using hs.rel_get_of_le (a := ⟨t, ht⟩) (b := ⟨t + i, by simp at hi; omega⟩) (by simp)
  calc ys.countP (fun y => decide (y < ys[t]))
      = (ys.take t).countP (fun y => decide (y < ys[t])) +
        (ys.drop t).countP (fun y => decide (y < ys[t])) := by
          rw [← List.countP_append, List.take_append_drop]
    _ ≤ t := by
          rw [hrest]
          exact (List.countP_le_length).trans (by simp)

theorem lt_countP_le (hs : ys.Pairwise (· ≤ ·)) (ht : t < ys.length) :
    t < ys.countP (fun y => decide (y ≤ ys[t])) := by
  have hall : (ys.take (t + 1)).countP (fun y => decide (y ≤ ys[t])) = (ys.take (t + 1)).length := by
    rw [List.countP_eq_length]
    intro y hy
    obtain ⟨i, hi, rfl⟩ := List.getElem_of_mem hy
    rw [List.getElem_take]
    simp only [List.length_take] at hi
    simpa using hs.rel_get_of_le (a := ⟨i, by omega⟩) (b := ⟨t, ht⟩) (by simp; omega)
  have hle := (List.take_sublist (t + 1) ys).countP_le (p := fun y => decide (y ≤ ys[t]))
  rw [hall, List.length_take] at hle
  omega

/-- The entry at position `t` of a sorted list, seen through a monotone numbering. -/
theorem rank_bounds {f : α → ℕ} (hf : Monotone f) (hs : ys.Pairwise (· ≤ ·)) (ht : t < ys.length) :
    ys.countP (fun y => decide (f y < f ys[t])) ≤ t ∧
      t < ys.countP (fun y => decide (f y ≤ f ys[t])) := by
  constructor
  · refine le_trans (List.countP_mono_left ?_) (countP_lt_le hs ht)
    intro y _ hy
    simp only [decide_eq_true_eq] at hy ⊢
    exact hf.reflect_lt hy
  · refine lt_of_lt_of_le (lt_countP_le hs ht) (List.countP_mono_left ?_)
    intro y _ hy
    simp only [decide_eq_true_eq] at hy ⊢
    exact hf hy

end

/-- Counts of single numbers add up to the count below a bound. -/
theorem countP_lt_succ {α : Type} (f : α → ℕ) (ys : List α) (i : ℕ) :
    ys.countP (fun y => decide (f y < i + 1)) =
      ys.countP (fun y => decide (f y < i)) + ys.countP (fun y => decide (f y = i)) := by
  induction ys with
  | nil => rfl
  | cons y ys ih =>
    simp only [List.countP_cons, ih, decide_eq_true_eq]
    split_ifs <;> omega

end KvStore.Common
