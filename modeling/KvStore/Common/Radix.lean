import Mathlib

/-!
# Slots of a hierarchical wheel

A wheel in radix `r` files a target tick by its digit at some level. `Filed r now target level slot`
says that the slot is that digit, and that the hand of the level, which stands at `now / r ^ level`,
reaches it within the next `r` steps, and not before the target's own digit sequence is due there.

* `Filed.of_lt`: where a target is filed by its distance from `now`.
* `Filed.tick`: a tick that does not bring the hand to the slot keeps it filed.
* `Filed.due`: when the hand comes to the slot, the target is less than one step of the level away.
-/

namespace KvStore.Common

/-- `target` waits in `slot` of `level` at the time `now`. -/
structure Filed (r now target level slot : ℕ) : Prop where
  slot_eq : slot = target / r ^ level % r
  ahead : now / r ^ level < target / r ^ level
  within : target / r ^ level ≤ now / r ^ level + r

variable {r now target level slot : ℕ}

theorem Filed.lt (h : Filed r now target level slot) : now < target :=
  Nat.lt_of_div_lt_div h.ahead

/-- A target at a distance from `r ^ level` to `r ^ (level + 1)`. The lower bound is needed above
    level 0 only. -/
theorem Filed.of_lt (hr : 0 < r) (hlt : now < target)
    (hlo : level = 0 ∨ now + r ^ level ≤ target) (hhi : target < now + r ^ (level + 1)) :
    Filed r now target level (target / r ^ level % r) := by
  have hpos : 0 < r ^ level := Nat.pow_pos hr
  refine ⟨rfl, ?_, ?_⟩
  · rcases hlo with rfl | hlo
    · simpa using hlt
    · calc now / r ^ level < now / r ^ level + 1 := Nat.lt_succ_self _
        _ = (now + r ^ level) / r ^ level := (Nat.add_div_right now hpos).symm
        _ ≤ target / r ^ level := Nat.div_le_div_right hlo
  · calc target / r ^ level ≤ (now + r * r ^ level) / r ^ level := by
          rw [← Nat.pow_succ']
          exact Nat.div_le_div_right hhi.le
      _ = now / r ^ level + r := Nat.add_mul_div_right now r hpos

/-! ## Ticks -/

/-- The hand moves to another slot, or does not move. -/
theorem Filed.tick (h : Filed r now target level slot)
    (hslot : r ^ level ∣ now + 1 → slot ≠ (now + 1) / r ^ level % r) :
    Filed r (now + 1) target level slot := by
  by_cases hdvd : r ^ level ∣ now + 1
  · have hstep : (now + 1) / r ^ level = now / r ^ level + 1 := Nat.succ_div_of_dvd hdvd
    have hne : target / r ^ level ≠ (now + 1) / r ^ level := by
      intro heq
      exact hslot hdvd (heq ▸ h.slot_eq)
    have := h.ahead
    have := h.within
    exact ⟨h.slot_eq, by omega, by omega⟩
  · have hstay : (now + 1) / r ^ level = now / r ^ level := Nat.succ_div_of_not_dvd hdvd
    exact ⟨h.slot_eq, hstay ▸ h.ahead, hstay ▸ h.within⟩

/-- The slot that the hand comes to holds the targets of its step, and no others. -/
theorem Filed.due (hr : 0 < r) (h : Filed r now target level slot) (hdvd : r ^ level ∣ now + 1)
    (hslot : slot = (now + 1) / r ^ level % r) :
    now + 1 ≤ target ∧ target < now + 1 + r ^ level := by
  have hpos : 0 < r ^ level := Nat.pow_pos hr
  have hstep : (now + 1) / r ^ level = now / r ^ level + 1 := Nat.succ_div_of_dvd hdvd
  have hsame : target / r ^ level = (now + 1) / r ^ level := by
    -- both are among the `r` steps from `now / r ^ level + 1` on, and they agree modulo `r`
    have hmod : target / r ^ level ≡ (now + 1) / r ^ level [MOD r] :=
      h.slot_eq.symm.trans hslot
    have hle : (now + 1) / r ^ level ≤ target / r ^ level := hstep ▸ h.ahead
    have hlt : target / r ^ level - (now + 1) / r ^ level < r := by
      have := h.within
      omega
    have hzero := Nat.eq_zero_of_dvd_of_lt ((Nat.modEq_iff_dvd' hle).mp hmod.symm) hlt
    omega
  obtain ⟨q, hq⟩ := hdvd
  rw [hq, Nat.mul_div_cancel_left q hpos] at hsame
  have hlo := Nat.div_mul_le_self target (r ^ level)
  have hhi := Nat.lt_div_mul_add hpos (a := target)
  rw [hsame, mul_comm] at hlo hhi
  omega

/-- What is filed at a boundary of its level was also in reach one tick before. -/
theorem Filed.untick (h : Filed r (now + 1) target level slot) (hr : 0 < r)
    (hdvd : r ^ level ∣ now + 1) (hhi : target < now + 1 + r ^ (level + 1)) :
    Filed r now target level slot := by
  have hpos : 0 < r ^ level := Nat.pow_pos hr
  have hstep : (now + 1) / r ^ level = now / r ^ level + 1 := Nat.succ_div_of_dvd hdvd
  have hahead := h.ahead
  refine ⟨h.slot_eq, by omega, ?_⟩
  have hlt : target / r ^ level < (now + 1) / r ^ level + r := by
    rw [← Nat.add_mul_div_right (now + 1) r hpos, ← Nat.pow_succ']
    exact Nat.div_lt_div_of_lt_of_dvd (hdvd.add (Nat.pow_dvd_pow r (Nat.le_succ level))) hhi
  omega

end KvStore.Common
