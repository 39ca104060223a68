import KvStore.Common.Radix
import KvStore.Store.Wheel

/-!
# Where the timers of the wheel are

A timer waits in the bucket of the digit of its tick at some level. When the hand of a level comes to
a bucket, the bucket is emptied and its timers are put down again at lower levels; the bucket of the
hand at level 0 is what comes due.

* `held_advance`: what `Advance` returns and what is held afterwards is what was held before.
* `Wheel.Keeps`: every timer waits for a tick at which it may come due. `Due` says which ticks these
  are, so that one invariant serves every statement about when timers fire.
* `Keeps.advance`: `Advance` returns a timer at a tick at which it may come due, and keeps the
  invariant.
-/

namespace KvStore

open KvStore.Common

namespace Wheel

variable {κ : Type} {w : Wheel κ} {t : WheelTimer κ}

/-! ## Where a timer goes -/

/-- The tick for which `addLocked` puts a timer down. -/
def targetOf (w : Wheel κ) (t : WheelTimer κ) : ℕ :=
  max (w.tickFor t.expireAt).toNat (w.nowTick.toNat + 1)

theorem lt_targetOf (w : Wheel κ) (t : WheelTimer κ) : w.nowTick.toNat < w.targetOf t :=
  lt_of_lt_of_le (Nat.lt_succ_self _) (le_max_right _ _)

/-- The bucket for a tick, by its digit at the level. -/
def slotOf (level target : ℕ) : UInt64 := UInt64.ofNat (target / 256 ^ level % 256)

theorem toNat_slotOf (level target : ℕ) :
    (slotOf level target).toNat = target / 256 ^ level % 256 := by
  have hlt : target / 256 ^ level % 256 < 256 := Nat.mod_lt _ (by decide)
  rw [slotOf, UInt64.toNat_ofNat_of_lt' (hlt.trans (by decide))]

theorem toNat_span {level : ℕ} (h : level < wheelLevels) :
    ((1 : UInt64) <<< (UInt64.ofNat level * wheelSlotBits + wheelSlotBits)).toNat =
      256 ^ (level + 1) := by
  unfold wheelLevels at h
  interval_cases level <;> rfl

theorem slot_eq (target : UInt64) {level : ℕ} (h : level < wheelLevels) :
    (target >>> (UInt64.ofNat level * wheelSlotBits)) &&& wheelSlotMask =
      slotOf level target.toNat := by
  have hshift : (UInt64.ofNat level * wheelSlotBits).toNat % 64 = 8 * level := by
    unfold wheelLevels at h
    interval_cases level <;> rfl
  apply UInt64.toNat_inj.mp
  rw [toNat_slotOf, UInt64.toNat_and, UInt64.toNat_shiftRight, hshift, Nat.shiftRight_eq_div_pow,
    show wheelSlotMask.toNat = 2 ^ 8 - 1 from rfl, Nat.and_two_pow_sub_one_eq_mod, pow_mul]
  rfl

theorem place_cases (target delta : UInt64) : ∀ m k, k + m = wheelLevels →
    (k = 0 ∨ 256 ^ k ≤ delta.toNat) →
    (∃ l < wheelLevels, (l = 0 ∨ 256 ^ l ≤ delta.toNat) ∧ delta.toNat < 256 ^ (l + 1) ∧
      w.place t target delta (List.range' k m) =
        w.setBucket l (slotOf l target.toNat) (w.levels l (slotOf l target.toNat) ++ [t])) ∨
    (256 ^ wheelLevels ≤ delta.toNat ∧
      w.place t target delta (List.range' k m) = { w with overflow := w.overflow ++ [t] })
  | 0, k, hk, hlo => by
    refine .inr ⟨?_, rfl⟩
    rcases hlo with rfl | hlo
    · cases hk
    · rwa [← hk]
  | m + 1, k, hk, hlo => by
    have hlt : k < wheelLevels := by omega
    rw [List.range'_succ, place]
    by_cases hdelta : delta.toNat < 256 ^ (k + 1)
    · rw [← toNat_span hlt, ← UInt64.lt_iff_toNat_lt] at hdelta
      rw [if_pos hdelta, slot_eq target hlt]
      rw [UInt64.lt_iff_toNat_lt, toNat_span hlt] at hdelta
      exact .inl ⟨k, hlt, hlo, hdelta, rfl⟩
    · have hnot : ¬ delta < 1 <<< (UInt64.ofNat k * wheelSlotBits + wheelSlotBits) := by
        rw [UInt64.lt_iff_toNat_lt, toNat_span hlt]
        exact hdelta
      rw [if_neg hnot]
      exact place_cases target delta m (k + 1) (by omega) (.inr (not_lt.mp hdelta))

/-- A timer goes into the level that its distance belongs to, or to the overflow list. -/
theorem addLocked_cases (w : Wheel κ) (t : WheelTimer κ) :
    (∃ l < wheelLevels, (l = 0 ∨ w.nowTick.toNat + 256 ^ l ≤ w.targetOf t) ∧
      w.targetOf t < w.nowTick.toNat + 256 ^ (l + 1) ∧
      w.addLocked t = w.setBucket l (slotOf l (w.targetOf t))
        (w.levels l (slotOf l (w.targetOf t)) ++ [t])) ∨
    (w.nowTick.toNat + 256 ^ wheelLevels ≤ w.targetOf t ∧
      w.addLocked t = { w with overflow := w.overflow ++ [t] }) := by
  obtain ⟨target, htarget⟩ : ∃ target, target =
    if w.tickFor t.expireAt ≤ w.nowTick then w.nowTick + 1 else w.tickFor t.expireAt := ⟨_, rfl⟩
  have hadd : w.addLocked t =
      w.place t target (target - w.nowTick) (List.range' 0 wheelLevels) := by
    rw [htarget, ← List.range_eq_range']
    rfl
  have hnow := w.nowTick.toNat_lt
  have hticks := (w.tickFor t.expireAt).toNat_lt
  have hle := lt_targetOf w t
  -- the target wraps around at the last tick only, and the distance does not
  have hmod : target.toNat = w.targetOf t % 2 ^ 64 := by
    rw [htarget, targetOf]
    split_ifs with hdue
    · rw [UInt64.le_iff_toNat_le] at hdue
      rw [max_eq_right (by omega), UInt64.toNat_add]
      rfl
    · rw [UInt64.le_iff_toNat_le] at hdue
      rw [max_eq_left (by omega), Nat.mod_eq_of_lt hticks]
  have hbound : w.targetOf t ≤ 2 ^ 64 ∧ (w.targetOf t = 2 ^ 64 → w.nowTick.toNat + 1 = 2 ^ 64) := by
    rw [targetOf]
    omega
  have hdelta : (target - w.nowTick).toNat = w.targetOf t - w.nowTick.toNat := by
    rw [UInt64.toNat_sub, hmod]
    rcases hbound.1.lt_or_eq with hlt | heq
    · rw [Nat.mod_eq_of_lt hlt]
      omega
    · rw [heq]
      omega
  have hslot : ∀ l < wheelLevels, slotOf l target.toNat = slotOf l (w.targetOf t) := by
    intro l hl
    unfold wheelLevels at hl
    rw [slotOf, slotOf, hmod]
    congr 1
    have hsplit : (2 : ℕ) ^ 64 = 256 ^ l * 256 ^ (8 - l) := by
      rw [← pow_add, Nat.add_sub_cancel' (by omega)]
      norm_num
    rw [hsplit, Nat.mod_mul_right_div_self]
    exact Nat.mod_mod_of_dvd _ (dvd_pow_self 256 (by omega))
  rw [hadd]
  rcases place_cases (w := w) (t := t) target (target - w.nowTick) wheelLevels 0 (Nat.zero_add _)
    (.inl rfl) with ⟨l, hl, hlo, hhi, heq⟩ | ⟨hlo, heq⟩
  · rw [hdelta] at hlo hhi
    rw [hslot l hl] at heq
    exact .inl ⟨l, hl, hlo.imp id fun h => by omega, by omega, heq⟩
  · rw [hdelta] at hlo
    exact .inr ⟨by omega, heq⟩

/-! ## The cascade -/

theorem and_mask_eq_zero {l : ℕ} (hl : l < wheelLevels) (x : UInt64) :
    x &&& (1 <<< (UInt64.ofNat l * wheelSlotBits) - 1) = 0 ↔ 256 ^ l ∣ x.toNat := by
  have hmask : ((1 : UInt64) <<< (UInt64.ofNat l * wheelSlotBits) - 1).toNat = 2 ^ (8 * l) - 1 := by
    unfold wheelLevels at hl
    interval_cases l <;> rfl
  rw [← UInt64.toNat_inj, UInt64.toNat_and, hmask, Nat.and_two_pow_sub_one_eq_mod, pow_mul,
    Nat.dvd_iff_mod_eq_zero]
  rfl

/-- The wheel with the bucket of the hand of level `l` put down again. -/
def spill (w : Wheel κ) (l : ℕ) : Wheel κ :=
  (w.levels l (slotOf l w.nowTick.toNat)).foldl addLocked
    (w.setBucket l (slotOf l w.nowTick.toNat) [])

theorem cascade_cons (w : Wheel κ) {l : ℕ} (hl : l < wheelLevels) (ls : List ℕ) :
    w.cascade (l :: ls) = if 256 ^ l ∣ w.nowTick.toNat then (w.spill l).cascade ls else w := by
  rw [cascade, spill, ← slot_eq _ hl]
  by_cases hdvd : 256 ^ l ∣ w.nowTick.toNat
  · rw [if_pos hdvd]
    exact if_neg (not_not.mpr ((and_mask_eq_zero hl _).mpr hdvd))
  · rw [if_neg hdvd]
    exact if_pos fun h => hdvd ((and_mask_eq_zero hl _).mp h)

/-! ## Frames -/

/-- Only the places of timers changed. -/
structure SameClock (w w' : Wheel κ) : Prop where
  tickMs : w'.tickMs = w.tickMs
  epochMs : w'.epochMs = w.epochMs
  nowTick : w'.nowTick = w.nowTick
  pending : w'.pending = w.pending

theorem SameClock.refl (w : Wheel κ) : SameClock w w := ⟨rfl, rfl, rfl, rfl⟩

theorem SameClock.trans {w' w'' : Wheel κ} (h : SameClock w w') (h' : SameClock w' w'') :
    SameClock w w'' :=
  ⟨h'.tickMs.trans h.tickMs, h'.epochMs.trans h.epochMs, h'.nowTick.trans h.nowTick,
    h'.pending.trans h.pending⟩

theorem tickFor_congr {w w' : Wheel κ} (htick : w'.tickMs = w.tickMs)
    (hepoch : w'.epochMs = w.epochMs) (ms : UInt64) : w'.tickFor ms = w.tickFor ms := by
  rw [tickFor, tickFor, htick, hepoch]

theorem SameClock.tickFor {w' : Wheel κ} (h : SameClock w w') (ms : UInt64) :
    w'.tickFor ms = w.tickFor ms :=
  tickFor_congr h.tickMs h.epochMs ms

theorem SameClock.targetOf {w' : Wheel κ} (h : SameClock w w') (t : WheelTimer κ) :
    w'.targetOf t = w.targetOf t := by
  rw [Wheel.targetOf, Wheel.targetOf, h.tickFor, h.nowTick]

theorem sameClock_addLocked (w : Wheel κ) (t : WheelTimer κ) : SameClock w (w.addLocked t) := by
  rcases w.addLocked_cases t with ⟨l, -, -, -, heq⟩ | ⟨-, heq⟩ <;>
  · rw [heq]
    exact ⟨rfl, rfl, rfl, rfl⟩

theorem sameClock_foldl {f : Wheel κ → WheelTimer κ → Wheel κ} (hf : ∀ w t, SameClock w (f w t))
    (ts : List (WheelTimer κ)) (w : Wheel κ) : SameClock w (ts.foldl f w) := by
  induction ts generalizing w with
  | nil => exact .refl w
  | cons t ts ih => exact (hf w t).trans (ih _)

theorem sameClock_spill (w : Wheel κ) (l : ℕ) : SameClock w (w.spill l) := by
  have hfold := sameClock_foldl sameClock_addLocked (w.levels l (slotOf l w.nowTick.toNat))
    (w.setBucket l (slotOf l w.nowTick.toNat) [])
  exact ⟨hfold.tickMs, hfold.epochMs, hfold.nowTick, hfold.pending⟩

theorem sameClock_cascade (ls : List ℕ) (h : ∀ l ∈ ls, l < wheelLevels) (w : Wheel κ) :
    SameClock w (w.cascade ls) := by
  induction ls generalizing w with
  | nil => exact .refl w
  | cons l ls ih =>
    rw [cascade_cons w (h l List.mem_cons_self)]
    split_ifs
    · exact (sameClock_spill w l).trans (ih (fun l hl => h l (List.mem_cons_of_mem _ hl)) _)
    · exact .refl w

/-- What the overflow sweep does with one timer. -/
def sweepOne (w : Wheel κ) (t : WheelTimer κ) : Wheel κ :=
  if w.tickFor t.expireAt < w.nowTick + 1 <<< (UInt64.ofNat wheelLevels * wheelSlotBits)
  then w.addLocked t
  else { w with overflow := w.overflow ++ [t] }

theorem sweepOverflow_eq (w : Wheel κ) :
    w.sweepOverflow = w.overflow.foldl sweepOne { w with overflow := [] } := rfl

theorem sameClock_sweepOne (w : Wheel κ) (t : WheelTimer κ) : SameClock w (w.sweepOne t) := by
  unfold sweepOne
  split_ifs
  · exact sameClock_addLocked w t
  · exact ⟨rfl, rfl, rfl, rfl⟩

theorem sameClock_sweepOverflow (w : Wheel κ) : SameClock w w.sweepOverflow := by
  have hfold := sameClock_foldl sameClock_sweepOne w.overflow { w with overflow := [] }
  exact ⟨hfold.tickMs, hfold.epochMs, hfold.nowTick, hfold.pending⟩

/-! ## The timers held -/

/-- The timers in the levels and in the overflow list. -/
def held (w : Wheel κ) : Multiset (WheelTimer κ) :=
  Multiset.ofList ((List.range wheelLevels).flatMap (fun l =>
    (List.range 256).flatMap fun b => w.levels l (UInt64.ofNat b)) ++ w.overflow)

theorem mem_held : t ∈ w.held ↔
    (∃ l < wheelLevels, ∃ b < 256, t ∈ w.levels l (UInt64.ofNat b)) ∨ t ∈ w.overflow := by
  simp only [held, Multiset.mem_coe, List.mem_append, List.mem_flatMap, List.mem_range]

theorem ofList_flatMap_range {α : Type} (n : ℕ) (f : ℕ → List α) :
    Multiset.ofList ((List.range n).flatMap f) = ∑ i ∈ Finset.range n, Multiset.ofList (f i) := by
  induction n with
  | zero => rfl
  | succ n ih =>
    rw [List.range_succ, List.flatMap_append, List.flatMap_singleton, ← Multiset.coe_add, ih,
      Finset.sum_range_succ]

/-- The timers in bucket `b` of level `l`. -/
def bucket (w : Wheel κ) (l b : ℕ) : Multiset (WheelTimer κ) :=
  Multiset.ofList (w.levels l (UInt64.ofNat b))

theorem held_eq (w : Wheel κ) :
    w.held = ∑ l ∈ Finset.range wheelLevels, ∑ b ∈ Finset.range 256, w.bucket l b +
      Multiset.ofList w.overflow := by
  rw [held, ← Multiset.coe_add, ofList_flatMap_range]
  simp only [ofList_flatMap_range, bucket]

theorem sum_replace {ι M : Type} [AddCommMonoid M] [DecidableEq ι] {s : Finset ι} {f g : ι → M}
    {a : ι} (ha : a ∈ s) (h : ∀ i ∈ s, i ≠ a → f i = g i) :
    ∑ i ∈ s, f i + g a = ∑ i ∈ s, g i + f a := by
  have hrest : ∑ i ∈ s.erase a, f i = ∑ i ∈ s.erase a, g i :=
    Finset.sum_congr rfl fun i hi => h i (Finset.mem_of_mem_erase hi) (Finset.ne_of_mem_erase hi)
  rw [← Finset.add_sum_erase s f ha, ← Finset.add_sum_erase s g ha, hrest]
  ac_rfl

theorem levels_setBucket (w : Wheel κ) (l : ℕ) (b : UInt64) (B : List (WheelTimer κ)) (l' : ℕ)
    (b' : UInt64) :
    (w.setBucket l b B).levels l' b' = if l' = l ∧ b' = b then B else w.levels l' b' := by
  show Function.update w.levels l (Function.update (w.levels l) b B) l' b' = _
  by_cases hl : l' = l
  · subst hl
    rw [Function.update_self]
    by_cases hb : b' = b
    · rw [hb, Function.update_self, if_pos ⟨rfl, rfl⟩]
    · rw [Function.update_of_ne hb, if_neg fun h => hb h.2]
  · rw [Function.update_of_ne hl, if_neg fun h => hl h.1]

theorem held_setBucket {l : ℕ} (hl : l < wheelLevels) {b : UInt64} (hb : b.toNat < 256)
    (B : List (WheelTimer κ)) :
    (w.setBucket l b B).held + Multiset.ofList (w.levels l b) = w.held + Multiset.ofList B := by
  have hinner : ∑ b' ∈ Finset.range 256, (w.setBucket l b B).bucket l b' +
        Multiset.ofList (w.levels l b) =
      ∑ b' ∈ Finset.range 256, w.bucket l b' + Multiset.ofList B := by
    have hsum := sum_replace (f := (w.setBucket l b B).bucket l) (g := w.bucket l)
      (Finset.mem_range.mpr hb) (fun i hi hne => by
        rw [bucket, bucket, levels_setBucket, if_neg]
        rintro ⟨-, rfl⟩
        rw [Finset.mem_range] at hi
        exact hne (UInt64.toNat_ofNat_of_lt' (hi.trans (by decide))).symm)
    rwa [bucket, bucket, UInt64.ofNat_toNat, levels_setBucket, if_pos ⟨rfl, rfl⟩] at hsum
  have houter := sum_replace (f := fun l' => ∑ b' ∈ Finset.range 256, (w.setBucket l b B).bucket l' b')
    (g := fun l' => ∑ b' ∈ Finset.range 256, w.bucket l' b') (Finset.mem_range.mpr hl)
    (fun i _ hne => Finset.sum_congr rfl fun b' _ => by
      rw [bucket, bucket, levels_setBucket, if_neg fun h => hne h.1])
  rw [held_eq, held_eq]
  show _ + Multiset.ofList w.overflow + _ = _
  generalize ∑ l' ∈ Finset.range wheelLevels, ∑ b' ∈ Finset.range 256,
    (w.setBucket l b B).bucket l' b' = all' at houter ⊢
  generalize ∑ l' ∈ Finset.range wheelLevels, ∑ b' ∈ Finset.range 256, w.bucket l' b' = all
    at houter ⊢
  generalize ∑ b' ∈ Finset.range 256, (w.setBucket l b B).bucket l b' = level' at hinner houter
  generalize ∑ b' ∈ Finset.range 256, w.bucket l b' = level at hinner houter
  refine add_right_cancel (b := level) ?_
  calc all' + Multiset.ofList w.overflow + Multiset.ofList (w.levels l b) + level
      = all' + level + Multiset.ofList (w.levels l b) + Multiset.ofList w.overflow := by abel
    _ = all + (level' + Multiset.ofList (w.levels l b)) + Multiset.ofList w.overflow := by
        rw [houter, add_assoc all]
    _ = all + Multiset.ofList w.overflow + Multiset.ofList B + level := by
        rw [hinner]
        abel

theorem held_overflow (w : Wheel κ) (ts : List (WheelTimer κ)) :
    Wheel.held { w with overflow := w.overflow ++ ts } = w.held + Multiset.ofList ts := by
  rw [held, held, Multiset.coe_add, List.append_assoc]

theorem held_addLocked (w : Wheel κ) (t : WheelTimer κ) : (w.addLocked t).held = w.held + {t} := by
  rcases w.addLocked_cases t with ⟨l, hl, -, -, heq⟩ | ⟨-, heq⟩
  · rw [heq]
    have hset := held_setBucket (w := w) hl (b := slotOf l (w.targetOf t))
      (by rw [toNat_slotOf]; exact Nat.mod_lt _ (by decide))
      (w.levels l (slotOf l (w.targetOf t)) ++ [t])
    rw [← Multiset.coe_add, add_left_comm, add_comm (w.held)] at hset
    refine add_right_cancel (hset.trans ?_)
    rw [Multiset.coe_singleton]
    abel
  · rw [heq, held_overflow, Multiset.coe_singleton]

theorem held_foldl {f : Wheel κ → WheelTimer κ → Wheel κ}
    (hf : ∀ w t, (f w t).held = w.held + {t}) (ts : List (WheelTimer κ)) (w : Wheel κ) :
    (ts.foldl f w).held = w.held + Multiset.ofList ts := by
  induction ts generalizing w with
  | nil => exact (add_zero _).symm
  | cons t ts ih =>
    rw [List.foldl_cons, ih, hf, ← Multiset.cons_coe, ← Multiset.singleton_add, add_assoc]

theorem held_spill (w : Wheel κ) {l : ℕ} (hl : l < wheelLevels) : (w.spill l).held = w.held := by
  have hset := held_setBucket (w := w) hl (b := slotOf l w.nowTick.toNat)
    (by rw [toNat_slotOf]; exact Nat.mod_lt _ (by decide)) []
  rw [spill, held_foldl held_addLocked, hset]
  exact add_zero _

theorem held_cascade (ls : List ℕ) (h : ∀ l ∈ ls, l < wheelLevels) (w : Wheel κ) :
    (w.cascade ls).held = w.held := by
  induction ls generalizing w with
  | nil => rfl
  | cons l ls ih =>
    have hl := h l List.mem_cons_self
    rw [cascade_cons w hl]
    split_ifs
    · rw [ih fun l hl => h l (List.mem_cons_of_mem _ hl), held_spill w hl]
    · rfl

/-- The wheel in the middle of a tick: the hand has moved, the higher levels have cascaded. -/
def cascaded (w : Wheel κ) : Wheel κ := { w with nowTick := w.nowTick + 1 }.cascade [1, 2, 3, 4]

theorem nowTick_cascaded (w : Wheel κ) : w.cascaded.nowTick = w.nowTick + 1 :=
  (sameClock_cascade [1, 2, 3, 4] (by decide) { w with nowTick := w.nowTick + 1 }).nowTick

theorem tickLoop_succ (n : ℕ) (w : Wheel κ) (due : List (WheelTimer κ)) :
    tickLoop (n + 1) w due =
      tickLoop n (w.cascaded.setBucket 0 (slotOf 0 (w.nowTick + 1).toNat) [])
        (due ++ w.cascaded.levels 0 (slotOf 0 (w.nowTick + 1).toNat)) := by
  have hslot : w.cascaded.nowTick &&& wheelSlotMask = slotOf 0 (w.nowTick + 1).toNat := by
    rw [nowTick_cascaded, ← slot_eq _ (show 0 < wheelLevels by decide)]
    show _ = ((w.nowTick + 1) >>> 0) &&& wheelSlotMask
    rw [UInt64.shiftRight_zero]
  rw [← hslot]
  rfl

theorem nowTick_tick (w : Wheel κ) (hlast : w.nowTick.toNat + 1 < 2 ^ 64) :
    (w.cascaded.setBucket 0 (slotOf 0 (w.nowTick + 1).toNat) []).nowTick.toNat =
      w.nowTick.toNat + 1 := by
  show w.cascaded.nowTick.toNat = _
  rw [nowTick_cascaded, UInt64.toNat_add, UInt64.toNat_one, Nat.mod_eq_of_lt hlast]

theorem nowTick_tickLoop : ∀ n (w : Wheel κ) (due : List (WheelTimer κ)),
    w.nowTick.toNat + n < 2 ^ 64 → (tickLoop n w due).2.nowTick.toNat = w.nowTick.toNat + n
  | 0, _, _, _ => rfl
  | n + 1, w, due, hlast => by
    have hnow := nowTick_tick w (by omega)
    rw [tickLoop_succ, nowTick_tickLoop n _ _ (by rw [hnow]; omega), hnow]
    omega

theorem held_tickLoop (n : ℕ) (w : Wheel κ) (due : List (WheelTimer κ)) :
    Multiset.ofList (tickLoop n w due).1 + (tickLoop n w due).2.held =
      Multiset.ofList due + w.held := by
  induction n generalizing w due with
  | zero => rfl
  | succ n ih =>
    have hcascade : w.cascaded.held = w.held :=
      held_cascade [1, 2, 3, 4] (by decide) { w with nowTick := w.nowTick + 1 }
    have hset := held_setBucket (w := w.cascaded) (show 0 < wheelLevels by decide)
      (b := slotOf 0 (w.nowTick + 1).toNat)
      (by rw [toNat_slotOf]; exact Nat.mod_lt _ (by decide)) []
    rw [tickLoop_succ, ih, ← Multiset.coe_add, add_assoc, add_comm (Multiset.ofList _) (held _), hset,
      hcascade]
    exact congrArg _ (add_zero _)

theorem held_sweepOne (w : Wheel κ) (t : WheelTimer κ) : (w.sweepOne t).held = w.held + {t} := by
  unfold sweepOne
  split_ifs
  · exact held_addLocked w t
  · rw [held_overflow, Multiset.coe_singleton]

theorem held_sweepOverflow (w : Wheel κ) : w.sweepOverflow.held = w.held := by
  rw [sweepOverflow_eq, held_foldl held_sweepOne, held, held, Multiset.coe_add, List.append_assoc]
  rfl

/-- What an `Advance` returns is no longer held. -/
theorem held_advance (w : Wheel κ) (nowMs : UInt64) :
    Multiset.ofList (w.advance nowMs).1 + (w.advance nowMs).2.held = w.held := by
  have hloop := held_tickLoop ((w.tickFor nowMs).toNat - w.nowTick.toNat) w []
  rw [← held_sweepOverflow] at hloop
  exact hloop.trans (zero_add _)

/-! ## When the timers come due -/

/-- A timer in a bucket waits for a tick at which it may come due. Above level 0 that is its own
    tick, and it may as well come due one tick later, since a bucket that is emptied at that very
    tick puts it down for the next one. -/
def Parked (w : Wheel κ) (Due : WheelTimer κ → ℕ → Prop) (now l : ℕ) (b : UInt64)
    (t : WheelTimer κ) : Prop :=
  ∃ target, Filed 256 now target l b.toNat ∧ Due t target ∧
    (l ≠ 0 → target = (w.tickFor t.expireAt).toNat ∧ Due t (target + 1))

/-- Every timer in the levels is in a place with `Q`, every one in the overflow list has `O`. -/
structure Placed (w : Wheel κ) (Q : ℕ → UInt64 → WheelTimer κ → Prop) (O : WheelTimer κ → Prop) :
    Prop where
  levels : ∀ l < wheelLevels, ∀ b, ∀ t ∈ w.levels l b, Q l b t
  overflow : ∀ t ∈ w.overflow, O t

section

variable {Q Q' : ℕ → UInt64 → WheelTimer κ → Prop} {O : WheelTimer κ → Prop}

theorem Placed.imp (h : w.Placed Q O)
    (hQ : ∀ l < wheelLevels, ∀ b, ∀ t ∈ w.levels l b, Q l b t → Q' l b t) : w.Placed Q' O :=
  ⟨fun l hl b t ht => hQ l hl b t ht (h.levels l hl b t ht), h.overflow⟩

theorem Placed.setBucket {l : ℕ} {b : UInt64} {B : List (WheelTimer κ)} (h : w.Placed Q O)
    (hB : ∀ t ∈ B, Q l b t) : (w.setBucket l b B).Placed Q O := by
  refine ⟨fun l' hl' b' t ht => ?_, h.overflow⟩
  rw [levels_setBucket] at ht
  split_ifs at ht with hat
  · obtain ⟨rfl, rfl⟩ := hat
    exact hB t ht
  · exact h.levels l' hl' b' t ht

theorem Placed.addLocked (h : w.Placed Q O)
    (hlevel : ∀ l < wheelLevels, (l = 0 ∨ w.nowTick.toNat + 256 ^ l ≤ w.targetOf t) →
      w.targetOf t < w.nowTick.toNat + 256 ^ (l + 1) → Q l (slotOf l (w.targetOf t)) t)
    (hover : w.nowTick.toNat + 256 ^ wheelLevels ≤ w.targetOf t → O t) :
    (w.addLocked t).Placed Q O := by
  rcases w.addLocked_cases t with ⟨l, hl, hlo, hhi, heq⟩ | ⟨hfar, heq⟩
  · rw [heq]
    refine h.setBucket fun t' ht' => ?_
    rcases List.mem_append.mp ht' with ht' | ht'
    · exact h.levels l hl _ t' ht'
    · rw [List.mem_singleton.mp ht']
      exact hlevel l hl hlo hhi
  · rw [heq]
    refine ⟨h.levels, fun t' ht' => ?_⟩
    rcases List.mem_append.mp ht' with ht' | ht'
    · exact h.overflow t' ht'
    · rw [List.mem_singleton.mp ht']
      exact hover hfar

theorem Placed.foldl_addLocked (ts : List (WheelTimer κ)) {w : Wheel κ} (h : w.Placed Q O)
    (hlevel : ∀ t ∈ ts, ∀ l < wheelLevels, (l = 0 ∨ w.nowTick.toNat + 256 ^ l ≤ w.targetOf t) →
      w.targetOf t < w.nowTick.toNat + 256 ^ (l + 1) → Q l (slotOf l (w.targetOf t)) t)
    (hover : ∀ t ∈ ts, w.nowTick.toNat + 256 ^ wheelLevels ≤ w.targetOf t → O t) :
    (ts.foldl Wheel.addLocked w).Placed Q O := by
  induction ts generalizing w with
  | nil => exact h
  | cons t ts ih =>
    have hsame := sameClock_addLocked w t
    refine ih (h.addLocked (hlevel t List.mem_cons_self) (hover t List.mem_cons_self)) ?_ ?_
    · intro t' ht'
      rw [hsame.nowTick, hsame.targetOf]
      exact hlevel t' (List.mem_cons_of_mem _ ht')
    · intro t' ht'
      rw [hsame.nowTick, hsame.targetOf]
      exact hover t' (List.mem_cons_of_mem _ ht')

end

section

variable {Due : WheelTimer κ → ℕ → Prop}

/-- A timer put down for a tick at which it may come due, or one later if that is its own tick. -/
theorem parked_of_due (w : Wheel κ) {l : ℕ} (hdue : Due t (w.targetOf t))
    (hlate : w.nowTick.toNat < (w.tickFor t.expireAt).toNat →
      Due t ((w.tickFor t.expireAt).toNat + 1))
    (hlo : l = 0 ∨ w.nowTick.toNat + 256 ^ l ≤ w.targetOf t)
    (hhi : w.targetOf t < w.nowTick.toNat + 256 ^ (l + 1)) :
    w.Parked Due w.nowTick.toNat l (slotOf l (w.targetOf t)) t := by
  have hlt := lt_targetOf w t
  refine ⟨w.targetOf t, ?_, hdue, fun hl => ?_⟩
  · rw [toNat_slotOf]
    exact .of_lt (by decide) hlt hlo hhi
  · -- above level 0 the distance is more than one tick, so the target is the timer's own tick
    have hfar := hlo.resolve_left hl
    have hpow : 1 < 256 ^ l := Nat.one_lt_pow hl (by decide)
    have hown : w.targetOf t = (w.tickFor t.expireAt).toNat := by
      rw [targetOf] at hfar ⊢
      omega
    rw [hown] at hlt ⊢
    exact ⟨rfl, hlate hlt⟩

/-- Between two calls every timer in the levels is parked, and one in the overflow list may come due
    at any tick from its own on. -/
def Keeps (w : Wheel κ) (Due : WheelTimer κ → ℕ → Prop) : Prop :=
  w.Placed (w.Parked Due w.nowTick.toNat)
    fun t => ∀ tick, (w.tickFor t.expireAt).toNat ≤ tick → Due t tick

theorem Keeps.of_pending (h : w.Keeps Due) (p : Int64) : Wheel.Keeps { w with pending := p } Due :=
  ⟨h.levels, h.overflow⟩

theorem SameClock.parked {w w' : Wheel κ} (h : SameClock w w') : w'.Parked Due = w.Parked Due := by
  funext now l b t
  rw [Parked, Parked, h.tickFor]

theorem Parked.tick {now l : ℕ} {b : UInt64} (h : w.Parked Due now l b t)
    (hslot : 256 ^ l ∣ now + 1 → b ≠ slotOf l (now + 1)) : w.Parked Due (now + 1) l b t := by
  obtain ⟨target, hfiled, hdue⟩ := h
  refine ⟨target, hfiled.tick fun hdvd heq => hslot hdvd ?_, hdue⟩
  exact UInt64.toNat_inj.mp (heq.trans (toNat_slotOf l (now + 1)).symm)

/-- At a boundary of level `k`, a timer in the bucket of the new hand is put down below level `k`,
    for its own tick or for the next one. -/
theorem Parked.spill {now k : ℕ} (hnow : w.nowTick.toNat = now + 1) (hk : k ≠ 0)
    (hdvd : 256 ^ k ∣ now + 1) (h : w.Parked Due now k (slotOf k (now + 1)) t) :
    w.targetOf t < w.nowTick.toNat + 256 ^ k ∧
    ∀ l, (l = 0 ∨ w.nowTick.toNat + 256 ^ l ≤ w.targetOf t) →
      w.targetOf t < w.nowTick.toNat + 256 ^ (l + 1) →
      l < k ∧ w.Parked Due (if l = 0 then now else now + 1) l (slotOf l (w.targetOf t)) t := by
  obtain ⟨target, hfiled, hdue, hlate⟩ := h
  obtain ⟨rfl, hlate⟩ := hlate hk
  obtain ⟨hge, hlt⟩ := hfiled.due (by decide) hdvd (toNat_slotOf k (now + 1))
  have hpow : 1 < 256 ^ k := Nat.one_lt_pow hk (by decide)
  have hnear : w.targetOf t < w.nowTick.toNat + 256 ^ k := by
    rw [targetOf]
    omega
  have hdue' : Due t (w.targetOf t) := by
    rcases hge.lt_or_eq with hlt' | heq
    · rwa [targetOf, max_eq_left (by omega)]
    · rwa [targetOf, max_eq_right (by omega), hnow, heq]
  refine ⟨hnear, fun l hlo hhi => ?_⟩
  have hlk : l < k := by
    rcases hlo with rfl | hlo
    · exact Nat.pos_of_ne_zero hk
    · exact (Nat.pow_lt_pow_iff_right (by decide)).mp (show 256 ^ l < 256 ^ k by omega)
  refine ⟨hlk, ?_⟩
  split_ifs with hl
  · -- at level 0 the old hand has the new timers in reach as well
    subst hl
    have hfiled := Filed.of_lt (r := 256) (by decide) (lt_targetOf w t) (.inl rfl) hhi
    rw [hnow] at hfiled hhi
    refine ⟨w.targetOf t, ?_, hdue', fun h => absurd rfl h⟩
    rw [toNat_slotOf]
    exact hfiled.untick (by decide) (one_dvd _) hhi
  · rw [← hnow]
    exact parked_of_due w hdue' (fun _ => hlate) hlo hhi

/-- In the middle of the tick to `now + 1`: the levels from 1 to `k` have cascaded. -/
def Midway (w : Wheel κ) (Due : WheelTimer κ → ℕ → Prop) (now k : ℕ) : Prop :=
  w.Placed (fun l => w.Parked Due (if l ≠ 0 ∧ l < k then now + 1 else now) l)
    fun t => ∀ tick, (w.tickFor t.expireAt).toNat ≤ tick → Due t tick

theorem Midway.spill {now k : ℕ} (hk : k < wheelLevels) (hk0 : k ≠ 0)
    (hnow : w.nowTick.toNat = now + 1) (hdvd : 256 ^ k ∣ now + 1) (h : w.Midway Due now k) :
    (w.spill k).Midway Due now (k + 1) := by
  have hsame := sameClock_spill w k
  have hbucket : ∀ t ∈ w.levels k (slotOf k (now + 1)),
      w.Parked Due now k (slotOf k (now + 1)) t := by
    intro t ht
    have hparked := h.levels k hk _ t ht
    rwa [if_neg (by omega)] at hparked
  -- without the bucket of the new hand, level `k` has made its step
  have hempty : (w.setBucket k (slotOf k (now + 1)) []).Placed
      (fun l => w.Parked Due (if l ≠ 0 ∧ l < k + 1 then now + 1 else now) l)
      fun t => ∀ tick, (w.tickFor t.expireAt).toNat ≤ tick → Due t tick := by
    refine Placed.imp (h.setBucket nofun) fun l hl b t ht hparked => ?_
    rw [levels_setBucket] at ht
    split_ifs at ht with hat
    · cases ht
    · by_cases hlk : l = k
      · subst hlk
        rw [if_neg (by omega)] at hparked
        rw [if_pos ⟨hk0, Nat.lt_succ_self l⟩]
        exact hparked.tick fun _ heq => hat ⟨rfl, heq⟩
      · have hclock : (if l ≠ 0 ∧ l < k + 1 then now + 1 else now) =
            if l ≠ 0 ∧ l < k then now + 1 else now := by
          split_ifs <;> omega
        rwa [hclock]
  rw [Midway, hsame.parked]
  simp only [hsame.tickFor]
  rw [Wheel.spill, hnow]
  refine hempty.foldl_addLocked _ (fun t ht l hl hlo hhi => ?_) fun t ht hfar => ?_
  · obtain ⟨-, hplaces⟩ := (hbucket t ht).spill hnow hk0 hdvd
    obtain ⟨hlk, hparked⟩ := hplaces l hlo hhi
    have hclock : (if l ≠ 0 ∧ l < k + 1 then now + 1 else now) = if l = 0 then now else now + 1 := by
      split_ifs <;> omega
    rw [hclock]
    exact hparked
  · have hnear := ((hbucket t ht).spill hnow hk0 hdvd).1
    have hpow : 256 ^ k ≤ 256 ^ wheelLevels := Nat.pow_le_pow_right (by decide) hk.le
    change w.nowTick.toNat + 256 ^ wheelLevels ≤ w.targetOf t at hfar
    omega

theorem Midway.cascade {now : ℕ} : ∀ m k {w : Wheel κ}, k + m = wheelLevels → k ≠ 0 →
    w.nowTick.toNat = now + 1 → w.Midway Due now k →
    (w.cascade (List.range' k m)).Midway Due now wheelLevels
  | 0, k, w, hk, _, _, h => by
    rwa [← hk]
  | m + 1, k, w, hk, hk0, hnow, h => by
    have hlt : k < wheelLevels := by omega
    rw [List.range'_succ, cascade_cons w hlt, hnow]
    split_ifs with hdvd
    · have hsame := sameClock_spill w k
      exact Midway.cascade m (k + 1) (by omega) (Nat.succ_ne_zero k) (by rw [hsame.nowTick, hnow])
        (h.spill hlt hk0 hnow hdvd)
    · -- there is no boundary at this level, so there is none above
      refine h.imp fun l hl b t ht hparked => ?_
      by_cases hlk : l ≠ 0 ∧ l < k
      · rw [if_pos hlk] at hparked
        rwa [if_pos ⟨hlk.1, hl⟩]
      · rw [if_neg hlk] at hparked
        split_ifs with hl0
        · refine hparked.tick fun hdvd' => absurd ?_ hdvd
          exact (pow_dvd_pow 256 (by omega)).trans hdvd'
        · exact hparked

theorem Keeps.cascaded (h : w.Keeps Due) (hlast : w.nowTick.toNat + 1 < 2 ^ 64) :
    w.cascaded.Midway Due w.nowTick.toNat wheelLevels := by
  refine Midway.cascade 4 1 rfl (by decide) ?_ ?_
  · show (w.nowTick + 1).toNat = _
    rw [UInt64.toNat_add, UInt64.toNat_one, Nat.mod_eq_of_lt hlast]
  · refine ⟨fun l hl b t ht => ?_, h.overflow⟩
    rw [if_neg (by omega)]
    exact h.levels l hl b t ht

/-- One tick: what is in the bucket of the hand at level 0 comes due, the rest stays parked. -/
theorem Keeps.tick (h : w.Keeps Due) (hlast : w.nowTick.toNat + 1 < 2 ^ 64) :
    (w.cascaded.setBucket 0 (slotOf 0 (w.nowTick + 1).toNat) []).Keeps Due ∧
      ∀ t ∈ w.cascaded.levels 0 (slotOf 0 (w.nowTick + 1).toNat), Due t (w.nowTick.toNat + 1) := by
  have hnext : (w.nowTick + 1).toNat = w.nowTick.toNat + 1 := by
    rw [UInt64.toNat_add, UInt64.toNat_one, Nat.mod_eq_of_lt hlast]
  have hmid := h.cascaded hlast
  have hnow := nowTick_tick w hlast
  rw [hnext] at hnow ⊢
  constructor
  · rw [Keeps, hnow]
    refine Placed.imp (Placed.setBucket hmid nofun) fun l hl b t ht hparked => ?_
    rw [levels_setBucket] at ht
    split_ifs at ht with hat
    · cases ht
    · by_cases hl0 : l = 0
      · subst hl0
        rw [if_neg fun h => h.1 rfl] at hparked
        exact hparked.tick fun _ heq => hat ⟨rfl, heq⟩
      · rwa [if_pos ⟨hl0, hl⟩] at hparked
  · intro t ht
    obtain ⟨target, hfiled, hdue, -⟩ := hmid.levels 0 (by decide) _ t ht
    rw [if_neg fun h => h.1 rfl] at hfiled
    obtain ⟨hge, hlt⟩ := hfiled.due (by decide) (one_dvd _) (toNat_slotOf 0 _)
    rwa [show target = w.nowTick.toNat + 1 by omega] at hdue

/-- The ticks of `Advance`. A timer is returned at a tick at which it may come due. -/
theorem Keeps.tickLoop : ∀ n {w : Wheel κ} (due : List (WheelTimer κ)), w.Keeps Due →
    w.nowTick.toNat + n < 2 ^ 64 →
    (tickLoop n w due).2.Keeps Due ∧
      ∀ t ∈ (tickLoop n w due).1, t ∈ due ∨
        ∃ tick, Due t tick ∧ w.nowTick.toNat < tick ∧ tick ≤ w.nowTick.toNat + n
  | 0, w, due, h, _ => ⟨h, fun _ ht => .inl ht⟩
  | n + 1, w, due, h, hlast => by
    obtain ⟨hkeeps, hdue⟩ := h.tick (by omega)
    have hnow := nowTick_tick w (by omega)
    obtain ⟨hkeeps', hdue'⟩ := Keeps.tickLoop n
      (due ++ w.cascaded.levels 0 (slotOf 0 (w.nowTick + 1).toNat)) hkeeps (by rw [hnow]; omega)
    rw [tickLoop_succ]
    rw [hnow] at hdue'
    refine ⟨hkeeps', fun t ht => ?_⟩
    rcases hdue' t ht with ht | ⟨tick, hd, hlo, hhi⟩
    · rcases List.mem_append.mp ht with ht | ht
      · exact .inl ht
      · exact .inr ⟨_, hdue t ht, Nat.lt_succ_self _, by omega⟩
    · exact .inr ⟨tick, hd, by omega, by omega⟩

theorem tickLoop_frame : ∀ n (w : Wheel κ) (due : List (WheelTimer κ)),
    (tickLoop n w due).2.tickMs = w.tickMs ∧ (tickLoop n w due).2.epochMs = w.epochMs ∧
      (tickLoop n w due).2.pending = w.pending
  | 0, _, _ => ⟨rfl, rfl, rfl⟩
  | n + 1, w, due => by
    have hsame := sameClock_cascade [1, 2, 3, 4] (by decide) { w with nowTick := w.nowTick + 1 }
    obtain ⟨htick, hepoch, hpending⟩ := tickLoop_frame n
      (w.cascaded.setBucket 0 (slotOf 0 (w.nowTick + 1).toNat) [])
      (due ++ w.cascaded.levels 0 (slotOf 0 (w.nowTick + 1).toNat))
    rw [tickLoop_succ]
    exact ⟨htick.trans hsame.tickMs, hepoch.trans hsame.epochMs, hpending.trans hsame.pending⟩

/-- A timer is put down for its own tick or a later one. -/
theorem Keeps.addLocked (h : w.Keeps Due) (hdue : Due t (w.targetOf t))
    (hlate : w.nowTick.toNat < (w.tickFor t.expireAt).toNat →
      Due t ((w.tickFor t.expireAt).toNat + 1))
    (hover : w.nowTick.toNat + 256 ^ wheelLevels ≤ w.targetOf t →
      ∀ tick, (w.tickFor t.expireAt).toNat ≤ tick → Due t tick) : (w.addLocked t).Keeps Due := by
  have hsame := sameClock_addLocked w t
  rw [Keeps, hsame.parked, hsame.nowTick]
  simp only [hsame.tickFor]
  exact Placed.addLocked h (fun l _ hlo hhi => parked_of_due w hdue hlate hlo hhi) hover

theorem Keeps.sweepOne (h : w.Keeps Due)
    (ht : ∀ tick, (w.tickFor t.expireAt).toNat ≤ tick → Due t tick) : (w.sweepOne t).Keeps Due := by
  unfold Wheel.sweepOne
  split_ifs
  · exact h.addLocked (ht _ (le_max_left _ _)) (fun _ => ht _ (Nat.le_succ _)) fun _ => ht
  · refine ⟨h.levels, fun t' ht' => ?_⟩
    rcases List.mem_append.mp ht' with ht' | ht'
    · exact h.overflow t' ht'
    · rw [List.mem_singleton.mp ht']
      exact ht

theorem Keeps.sweepOverflow (h : w.Keeps Due) : w.sweepOverflow.Keeps Due := by
  have hfold : ∀ (ts : List (WheelTimer κ)) (w : Wheel κ), w.Keeps Due →
      (∀ t ∈ ts, ∀ tick, (w.tickFor t.expireAt).toNat ≤ tick → Due t tick) →
      (ts.foldl Wheel.sweepOne w).Keeps Due := by
    intro ts
    induction ts with
    | nil => exact fun w hw _ => hw
    | cons t ts ih =>
      intro w hw hts
      rw [List.foldl_cons]
      refine ih (w.sweepOne t) (hw.sweepOne (hts t List.mem_cons_self)) fun t' ht' => ?_
      rw [(sameClock_sweepOne w t).tickFor]
      exact hts t' (List.mem_cons_of_mem _ ht')
  exact hfold w.overflow _ ⟨h.levels, nofun⟩ h.overflow

theorem advance_frame (w : Wheel κ) (nowMs : UInt64) :
    (w.advance nowMs).2.tickMs = w.tickMs ∧ (w.advance nowMs).2.epochMs = w.epochMs ∧
      (w.advance nowMs).2.pending = w.pending - Int64.ofNat (w.advance nowMs).1.length := by
  obtain ⟨htick, hepoch, hpending⟩ :=
    tickLoop_frame ((w.tickFor nowMs).toNat - w.nowTick.toNat) w []
  have hsame := sameClock_sweepOverflow
    (Wheel.tickLoop ((w.tickFor nowMs).toNat - w.nowTick.toNat) w []).2
  refine ⟨hsame.tickMs.trans htick, hsame.epochMs.trans hepoch, ?_⟩
  rw [← hpending]
  rfl

/-- `Advance` moves the wheel to `nowMs`, unless it is there already. -/
theorem nowTick_advance (w : Wheel κ) (nowMs : UInt64) :
    (w.advance nowMs).2.nowTick.toNat = max w.nowTick.toNat (w.tickFor nowMs).toNat := by
  have hlt := (w.tickFor nowMs).toNat_lt
  have hnow := w.nowTick.toNat_lt
  have hloop := nowTick_tickLoop ((w.tickFor nowMs).toNat - w.nowTick.toNat) w [] (by omega)
  have hsame := sameClock_sweepOverflow
    (Wheel.tickLoop ((w.tickFor nowMs).toNat - w.nowTick.toNat) w []).2
  have hnowTick := congrArg UInt64.toNat hsame.nowTick
  rw [hloop] at hnowTick
  exact hnowTick.trans (by omega)

/-- `Advance` returns timers at ticks at which they may come due. -/
theorem Keeps.advance (h : w.Keeps Due) (nowMs : UInt64) :
    (w.advance nowMs).2.Keeps Due ∧
      ∀ t ∈ (w.advance nowMs).1, ∃ tick, Due t tick ∧ tick ≤ (w.tickFor nowMs).toNat := by
  have hlt := (w.tickFor nowMs).toNat_lt
  have hnow := w.nowTick.toNat_lt
  obtain ⟨hkeeps, hdue⟩ := Keeps.tickLoop ((w.tickFor nowMs).toNat - w.nowTick.toNat) [] h
    (by omega)
  refine ⟨hkeeps.sweepOverflow.of_pending _, fun t ht => ?_⟩
  rcases hdue t ht with ht | ⟨tick, hd, hlo, hhi⟩
  · cases ht
  · exact ⟨tick, hd, by omega⟩

/-- A timer that has to come due by a tick that the wheel has reached is not held. -/
theorem Keeps.not_held (h : w.Keeps Due) (hdue : ∀ tick, Due t tick → tick ≤ w.nowTick.toNat) :
    t ∉ w.held := by
  intro ht
  rcases mem_held.mp ht with ⟨l, hl, b, hb, ht⟩ | ht
  · have hparked : w.Parked Due w.nowTick.toNat l (UInt64.ofNat b) t := h.levels l hl _ t ht
    obtain ⟨target, hfiled, hd, -⟩ := hparked
    exact absurd hfiled.lt (not_lt.mpr (hdue target hd))
  · have hlate := hdue _ (h.overflow t ht _ (Nat.le_add_right _ (w.nowTick.toNat + 1)))
    omega

theorem newWheel_keeps (tick epochMs : UInt64) (Due : WheelTimer κ → ℕ → Prop) :
    (newWheel tick epochMs).Keeps Due :=
  ⟨fun _ _ _ _ ht => absurd ht List.not_mem_nil, fun _ ht => absurd ht List.not_mem_nil⟩

end

end Wheel

end KvStore
