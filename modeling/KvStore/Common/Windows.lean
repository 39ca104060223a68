import Mathlib

/-!
# Batches of a filtered list

A scan takes the elements of a list that satisfy `p` in batches of `w`. The `m`-th batch begins at
position `w * m`, but it is filled from as far behind as it takes. So it can reach beyond its window
of `w` positions, and then the next batches begin with elements that were already taken.

* `batches_eq_filter`: with windows that are aligned, the batches are the filtered list.
* `batches_nodup_iff`: no element is taken twice if and only if they are.
-/

namespace KvStore.Common

variable {α : Type} {w : ℕ} {p : α → Bool} {l : List α}

/-- The batch that begins at position `w * m`. -/
def batchAt (w : ℕ) (p : α → Bool) (l : List α) (m : ℕ) : List α :=
  ((l.drop (w * m)).filter p).take w

/-- All batches; those behind the end of the list are empty. -/
def batches (w : ℕ) (p : α → Bool) (l : List α) : List α :=
  (List.range l.length).flatMap (batchAt w p l)

/-- Behind a window with an element that is left out, all elements are. -/
def WindowsAligned (w : ℕ) (p : α → Bool) (l : List α) : Prop :=
  ∀ m, (∃ x ∈ (l.drop (w * m)).take w, p x = false) → ∀ x ∈ l.drop (w * m + w), p x = false

/-- However many batches are counted, if they reach the end of the list. -/
theorem flatMap_batchAt (hw : 0 < w) {n : ℕ} (hn : l.length ≤ w * n) :
    (List.range n).flatMap (batchAt w p l) = batches w p l := by
  have hmore : ∀ a d, l.length ≤ w * a →
      (List.range (a + d)).flatMap (batchAt w p l) = (List.range a).flatMap (batchAt w p l) := by
    intro a d ha
    induction d with
    | zero => rfl
    | succ d ih =>
      have hle : l.length ≤ w * (a + d) := ha.trans (Nat.mul_le_mul_left _ (Nat.le_add_right a d))
      have hempty : batchAt w p l (a + d) = [] := by
        rw [batchAt, List.drop_eq_nil_of_le hle, List.filter_nil, List.take_nil]
      rw [← Nat.add_assoc, List.range_succ, List.flatMap_append, ih, List.flatMap_singleton,
        hempty, List.append_nil]
  rw [batches, ← hmore l.length n (Nat.le_mul_of_pos_left _ hw), Nat.add_comm, hmore n _ hn]

/-! ## Aligned windows -/

/-- A batch is filled from its window alone. -/
theorem WindowsAligned.batchAt_eq (h : WindowsAligned w p l) (m : ℕ) :
    batchAt w p l m = ((l.drop (w * m)).take w).filter p := by
  rw [batchAt]
  have hsplit := List.take_append_drop w (l.drop (w * m))
  have hlen := List.length_take_le w (l.drop (w * m))
  have hshort : ((l.drop (w * m)).take w).length ≠ w → (l.drop (w * m)).drop w = [] := by
    rw [List.length_take, List.drop_eq_nil_iff]
    omega
  have hbehind := h m
  rw [← List.drop_drop] at hbehind
  generalize (l.drop (w * m)).take w = window at *
  generalize (l.drop (w * m)).drop w = behind at *
  rw [← hsplit, List.filter_append]
  by_cases hout : ∃ x ∈ window, p x = false
  · have hnone : behind.filter p = [] :=
      List.filter_eq_nil_iff.mpr fun x hx => by simp [hbehind hout x hx]
    rw [hnone, List.append_nil, List.take_of_length_le]
    exact (List.length_filter_le _ _).trans hlen
  · have hall : window.filter p = window :=
      List.filter_eq_self.mpr fun x hx => by simpa using fun hx' => hout ⟨x, hx, hx'⟩
    rw [hall]
    by_cases hfull : window.length = w
    · exact List.take_left' hfull
    · rw [hshort hfull, List.filter_nil, List.append_nil, List.take_of_length_le hlen]

theorem batches_eq_filter (hw : 0 < w) (h : WindowsAligned w p l) :
    batches w p l = l.filter p := by
  have hpassed : ∀ n, (List.range n).flatMap (batchAt w p l) = (l.take (w * n)).filter p := by
    intro n
    induction n with
    | zero => simp
    | succ n ih =>
      rw [List.range_succ, List.flatMap_append, ih, List.flatMap_singleton, h.batchAt_eq,
        Nat.mul_succ, List.take_add, List.filter_append]
  rw [batches, hpassed, List.take_of_length_le (Nat.le_mul_of_pos_left _ hw)]

/-! ## Elements taken twice -/

/-- The first element that is taken behind a window is taken with its own window. -/
theorem mem_batchAt_later {m : ℕ} {x : α} (hw : 0 < w)
    (hx : (l.drop (w * m + w)).find? p = some x) :
    ∃ m', m < m' ∧ m' < l.length ∧ x ∈ batchAt w p l m' := by
  obtain ⟨hpx, before, behind, hrest, hbefore⟩ := List.find?_eq_some_iff_append.mp hx
  have hlen : w * m + w + before.length < l.length := by
    have hsum := congrArg List.length hrest
    rw [List.length_drop, List.length_append, List.length_cons] at hsum
    omega
  -- the window in which it is
  obtain ⟨m', hm'⟩ : ∃ m', m' = (w * m + w + before.length) / w := ⟨_, rfl⟩
  have hle : w * m' ≤ w * m + w + before.length := hm' ▸ Nat.mul_div_le _ w
  have hlt : m + 1 ≤ m' := by
    rw [hm', Nat.le_div_iff_mul_le hw]
    calc (m + 1) * w = w * m + w := by ring
      _ ≤ _ := Nat.le_add_right _ _
  have hge : w * m + w ≤ w * m' := by
    calc w * m + w = w * (m + 1) := by ring
      _ ≤ w * m' := Nat.mul_le_mul_left _ hlt
  refine ⟨m', hlt, ?_, ?_⟩
  · have := Nat.le_mul_of_pos_left m' hw
    omega
  · have hdrop : l.drop (w * m') = before.drop (w * m' - (w * m + w)) ++ x :: behind := by
      rw [← Nat.add_sub_cancel' hge, ← List.drop_drop, hrest, Nat.add_sub_cancel_left,
        List.drop_append_of_le_length (by omega)]
    have hnone : (before.drop (w * m' - (w * m + w))).filter p = [] :=
      List.filter_eq_nil_iff.mpr fun y hy => by simpa using hbefore y (List.mem_of_mem_drop hy)
    obtain ⟨v, rfl⟩ : ∃ v, w = v + 1 := ⟨w - 1, by omega⟩
    rw [batchAt, hdrop, List.filter_append, hnone, List.nil_append, List.filter_cons_of_pos hpx,
      List.take_succ_cons]
    exact List.mem_cons_self

/-- It is also taken with the window before, if there is a place left. -/
theorem mem_batchAt_earlier {m : ℕ} {x : α} (hout : ∃ y ∈ (l.drop (w * m)).take w, p y = false)
    (hx : (l.drop (w * m + w)).find? p = some x) : x ∈ batchAt w p l m := by
  obtain ⟨y, hy, hyout⟩ := hout
  have hless : (((l.drop (w * m)).take w).filter p).length < ((l.drop (w * m)).take w).length :=
    List.length_filter_lt_length_iff_exists.mpr ⟨y, hy, by simp [hyout]⟩
  have hlen := List.length_take_le w (l.drop (w * m))
  obtain ⟨rest, hrest⟩ := List.head?_eq_some_iff.mp ((List.head?_filter ..).trans hx)
  obtain ⟨d, hd⟩ : ∃ d, w - (((l.drop (w * m)).take w).filter p).length = d + 1 :=
    ⟨_, (Nat.succ_pred_eq_of_pos (by omega)).symm⟩
  rw [batchAt, ← List.take_append_drop w (l.drop (w * m)), List.drop_drop, List.filter_append, hrest,
    List.take_append, hd, List.take_succ_cons]
  exact List.mem_append_right _ List.mem_cons_self

theorem batches_nodup_iff (hw : 0 < w) (hl : l.Nodup) :
    (batches w p l).Nodup ↔ WindowsAligned w p l := by
  refine ⟨fun hnodup m hout => ?_, fun h => by rw [batches_eq_filter hw h]; exact hl.filter _⟩
  by_contra hin
  obtain ⟨x, hx⟩ : ∃ x, (l.drop (w * m + w)).find? p = some x := by
    rw [← Option.isSome_iff_exists, List.find?_isSome]
    simpa using hin
  obtain ⟨m', hlt, hlen, hlater⟩ := mem_batchAt_later hw hx
  have hearlier := mem_batchAt_earlier hout hx
  obtain ⟨-, hdisjoint⟩ := List.nodup_flatMap.mp hnodup
  have hboth := List.pairwise_iff_getElem.mp hdisjoint m m' (by simpa using hlt.trans hlen)
    (by simpa using hlen) hlt
  rw [List.getElem_range, List.getElem_range] at hboth
  exact hboth hearlier hlater

end KvStore.Common
