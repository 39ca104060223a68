import KvStore.Common.Bytes

/-!
# Slot arrays

A flat array of objects each of which caches its own position as an `int32`, with
removal by swapping the last element into the freed position. `SlotArray.Holds`
says that the cached positions are right; this already makes the array free of
duplicates.

* `SlotArray.Holds.push`: appending a new object, below `2^31` of them.
* `SlotArray.Holds.remove`: swap-with-last removal.
* `SlotArray.Holds.mem_remove`, `SlotArray.Holds.perm_remove`: removal takes out
  exactly the given object.
-/

namespace KvStore.Common

variable {α : Type}

/-- Every element of `l` caches its own position. -/
def Indexed (idx : α → ℤ) (l : List α) : Prop := ∀ (j : ℕ) (a : α), l[j]? = some a → idx a = j

/-- The array and the position each object caches. -/
structure SlotArray (α : Type) where
  items : List α
  pos : α → ℤ

/-- `l[i] = l[len(l)-1]; l = l[:len(l)-1]`. -/
def swapRemove (l : List α) (i : ℕ) : List α :=
  match l.getLast? with
  | none => []
  | some x => (l.set i x).take (l.length - 1)

namespace SlotArray

variable [DecidableEq α]

/-- Append `e`, which caches the old length. -/
def push (a : SlotArray α) (e : α) : SlotArray α :=
  ⟨a.items ++ [e], Function.update a.pos e (int32 a.items.length)⟩

/-- `e` caches "not present". -/
def forget (a : SlotArray α) (e : α) : SlotArray α :=
  { a with pos := Function.update a.pos e (-1) }

/-- If the position `i` that `e` caches is in range, move the last element to `i`,
    let it cache `i`, shorten the array and let `e` cache "not present". -/
def remove (a : SlotArray α) (e : α) : SlotArray α :=
  if 0 ≤ a.pos e ∧ a.pos e < a.items.length then
    match a.items.getLast? with
    | some x =>
      ({ items := swapRemove a.items (a.pos e).toNat,
         pos := Function.update a.pos x (a.pos e) } : SlotArray α).forget e
    | none => a
  else a

/-- Every object of the array caches its position. -/
def Holds (a : SlotArray α) : Prop := Indexed a.pos a.items

end SlotArray

/-! ## Cached positions -/

theorem Indexed.nil (idx : α → ℤ) : Indexed idx [] := by
  intro j a h; simp at h

theorem Indexed.congr {idx idx' : α → ℤ} {l : List α} (h : Indexed idx l)
    (he : ∀ a ∈ l, idx' a = idx a) : Indexed idx' l := by
  intro j a hj
  rw [he a (List.mem_of_getElem? hj)]
  exact h j a hj

/-- Two positions holding the same element are the same position. -/
theorem Indexed.inj {idx : α → ℤ} {l : List α} (h : Indexed idx l) {i j : ℕ} {a : α}
    (hi : l[i]? = some a) (hj : l[j]? = some a) : i = j := by
  have h1 := h i a hi
  rw [h j a hj] at h1
  exact_mod_cast h1.symm

theorem Indexed.nodup {idx : α → ℤ} {l : List α} (h : Indexed idx l) : l.Nodup := by
  rw [List.nodup_iff_injective_get]
  intro i j hij
  exact Fin.ext (h.inj (List.getElem?_eq_getElem i.2)
    ((List.getElem?_eq_getElem j.2).trans (congrArg some hij.symm)))

/-- An element sits at the position it caches. -/
theorem Indexed.exists_pos {idx : α → ℤ} {l : List α} (h : Indexed idx l) {a : α} (ha : a ∈ l) :
    ∃ i : ℕ, i < l.length ∧ idx a = i ∧ l[i]? = some a := by
  obtain ⟨i, hi⟩ := List.mem_iff_getElem?.mp ha
  exact ⟨i, (List.getElem?_eq_some_iff.mp hi).1, h i a hi, hi⟩

theorem Indexed.push {idx : α → ℤ} {l : List α} {a : α} (h : Indexed idx l)
    (ha : idx a = l.length) : Indexed idx (l ++ [a]) := by
  intro j b hj
  rcases lt_trichotomy j l.length with hlt | rfl | hgt
  · rw [List.getElem?_append_left hlt] at hj; exact h j b hj
  · simp at hj; rw [← hj]; exact ha
  · rw [List.getElem?_eq_none (by simp; omega)] at hj; cases hj

/-! ## Swap-with-last removal -/

@[simp] theorem length_swapRemove (l : List α) (i : ℕ) :
    (swapRemove l i).length = l.length - 1 := by
  unfold swapRemove
  cases hl : l.getLast? with
  | none => simp [List.getLast?_eq_none_iff.mp hl]
  | some x => simp

/-- What sits at each position after the removal of position `i`. -/
theorem getElem?_swapRemove (l : List α) {i j : ℕ} (hi : i < l.length) (hj : j < l.length - 1) :
    (swapRemove l i)[j]? = if i = j then l.getLast? else l[j]? := by
  unfold swapRemove
  cases hl : l.getLast? with
  | none => simp [List.getLast?_eq_none_iff.mp hl] at hi
  | some x =>
    simp only [List.getElem?_take, hj, ite_true, List.getElem?_set]
    split_ifs with h
    · rfl
    · rfl

theorem mem_swapRemove {l : List α} (hnd : l.Nodup) {i : ℕ} {a b : α} (hi : l[i]? = some a) :
    b ∈ swapRemove l i ↔ b ∈ l ∧ b ≠ a := by
  have hlt : i < l.length := (List.getElem?_eq_some_iff.mp hi).1
  have pos : ∀ {p q : ℕ} {c : α}, l[p]? = some c → l[q]? = some c → p = q := by
    intro p q c hp hq
    obtain ⟨h1, e1⟩ := List.getElem?_eq_some_iff.mp hp
    obtain ⟨h2, e2⟩ := List.getElem?_eq_some_iff.mp hq
    exact (List.Nodup.getElem_inj_iff hnd).mp (e1.trans e2.symm)
  rw [List.mem_iff_getElem?]
  constructor
  · rintro ⟨j, hj⟩
    have hjl : j < l.length - 1 := by
      have := (List.getElem?_eq_some_iff.mp hj).1
      rwa [length_swapRemove] at this
    rw [getElem?_swapRemove l hlt hjl, List.getLast?_eq_getElem?] at hj
    split_ifs at hj with h
    · refine ⟨List.mem_of_getElem? hj, ?_⟩
      rintro rfl
      have := pos hj hi
      omega
    · refine ⟨List.mem_of_getElem? hj, ?_⟩
      rintro rfl
      exact h (pos hi hj)
  · rintro ⟨hb, hne⟩
    obtain ⟨j, hj⟩ := List.mem_iff_getElem?.mp hb
    have hjl : j < l.length := (List.getElem?_eq_some_iff.mp hj).1
    have hij : i ≠ j := by
      rintro rfl
      rw [hi] at hj
      exact hne (Option.some.inj hj).symm
    -- The last element now sits at `i`; every other one has stayed where it was.
    by_cases hlast : j = l.length - 1
    · refine ⟨i, ?_⟩
      rw [getElem?_swapRemove l hlt (by omega), List.getLast?_eq_getElem?, if_pos rfl, ← hlast]
      exact hj
    · refine ⟨j, ?_⟩
      rw [getElem?_swapRemove l hlt (by omega), if_neg hij]
      exact hj

/-- Removing position `i` and caching `i` in the moved element keeps the cached
    positions right. -/
theorem Indexed.swapRemove {idx idx' : α → ℤ} {l : List α} (h : Indexed idx l) {i : ℕ} {a x : α}
    (hi : l[i]? = some a) (hx : l.getLast? = some x) (hxi : x ≠ a → idx' x = i)
    (he : ∀ b, b ≠ x → b ≠ a → idx' b = idx b) : Indexed idx' (swapRemove l i) := by
  intro j b hj
  have hlt : i < l.length := (List.getElem?_eq_some_iff.mp hi).1
  have hjl : j < l.length - 1 := by
    have := (List.getElem?_eq_some_iff.mp hj).1
    rwa [length_swapRemove] at this
  have hba := ((mem_swapRemove h.nodup hi).mp (List.mem_of_getElem? hj)).2
  rw [getElem?_swapRemove l hlt hjl] at hj
  split_ifs at hj with hij
  · rw [hx] at hj
    cases hj
    rw [hxi hba, hij]
  · have hbx : b ≠ x := by
      rintro rfl
      have := h.inj hj (List.getLast?_eq_getElem?.symm.trans hx)
      omega
    rw [he b hbx hba]
    exact h j b hj

/-! ## The operations of a slot array -/

namespace SlotArray

variable [DecidableEq α] {a : SlotArray α} {e b : α}

@[simp] theorem items_push (a : SlotArray α) (e : α) : (a.push e).items = a.items ++ [e] := rfl

@[simp] theorem items_forget (a : SlotArray α) (e : α) : (a.forget e).items = a.items := rfl

omit [DecidableEq α] in
theorem Holds.nodup (h : a.Holds) : a.items.Nodup := Indexed.nodup h

theorem Holds.forget (h : a.Holds) (he : e ∉ a.items) : (a.forget e).Holds :=
  h.congr fun _ hb => Function.update_of_ne (ne_of_mem_of_not_mem hb he) _ _

theorem Holds.push (h : a.Holds) (he : e ∉ a.items) (hlen : a.items.length < 2 ^ 31) :
    (a.push e).Holds := by
  refine Indexed.push (h.congr fun b hb => ?_) ?_
  · exact Function.update_of_ne (ne_of_mem_of_not_mem hb he) _ _
  · show Function.update a.pos e _ e = _
    rw [Function.update_self, int32_eq (by omega) (by omega)]

theorem pos_push_of_ne (hb : b ≠ e) : (a.push e).pos b = a.pos b := Function.update_of_ne hb _ _

@[simp] theorem pos_forget_self (a : SlotArray α) (e : α) : (a.forget e).pos e = -1 :=
  Function.update_self _ _ _

theorem pos_forget_of_ne (hb : b ≠ e) : (a.forget e).pos b = a.pos b :=
  Function.update_of_ne hb _ _

/-- The removal of a member, with the position `i` and the last element `x` named. -/
theorem Holds.remove_eq (h : a.Holds) (he : e ∈ a.items) :
    ∃ (i : ℕ) (x : α), a.items[i]? = some e ∧ a.items.getLast? = some x ∧ a.pos e = i ∧
      a.remove e = ({ items := swapRemove a.items i, pos := Function.update a.pos x i } :
        SlotArray α).forget e := by
  obtain ⟨i, hi, hpos, hget⟩ := h.exists_pos he
  have hne : a.items ≠ [] := List.ne_nil_of_mem he
  refine ⟨i, a.items.getLast hne, hget, List.getLast?_eq_some_getLast hne, hpos, ?_⟩
  unfold SlotArray.remove
  rw [hpos, if_pos ⟨by omega, by omega⟩, List.getLast?_eq_some_getLast hne]
  rfl

theorem Holds.remove (h : a.Holds) (he : e ∈ a.items) : (a.remove e).Holds := by
  obtain ⟨i, x, hi, hx, hpos, heq⟩ := h.remove_eq he
  rw [heq]
  refine Indexed.swapRemove h hi hx (fun hxe => ?_) (fun b hbx hbe => ?_)
  · rw [pos_forget_of_ne hxe]; exact Function.update_self _ _ _
  · rw [pos_forget_of_ne hbe]; exact Function.update_of_ne hbx _ _

theorem Holds.mem_remove (h : a.Holds) (he : e ∈ a.items) :
    b ∈ (a.remove e).items ↔ b ∈ a.items ∧ b ≠ e := by
  obtain ⟨i, x, hi, -, -, heq⟩ := h.remove_eq he
  rw [heq]
  exact mem_swapRemove h.nodup hi

theorem Holds.perm_remove (h : a.Holds) (he : e ∈ a.items) :
    a.items.Perm (e :: (a.remove e).items) := by
  have hnd : (e :: (a.remove e).items).Nodup :=
    List.nodup_cons.mpr ⟨fun hc => ((h.mem_remove he).mp hc).2 rfl, (h.remove he).nodup⟩
  refine (List.perm_ext_iff_of_nodup h.nodup hnd).mpr fun b => ?_
  rw [List.mem_cons, h.mem_remove he]
  by_cases hb : b = e <;> simp [hb, he]

theorem Holds.length_remove (h : a.Holds) (he : e ∈ a.items) :
    (a.remove e).items.length + 1 = a.items.length := by
  rw [(h.perm_remove he).length_eq, List.length_cons]

/-- Removing the object at position `j`, from where on all objects have `P`: afterwards those
    from `j` on have it. -/
theorem Holds.forall_from_remove {P : α → Prop} {j : ℕ} (h : a.Holds) (hj : a.items[j]? = some e)
    (hP : ∀ (i : ℕ) (b : α), j < i → a.items[i]? = some b → P b) :
    ∀ (i : ℕ) (b : α), j ≤ i → (a.remove e).items[i]? = some b → P b := by
  intro i b hji hi
  obtain ⟨i', x, hget, -, -, heq⟩ := h.remove_eq (List.mem_of_getElem? hj)
  obtain rfl := Indexed.inj h hget hj
  have hlt : i' < a.items.length := (List.getElem?_eq_some_iff.mp hget).1
  rw [heq, items_forget] at hi
  have hil : i < a.items.length - 1 := by
    have := (List.getElem?_eq_some_iff.mp hi).1
    rwa [length_swapRemove] at this
  rw [getElem?_swapRemove _ hlt hil] at hi
  split_ifs at hi with hii
  · rw [List.getLast?_eq_getElem?] at hi
    exact hP _ b (by omega) hi
  · exact hP i b (by omega) hi

theorem Holds.pos_remove_self (h : a.Holds) (he : e ∈ a.items) : (a.remove e).pos e = -1 := by
  obtain ⟨i, x, -, -, -, heq⟩ := h.remove_eq he
  rw [heq]; exact pos_forget_self _ e

/-- Removing an object at or behind position `n`, or from an array no longer than `n`, moves
    nothing into the first `n` positions. -/
theorem Holds.mem_take_remove (h : a.Holds) (he : e ∈ a.items) {n : ℕ}
    (hn : (n : ℤ) ≤ a.pos e ∨ a.items.length ≤ n) (hb : b ∈ (a.remove e).items.take n) :
    b ∈ a.items.take n := by
  rcases hn with hn | hn
  · obtain ⟨i, x, hi, -, hpos, heq⟩ := h.remove_eq he
    have hlt : i < a.items.length := (List.getElem?_eq_some_iff.mp hi).1
    rw [heq] at hb
    obtain ⟨j, hj⟩ := List.mem_iff_getElem?.mp hb
    have hjn : j < n := by
      have := (List.getElem?_eq_some_iff.mp hj).1
      rw [List.length_take] at this
      omega
    rw [List.getElem?_take_of_lt hjn] at hj
    have hjl : j < a.items.length - 1 := by
      have := (List.getElem?_eq_some_iff.mp hj).1
      rwa [items_forget, length_swapRemove] at this
    rw [items_forget, getElem?_swapRemove _ hlt hjl, if_neg (by omega)] at hj
    exact List.mem_iff_getElem?.mpr ⟨j, by rw [List.getElem?_take_of_lt hjn]; exact hj⟩
  · rw [List.take_of_length_le hn]
    exact ((h.mem_remove he).mp (List.mem_of_mem_take hb)).1

/-- Objects outside the array keep what they cache. -/
theorem Holds.pos_remove_of_not_mem (h : a.Holds) (he : e ∈ a.items) (hb : b ∉ a.items) :
    (a.remove e).pos b = a.pos b := by
  obtain ⟨i, x, -, hx, -, heq⟩ := h.remove_eq he
  have hxm : x ∈ a.items := List.mem_of_getLast? hx
  rw [heq, pos_forget_of_ne (ne_of_mem_of_not_mem he hb).symm]
  exact Function.update_of_ne (ne_of_mem_of_not_mem hxm hb).symm _ _

/-- The array gets shorter whenever the cached position is in range. -/
theorem length_remove_of_inRange (h : 0 ≤ a.pos e ∧ a.pos e < a.items.length) :
    (a.remove e).items.length = a.items.length - 1 := by
  unfold SlotArray.remove
  rw [if_pos h]
  cases hl : a.items.getLast? with
  | none => rw [List.getLast?_eq_none_iff] at hl; rw [hl] at h; simp at h; omega
  | some x => exact length_swapRemove _ _

/-- An object that caches "not present" is left alone. -/
theorem remove_of_neg (h : a.pos e < 0) : a.remove e = a := by
  unfold SlotArray.remove
  rw [if_neg (by omega)]

end SlotArray

end KvStore.Common
