import Mathlib

/-!
# Sums over parts of association lists

* `sum_kerase`: the summand of one key, taken out of a sum.
* `filter_kerase`, `dlookup_filter`: the part of a list whose keys satisfy a predicate.
-/

namespace KvStore.Common

variable {α : Type*} {β : α → Type*} {k : α} {p : α → Bool}

theorem notMem_keys_filter (hk : p k = false) (l : List (Sigma β)) :
    k ∉ (l.filter fun x => p x.1).keys := by
  intro hmem
  obtain ⟨x, hx, rfl⟩ := List.mem_map.mp hmem
  have hp := List.of_mem_filter hx
  rw [hk] at hp
  cases hp

variable [DecidableEq α]

theorem sum_kerase {M : Type*} [AddCommMonoid M] (f : Sigma β → M) (k : α) (l : List (Sigma β)) :
    (l.map f).sum = ((l.dlookup k).elim 0 fun v => f ⟨k, v⟩) + ((l.kerase k).map f).sum := by
  induction l with
  | nil => simp
  | cons x l ih =>
    by_cases hk : k = x.1
    · subst hk
      rw [List.kerase_cons_eq rfl, List.map_cons, List.sum_cons]
      exact congrArg (· + _) (congrArg (fun o : Option (β x.1) => o.elim 0 fun v => f ⟨x.1, v⟩)
        (List.dlookup_cons_eq l x.1 x.2)).symm
    · rw [List.dlookup_cons_ne _ _ hk, List.kerase_cons_ne hk, List.map_cons, List.sum_cons,
        List.map_cons, List.sum_cons, ih, add_left_comm]

theorem filter_kerase (p : α → Bool) (k : α) (l : List (Sigma β)) :
    (l.kerase k).filter (fun x => p x.1) = (l.filter fun x => p x.1).kerase k := by
  induction l with
  | nil => rfl
  | cons x l ih =>
    rw [List.filter_cons]
    by_cases hk : k = x.1
    · rw [List.kerase_cons_eq hk]
      split_ifs with hp
      · rw [List.kerase_cons_eq hk]
      · exact (List.kerase_of_notMem_keys (notMem_keys_filter (by simpa [hk] using hp) l)).symm
    · rw [List.kerase_cons_ne hk, List.filter_cons]
      split_ifs
      · rw [List.kerase_cons_ne hk, ih]
      · exact ih

theorem dlookup_filter (hk : p k = true) (l : List (Sigma β)) :
    (l.filter fun x => p x.1).dlookup k = l.dlookup k := by
  induction l with
  | nil => rfl
  | cons x l ih =>
    rw [List.filter_cons]
    by_cases hkx : k = x.1
    · subst hkx
      rw [if_pos hk]
      exact (List.dlookup_cons_eq _ x.1 x.2).trans (List.dlookup_cons_eq _ x.1 x.2).symm
    · rw [List.dlookup_cons_ne _ _ hkx]
      split_ifs
      · rw [List.dlookup_cons_ne _ _ hkx, ih]
      · exact ih

end KvStore.Common
