import Mathlib

/-!
# Intrusive doubly-linked lists

The `next` and `prev` fields of all objects, seen as two functions, together with
the `head` and `tail` pointers. `Links.Holds d l` says that `d` is a well-formed
doubly-linked list of exactly the objects `l`, front to back.

* `Links.Holds.pushFront`, `Links.Holds.remove`: the two pointer surgeries act as
  `cons` and `erase` on the represented list.
* `Links.Holds.path_next`, `Links.Holds.path_prev`: walking `next` from `head`
  visits `l`, walking `prev` from `tail` visits `l.reverse`.
-/

namespace KvStore.Common

variable {α : Type}

/-- Following `f` from `p` visits exactly the objects of the list and then ends. -/
def Path (f : α → Option α) : Option α → List α → Prop
  | none, [] => True
  | some a, b :: l => a = b ∧ Path f (f b) l
  | _, _ => False

/-- The link fields of all objects and the two end pointers. -/
structure Links (α : Type) where
  next : α → Option α
  prev : α → Option α
  head : Option α
  tail : Option α

/-- The objects of the list are linked in order; `b` is the predecessor of the
    first and `e` the successor of the last. -/
def Linked (next prev : α → Option α) : Option α → Option α → List α → Prop
  | _, _, [] => True
  | b, e, a :: l => prev a = b ∧ next a = l.head?.or e ∧ Linked next prev (some a) e l

/-- `d` is a well-formed doubly-linked list of the objects `l`, front to back. -/
structure Links.Holds (d : Links α) (l : List α) : Prop where
  nodup : l.Nodup
  head : d.head = l.head?
  tail : d.tail = l.getLast?
  linked : Linked d.next d.prev none none l

/-! ## Segments -/

theorem Linked.congr {next prev next' prev' : α → Option α} {b e : Option α} {l : List α}
    (h : Linked next prev b e l) (hn : ∀ a ∈ l, next' a = next a)
    (hp : ∀ a ∈ l, prev' a = prev a) : Linked next' prev' b e l := by
  induction l generalizing b with
  | nil => trivial
  | cons a l ih =>
    obtain ⟨h1, h2, h3⟩ := h
    refine ⟨(hp a (by simp)).trans h1, (hn a (by simp)).trans h2, ih h3 ?_ ?_⟩
    · exact fun x hx => hn x (by simp [hx])
    · exact fun x hx => hp x (by simp [hx])

theorem linked_append {next prev : α → Option α} {b e : Option α} {u v : List α} :
    Linked next prev b e (u ++ v) ↔
      Linked next prev b (v.head?.or e) u ∧ Linked next prev (u.getLast?.or b) e v := by
  induction u generalizing b with
  | nil => simp [Linked]
  | cons a u ih =>
    simp only [List.cons_append, Linked, ih, List.head?_append]
    rw [List.getLast?_cons, Option.or_assoc]
    cases hu : u.getLast? <;> simp [and_assoc]

/-- Redirecting the successor of the last object. -/
theorem Linked.set_end [DecidableEq α] {next prev : α → Option α} {b e c : Option α}
    {u : List α} {z : α} (h : Linked next prev b e (u ++ [z])) (hz : z ∉ u) :
    Linked (Function.update next z c) prev b c (u ++ [z]) := by
  rw [linked_append] at h ⊢
  obtain ⟨h1, h2, -⟩ := h
  refine ⟨?_, h2, by simp, trivial⟩
  refine h1.congr (fun a ha => ?_) (fun _ _ => rfl)
  exact Function.update_of_ne (ne_of_mem_of_not_mem ha hz) _ _

/-- Redirecting the predecessor of the first object. -/
theorem Linked.set_begin [DecidableEq α] {next prev : α → Option α} {b c e : Option α}
    {v : List α} {z : α} (h : Linked next prev b e (z :: v)) (hz : z ∉ v) :
    Linked next (Function.update prev z c) c e (z :: v) := by
  obtain ⟨-, h2, h3⟩ := h
  refine ⟨by simp, h2, h3.congr (fun _ _ => rfl) (fun a ha => ?_)⟩
  exact Function.update_of_ne (ne_of_mem_of_not_mem ha hz) _ _

/-! ## Walking the list -/

theorem Linked.path_next {next prev : α → Option α} {b : Option α} {l : List α}
    (h : Linked next prev b none l) : Path next l.head? l := by
  induction l generalizing b with
  | nil => trivial
  | cons a l ih =>
    obtain ⟨-, h2, h3⟩ := h
    refine ⟨rfl, ?_⟩
    rw [h2, Option.or_none]
    exact ih h3

theorem Linked.path_prev {next prev : α → Option α} {e : Option α} {l : List α}
    (h : Linked next prev none e l) : Path prev l.getLast? l.reverse := by
  induction l using List.reverseRecOn generalizing e with
  | nil => trivial
  | append_singleton l a ih =>
    obtain ⟨h1, h2, -⟩ := linked_append.mp h
    rw [List.getLast?_concat, List.reverse_append]
    refine ⟨rfl, ?_⟩
    rw [h2, Option.or_none]
    exact ih h1

theorem Links.Holds.path_next {d : Links α} {l : List α} (h : d.Holds l) :
    Path d.next d.head l := by
  rw [h.head]; exact h.linked.path_next

theorem Links.Holds.path_prev {d : Links α} {l : List α} (h : d.Holds l) :
    Path d.prev d.tail l.reverse := by
  rw [h.tail]; exact h.linked.path_prev

/-- There is one list to be walked. -/
theorem Path.unique {f : α → Option α} {p : Option α} {l l' : List α} (h : Path f p l)
    (h' : Path f p l') : l = l' := by
  induction l generalizing p l' with
  | nil =>
    cases p with
    | none => cases l' with
      | nil => rfl
      | cons b l' => cases h'
    | some a => cases h
  | cons b l ih =>
    cases p with
    | none => cases h
    | some a => cases l' with
      | nil => cases h'
      | cons c l' =>
        obtain ⟨rfl, hl⟩ := h
        obtain ⟨rfl, hl'⟩ := h'
        rw [ih hl hl']

theorem Links.Holds.nil {d : Links α} (hh : d.head = none) (ht : d.tail = none) : d.Holds [] :=
  ⟨List.nodup_nil, hh, ht, trivial⟩

/-- The neighbours of a member. -/
theorem Links.Holds.neighbours {d : Links α} {u v : List α} {e : α}
    (h : d.Holds (u ++ e :: v)) : d.prev e = u.getLast? ∧ d.next e = v.head? := by
  obtain ⟨-, h1, h2, -⟩ := linked_append.mp h.linked
  rw [Option.or_none] at h1 h2
  exact ⟨h1, h2⟩

/-! ## Pointer surgery -/

section Surgery

variable [DecidableEq α]

/-- Insert `e` in front of the list. -/
def Links.pushFront (d : Links α) (e : α) : Links α :=
  let d1 : Links α :=
    { d with prev := Function.update d.prev e none, next := Function.update d.next e d.head }
  let d2 : Links α :=
    match d1.head with
    | some h => { d1 with prev := Function.update d1.prev h (some e) }
    | none => d1
  let d3 : Links α := { d2 with head := some e }
  if d3.tail = none then { d3 with tail := some e } else d3

/-- Unlink `e` and clear its two link fields. -/
def Links.remove (d : Links α) (e : α) : Links α :=
  let d1 : Links α :=
    match d.prev e with
    | some a => { d with next := Function.update d.next a (d.next e) }
    | none => if d.head = some e then { d with head := d.next e } else d
  let d2 : Links α :=
    match d1.next e with
    | some z => { d1 with prev := Function.update d1.prev z (d1.prev e) }
    | none => if d1.tail = some e then { d1 with tail := d1.prev e } else d1
  { d2 with prev := Function.update d2.prev e none, next := Function.update d2.next e none }

/-- Move `e` to the front unless it is already there. -/
def Links.moveToFront (d : Links α) (e : α) : Links α :=
  if d.head = some e then d else (d.remove e).pushFront e

theorem Links.Holds.pushFront {d : Links α} {l : List α} {e : α} (h : d.Holds l) (he : e ∉ l) :
    (d.pushFront e).Holds (e :: l) := by
  have hnd : (e :: l).Nodup := List.nodup_cons.mpr ⟨he, h.nodup⟩
  cases l with
  | nil =>
    have h1 : d.head = none := h.head
    have h2 : d.tail = none := h.tail
    refine ⟨hnd, ?_, ?_, ?_, ?_, trivial⟩ <;> simp [Links.pushFront, h1, h2]
  | cons f l =>
    have h1 : d.head = some f := h.head
    have h2 : d.tail ≠ none := by rw [h.tail]; simp
    have hef : e ≠ f := fun hc => he (by simp [hc])
    have hfl : f ∉ l := (List.nodup_cons.mp h.nodup).1
    have hl : Linked (Function.update d.next e (some f)) (Function.update d.prev e none) none none
        (f :: l) := h.linked.congr
      (fun a ha => Function.update_of_ne (ne_of_mem_of_not_mem ha he) _ _)
      (fun a ha => Function.update_of_ne (ne_of_mem_of_not_mem ha he) _ _)
    refine ⟨hnd, ?_, ?_, ?_⟩
    · simp [Links.pushFront, h1, h2]
    · simp [Links.pushFront, h1, h.tail]
    · simp only [Links.pushFront, h1, h2, ite_false]
      refine ⟨?_, by simp, hl.set_begin hfl⟩
      rw [Function.update_of_ne hef, Function.update_self]

/-- Unlinking a member, the objects before and after it being known. -/
theorem Links.Holds.remove_split {d : Links α} {u v : List α} {e : α}
    (h : d.Holds (u ++ e :: v)) : (d.remove e).Holds (u ++ v) := by
  obtain ⟨hprev, hnext⟩ := h.neighbours
  obtain ⟨hndu, hndv, hdisj⟩ := List.nodup_append.mp h.nodup
  have hnd : (u ++ v).Nodup := h.nodup.sublist (by simp)
  have heu : e ∉ u := fun hc => hdisj e hc e (by simp) rfl
  have hev : e ∉ v := (List.nodup_cons.mp hndv).1
  have hne : ∀ a ∈ u ++ v, a ≠ e := fun a ha => ne_of_mem_of_not_mem ha (by simp [heu, hev])
  obtain ⟨hu, -, -, hv⟩ := linked_append.mp h.linked
  have hhead := h.head
  have htail := h.tail
  -- Whether `e` has a predecessor and a successor decides which pointers move.
  rcases List.eq_nil_or_concat u with rfl | ⟨u, a, rfl⟩ <;> rcases v with _ | ⟨z, v⟩
  · refine .nil ?_ ?_ <;> simp_all [Links.remove]
  · have hz : z ≠ e := hne z (by simp)
    have hrem : d.remove e = ⟨Function.update d.next e none,
        Function.update (Function.update d.prev z none) e none, some z, d.tail⟩ := by
      simp_all [Links.remove]
    rw [hrem]
    refine ⟨hnd, rfl, by simp [htail], ?_⟩
    refine (hv.set_begin (c := none) (List.nodup_cons.mp hnd).1).congr ?_ ?_
    · exact fun b hb => Function.update_of_ne (hne b hb) _ _
    · exact fun b hb => Function.update_of_ne (hne b hb) _ _
  · have ha : a ≠ e := hne a (by simp)
    have hrem : d.remove e = ⟨Function.update (Function.update d.next a none) e none,
        Function.update d.prev e none, d.head, some a⟩ := by
      simp_all [Links.remove]
    rw [hrem]
    refine ⟨hnd, by simp [hhead], by simp, ?_⟩
    rw [List.concat_eq_append] at hu hndu hne ⊢
    rw [List.append_nil]
    have hau : a ∉ u := fun hc => (List.nodup_append.mp hndu).2.2 a hc a (by simp) rfl
    refine (hu.set_end (c := none) hau).congr ?_ ?_
    · exact fun b hb => Function.update_of_ne (hne b (by simpa using hb)) _ _
    · exact fun b hb => Function.update_of_ne (hne b (by simpa using hb)) _ _
  · have ha : a ≠ e := hne a (by simp)
    have hz : z ≠ e := hne z (by simp)
    have haz : a ≠ z := fun hc => hdisj a (by simp) z (by simp) hc
    have hrem : d.remove e = ⟨Function.update (Function.update d.next a (some z)) e none,
        Function.update (Function.update d.prev z (some a)) e none, d.head, d.tail⟩ := by
      simp_all [Links.remove]
    rw [hrem]
    refine ⟨hnd, by simp [hhead], by simp [htail], ?_⟩
    rw [List.concat_eq_append] at hu hndu hnd hne ⊢
    have hau : a ∉ u := fun hc => (List.nodup_append.mp hndu).2.2 a hc a (by simp) rfl
    have hzv : z ∉ v := (List.nodup_cons.mp (List.nodup_append.mp hnd).2.1).1
    have hav : a ∉ z :: v := fun hc => (List.nodup_append.mp hnd).2.2 a (by simp) a hc rfl
    have hzu : z ∉ u ++ [a] := fun hc => (List.nodup_append.mp hnd).2.2 z hc z (by simp) rfl
    have hnu : ∀ b ∈ u ++ [a], b ≠ e := fun b hb => hne b (List.mem_append_left _ hb)
    have hnv : ∀ b ∈ z :: v, b ≠ e := fun b hb => hne b (List.mem_append_right _ hb)
    refine linked_append.mpr ⟨?_, ?_⟩
    · refine (hu.set_end (c := some z) hau).congr ?_ ?_
      · exact fun b hb => Function.update_of_ne (hnu b hb) _ _
      · intro b hb
        exact (Function.update_of_ne (hnu b hb) _ _).trans
          (Function.update_of_ne (ne_of_mem_of_not_mem hb hzu) _ _)
    · rw [List.getLast?_concat, Option.some_or]
      refine (hv.set_begin (c := some a) hzv).congr ?_ ?_
      · intro b hb
        exact (Function.update_of_ne (hnv b hb) _ _).trans
          (Function.update_of_ne (ne_of_mem_of_not_mem hb hav) _ _)
      · exact fun b hb => Function.update_of_ne (hnv b hb) _ _

theorem Links.Holds.remove {d : Links α} {l : List α} {e : α} (h : d.Holds l) (he : e ∈ l) :
    (d.remove e).Holds (l.erase e) := by
  obtain ⟨u, v, rfl⟩ := List.append_of_mem he
  have heu : e ∉ u := fun hc => (List.nodup_append.mp h.nodup).2.2 e hc e (by simp) rfl
  rw [List.erase_append_right _ heu, List.erase_cons_head]
  exact h.remove_split

theorem Links.Holds.moveToFront {d : Links α} {l : List α} {e : α} (h : d.Holds l) (he : e ∈ l) :
    (d.moveToFront e).Holds (e :: l.erase e) := by
  unfold Links.moveToFront
  split_ifs with hd
  · rw [h.head] at hd
    cases l with
    | nil => cases hd
    | cons a l =>
      cases hd
      rwa [List.erase_cons_head]
  · exact (h.remove he).pushFront h.nodup.not_mem_erase

end Surgery

end KvStore.Common
