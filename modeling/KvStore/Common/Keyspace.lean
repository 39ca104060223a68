import Mathlib

/-!
# Keyspaces with deadlines

A keyspace maps each key to a value and an absolute deadline in milliseconds, `0`
meaning none. Writing, deleting and moving a deadline are the three changes; a
reader at time `now` sees the entries whose deadline has not passed.

* `liveAt_liveAt`: what is visible later is visible among what was visible before.
* `Keyspace.set`, `Keyspace.delete`, `Keyspace.expire`, `Keyspace.deleteAll`: the
  changes, each with what it does at its own key and at the others.
-/

namespace KvStore.Common

/-- The deadline has passed; the deadline `0` never does. -/
def expiredAt (expireAt nowMs : UInt64) : Bool := expireAt ≠ 0 ∧ expireAt ≤ nowMs

theorem expiredAt_mono {x now now' : UInt64} (h : now ≤ now') (hx : expiredAt x now = true) :
    expiredAt x now' = true := by
  simp only [expiredAt, decide_eq_true_eq] at hx ⊢
  exact ⟨hx.1, UInt64.le_trans hx.2 h⟩

@[simp] theorem expiredAt_zero (now : UInt64) : expiredAt 0 now = false := by simp [expiredAt]

/-- Values with deadlines, by key. -/
abbrev Keyspace (K V : Type) := K → Option (V × UInt64)

section

variable {K V : Type}

/-- What a reader at `now` sees of one entry. -/
def liveAt (now : UInt64) (d : Option (V × UInt64)) : Option (V × UInt64) :=
  d.filter fun d => !expiredAt d.2 now

@[simp] theorem liveAt_none (now : UInt64) : liveAt now (none : Option (V × UInt64)) = none := rfl

theorem liveAt_some (now : UInt64) (d : V × UInt64) :
    liveAt now (some d) = if expiredAt d.2 now = true then none else some d := by
  cases h : expiredAt d.2 now <;> simp [liveAt, h]

theorem liveAt_eq_some {now : UInt64} {o : Option (V × UInt64)} {d : V × UInt64} :
    liveAt now o = some d ↔ o = some d ∧ expiredAt d.2 now = false := by
  simp [liveAt, Option.filter_eq_some_iff]

theorem liveAt_liveAt {now now' : UInt64} (h : now ≤ now') (o : Option (V × UInt64)) :
    liveAt now' (liveAt now o) = liveAt now' o := by
  rcases o with _ | d
  · rfl
  · rw [liveAt_some]
    split_ifs with hx
    · rw [liveAt_some, if_pos (expiredAt_mono h hx), liveAt_none]
    · rfl

theorem expiredAt_iff {x now : UInt64} :
    expiredAt x now = true ↔ x.toNat ≠ 0 ∧ x.toNat ≤ now.toNat := by
  rw [expiredAt, decide_eq_true_eq, UInt64.le_iff_toNat_le, ← UInt64.toNat_inj.ne, UInt64.toNat_zero]

/-- Deadlines that have passed at the same times are the same. -/
theorem eq_of_expiredAt {x y : UInt64} (h : ∀ now, expiredAt x now = expiredAt y now) : x = y := by
  have hiff : ∀ now : UInt64, (x.toNat ≠ 0 ∧ x.toNat ≤ now.toNat) ↔
      (y.toNat ≠ 0 ∧ y.toNat ≤ now.toNat) := fun now => by
    rw [← expiredAt_iff, ← expiredAt_iff, h]
  have hx := hiff x
  have hy := hiff y
  refine UInt64.toNat_inj.mp ?_
  omega

/-- A value and its deadline are what readers see of them at all times. -/
theorem eq_of_liveAt {o : Option (V × UInt64)} {v : V} {x : UInt64}
    (h : ∀ now, (liveAt now o).map Prod.fst = (liveAt now (some (v, x))).map Prod.fst) :
    o = some (v, x) := by
  -- the last instant at which the value is seen
  have hlast : expiredAt x (x - 1) = false := by
    rw [Bool.eq_false_iff, ne_eq, expiredAt_iff, UInt64.toNat_sub]
    have hlt := x.toNat_lt
    show ¬ (x.toNat ≠ 0 ∧ x.toNat ≤ (2 ^ 64 - 1 + x.toNat) % 2 ^ 64)
    omega
  have hseen := h (x - 1)
  rw [liveAt_some, if_neg (by rw [hlast]; decide), Option.map_some] at hseen
  obtain ⟨⟨v', x'⟩, hlive, hv⟩ := Option.map_eq_some_iff.mp hseen
  obtain ⟨rfl, -⟩ := liveAt_eq_some.mp hlive
  obtain rfl : v' = v := hv
  have hdead : ∀ now, expiredAt x' now = expiredAt x now := by
    intro now
    have hnow := congrArg Option.isSome (h now)
    rw [liveAt_some, liveAt_some] at hnow
    cases hx : expiredAt x now <;> cases hx' : expiredAt x' now <;> simp_all
  rw [eq_of_expiredAt hdead]

/-- An entry is present but its deadline has passed. -/
def deadAt (now : UInt64) (d : Option (V × UInt64)) : Bool := d.any fun d => expiredAt d.2 now

@[simp] theorem deadAt_some (now : UInt64) (d : V × UInt64) :
    deadAt now (some d) = expiredAt d.2 now := rfl

theorem deadAt_mono {now now' : UInt64} (h : now ≤ now') {o : Option (V × UInt64)}
    (ho : deadAt now o = true) : deadAt now' o = true := by
  cases o with
  | none => cases ho
  | some d => exact expiredAt_mono h ho

theorem isSome_of_deadAt {now : UInt64} {o : Option (V × UInt64)} (h : deadAt now o = true) :
    o.isSome := by
  cases o with
  | none => cases h
  | some d => rfl

theorem liveAt_eq_ite (now : UInt64) (o : Option (V × UInt64)) :
    liveAt now o = if deadAt now o = true then none else o := by
  rcases o with _ | d
  · rfl
  · rw [liveAt_some]; rfl

theorem liveAt_of_dead {now : UInt64} {o : Option (V × UInt64)} (h : deadAt now o = true) :
    liveAt now o = none := by rw [liveAt_eq_ite, if_pos h]

theorem liveAt_of_not_dead {now : UInt64} {o : Option (V × UInt64)} (h : ¬ deadAt now o = true) :
    liveAt now o = o := by rw [liveAt_eq_ite, if_neg h]

/-- Agreement of what is visible persists as time passes. -/
theorem liveAt_congr_later {now now' : UInt64} (h : now ≤ now') {o o' : Option (V × UInt64)}
    (ho : liveAt now o = liveAt now o') : liveAt now' o = liveAt now' o' := by
  rw [← liveAt_liveAt h, ho, liveAt_liveAt h]

end

namespace Keyspace

variable {K V : Type} [DecidableEq K]

/-- What a reader at `now` sees. -/
def live (now : UInt64) (m : Keyspace K V) : Keyspace K V := fun k => liveAt now (m k)

/-- Write a value with a deadline. -/
def set (m : Keyspace K V) (k : K) (v : V) (x : UInt64) : Keyspace K V :=
  Function.update m k (some (v, x))

/-- Remove a key. -/
def delete (m : Keyspace K V) (k : K) : Keyspace K V := Function.update m k none

/-- Move the deadline of a key that is present. -/
def expire (m : Keyspace K V) (k : K) (x : UInt64) : Keyspace K V :=
  Function.update m k ((m k).map fun d => (d.1, x))

/-- Remove a list of keys. -/
def deleteAll (m : Keyspace K V) (ks : List K) : Keyspace K V :=
  fun k => if k ∈ ks then none else m k

@[simp] theorem set_self (m : Keyspace K V) (k : K) (v : V) (x : UInt64) :
    m.set k v x k = some (v, x) := Function.update_self _ _ _

theorem set_of_ne (m : Keyspace K V) {k k' : K} (h : k' ≠ k) (v : V) (x : UInt64) :
    m.set k v x k' = m k' := Function.update_of_ne h _ _

@[simp] theorem delete_self (m : Keyspace K V) (k : K) : m.delete k k = none :=
  Function.update_self _ _ _

theorem delete_of_ne (m : Keyspace K V) {k k' : K} (h : k' ≠ k) : m.delete k k' = m k' :=
  Function.update_of_ne h _ _

@[simp] theorem expire_self (m : Keyspace K V) (k : K) (x : UInt64) :
    m.expire k x k = (m k).map fun d => (d.1, x) := Function.update_self _ _ _

theorem expire_of_ne (m : Keyspace K V) {k k' : K} (h : k' ≠ k) (x : UInt64) :
    m.expire k x k' = m k' := Function.update_of_ne h _ _

@[simp] theorem deleteAll_nil (m : Keyspace K V) : m.deleteAll [] = m := by
  funext k; simp [deleteAll]

theorem deleteAll_singleton (m : Keyspace K V) (k : K) : m.deleteAll [k] = m.delete k := by
  funext k'
  by_cases h : k' = k
  · simp [deleteAll, h]
  · simp [deleteAll, h, delete_of_ne m h]

theorem deleteAll_of_not_mem (m : Keyspace K V) {ks : List K} {k : K} (h : k ∉ ks) :
    m.deleteAll ks k = m k := if_neg h

/-- A reader at `now` cannot tell the two apart. -/
def Agree (now : UInt64) (m m' : Keyspace K V) : Prop := ∀ k, liveAt now (m k) = liveAt now (m' k)

omit [DecidableEq K] in
theorem Agree.later {now now' : UInt64} {m m' : Keyspace K V} (h : Agree now m m')
    (hle : now ≤ now') : Agree now' m m' := fun k => liveAt_congr_later hle (h k)

theorem Agree.update {now : UInt64} {m m' : Keyspace K V} (h : Agree now m m') (k : K)
    {o o' : Option (V × UInt64)} (ho : liveAt now o = liveAt now o') :
    Agree now (Function.update m k o) (Function.update m' k o') := by
  intro k'
  by_cases hk : k' = k
  · subst hk; rw [Function.update_self, Function.update_self]; exact ho
  · rw [Function.update_of_ne hk, Function.update_of_ne hk]; exact h k'

/-- Moving the deadline of a visible key and dropping or ignoring any other. -/
theorem Agree.expire {now : UInt64} {m m' : Keyspace K V} (h : Agree now m m') (k : K)
    (x : UInt64) :
    Agree now (if deadAt now (m k) = true then m.delete k else m.expire k x)
      (if deadAt now (m' k) = true then m'.delete k else m'.expire k x) := by
  have hk := h k
  rw [liveAt_eq_ite, liveAt_eq_ite now (m' k)] at hk
  split_ifs at hk ⊢
  · exact h.update k rfl
  · exact h.update k (by rw [← hk]; rfl)
  · exact h.update k (by rw [hk]; rfl)
  · exact h.update k (by rw [hk])

end Keyspace

end KvStore.Common
