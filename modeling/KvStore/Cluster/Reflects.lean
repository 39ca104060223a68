import KvStore.Common.Reapply
import KvStore.Engine.Recovery

/-!
# What a replica holds of its primary's log

A replica applies records of its primary more than once, in runs that each follow the order of the
log. In between, the value and the deadline of an entry can stem from different records, so a
replica does not hold what some prefix of the log says. What it does have is said key by key by
`Reflects log k j o`: the value of `k` is that after the first `j` records or after some more, and
the records behind the `j`-th lead from the entry `o` to what the whole log says. The latter is kept
when records are applied again, by `Absorbs.resume`.

* `Reflects.next`, `Reflects.back`: the next record, and any earlier one.
-/

namespace KvStore

open KvStore.Common

/-! ## The entry of one key -/

/-- What a record does to the entry of `k`. -/
def Record.onKey (k : Bytes) (o : Option (Bytes × UInt64)) (r : Record) : Option (Bytes × UInt64) :=
  if r.key = k then r.effect o else o

variable {r r' : Record} {rs log : List Record} {k : Bytes} {o o' : Option (Bytes × UInt64)}
  {i j : ℕ} {m : Keyspace Bytes Bytes}

theorem onKey_of_ne (h : r.key ≠ k) : r.onKey k o = o := if_neg h

theorem onKey_self (h : r.key = k) : r.onKey k o = r.effect o := if_pos h

theorem applyWith_effect_eq (m : Keyspace Bytes Bytes) (r : Record) (k : Bytes) :
    applyWith Record.effect m r k = r.onKey k (m k) := by
  by_cases hk : r.key = k
  · subst hk
    rw [applyWith_self, onKey_self rfl]
  · rw [applyWith_of_ne m (Ne.symm hk), onKey_of_ne hk]

theorem foldl_applyWith_eq_onKey (rs : List Record) (m : Keyspace Bytes Bytes) (k : Bytes) :
    rs.foldl (applyWith Record.effect) m k = rs.foldl (Record.onKey k) (m k) := by
  induction rs generalizing m with
  | nil => rfl
  | cons r rs ih => rw [List.foldl_cons, List.foldl_cons, ih, applyWith_effect_eq]

theorem foldRecords_eq_onKey (rs : List Record) (k : Bytes) :
    foldRecords rs k = rs.foldl (Record.onKey k) none := foldl_applyWith_eq_onKey rs _ k

theorem Record.Carries.onKey (h : r.Carries r') (k : Bytes) (o : Option (Bytes × UInt64)) :
    r.onKey k o = r'.onKey k o := by
  rw [h]
  rfl

/-- Only SET and DELETE change the value, or whether there is one. -/
theorem map_fst_onKey (h : ¬ (r.key = k ∧ r.Absolute)) :
    (r.onKey k o).map Prod.fst = o.map Prod.fst := by
  by_cases hk : r.key = k
  · rw [onKey_self hk]
    cases ht : r.type with
    | set => exact absurd ⟨hk, .inl ht⟩ h
    | delete => exact absurd ⟨hk, .inr ht⟩ h
    | expire => simp [Record.effect, ht, Function.comp_def]
    | segmentHdr => simp [Record.effect, ht]
  · rw [onKey_of_ne hk]

theorem onKey_of_absolute (h : r.key = k ∧ r.Absolute) : r.onKey k o = r.onKey k o' := by
  rw [onKey_self h.1, onKey_self h.1]
  exact h.2.effect_eq o o'

/-- The value after some records depends on the value before them. -/
theorem foldl_onKey_value (h : o.map Prod.fst = o'.map Prod.fst) :
    (rs.foldl (Record.onKey k) o).map Prod.fst = (rs.foldl (Record.onKey k) o').map Prod.fst := by
  induction rs generalizing o o' with
  | nil => exact h
  | cons r rs ih =>
    refine ih ?_
    by_cases habs : r.key = k ∧ r.Absolute
    · rw [onKey_of_absolute habs]
    · rw [map_fst_onKey habs, map_fst_onKey habs, h]

/-- Of what it finds, a record keeps the value at most. -/
theorem onKey_congr_value (hr : r.type ≠ .segmentHdr) (hk : r.key = k)
    (h : o.map Prod.fst = o'.map Prod.fst) : r.onKey k o = r.onKey k o' := by
  cases ht : r.type with
  | set => exact onKey_of_absolute ⟨hk, .inl ht⟩
  | delete => exact onKey_of_absolute ⟨hk, .inr ht⟩
  | segmentHdr => exact absurd ht hr
  | expire =>
    have hmap : ∀ x : Option (Bytes × UInt64),
        r.onKey k x = (x.map Prod.fst).map fun v => (v, r.expireAtMs) := by
      intro x
      simp [onKey_self hk, Record.effect, ht, Function.comp_def]
    rw [hmap, hmap, h]

/-- A record applied twice acts as the second time alone, whatever came in between. -/
theorem absorbs_onKey (k : Bytes) : Absorbs (Record.onKey k) := by
  intro r rs o
  by_cases hk : r.key = k
  · by_cases habs : r.Absolute
    · exact onKey_of_absolute ⟨hk, habs⟩
    · by_cases hhdr : r.type = .segmentHdr
      · have hsame : r.onKey k o = o := by simp [onKey_self hk, Record.effect, hhdr]
        rw [hsame]
      · refine onKey_congr_value hhdr hk (foldl_onKey_value ?_)
        exact map_fst_onKey fun h => habs h.2
  · rw [onKey_of_ne hk, onKey_of_ne hk, onKey_of_ne hk]

/-! ## How far an entry has come -/

/-- The entry `o` of `k` reflects the first `j` records of `log`: its value is that after these
    records or after some more, and the others lead from it to what the log says. -/
structure Reflects (log : List Record) (k : Bytes) (j : ℕ) (o : Option (Bytes × UInt64)) : Prop where
  value : ∃ i, j ≤ i ∧ i ≤ log.length ∧
    o.map Prod.fst = (foldRecords (log.take i) k).map Prod.fst
  resync : (log.drop j).foldl (Record.onKey k) o = foldRecords log k

theorem foldRecords_take_succ (h : log[j]? = some r) (k : Bytes) :
    foldRecords (log.take (j + 1)) k = r.onKey k (foldRecords (log.take j) k) := by
  rw [List.take_add_one, h, Option.toList_some, foldRecords_append, applyWith_effect_eq]

/-- The next record. -/
theorem Reflects.next (h : Reflects log k j o) (hr : log[j]? = some r') (hc : r.Carries r') :
    Reflects log k (j + 1) (r.onKey k o) := by
  obtain ⟨hj, rfl⟩ := List.getElem?_eq_some_iff.mp hr
  rw [hc.onKey]
  have hresync := h.resync
  rw [List.drop_eq_getElem_cons hj, List.foldl_cons] at hresync
  refine ⟨?_, hresync⟩
  by_cases habs : log[j].key = k ∧ log[j].Absolute
  · refine ⟨j + 1, le_rfl, hj, ?_⟩
    rw [foldRecords_take_succ hr, onKey_of_absolute habs]
  · obtain ⟨i, hji, hi, hval⟩ := h.value
    rcases hji.eq_or_lt with rfl | hlt
    · refine ⟨j + 1, le_rfl, hj, ?_⟩
      rw [foldRecords_take_succ hr, map_fst_onKey habs, map_fst_onKey habs, hval]
    · exact ⟨i, hlt, hi, (map_fst_onKey habs).trans hval⟩

/-- What reflects some records reflects any fewer; so these can be applied again. -/
theorem Reflects.back (h : Reflects log k j o) (hij : i ≤ j) : Reflects log k i o := by
  obtain ⟨n, hn, hval⟩ := h.value
  refine ⟨⟨n, hij.trans hn, hval⟩, ?_⟩
  have hdrop : log.drop i = (log.drop i).take (j - i) ++ log.drop j := by
    have hsplit := List.take_append_drop (j - i) (log.drop i)
    rw [List.drop_drop, Nat.add_sub_cancel' hij] at hsplit
    exact hsplit.symm
  have hlog : foldRecords log k = (log.drop j).foldl (Record.onKey k)
      (((log.drop i).take (j - i)).foldl (Record.onKey k)
        ((log.take i).foldl (Record.onKey k) none)) := by
    rw [← List.foldl_append, ← List.foldl_append, ← hdrop, List.take_append_drop,
      foldRecords_eq_onKey]
  have hres := h.resync
  rw [hlog] at hres
  rw [hdrop, List.foldl_append, hlog]
  exact (absorbs_onKey k).resume hres

/-- The keyspace `m` reflects the first `j` records of `log`. -/
def Shows (log : List Record) (j : ℕ) (m : Keyspace Bytes Bytes) : Prop :=
  j ≤ log.length ∧ ∀ k, Reflects log k j (m k)

theorem Shows.back (h : Shows log j m) (hij : i ≤ j) : Shows log i m :=
  ⟨hij.trans h.1, fun k => (h.2 k).back hij⟩

/-- What the first records say. -/
theorem Shows.take (hj : j ≤ log.length) : Shows log j (foldRecords (log.take j)) := by
  refine ⟨hj, fun k => ⟨⟨j, le_rfl, hj, rfl⟩, ?_⟩⟩
  rw [foldRecords_eq_onKey, foldRecords_eq_onKey, ← List.foldl_append, List.take_append_drop]

theorem Shows.blank (log : List Record) : Shows log 0 fun _ => none :=
  Shows.take (Nat.zero_le _)

/-- A record of the log that is the next one or was applied before. -/
theorem Shows.record (h : Shows log j m) (hr : log[i]? = some r') (hij : i ≤ j)
    (hc : r.Carries r') : Shows log (i + 1) (applyWith Record.effect m r) := by
  obtain ⟨hi, -⟩ := List.getElem?_eq_some_iff.mp hr
  refine ⟨hi, fun k => ?_⟩
  rw [applyWith_effect_eq]
  exact ((h.2 k).back hij).next hr hc

end KvStore
