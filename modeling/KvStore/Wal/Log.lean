import KvStore.Common.Keyspace
import KvStore.Wal.Record

/-!
# The log as its submitters see it

`Submit` gives a record the next LSN and queues it; this is the front half of
`Writer` in `internal/wal/writer.go`. Read as a history, the queued records describe
a keyspace: `foldRecords` folds them in order, without a clock.
-/

namespace KvStore

open KvStore.Common

/-- The fields of `Writer` that `Submit` touches, with every record it has queued, oldest
    first. -/
structure Log where
  nextLSN : ℕ
  records : List Record
  closed : Bool
  fatal : Bool

/-- The records `Submit` takes (lines 242–250). -/
def Record.Submittable (r : Record) : Prop :=
  r.key.length ≤ maxKeyLen ∧ r.value.length ≤ maxValLen ∧ r.type ≠ .segmentHdr

instance (r : Record) : Decidable r.Submittable := inferInstanceAs (Decidable (_ ∧ _ ∧ _))

/-- `Submit` (lines 235–271): the LSN given, or nothing when the record is refused. -/
def Log.submit (w : Log) (r : Record) (nowMs : UInt64) : Option (ℕ × Log) :=
  if w.closed ∨ w.fatal then none
  else if ¬ r.Submittable then none
  else
    let r := { r with
      lsn := w.nextLSN
      createdAtMs := if r.createdAtMs = 0 then nowMs else r.createdAtMs }
    some (w.nextLSN, { w with nextLSN := w.nextLSN + 1, records := w.records ++ [r] })

/-! ## The keyspace a log describes -/

/-- A reading of records: what one does to the entry of its key. -/
abbrev RecordEffect := Record → Option (Bytes × UInt64) → Option (Bytes × UInt64)

/-- What a record does to a keyspace under the reading `f`. -/
def applyWith (f : RecordEffect) (m : Keyspace Bytes Bytes) (r : Record) : Keyspace Bytes Bytes :=
  Function.update m r.key (f r (m r.key))

/-- The keyspace the records describe under the reading `f`. -/
def foldWith (f : RecordEffect) (rs : List Record) : Keyspace Bytes Bytes :=
  rs.foldl (applyWith f) fun _ => none

/-- The reading without a clock. -/
def Record.effect : RecordEffect := fun r o =>
  match r.type with
  | .set => some (r.value, r.expireAtMs)
  | .delete => none
  | .expire => o.map fun d => (d.1, r.expireAtMs)
  | .segmentHdr => o

/-- What the records describe, read without a clock. -/
def foldRecords (rs : List Record) : Keyspace Bytes Bytes := foldWith Record.effect rs

section Fold

variable {f g : RecordEffect} {rs : List Record} {m m' : Keyspace Bytes Bytes} {k : Bytes}

theorem applyWith_self (f : RecordEffect) (m : Keyspace Bytes Bytes) (r : Record) :
    applyWith f m r r.key = f r (m r.key) := Function.update_self _ _ _

theorem applyWith_of_ne (m : Keyspace Bytes Bytes) {r : Record} (h : k ≠ r.key) :
    applyWith f m r k = m k := Function.update_of_ne h _ _

/-- What a record leaves under a key depends on that key only. -/
theorem applyWith_congr (r : Record) (h : m k = m' k) : applyWith f m r k = applyWith f m' r k := by
  by_cases hk : k = r.key
  · subst hk; rw [applyWith_self, applyWith_self, h]
  · rw [applyWith_of_ne m hk, applyWith_of_ne m' hk, h]

theorem foldWith_append (f : RecordEffect) (rs : List Record) (r : Record) :
    foldWith f (rs ++ [r]) = applyWith f (foldWith f rs) r := by
  rw [foldWith, List.foldl_append]; rfl

theorem foldRecords_append (rs : List Record) (r : Record) :
    foldRecords (rs ++ [r]) = applyWith Record.effect (foldRecords rs) r :=
  foldWith_append Record.effect rs r

theorem foldl_applyWith_of_ne (h : ∀ r ∈ rs, r.key ≠ k) : rs.foldl (applyWith f) m k = m k := by
  induction rs generalizing m with
  | nil => rfl
  | cons r rs ih =>
    rw [List.foldl_cons, ih fun x hx => h x (List.mem_cons_of_mem r hx),
      applyWith_of_ne m (h r List.mem_cons_self).symm]

theorem foldl_applyWith_congr (h : m k = m' k) :
    rs.foldl (applyWith f) m k = rs.foldl (applyWith f) m' k := by
  induction rs generalizing m m' with
  | nil => exact h
  | cons r rs ih => exact ih (applyWith_congr r h)

/-- Readings that agree on the records give the same keyspace. -/
theorem foldl_applyWith_eq (h : ∀ r ∈ rs, f r = g r) :
    rs.foldl (applyWith f) m = rs.foldl (applyWith g) m := by
  induction rs generalizing m with
  | nil => rfl
  | cons r rs ih =>
    rw [List.foldl_cons, List.foldl_cons, applyWith, h r List.mem_cons_self]
    exact ih fun x hx => h x (List.mem_cons_of_mem r hx)

/-- The record decides the entry of its key, whatever was there. -/
def Record.Absolute (r : Record) : Prop := r.type = .set ∨ r.type = .delete

theorem Record.Absolute.effect_eq {r : Record} (h : r.Absolute) (o o' : Option (Bytes × UInt64)) :
    r.effect o = r.effect o' := by
  rcases h with h | h <;> simp [Record.effect, h]

/-- With an absolute record for `k` among the records, what was there before is forgotten. -/
theorem foldl_effect_absolute (h : ∃ r ∈ rs, r.Absolute ∧ r.key = k) :
    rs.foldl (applyWith Record.effect) m k = rs.foldl (applyWith Record.effect) m' k := by
  induction rs generalizing m m' with
  | nil => obtain ⟨r, hr, -⟩ := h; cases hr
  | cons r rs ih =>
    by_cases hr : r.Absolute ∧ r.key = k
    · obtain ⟨habs, rfl⟩ := hr
      rw [List.foldl_cons, List.foldl_cons]
      refine foldl_applyWith_congr ?_
      rw [applyWith_self, applyWith_self, habs.effect_eq]
    · obtain ⟨x, hx, habs⟩ := h
      refine ih ⟨x, (List.mem_cons.mp hx).resolve_left ?_, habs⟩
      rintro rfl
      exact hr habs

/-- Records without deadlines describe a keyspace without deadlines. -/
theorem foldRecords_deadline (h : ∀ r ∈ rs, r.expireAtMs = 0) {d : Bytes × UInt64}
    (hd : foldRecords rs k = some d) : d.2 = 0 := by
  induction rs using List.reverseRecOn generalizing d with
  | nil => cases hd
  | append_singleton rs r ih =>
    rw [foldRecords, foldWith_append] at hd
    have ih := fun {d} => ih (d := d) fun x hx => h x (List.mem_append_left _ hx)
    have hr := h r (by simp)
    by_cases hk : k = r.key
    · rw [hk, applyWith_self] at hd
      unfold Record.effect at hd
      split at hd
      · cases hd; exact hr
      · cases hd
      · obtain ⟨d', -, rfl⟩ := Option.map_eq_some_iff.mp hd
        exact hr
      · exact ih (hk ▸ hd)
    · rw [applyWith_of_ne _ hk] at hd
      exact ih hd

/-- In a log in LSN order the records above `l` are a suffix. -/
theorem exists_split_lsn (h : rs.Pairwise fun a b => a.lsn < b.lsn) (l : ℕ) :
    ∃ old, rs = old ++ rs.filter fun r => l < r.lsn := by
  induction rs with
  | nil => exact ⟨[], rfl⟩
  | cons r rs ih =>
    obtain ⟨hr, hrs⟩ := List.pairwise_cons.mp h
    by_cases hl : l < r.lsn
    · refine ⟨[], ?_⟩
      rw [List.filter_eq_self.mpr]
      · rfl
      · intro x hx
        rcases List.mem_cons.mp hx with rfl | hx
        · exact decide_eq_true hl
        · exact decide_eq_true (hl.trans (hr x hx))
    · obtain ⟨old, hold⟩ := ih hrs
      refine ⟨r :: old, ?_⟩
      rw [List.filter_cons_of_neg (by simpa using hl), List.cons_append, ← hold]

end Fold

/-! ## Submitting -/

variable {w : Log} {r : Record}

theorem submit_of_submittable (hopen : w.closed = false ∧ w.fatal = false) (hsub : r.Submittable)
    (nowMs : UInt64) :
    ∃ t, w.submit r nowMs = some (w.nextLSN, { w with
      nextLSN := w.nextLSN + 1
      records := w.records ++ [{ r with lsn := w.nextLSN, createdAtMs := t }] }) := by
  unfold Log.submit
  rw [if_neg (by simp [hopen.1, hopen.2]), if_neg (not_not.mpr hsub)]
  exact ⟨_, rfl⟩

end KvStore
