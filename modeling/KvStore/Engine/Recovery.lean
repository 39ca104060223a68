import KvStore.Common.Run
import KvStore.Store.Range
import KvStore.Wal.Log

/-!
# Recovery of the keyspace

Model of `recover` and `applyRecord` in `internal/engine/engine.go` (lines 245–321):
the entries of a snapshot are `Set` one after another, the records above the snapshot
point are replayed through the operations of the store, at the clock of the recovering
process, and what is dead by then is purged.

`Record.effectAt` is the reading of the log this amounts to. It differs from
`Record.effect`, which has no clock, in one case only: an EXPIRE of an entry that is
dead at the time of the replay removes it.
-/

namespace KvStore

open KvStore.Common

/-- The callback of `LoadNewestValid` (lines 250–260). -/
def Store.loadEntry (nowMono : UInt64) (s : Store) (x : SnapEntry) : Option Store :=
  let (ok, s) := s.set x.key x.value x.expireAtMs nowMono
  if ok then some s else none

/-- `applyRecord` (lines 298–313); `none` when the store refuses a SET. -/
def Store.applyRecord (nowMs nowMono : UInt64) (s : Store) (r : Record) : Option Store :=
  match r.type with
  | .set =>
    let (ok, s) := s.set r.key r.value r.expireAtMs nowMono
    if ok then some s else none
  | .delete => some (s.delete r.key nowMs).2
  | .expire => some (s.expire r.key r.expireAtMs nowMs).2
  | .segmentHdr => some s

theorem applyRecord_set {r : Record} (hr : r.type = .set) (nowMs nowMono : UInt64) (s : Store) :
    s.applyRecord nowMs nowMono r =
      if (s.set r.key r.value r.expireAtMs nowMono).1
      then some (s.set r.key r.value r.expireAtMs nowMono).2 else none := by
  rw [Store.applyRecord, hr]

/-- Load the entries, then replay the records above `minLSN`. -/
def Store.recover (nowMs nowMono : UInt64) (s : Store) (entries : List SnapEntry) (minLSN : ℕ)
    (records : List Record) : Option Store :=
  (entries.foldlM (Store.loadEntry nowMono) s).bind
    ((records.filter fun r => minLSN < r.lsn).foldlM (Store.applyRecord nowMs nowMono))

/-- Apply records one after another, each at its own readings of the two clocks. -/
def replayAt (s : Store) (rs : List (Record × UInt64 × UInt64)) : Option Store :=
  rs.foldlM (fun s x => s.applyRecord x.2.1 x.2.2 x.1) s

/-- What a record does to the entry of its key when it is replayed at `now`. -/
def Record.effectAt (now : UInt64) : RecordEffect := fun r o =>
  match r.type with
  | .set => some (r.value, r.expireAtMs)
  | .delete => none
  | .expire => if deadAt now o = true then none else o.map fun d => (d.1, r.expireAtMs)
  | .segmentHdr => o

/-- What a record applied at its own readings does to a keyspace. -/
def applyAt (m : Keyspace Bytes Bytes) (x : Record × UInt64 × UInt64) : Keyspace Bytes Bytes :=
  applyWith (Record.effectAt x.2.1) m x.1

/-- What a loaded entry does to a keyspace. -/
def SnapEntry.apply (m : Keyspace Bytes Bytes) (x : SnapEntry) : Keyspace Bytes Bytes :=
  m.set x.key x.value x.expireAtMs

variable {s : Store} {nowMs nowMono : UInt64}

theorem Store.Keyed.loadEntry (h : s.Keyed) (nowMono : UInt64) (x : SnapEntry) :
    ∃ s', s.loadEntry nowMono x = some s' ∧ s'.Keyed ∧ s'.contents = x.apply s.contents := by
  obtain ⟨hok, hkeyed, hcont⟩ := h.set x.key x.value x.expireAtMs nowMono
  exact ⟨_, if_pos hok, hkeyed, hcont⟩

theorem Store.Keyed.applyRecord (h : s.Keyed) (nowMs nowMono : UInt64) (r : Record) :
    ∃ s', s.applyRecord nowMs nowMono r = some s' ∧ s'.Keyed ∧
      s'.contents = applyWith (Record.effectAt nowMs) s.contents r := by
  unfold Store.applyRecord applyWith Record.effectAt
  cases r.type with
  | set =>
    obtain ⟨hok, hkeyed, hcont⟩ := h.set r.key r.value r.expireAtMs nowMono
    exact ⟨_, if_pos hok, hkeyed, hcont⟩
  | delete =>
    obtain ⟨-, hkeyed, hcont⟩ := h.delete r.key nowMs
    exact ⟨_, rfl, hkeyed, hcont⟩
  | expire =>
    obtain ⟨-, hkeyed, hcont⟩ := h.expire r.key r.expireAtMs nowMs
    refine ⟨_, rfl, hkeyed, hcont.trans ?_⟩
    dsimp only
    split_ifs <;> rfl
  | segmentHdr => exact ⟨_, rfl, h, (Function.update_eq_self _ _).symm⟩

theorem Store.Keyed.replayAt (h : s.Keyed) (rs : List (Record × UInt64 × UInt64)) :
    ∃ s', replayAt s rs = some s' ∧ s'.Keyed ∧ s'.contents = rs.foldl applyAt s.contents := by
  unfold KvStore.replayAt
  exact foldlM_simulates (g := applyAt) (R := fun s m => s.Keyed ∧ s.contents = m)
    (fun s _ x hs => hs.2 ▸ hs.1.applyRecord x.2.1 x.2.2 x.1) rs s _ ⟨h, rfl⟩

theorem foldl_applyAt_of_ne {rs : List (Record × UInt64 × UInt64)} {k : Bytes}
    (h : ∀ x ∈ rs, x.1.key ≠ k) (m : Keyspace Bytes Bytes) : rs.foldl applyAt m k = m k := by
  induction rs generalizing m with
  | nil => rfl
  | cons x rs ih =>
    rw [List.foldl_cons, ih fun y hy => h y (List.mem_cons_of_mem x hy)]
    exact applyWith_of_ne m (h x List.mem_cons_self).symm

/-- Recovery succeeds, and its result is the same fold over keyspaces. -/
theorem Store.Keyed.recover (h : s.Keyed) (nowMs nowMono : UInt64) (entries : List SnapEntry)
    (minLSN : ℕ) (records : List Record) :
    ∃ s', s.recover nowMs nowMono entries minLSN records = some s' ∧ s'.Keyed ∧
      s'.contents = (records.filter fun r => minLSN < r.lsn).foldl (applyWith (Record.effectAt nowMs))
        (entries.foldl (fun m x => x.apply m) s.contents) := by
  obtain ⟨s1, h1, hk1, hc1⟩ := foldlM_simulates (R := fun s m => s.Keyed ∧ s.contents = m)
    (fun s _ x hs => hs.2 ▸ hs.1.loadEntry nowMono x) entries s _ ⟨h, rfl⟩
  obtain ⟨s2, h2, hk2, hc2⟩ := foldlM_simulates (R := fun s m => s.Keyed ∧ s.contents = m)
    (fun s _ r hs => hs.2 ▸ hs.1.applyRecord nowMs nowMono r)
    (records.filter fun r => minLSN < r.lsn) s1 _ ⟨hk1, hc1⟩
  refine ⟨s2, ?_, hk2, hc2⟩
  rw [Store.recover, h1]
  exact h2

/-- Without EXPIRE records the clock does not matter. -/
theorem Record.Absolute.effectAt_eq {r : Record} (h : r.Absolute) :
    Record.effectAt nowMs r = r.effect := by
  rcases h with h | h <;> funext o <;> simp [Record.effectAt, Record.effect, h]

/-- `w` says what `r` says. -/
def Record.Carries (w r : Record) : Prop :=
  w = { r with lsn := w.lsn, createdAtMs := w.createdAtMs }

theorem Record.Carries.applyRecord {w r : Record} (h : w.Carries r) (nowMs nowMono : UInt64)
    (s : Store) : s.applyRecord nowMs nowMono w = s.applyRecord nowMs nowMono r := by
  rw [h]
  rfl

theorem Record.Carries.apply_effectAt {w r : Record} (h : w.Carries r) (now : UInt64)
    (m : Keyspace Bytes Bytes) :
    applyWith (Record.effectAt now) m w = applyWith (Record.effectAt now) m r := by
  rw [h]
  rfl

/-- Loading entries of which those for `k` agree on `o`. -/
theorem foldl_load {entries : List SnapEntry} {k : Bytes} {o : Option (Bytes × UInt64)}
    (hall : ∀ x ∈ entries, x.key = k → o = some (x.value, x.expireAtMs))
    (hsome : o.isSome → ∃ x ∈ entries, x.key = k) {m : Keyspace Bytes Bytes} (hm : m k = none) :
    entries.foldl (fun m x => x.apply m) m k = o := by
  induction entries using List.reverseRecOn with
  | nil =>
    cases o with
    | none => exact hm
    | some d => obtain ⟨x, hx, -⟩ := hsome rfl; cases hx
  | append_singleton l x ih =>
    rw [List.foldl_append]
    show (l.foldl (fun m x => x.apply m) m).set x.key x.value x.expireAtMs k = o
    by_cases hx : x.key = k
    · rw [hall x (by simp) hx, ← hx, Keyspace.set_self]
    · rw [Keyspace.set_of_ne _ (Ne.symm hx)]
      refine ih (fun y hy => hall y (List.mem_append_left _ hy)) fun ho => ?_
      obtain ⟨y, hy, hyk⟩ := hsome ho
      rcases List.mem_append.mp hy with hy | hy
      · exact ⟨y, hy, hyk⟩
      · exact absurd (List.mem_singleton.mp hy ▸ hyk) hx

end KvStore
