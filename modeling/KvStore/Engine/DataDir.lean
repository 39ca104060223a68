import KvStore.Engine.FailedWrite
import KvStore.Engine.Restart
import KvStore.Snapshot.Prune
import KvStore.Wal.Retain

/-!
# Recovery from a data directory

Model of `recover` in `internal/engine/engine.go` (lines 245–296) on files: the newest snapshot
that loads, the segments above its LSN, and the purge. `Store.recover` is the same on lists.

* `recoverDir_eq`: a snapshot that loads and segments without a fault give what a reader at the
  time of the recovery sees of the keyspace that the entries and the records describe.
* `foldl_effectAt_again`: replaying records that memory reflects already changes nothing for such
  a reader.
-/

namespace KvStore

open KvStore.Common

/-! ## The code -/

/-- The errors of `recover`: from `LoadNewestValid` and from `Replay`. -/
inductive RecoverError
  | snapshot (err : Snapshot.NewestError Unit)
  | wal (err : ReplayError Unit)
  deriving DecidableEq, Repr

/-- The function that `recover` passes to `LoadNewestValid` (lines 250–260). -/
def Store.loadCallback (nowMono : UInt64) (s : Store) (x : SnapEntry) : Store × Option Unit :=
  let (ok, s) := s.set x.key x.value x.expireAtMs nowMono
  (s, if ok then none else some ())

/-- The function that `recover` passes to `Replay` (lines 273–275). -/
def Store.applyCallback (nowMs nowMono : UInt64) (s : Store) (r : Record) : Except Unit Store :=
  match s.applyRecord nowMs nowMono r with
  | some s => .ok s
  | none => .error ()

/-- The second half of `recover` (lines 272–295). -/
def replayDir (nowMs nowMono : UInt64) (unsafeTruncate : Bool) (wal : Disk Bytes) (minLSN : ℕ)
    (s : Store) : Except RecoverError Store :=
  match replay wal minLSN unsafeTruncate (Store.applyCallback nowMs nowMono) s with
  | .error err => .error (.wal err)
  | .ok (_, s, _) => .ok (s.purgeExpired nowMs).2

/-- `recover` (lines 245–296) into the store `s`. -/
def recoverDir (nowMs nowMono : UInt64) (unsafeTruncate : Bool) (wal snaps : Disk Bytes)
    (s : Store) : Except RecoverError Store :=
  match Snapshot.loadNewestValid (Store.loadCallback nowMono) snaps s with
  | (dv, .ok (hdr, _)) =>
    replayDir nowMs nowMono unsafeTruncate wal hdr.lastIncludedLSN.toNat dv.state
  | (dv, .error .noSnapshot) => replayDir nowMs nowMono unsafeTruncate wal 0 dv.state
  | (_, .error err) => .error (.snapshot err)

/-- The records in the segments of a directory. -/
def walRecords (wal : Disk Bytes) : List Record := (logSegments wal).flatMap Prod.snd

/-! ## Loading and replaying -/

/-- Loading an entry is replaying a SET. -/
def SnapEntry.record (x : SnapEntry) : Record := Engine.record .set x.key x.value x.expireAtMs

variable {s s' : Store} {nowMs nowMono T : UInt64} {es : List SnapEntry} {rs : List Record}
  {k : Bytes}

theorem foldlM_record (es : List SnapEntry) (s : Store) :
    (es.map SnapEntry.record).foldlM (Store.applyRecord nowMs nowMono) s =
      es.foldlM (Store.loadEntry nowMono) s := by
  rw [List.foldlM_map]
  rfl

theorem loadCallback_of_loadEntry {x : SnapEntry} (h : s.loadEntry nowMono x = some s') :
    s.loadCallback nowMono x = (s', none) := by
  unfold Store.loadEntry at h
  unfold Store.loadCallback
  dsimp only at h ⊢
  split_ifs at h with hok
  rw [if_pos hok, Option.some.inj h]

/-- The store takes the entries of a snapshot one after another. -/
theorem accepts_of_foldlM (h : es.foldlM (Store.loadEntry nowMono) s = some s') :
    Snapshot.Accepts (Store.loadCallback nowMono) s es ∧
      es.foldl (fun s e => (s.loadCallback nowMono e).1) s = s' := by
  induction es generalizing s with
  | nil =>
    cases h
    exact ⟨trivial, rfl⟩
  | cons x es ih =>
    rw [List.foldlM_cons] at h
    obtain ⟨s₁, hx, hes⟩ := Option.bind_eq_some_iff.mp h
    obtain ⟨haccepts, hfold⟩ := ih hes
    have hcall := loadCallback_of_loadEntry hx
    rw [Snapshot.Accepts, List.foldl_cons, hcall]
    exact ⟨⟨rfl, haccepts⟩, hfold⟩

theorem foldlM_applyCallback (h : rs.foldlM (Store.applyRecord nowMs nowMono) s = some s') :
    rs.foldlM (Store.applyCallback nowMs nowMono) s = .ok s' := by
  induction rs generalizing s with
  | nil =>
    cases h
    rfl
  | cons r rs ih =>
    rw [List.foldlM_cons] at h ⊢
    obtain ⟨s₁, hr, hrs⟩ := Option.bind_eq_some_iff.mp h
    rw [Store.applyCallback, hr]
    exact ih hrs

theorem foldlM_applyCallback_none (h : rs.foldlM (Store.applyRecord nowMs nowMono) s = none) :
    rs.foldlM (Store.applyCallback nowMs nowMono) s = .error () := by
  induction rs generalizing s with
  | nil => cases h
  | cons r rs ih =>
    rw [List.foldlM_cons] at h ⊢
    rw [Store.applyCallback]
    cases hr : s.applyRecord nowMs nowMono r with
    | none => rfl
    | some s₁ =>
      rw [hr] at h
      exact ih h

/-- `recover` once a snapshot is loaded. -/
theorem recoverDir_of_load {snaps : Disk Bytes} {dv : Snapshot.Delivery Store}
    {hdr : Snapshot.Header} {path : Bytes}
    (h : Snapshot.loadNewestValid (Store.loadCallback nowMono) snaps s = (dv, .ok (hdr, path)))
    (unsafeTruncate : Bool) (wal : Disk Bytes) :
    recoverDir nowMs nowMono unsafeTruncate wal snaps s =
      replayDir nowMs nowMono unsafeTruncate wal hdr.lastIncludedLSN.toNat dv.state := by
  rw [recoverDir, h]

/-- A snapshot whose entries are loaded, and segments without a fault. -/
theorem recoverDir_eq (hs : s.Plain) {wal snaps : Disk Bytes} (hwal : HealthySegments wal)
    {hdr : Snapshot.Header} {path : Bytes}
    (hload : Snapshot.Accepts (Store.loadCallback nowMono) s es →
      Snapshot.loadNewestValid (Store.loadCallback nowMono) snaps s =
        (Snapshot.Delivery.after (Store.loadCallback nowMono) ⟨s, []⟩ es, .ok (hdr, path)))
    (hfits : s.ReplayFits T nowMono (es.map SnapEntry.record ++
      (walRecords wal).filter fun r => hdr.lastIncludedLSN.toNat < r.lsn))
    (unsafeTruncate : Bool) :
    ∃ s', recoverDir T nowMono unsafeTruncate wal snaps s = .ok s' ∧
      ∀ k, s'.contents k = liveAt T
        (((walRecords wal).filter fun r => hdr.lastIncludedLSN.toNat < r.lsn).foldl
          (applyWith (Record.effectAt T)) (es.foldl (fun m x => x.apply m) s.contents) k) := by
  obtain ⟨s₂, hrec, -, hcont⟩ :=
    hs.keyed.recover T nowMono es hdr.lastIncludedLSN.toNat (walRecords wal)
  obtain ⟨s₁, hes, hrs⟩ := Option.bind_eq_some_iff.mp hrec
  obtain ⟨haccepts, hstate⟩ := accepts_of_foldlM hes
  obtain ⟨res, hreplay⟩ := replay_healthy hwal unsafeTruncate (foldlM_applyCallback hrs)
  have hplain : s₂.Plain := by
    refine hs.replay hfits ?_
    rw [List.foldlM_append, foldlM_record, hes]
    exact hrs
  refine ⟨(s₂.purgeExpired T).2, ?_, fun k => ?_⟩
  · rw [recoverDir_of_load (hload haccepts)]
    dsimp only [Snapshot.Delivery.after]
    rw [hstate, replayDir, hreplay]
  · rw [hplain.purgeExpired_contents, hcont]

/-! ## Replaying what is there already -/

variable {m m' : Keyspace Bytes Bytes} {r : Record} {o o' : Option (Bytes × UInt64)}

theorem liveAt_effectAt_congr (r : Record) (h : liveAt T o = liveAt T o') :
    liveAt T (Record.effectAt T r o) = liveAt T (Record.effectAt T r o') := by
  cases hr : r.type with
  | set | delete => simp only [Record.effectAt, hr]
  | segmentHdr => simpa only [Record.effectAt, hr] using h
  | expire =>
    cases ho : liveAt T o with
    | none =>
      rw [effectAt_expire_of_dead hr ho, effectAt_expire_of_dead hr (h ▸ ho)]
    | some d =>
      have ho' : liveAt T o' = some d := h ▸ ho
      rw [(liveAt_eq_some.mp ho).1, (liveAt_eq_some.mp ho').1]

/-- A reader at `T` notices no difference that was not there before. -/
theorem foldl_effectAt_live (rs : List Record) (h : liveAt T (m k) = liveAt T (m' k)) :
    liveAt T (rs.foldl (applyWith (Record.effectAt T)) m k) =
      liveAt T (rs.foldl (applyWith (Record.effectAt T)) m' k) := by
  induction rs generalizing m m' with
  | nil => exact h
  | cons r rs ih =>
    refine ih ?_
    by_cases hk : k = r.key
    · subst hk
      rw [applyWith_self, applyWith_self]
      exact liveAt_effectAt_congr r h
    · rwa [applyWith_of_ne m hk, applyWith_of_ne m' hk]

/-- The records decide what is there under `k`, or they leave the value it had. -/
theorem foldl_effectAt_source (T : UInt64) (k : Bytes) (rs : List Record) :
    (∀ m m', rs.foldl (applyWith (Record.effectAt T)) m k =
      rs.foldl (applyWith (Record.effectAt T)) m' k) ∨
    ∀ m d, rs.foldl (applyWith (Record.effectAt T)) m k = some d → ∃ x, m k = some (d.1, x) := by
  induction rs with
  | nil => exact .inr fun m d hd => ⟨d.2, hd⟩
  | cons r rs ih =>
    rcases ih with hall | hsource
    · exact .inl fun m m' => hall _ _
    · by_cases hk : k = r.key
      · subst hk
        cases hr : r.type with
        | set | delete =>
          refine .inl fun m m' => ?_
          rw [List.foldl_cons, List.foldl_cons]
          refine foldl_applyWith_congr ?_
          rw [applyWith_self, applyWith_self]
          simp only [Record.effectAt, hr]
        | segmentHdr =>
          refine .inr fun m d hd => ?_
          obtain ⟨x, hx⟩ := hsource _ d hd
          rw [applyWith_self] at hx
          simp only [Record.effectAt, hr] at hx
          exact ⟨x, hx⟩
        | expire =>
          refine .inr fun m d hd => ?_
          obtain ⟨x, hx⟩ := hsource _ d hd
          rw [applyWith_self] at hx
          simp only [Record.effectAt, hr] at hx
          split_ifs at hx
          obtain ⟨d', hd', hpair⟩ := Option.map_eq_some_iff.mp hx
          obtain ⟨hvalue, -⟩ := Prod.mk.inj hpair
          exact ⟨d'.2, by rw [hd', ← hvalue]⟩
      · refine .inr fun m d hd => ?_
        obtain ⟨x, hx⟩ := hsource _ d hd
        rw [applyWith_of_ne m hk] at hx
        exact ⟨x, hx⟩

/-- Records whose outcome is there already, as far as a reader at `T` can tell, change nothing
    for that reader. -/
theorem foldl_effectAt_again
    (h : liveAt T (m k) = liveAt T (rs.foldl (applyWith (Record.effectAt T)) m' k)) :
    liveAt T (rs.foldl (applyWith (Record.effectAt T)) m k) =
      liveAt T (rs.foldl (applyWith (Record.effectAt T)) m' k) := by
  induction rs generalizing m m' with
  | nil => exact h
  | cons r rs ih =>
    rw [List.foldl_cons] at h
    rw [List.foldl_cons, List.foldl_cons]
    by_cases hk : k = r.key
    · subst hk
      cases hr : r.type with
      | set | delete =>
        refine congrArg (liveAt T) (foldl_applyWith_congr ?_)
        rw [applyWith_self, applyWith_self]
        simp only [Record.effectAt, hr]
      | segmentHdr =>
        refine ih ?_
        rw [applyWith_self]
        simpa only [Record.effectAt, hr] using h
      | expire =>
        cases hlive : liveAt T (rs.foldl (applyWith (Record.effectAt T))
            (applyWith (Record.effectAt T) m' r) r.key) with
        | none =>
          rw [hlive] at h
          rw [← hlive]
          refine ih ?_
          rw [hlive, applyWith_self, effectAt_expire_of_dead hr h]
          rfl
        | some d =>
          rw [hlive] at h
          rw [← hlive]
          rcases foldl_effectAt_source T r.key rs with hall | hsource
          · rw [hall]
          · -- the value is the same, and both have the deadline of `r`
            obtain ⟨hm, hd⟩ := liveAt_eq_some.mp h
            obtain ⟨x, hx⟩ := hsource _ d (liveAt_eq_some.mp hlive).1
            refine congrArg (liveAt T) (foldl_applyWith_congr ?_)
            rw [hx, applyWith_self, hm]
            rw [applyWith_self] at hx
            simp only [Record.effectAt, hr] at hx ⊢
            split_ifs at hx
            obtain ⟨d', -, hpair⟩ := Option.map_eq_some_iff.mp hx
            obtain ⟨-, rfl⟩ := Prod.mk.inj hpair
            rw [deadAt_some, hd, if_neg (by decide)]
            rfl
    · refine ih ?_
      rwa [applyWith_of_ne m hk]

end KvStore
