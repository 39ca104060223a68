import KvStore.Cluster.Node

/-!
# FLUSH and the replicas

A primary whose operations come one at a time, and one replica. A mutation is applied, logged
and placed on the feed before the next operation; FLUSH clears the store, writes a snapshot and
truncates the log (`Flush` and `resetKeyspace`, commands.go lines 165–185), and reaches neither
the log nor the feed. A replica that reconnects asks for the records above its own last LSN.

* `flush_mirrored`: as long as FLUSH meets an empty keyspace, a replica that has read its
  stream holds what the primary holds.
* `flush_not_mirrored`: FLUSH of one key, with the replica attached and after it reconnects.
-/

namespace KvStore

open KvStore.Common

/-! ## A primary and a replica -/

/-- `segs` are the first LSNs of the segment files, of which each holds the records from its
    first LSN up to the next one's. The stream is what the primary has sent or placed on the
    feed and the replica has not read. -/
structure Mirror where
  primary : Engine
  segs : List ℕ
  replica : Engine
  attached : Bool
  stream : List Record

inductive MirrorAction
  | set (key value : Bytes) (nowMs nowMono : UInt64)
  | delete (key : Bytes) (nowMs : UInt64)
  | flush (durableLSN : ℕ)
  | rotate
  | deliver (nowMs nowMono : UInt64)
  | disconnect
  | reconnect

/-- `TruncateBelow` (recover.go lines 170–201) on segments in order: what it leaves. -/
def truncateBelow {α : Type} (firstLSN : α → ℕ) (lastIncludedLSN : ℕ) : List α → List α
  | seg :: next :: rest =>
    if firstLSN next > lastIncludedLSN + 1 then seg :: next :: rest
    else truncateBelow firstLSN lastIncludedLSN (next :: rest)
  | segs => segs

namespace Mirror

/-- A whole mutation: memory, log and feed (lines 120–163). -/
def mutate (s : Mirror) (a : EngineAction) (key : Bytes) (nowMs : UInt64) : Option Mirror :=
  (s.primary.step a).bind fun e =>
    let i := e.store.shardFor key
    match e.inflight i with
    | none => some { s with primary := e }
    | some r =>
      let e := { e with inflight := Function.update e.inflight i none }
      match e.log.submit r nowMs with
      | none => some { s with primary := e }
      | some (lsn, log) =>
        some { s with
          primary := { e with log := log }
          stream := if s.attached then s.stream ++ [{ r with lsn := lsn }] else s.stream }

/-- The replica reads one record; when it cannot apply it, it hangs up. -/
def deliver (s : Mirror) (nowMs nowMono : UInt64) : Option Mirror :=
  match s.attached, s.stream with
  | true, r :: rest =>
    (s.replica.applyReplicated r nowMs nowMono).map fun (ok, e) =>
      if ok then { s with replica := e, stream := rest }
      else { s with replica := e, attached := false, stream := [] }
  | _, _ => none

/-- SYNC from the last LSN of the replica, answered by a partial resync (primary.go lines
    194–239). -/
def reconnect (s : Mirror) : Option Mirror :=
  let fromLSN := s.replica.lastLSN
  match s.segs with
  | [] => none
  | haveFrom :: _ =>
    if s.attached ∨ fromLSN = 0 ∨ fromLSN + 1 < haveFrom then none
    else
      some { s with
        attached := true
        stream := s.primary.log.records.filter fun r => haveFrom ≤ r.lsn ∧ fromLSN < r.lsn }

def step (s : Mirror) : MirrorAction → Option Mirror
  | .set key value nowMs nowMono => s.mutate (.set key value 0 nowMs nowMono) key nowMs
  | .delete key nowMs => s.mutate (.delete key nowMs) key nowMs
  | .flush durableLSN =>
    some { s with
      primary := { s.primary with store := s.primary.store.flush }
      segs := truncateBelow id durableLSN s.segs }
  | .rotate => some { s with segs := s.segs ++ [s.primary.log.nextLSN] }
  | .deliver nowMs nowMono => s.deliver nowMs nowMono
  | .disconnect => some { s with attached := false, stream := [] }
  | .reconnect => s.reconnect

/-- A new primary, and a new replica that has gone through the full resync of nothing. -/
def init (o o' : Options) (newSeed newSeed' : UInt64) : Mirror :=
  { primary := newEngine o newSeed
    segs := [1]
    replica := { newEngine o' newSeed' with readOnly := true }
    attached := true
    stream := [] }

end Mirror

/-- No shard has an entry. -/
def Store.Empty (s : Store) : Prop := ∀ i < s.shardCount, (s.shards i).entries.keys = []

/-- The condition on a step: FLUSH meets an empty keyspace, the log takes what is written, and
    no shard reaches `2^31` entries. -/
def MirrorAction.Mirrored (s : Mirror) : MirrorAction → Prop
  | .set key value nowMs nowMono =>
    (key.length ≤ maxKeyLen ∧ value.length ≤ maxValLen) ∧
      (EngineAction.set key value 0 nowMs nowMono).Fits s.primary
  | .delete key _ => key.length ≤ maxKeyLen
  | .flush _ => s.primary.store.Empty
  | .deliver _ nowMono => ∀ r ∈ s.stream.head?, r.FitsIn s.replica nowMono
  | _ => True

instance (s : Mirror) : (a : MirrorAction) → Decidable (a.Mirrored s)
  | .set .. => inferInstanceAs (Decidable ((_ ∧ _) ∧ _))
  | .delete .. => inferInstanceAs (Decidable (_ ≤ _))
  | .flush _ => inferInstanceAs (Decidable (∀ i < _, _ = _))
  | .deliver _ nowMono => inferInstanceAs (Decidable (∀ r ∈ s.stream.head?, r.FitsIn s.replica nowMono))
  | .rotate | .disconnect | .reconnect => instDecidableTrue

/-! ## The replica holds a prefix of the log -/

/-- The log is open, and numbered from 1. -/
structure Log.Numbered (w : Log) : Prop where
  isOpen : w.closed = false ∧ w.fatal = false
  next : w.nextLSN = w.records.length + 1
  lsn : ∀ i r, w.records[i]? = some r → r.lsn = i + 1

/-- The replica has applied the first `n` records, and the stream brings the others. -/
structure Mirror.Behind (s : Mirror) (n : ℕ) : Prop where
  le : n ≤ s.primary.log.records.length
  isOpen : s.replica.log.closed = false ∧ s.replica.log.fatal = false
  next : s.replica.log.nextLSN = n + 1
  plain : s.replica.store.Plain
  contents : s.replica.store.contents = foldRecords (s.primary.log.records.take n)
  stream : s.attached = true →
    List.Forall₂ Record.Carries s.stream (s.primary.log.records.drop n)

structure Mirror.Inv (s : Mirror) : Prop where
  plain : s.primary.store.Plain
  free : ∀ i, s.primary.inflight i = none
  log : s.primary.log.Numbered
  records : ∀ r ∈ s.primary.log.records, r.Submittable ∧ r.Absolute
  contents : s.primary.store.contents = foldRecords s.primary.log.records
  behind : ∃ n, s.Behind n

variable {s s' : Mirror}

/-- The records above the first `n` are those with an LSN above `n`. -/
theorem Log.Numbered.filter {w : Log} (h : w.Numbered) (n : ℕ) :
    (w.records.filter fun r => n < r.lsn) = w.records.drop n := by
  have hsplit : w.records.filter (fun r => n < r.lsn) =
      (w.records.take n ++ w.records.drop n).filter fun r => n < r.lsn := by
    rw [List.take_append_drop]
  rw [hsplit, List.filter_append, List.filter_eq_nil_iff.mpr, List.filter_eq_self.mpr,
    List.nil_append]
  · intro r hr
    obtain ⟨i, hi⟩ := List.mem_iff_getElem?.mp hr
    rw [List.getElem?_drop] at hi
    have hlsn := h.lsn _ r hi
    exact decide_eq_true (by omega)
  · intro r hr
    obtain ⟨i, hi⟩ := List.mem_iff_getElem?.mp hr
    rw [List.getElem?_take] at hi
    split_ifs at hi with hin
    have hlsn := h.lsn i r hi
    simp only [decide_eq_true_eq]
    omega

theorem Log.Numbered.submit {w : Log} (h : w.Numbered) (r : Record) (t : UInt64) :
    Log.Numbered { w with
      nextLSN := w.nextLSN + 1
      records := w.records ++ [{ r with lsn := w.nextLSN, createdAtMs := t }] } := by
  refine ⟨h.isOpen, ?_, fun i x hx => ?_⟩
  · rw [List.length_append, h.next]
    rfl
  · rcases Nat.lt_or_ge i w.records.length with hi | hi
    · rw [List.getElem?_append_left hi] at hx
      exact h.lsn i x hx
    · rw [List.getElem?_append_right hi] at hx
      obtain ⟨hi', rfl⟩ := List.getElem?_eq_some_iff.mp hx
      have hzero : i - w.records.length = 0 := Nat.lt_one_iff.mp hi'
      simp only [hzero, List.getElem_cons_zero, h.next]
      omega

/-- A record more in the log, for the replica to come. -/
theorem Mirror.Behind.append {n : ℕ} (h : s.Behind n) {r r' : Record} (hr : r.Carries r')
    {e : Engine} (hrec : e.log.records = s.primary.log.records ++ [r']) :
    Mirror.Behind { s with
      primary := e
      stream := if s.attached then s.stream ++ [r] else s.stream } n := by
  have hle := h.le
  refine ⟨?_, h.isOpen, h.next, h.plain, ?_, fun hatt => ?_⟩
  · show n ≤ e.log.records.length
    rw [hrec, List.length_append]
    omega
  · show s.replica.store.contents = foldRecords (e.log.records.take n)
    rw [hrec, List.take_append_of_le_length hle]
    exact h.contents
  · have hatt : s.attached = true := hatt
    show List.Forall₂ Record.Carries (if s.attached then s.stream ++ [r] else s.stream)
      (e.log.records.drop n)
    rw [hrec, List.drop_append_of_le_length hle, if_pos hatt]
    exact List.rel_append (h.stream hatt) (.cons hr .nil)

/-- A mutation of the primary whose record `r` says what it does. -/
theorem Mirror.Inv.mutate (h : s.Inv) {a : EngineAction} {r : Record} {nowMs : UInt64}
    (hsub : r.Submittable) (habs : r.Absolute) (hfits : a.Fits s.primary)
    (hmut : ∀ e, s.primary.step a = some e → e.log = s.primary.log ∧
      e.store.shardFor = s.primary.store.shardFor ∧
      e.inflight = Function.update s.primary.inflight (s.primary.store.shardFor r.key) (some r))
    (hc : ∀ m m', a.Changes m m' → m' = applyWith Record.effect m r)
    (hstep : s.mutate a r.key nowMs = some s') : s'.Inv := by
  obtain ⟨e, he, hstep⟩ := Option.bind_eq_some_iff.mp hstep
  obtain ⟨hlog, hroute, hinfl⟩ := hmut e he
  obtain ⟨hplain, hchange⟩ := Engine.step_changes h.plain hfits he
  have hflight : e.inflight (e.store.shardFor r.key) = some r := by
    rw [hroute, hinfl, Function.update_self]
  obtain ⟨t, ht⟩ := submit_of_submittable h.log.isOpen hsub nowMs
  simp only [hflight, hlog, ht] at hstep
  cases hstep
  obtain ⟨n, hbehind⟩ := h.behind
  have hcarry : Record.Carries { r with lsn := s.primary.log.nextLSN }
      { r with lsn := s.primary.log.nextLSN, createdAtMs := t } := rfl
  refine ⟨hplain, fun i => ?_, h.log.submit r t, fun x hx => ?_, ?_, n,
    hbehind.append hcarry rfl⟩
  · show Function.update e.inflight (e.store.shardFor r.key) none i = none
    rw [hinfl, hroute, Function.update_idem]
    by_cases hi : i = s.primary.store.shardFor r.key
    · rw [hi, Function.update_self]
    · rw [Function.update_of_ne hi]
      exact h.free i
  · rcases List.mem_append.mp hx with hx | hx
    · exact h.records x hx
    · rw [List.mem_singleton.mp hx]
      exact ⟨hsub, habs⟩
  · show e.store.contents = foldRecords (_ ++ [_])
    rw [hc _ _ hchange, h.contents, foldRecords_append]
    rfl

theorem Mirror.Inv.set (h : s.Inv) {key value : Bytes} {nowMs nowMono : UInt64}
    (ha : (MirrorAction.set key value nowMs nowMono).Mirrored s)
    (hstep : s.step (.set key value nowMs nowMono) = some s') : s'.Inv := by
  obtain ⟨⟨hkl, hvl⟩, hfits⟩ := ha
  refine h.mutate (r := Engine.record .set key value 0) ⟨hkl, hvl, by simp [Engine.record]⟩ (.inl rfl)
    hfits (fun e he => ?_) (fun m m' hm => ?_) hstep
  · have hok := (setLocked_effect_unlimited (h.plain.keyed.key (s.primary.store.shardFor key))
      (h.plain.unlimited _) key value (Engine.deadline 0 nowMs) nowMono).1
    refine ⟨?_, ?_, mutate_inflight he hok⟩
    · obtain ⟨q, d, fl, rfl⟩ := mutate_eq he
      rfl
    · obtain ⟨q, d, fl, rfl⟩ := mutate_eq he
      rfl
  · cases hm with
    | set => rfl
    | same _ hm => cases hm
    | removes _ hm => cases hm

theorem Mirror.Inv.delete (h : s.Inv) {key : Bytes} {nowMs : UInt64}
    (ha : (MirrorAction.delete key nowMs).Mirrored s)
    (hstep : s.step (.delete key nowMs) = some s') : s'.Inv := by
  refine h.mutate (a := .delete key nowMs) (r := Engine.record .delete key [] 0)
    ⟨ha, by simp [Engine.record], by simp [Engine.record]⟩ (.inr rfl) trivial (fun e he => ?_) (fun m m' hm => ?_) hstep
  · refine ⟨?_, ?_, mutate_inflight he rfl⟩
    · obtain ⟨q, d, fl, rfl⟩ := mutate_eq he
      rfl
    · obtain ⟨q, d, fl, rfl⟩ := mutate_eq he
      rfl
  · cases hm with
    | delete => rfl
    | same _ hm => cases hm
    | removes _ hm => cases hm

/-- The replica applies the next record of the log. -/
theorem Mirror.Inv.deliver (h : s.Inv) {nowMs nowMono : UInt64}
    (ha : (MirrorAction.deliver nowMs nowMono).Mirrored s)
    (hstep : s.deliver nowMs nowMono = some s') : s'.Inv := by
  unfold Mirror.deliver at hstep
  split at hstep
  · rename_i r rest hatt hstream
    obtain ⟨⟨ok, e⟩, he, rfl⟩ := Option.map_eq_some_iff.mp hstep
    obtain ⟨n, hb⟩ := h.behind
    have hrel := hb.stream hatt
    rw [hstream] at hrel
    rcases hdrop : s.primary.log.records.drop n with _ | ⟨r', tl⟩ <;> rw [hdrop] at hrel
    · cases hrel
    obtain ⟨hcarry, htl⟩ := List.forall₂_cons.mp hrel
    have hget : s.primary.log.records[n]? = some r' := by
      rw [← List.head?_drop, hdrop]
      rfl
    obtain ⟨hsub', habs'⟩ := h.records r' (List.mem_of_getElem? hget)
    have hsub : r.Submittable := hcarry ▸ hsub'
    obtain ⟨t, ht⟩ := submit_of_submittable hb.isOpen hsub nowMs
    obtain ⟨ok₁, e₁, happly, hres⟩ := Engine.applyReplicated_eq he
    obtain ⟨hok₁, hplain, hc⟩ :=
      Engine.applyRecord_effect hb.plain (ha r (by rw [hstream]; rfl)) happly
    rcases hres with ⟨-, -, hno⟩ | ⟨lsn, log, rfl, -, hlog, rfl⟩
    · rw [hno hok₁] at ht
      cases ht
    rw [ht] at hlog
    cases hlog
    obtain ⟨hn, -⟩ := List.getElem?_eq_some_iff.mp hget
    refine ⟨h.plain, h.free, h.log, h.records, h.contents, n + 1, hn, hb.isOpen, ?_, hplain, ?_,
      fun _ => ?_⟩
    · show s.replica.log.nextLSN + 1 = n + 1 + 1
      rw [hb.next]
    · show e₁.store.contents = foldRecords (s.primary.log.records.take (n + 1))
      rw [hc, List.take_add_one, hget, Option.toList_some, foldRecords_append, hb.contents,
        hcarry.apply_effectAt, applyWith, habs'.effectAt_eq]
      rfl
    · show List.Forall₂ Record.Carries rest (s.primary.log.records.drop (n + 1))
      rw [← List.drop_drop, hdrop]
      exact htl
  · cases hstep

theorem Store.Plain.contents_of_empty {st : Store} (h : st.Plain) (he : st.Empty) :
    st.contents = fun _ => none := by
  funext k
  have hkeys := he (st.shardFor k) (h.inRange k)
  rw [Store.contents, Shard.contents, AList.lookup_eq_none.mpr]
  · rfl
  · rw [AList.mem_keys, hkeys]
    exact List.not_mem_nil

theorem Mirror.Inv.step (h : s.Inv) {a : MirrorAction} (ha : a.Mirrored s)
    (hstep : s.step a = some s') : s'.Inv := by
  cases a with
  | set key value nowMs nowMono => exact h.set ha hstep
  | delete key nowMs => exact h.delete ha hstep
  | flush durableLSN =>
    cases hstep
    obtain ⟨hplain, hc⟩ := h.plain.flushAll
    obtain ⟨n, hbehind⟩ := h.behind
    refine ⟨hplain, h.free, h.log, h.records, ?_, n, ?_⟩
    · exact hc.trans ((h.plain.contents_of_empty ha).symm.trans h.contents)
    · exact ⟨hbehind.le, hbehind.isOpen, hbehind.next, hbehind.plain, hbehind.contents,
        hbehind.stream⟩
  | rotate =>
    cases hstep
    obtain ⟨n, hbehind⟩ := h.behind
    exact ⟨h.plain, h.free, h.log, h.records, h.contents, n, hbehind.le, hbehind.isOpen,
      hbehind.next, hbehind.plain, hbehind.contents, hbehind.stream⟩
  | deliver nowMs nowMono => exact h.deliver ha hstep
  | disconnect =>
    cases hstep
    obtain ⟨n, hbehind⟩ := h.behind
    exact ⟨h.plain, h.free, h.log, h.records, h.contents, n, hbehind.le, hbehind.isOpen,
      hbehind.next, hbehind.plain, hbehind.contents, fun hatt => nomatch hatt⟩
  | reconnect =>
    replace hstep : s.reconnect = some s' := hstep
    unfold Mirror.reconnect at hstep
    dsimp only at hstep
    split at hstep
    · cases hstep
    rename_i haveFrom segs hsegs
    split_ifs at hstep with hfull
    cases hstep
    obtain ⟨n, hb⟩ := h.behind
    refine ⟨h.plain, h.free, h.log, h.records, h.contents, n, hb.le, hb.isOpen, hb.next, hb.plain,
      hb.contents, fun _ => ?_⟩
    have hfrom : s.replica.lastLSN = n := by rw [Engine.lastLSN, hb.next]; rfl
    rw [hfrom] at hfull ⊢
    -- the segments reach back to the record after the last one the replica has
    have hkeep : (s.primary.log.records.filter fun r => haveFrom ≤ r.lsn ∧ n < r.lsn) =
        s.primary.log.records.drop n := by
      rw [← h.log.filter n]
      refine List.filter_congr fun r _ => ?_
      simp only [decide_eq_decide]
      omega
    show List.Forall₂ Record.Carries (s.primary.log.records.filter fun r => haveFrom ≤ r.lsn ∧ n < r.lsn)
      (s.primary.log.records.drop n)
    rw [hkeep]
    exact List.forall₂_same.mpr fun _ _ => rfl

theorem Mirror.Inv.init (o o' : Options) (seed seed' : UInt64) (hmem : o.maxMemory ≤ 0)
    (hmem' : o'.maxMemory ≤ 0) : (Mirror.init o o' seed seed').Inv := by
  refine ⟨newStore_plain o seed hmem, fun _ => rfl,
    ⟨⟨rfl, rfl⟩, rfl, fun i r h => by simp [Mirror.init, newEngine] at h⟩, fun r hr => by simp [Mirror.init, newEngine] at hr, funext (newStore_contents o seed), 0,
    Nat.le_refl _, ⟨rfl, rfl⟩, rfl, newStore_plain o' seed' hmem',
    funext (newStore_contents o' seed'), fun _ => .nil⟩

/-- Without a memory limit and TTLs, operations one at a time: when every FLUSH meets an empty
    keyspace, a replica that is attached, from the start or after a partial resync, and has
    read its stream holds what the primary holds. -/
theorem flush_mirrored {o o' : Options} {seed seed' : UInt64} (hmem : o.maxMemory ≤ 0)
    (hmem' : o'.maxMemory ≤ 0)
    (hrun : Run Mirror.step (fun s a => a.Mirrored s) (.init o o' seed seed') s)
    (hattached : s.attached = true) (hdrained : s.stream = []) :
    s.replica.store.contents = s.primary.store.contents := by
  have hinv : s.Inv := hrun.invariant (fun _ _ _ h ha hs => h.step ha hs)
    (.init o o' seed seed' hmem hmem')
  obtain ⟨n, hb⟩ := hinv.behind
  have hrel := hb.stream hattached
  rw [hdrained, List.forall₂_nil_left_iff] at hrel
  rw [hb.contents, hinv.contents, List.take_of_length_le (List.drop_eq_nil_iff.mp hrel)]

/-- A key set and deleted again, FLUSH, and another key; the replica reads the first two
    records live, misses the third and gets it in a partial resync. -/
theorem flush_mirrored_reconnect :
    ∃ s, Run Mirror.step (fun s a => a.Mirrored s) (.init oneShard oneShard 1 2) s ∧
      s.attached = true ∧ s.stream = [] ∧ s.primary.store.contents [3] = some ([4], 0) ∧
      s.replica.store.contents = s.primary.store.contents := by
  obtain ⟨s, hrun, hatt, hnil, hthree⟩ := Run.exists_of_guarded Mirror.step
    (fun s a => a.Mirrored s) (.init oneShard oneShard 1 2)
    [.set [1] [2] 0 0, .delete [1] 0, .deliver 0 0, .rotate, .deliver 0 0, .flush 2, .disconnect,
      .set [3] [4] 0 0, .reconnect, .deliver 0 0]
    (fun s => s.attached = true ∧ s.stream = [] ∧ s.primary.store.contents [3] = some ([4], 0))
    (by decide +kernel)
  exact ⟨s, hrun, hatt, hnil, hthree, flush_mirrored (by decide) (by decide) hrun hatt hnil⟩

/-- FLUSH of the one key `[1]`: the replica keeps it while it is attached, and also after it
    has reconnected and got a later record in a partial resync. -/
theorem flush_not_mirrored :
    (∃ s, Run Mirror.step Always (.init oneShard oneShard 1 2) s ∧ s.attached = true ∧
      s.stream = [] ∧ s.primary.store.contents [1] = none ∧
      s.replica.store.contents [1] = some ([2], 0)) ∧
    ∃ s, Run Mirror.step Always (.init oneShard oneShard 1 2) s ∧ s.attached = true ∧
      s.stream = [] ∧ s.primary.store.contents [1] = none ∧
      s.replica.store.contents [1] = some ([2], 0) ∧
      s.replica.store.contents [3] = some ([4], 0) := by
  refine ⟨?_, ?_⟩
  · exact Run.exists_of_exec Mirror.step (.init oneShard oneShard 1 2)
      [.set [1] [2] 0 0, .deliver 0 0, .flush 1] _ (by decide +kernel)
  · exact Run.exists_of_exec Mirror.step (.init oneShard oneShard 1 2)
      [.set [1] [2] 0 0, .deliver 0 0, .flush 1, .disconnect, .set [3] [4] 0 0, .reconnect,
        .deliver 0 0] _ (by decide +kernel)

end KvStore
