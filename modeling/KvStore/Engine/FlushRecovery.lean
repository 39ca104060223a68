import KvStore.Engine.Snapshot
import KvStore.Engine.StoreSteps

/-!
# FLUSH and recovery

`resetKeyspace` (`internal/engine/commands.go` lines 181–185) clears the shards one after
another and then takes a snapshot. Nothing in the log says that a shard was cleared. What a
recovery replays are the records above the captured LSN, so a record that was submitted before
its shard was cleared must not be above it.

The ghost field `clearedAt` has the LSN the log was at when each shard was last cleared. Memory
is what the records since then say (`Flusher.Inv.contents`).

* `flush_recovers`: the durable LSN is captured when every record from before the clearing of
  its shard is durable.
* `flushed_key_comes_back`: a key that was written before its shard was cleared and became
  durable after the capture.
-/

namespace KvStore

open KvStore.Common

/-- Where the call of `Flush` is: there is none, before shard `i`, or in its snapshot. -/
inductive FlushStage
  | idle
  | clearing (i : ℕ)
  | scanning (lsn : ℕ) (cur : RangeCursor)

/-- The engine, the LSN up to which the log is durable, and the call of `Flush`. -/
structure Flusher where
  engine : Engine
  durableLSN : ℕ
  clearedAt : ℕ → ℕ
  stage : FlushStage

inductive FlushAction
  | set (key value : Bytes) (nowMs nowMono : UInt64)
  | submit (i : ℕ) (nowMs : UInt64)
  | durable (lsn : ℕ)
  | flush
  | clear
  | capture (nowMs : UInt64)
  | batch

namespace Flusher

/-- No call of `Flush` is running. -/
def Returned (c : Flusher) : Prop :=
  match c.stage with
  | .idle => True
  | .clearing _ => False
  | .scanning _ cur => c.engine.store.shardCount ≤ cur.shard

instance : (c : Flusher) → Decidable c.Returned
  | ⟨_, _, _, .idle⟩ => instDecidableTrue
  | ⟨_, _, _, .clearing _⟩ => instDecidableFalse
  | ⟨_, _, _, .scanning _ _⟩ => inferInstanceAs (Decidable (_ ≤ _))

/-- One step: of a client, of the log, or of `Flush`. -/
def step (c : Flusher) : FlushAction → Option Flusher
  | .set key value nowMs nowMono =>
    (c.engine.set key value 0 nowMs nowMono).map fun e => { c with engine := e }
  | .submit i nowMs => (c.engine.submit i nowMs).map fun e => { c with engine := e }
  | .durable lsn =>
    if c.durableLSN ≤ lsn ∧ lsn < c.engine.log.nextLSN then some { c with durableLSN := lsn }
    else none
  | .flush => if c.Returned then some { c with stage := .clearing 0 } else none
  | .clear =>
    match c.stage with
    | .clearing i =>
      if i < c.engine.store.shardCount then
        (c.engine.onShard i fun sh => ((), sh.flushLocked)).map fun p =>
          { c with
            engine := p.2
            clearedAt := Function.update c.clearedAt i c.engine.log.nextLSN
            stage := .clearing (i + 1) }
      else none
    | _ => none
  | .capture nowMs =>
    match c.stage with
    | .clearing i =>
      if i < c.engine.store.shardCount then none
      else some { c with stage := .scanning c.durableLSN ⟨nowMs, 0, 0, []⟩ }
    | _ => none
  | .batch =>
    match c.stage with
    | .scanning lsn cur =>
      if (c.engine.inflight cur.shard).isSome then none
      else (c.engine.store.rangeStep cur).map fun cur => { c with stage := .scanning lsn cur }
    | _ => none

/-- A new engine. -/
def init (o : Options) (newSeed : UInt64) : Flusher :=
  ⟨newEngine o newSeed, 0, fun _ => 0, .idle⟩

end Flusher

/-- The condition on a step: a `Set` is one the log takes and leaves its shard below `2^31`
    entries; the durable LSN is captured when every record that was submitted before its shard
    was cleared is durable. -/
def FlushAction.Settled (c : Flusher) : FlushAction → Prop
  | .set key value _ nowMono =>
    key.length ≤ maxKeyLen ∧ value.length ≤ maxValLen ∧
      ((c.engine.store.shards (c.engine.store.shardFor key)).setLocked key value 0
        nowMono).2.entries.keys.length < 2 ^ 31
  | .capture _ =>
    ∀ r ∈ c.engine.log.records,
      c.clearedAt (c.engine.store.shardFor r.key) ≤ r.lsn ∨ r.lsn ≤ c.durableLSN
  | _ => True

instance (c : Flusher) : (a : FlushAction) → Decidable (a.Settled c)
  | .set .. => inferInstanceAs (Decidable (_ ∧ _ ∧ _))
  | .capture _ => inferInstanceAs (Decidable (∀ r ∈ c.engine.log.records, _ ∨ _))
  | .submit .. | .durable _ | .flush | .clear | .batch => instDecidableTrue

/-! ## The invariant -/

/-- The records submitted since shard `i` was cleared, and the one in flight there. -/
def Flusher.recent (c : Flusher) (i : ℕ) : List Record :=
  (c.engine.log.records.filter fun r => c.clearedAt i ≤ r.lsn) ++ (c.engine.inflight i).toList

structure Flusher.Inv (c : Flusher) : Prop where
  plain : c.engine.store.Plain
  isOpen : c.engine.log.closed = false ∧ c.engine.log.fatal = false
  noTTL : ∀ r ∈ c.engine.log.records, r.NoTTL
  inflight : ∀ i r, c.engine.inflight i = some r →
    r.NoTTL ∧ r.Submittable ∧ c.engine.store.shardFor r.key = i
  sorted : c.engine.log.records.Pairwise fun a b => a.lsn < b.lsn
  below : ∀ r ∈ c.engine.log.records, r.lsn < c.engine.log.nextLSN
  durable : c.durableLSN < c.engine.log.nextLSN
  cleared : ∀ i, c.clearedAt i ≤ c.engine.log.nextLSN
  contents : ∀ k, c.engine.store.contents k =
    foldRecords (c.recent (c.engine.store.shardFor k)) k
  scan : ∀ lsn cur, c.stage = .scanning lsn cur →
    lsn < c.engine.log.nextLSN ∧ c.engine.Covered lsn cur ∧
      ∀ r ∈ c.engine.log.records, lsn < r.lsn →
        c.clearedAt (c.engine.store.shardFor r.key) ≤ r.lsn

variable {c c' : Flusher} {e e' : Engine} {lsn : ℕ} {cur cur' : RangeCursor}

theorem Flusher.Inv.recent_noTTL (h : c.Inv) (i : ℕ) : ∀ r ∈ c.recent i, r.NoTTL := by
  intro r hr
  rcases List.mem_append.mp hr with hr | hr
  · exact h.noTTL r (List.mem_filter.mp hr).1
  · exact (h.inflight i r (Option.mem_toList.mp hr)).1

theorem Flusher.Inv.deadline (h : c.Inv) {k : Bytes} {d : Bytes × UInt64}
    (hd : c.engine.store.contents k = some d) : d.2 = 0 := by
  rw [h.contents] at hd
  exact foldRecords_deadline (fun r hr => (h.recent_noTTL _ r hr).2) hd

/-! ## Steps -/

/-- A mutation that its record describes, moving no other entry in the slots of its shard. -/
theorem Flusher.Inv.mutate (h : c.Inv) {r : Record} {sh : Shard} (hr : r.NoTTL)
    (hsub : r.Submittable) (hplain : e.store.Plain) (hlog : e.log = c.engine.log)
    (hstore : e.store = c.engine.store.put (c.engine.store.shardFor r.key) sh)
    (hfree : c.engine.inflight (c.engine.store.shardFor r.key) = none)
    (hinfl : e.inflight =
      Function.update c.engine.inflight (c.engine.store.shardFor r.key) (some r))
    (hcont : e.store.contents = applyWith Record.effect c.engine.store.contents r)
    (hkeeps : ∀ n, (c.engine.store.shards (c.engine.store.shardFor r.key)).Keeps r.key n sh) :
    Flusher.Inv { c with engine := e } := by
  have hroute : e.store.shardFor = c.engine.store.shardFor := by rw [hstore]; rfl
  have hrecent : ∀ i, Flusher.recent { c with engine := e } i =
      if i = c.engine.store.shardFor r.key then c.recent i ++ [r] else c.recent i := by
    intro i
    unfold Flusher.recent
    dsimp only
    rw [hlog, hinfl]
    split_ifs with hi
    · rw [hi, Function.update_self, hfree]
      simp
    · rw [Function.update_of_ne hi]
  refine
    { plain := hplain
      isOpen := hlog ▸ h.isOpen
      noTTL := hlog ▸ h.noTTL
      inflight := fun i x hx => ?_
      sorted := hlog ▸ h.sorted
      below := hlog ▸ h.below
      durable := hlog ▸ h.durable
      cleared := hlog ▸ h.cleared
      contents := fun k => ?_
      scan := fun lsn cur hs => ?_ }
  · replace hx : e.inflight i = some x := hx
    show x.NoTTL ∧ x.Submittable ∧ e.store.shardFor x.key = i
    rw [hinfl] at hx
    rw [hroute]
    by_cases hi : i = c.engine.store.shardFor r.key
    · rw [hi, Function.update_self] at hx
      cases hx
      exact ⟨hr, hsub, hi.symm⟩
    · rw [Function.update_of_ne hi] at hx
      exact h.inflight i x hx
  · show e.store.contents k = foldRecords (Flusher.recent _ (e.store.shardFor k)) k
    rw [hcont, hroute, hrecent]
    split_ifs with hi
    · rw [foldRecords_append]
      by_cases hk : k = r.key
      · rw [hk, applyWith_self, applyWith_self, h.contents]
      · rw [applyWith_of_ne _ hk, applyWith_of_ne _ hk, h.contents]
    · have hk : k ≠ r.key := fun hk => hi (by rw [hk])
      rw [applyWith_of_ne _ hk, h.contents]
  · obtain ⟨hlsn, hcov, hafter⟩ := h.scan lsn cur hs
    refine ⟨hlog ▸ hlsn, ?_, ?_⟩
    · refine hcov.mutate hstore (by rw [hlog]) hinfl hfree (fun k hk => ?_) (fun n _ => hkeeps n)
        fun _ => hkeeps _
      rw [hcont, applyWith_of_ne _ hk]
    · show ∀ x ∈ e.log.records, lsn < x.lsn → c.clearedAt (e.store.shardFor x.key) ≤ x.lsn
      rw [hlog, hroute]
      exact hafter

theorem Flusher.Inv.set (h : c.Inv) {key value : Bytes} {nowMs nowMono : UInt64}
    (ha : (FlushAction.set key value nowMs nowMono).Settled c)
    (hstep : c.engine.set key value 0 nowMs nowMono = some e) :
    Flusher.Inv { c with engine := e } := by
  obtain ⟨hkl, hvl, hcount⟩ := ha
  have hzero : Engine.deadline 0 nowMs = 0 := if_pos rfl
  rw [← hzero] at hcount
  have hb := h.plain.unlimited (c.engine.store.shardFor key)
  have hindex := h.plain.index (c.engine.store.shardFor key)
  have hok := (setLocked_effect_unlimited hindex.toKeyInv hb key value
    (Engine.deadline 0 nowMs) nowMono).1
  obtain ⟨hplain, hchange⟩ := Engine.step_changes
    (a := .set key value 0 nowMs nowMono) h.plain hcount hstep
  have hcont : e.store.contents =
      applyWith Record.effect c.engine.store.contents
        (Engine.record .set key value (Engine.deadline 0 nowMs)) := by
    generalize e.store.contents = m at hchange
    cases hchange with
    | set => rfl
    | same _ hm => cases hm
    | removes _ hm => cases hm
  obtain ⟨hlog, hstore⟩ := mutate_frame hstep
  exact h.mutate ⟨.inl rfl, hzero⟩ ⟨hkl, hvl, by simp [Engine.record]⟩ hplain hlog hstore
    (mutate_free hstep) (mutate_inflight hstep hok) hcont
    fun n => setLocked_keeps hindex hb key value _ nowMono n

/-- `Submit` moves a record from in flight to the log. -/
theorem Flusher.Inv.submit (h : c.Inv) {i : ℕ} {nowMs : UInt64}
    (hstep : c.engine.submit i nowMs = some e) : Flusher.Inv { c with engine := e } := by
  obtain ⟨r, hr, rfl⟩ := Option.map_eq_some_iff.mp hstep
  obtain ⟨hnoTTL, hsub, hroute⟩ := h.inflight i r hr
  obtain ⟨t, ht⟩ := submit_of_submittable h.isOpen hsub nowMs
  dsimp only
  rw [ht]
  dsimp only
  refine
    { plain := h.plain
      isOpen := h.isOpen
      noTTL := fun x hx => ?_
      inflight := fun j x hx => h.inflight j x (inflight_of_update_none hx)
      sorted := ?_
      below := fun x hx => ?_
      durable := Nat.lt_succ_of_lt h.durable
      cleared := fun j => Nat.le_succ_of_le (h.cleared j)
      contents := fun k => ?_
      scan := fun lsn cur hs => ?_ }
  · rcases List.mem_append.mp hx with hx | hx
    · exact h.noTTL x hx
    · rw [List.mem_singleton.mp hx]
      exact hnoTTL
  · refine List.pairwise_append.mpr ⟨h.sorted, List.pairwise_singleton _ _, fun a ha b hb => ?_⟩
    rw [List.mem_singleton.mp hb]
    exact h.below a ha
  · rcases List.mem_append.mp hx with hx | hx
    · exact Nat.lt_succ_of_lt (h.below x hx)
    · rw [List.mem_singleton.mp hx]
      exact Nat.lt_succ_self _
  · rw [h.contents]
    unfold Flusher.recent
    dsimp only
    rw [List.filter_append, List.filter_singleton, decide_eq_true (h.cleared _)]
    by_cases hk : c.engine.store.shardFor k = i
    · rw [hk, Function.update_self, hr]
      simp only [Bool.cond_true, Option.toList_none, Option.toList_some, List.append_nil,
        foldRecords_append]
      rfl
    · -- the record is about a key of another shard
      have hne : k ≠ r.key := fun hkr => hk (by rw [hkr, hroute])
      rw [Function.update_of_ne hk]
      unfold foldRecords foldWith
      rw [List.foldl_append, List.foldl_append]
      refine foldl_applyWith_congr ?_
      rw [List.foldl_append, cond_true, List.foldl_cons, List.foldl_nil]
      refine (applyWith_of_ne (f := Record.effect) _ ?_).symm
      exact hne
  · obtain ⟨hlsn, hcov, hafter⟩ := h.scan lsn cur hs
    refine ⟨Nat.lt_succ_of_lt hlsn, hcov.submit hr ?_ ?_ rfl rfl rfl, fun x hx hx' => ?_⟩
    · rfl
    · exact hlsn
    · rcases List.mem_append.mp hx with hx | hx
      · exact hafter x hx hx'
      · rw [List.mem_singleton.mp hx]
        exact h.cleared _

/-- Clearing a shard: nothing said about its keys so far counts any more. -/
theorem Flusher.Inv.clear (h : c.Inv) {i : ℕ} {u : Unit}
    (hstep : c.engine.onShard i (fun sh => ((), sh.flushLocked)) = some (u, e)) :
    Flusher.Inv { c with
      engine := e
      clearedAt := Function.update c.clearedAt i c.engine.log.nextLSN
      stage := .clearing (i + 1) } := by
  obtain ⟨hfree, -, q, d, rfl⟩ := onShard_eq hstep
  obtain ⟨hplain, hcont⟩ := h.plain.flush i
  refine
    { plain := hplain.put_report []
      isOpen := h.isOpen
      noTTL := h.noTTL
      inflight := h.inflight
      sorted := h.sorted
      below := h.below
      durable := h.durable
      cleared := fun j => ?_
      contents := fun k => ?_
      scan := nofun }
  · show Function.update c.clearedAt i c.engine.log.nextLSN j ≤ c.engine.log.nextLSN
    by_cases hj : j = i
    · rw [hj, Function.update_self]
    · rw [Function.update_of_ne hj]
      exact h.cleared j
  · dsimp only
    rw [contents_put_report, hcont]
    show _ = foldRecords (Flusher.recent _ (c.engine.store.shardFor k)) k
    unfold Flusher.recent
    dsimp only
    split_ifs with hk
    · have hnone : (c.engine.log.records.filter fun r => c.engine.log.nextLSN ≤ r.lsn) = [] := by
        refine List.filter_eq_nil_iff.mpr fun r hr => ?_
        have hlt := h.below r hr
        simp only [decide_eq_true_eq]
        omega
      simp only [hk, Function.update_self, hfree, hnone]
      rfl
    · simp only [Function.update_of_ne hk, h.contents]
      rfl

theorem Flusher.Inv.batch (h : c.Inv) (hs : c.stage = .scanning lsn cur)
    (hstep : c.engine.store.rangeStep cur = some cur') :
    Flusher.Inv { c with stage := .scanning lsn cur' } := by
  obtain ⟨hlsn, hcov, hafter⟩ := h.scan lsn cur hs
  refine ⟨h.plain, h.isOpen, h.noTTL, h.inflight, h.sorted, h.below, h.durable, h.cleared, h.contents,
    fun l cur1 hc => ?_⟩
  cases hc
  exact ⟨hlsn, hcov.batch (h.plain.index cur.shard) (h.plain.routed cur.shard)
    (fun _ _ => h.deadline) hstep, hafter⟩

theorem Flusher.Inv.step (h : c.Inv) {a : FlushAction} (ha : a.Settled c)
    (hstep : c.step a = some c') : c'.Inv := by
  cases a with
  | set key value nowMs nowMono =>
    obtain ⟨e, he, rfl⟩ := Option.map_eq_some_iff.mp hstep
    exact h.set ha he
  | submit i nowMs =>
    obtain ⟨e, he, rfl⟩ := Option.map_eq_some_iff.mp hstep
    exact h.submit he
  | durable lsn =>
    simp only [Flusher.step] at hstep
    split_ifs at hstep with hlsn
    cases hstep
    exact ⟨h.plain, h.isOpen, h.noTTL, h.inflight, h.sorted, h.below, hlsn.2, h.cleared,
      h.contents, h.scan⟩
  | flush =>
    simp only [Flusher.step] at hstep
    split_ifs at hstep
    cases hstep
    exact ⟨h.plain, h.isOpen, h.noTTL, h.inflight, h.sorted, h.below, h.durable, h.cleared,
      h.contents, nofun⟩
  | clear =>
    simp only [Flusher.step] at hstep
    split at hstep
    · split_ifs at hstep
      obtain ⟨⟨u, e⟩, he, rfl⟩ := Option.map_eq_some_iff.mp hstep
      exact h.clear he
    · cases hstep
  | capture nowMs =>
    simp only [Flusher.step] at hstep
    split at hstep
    · split_ifs at hstep
      cases hstep
      refine ⟨h.plain, h.isOpen, h.noTTL, h.inflight, h.sorted, h.below, h.durable, h.cleared,
        h.contents, fun l cur hc => ?_⟩
      cases hc
      refine ⟨h.durable, .start _ _ _, fun r hr hlt => ?_⟩
      have hle := (ha r hr).resolve_right (Nat.not_le.mpr hlt)
      exact hle
    · cases hstep
  | batch =>
    simp only [Flusher.step] at hstep
    split at hstep
    · rename_i lsn cur hs
      split_ifs at hstep
      obtain ⟨cur', hcur, rfl⟩ := Option.map_eq_some_iff.mp hstep
      exact h.batch hs hcur
    · cases hstep

theorem Flusher.Inv.init (o : Options) (newSeed : UInt64) (hmem : o.maxMemory ≤ 0) :
    (Flusher.init o newSeed).Inv where
  plain := newStore_plain o newSeed hmem
  isOpen := ⟨rfl, rfl⟩
  noTTL := nofun
  inflight := nofun
  sorted := List.Pairwise.nil
  below := nofun
  durable := Nat.zero_lt_one
  cleared _ := Nat.zero_le _
  contents k := newStore_contents o newSeed k
  scan := nofun

/-! ## Recovery -/

/-- Records that are not about `k` may be left out. -/
theorem foldl_filter_effect {rs : List Record} {p : Record → Bool} {k : Bytes}
    (h : ∀ r ∈ rs, r.key = k → p r = true) (m : Keyspace Bytes Bytes) :
    (rs.filter p).foldl (applyWith Record.effect) m k = rs.foldl (applyWith Record.effect) m k := by
  induction rs generalizing m with
  | nil => rfl
  | cons r rs ih =>
    have ih := ih fun x hx => h x (List.mem_cons_of_mem r hx)
    by_cases hp : p r = true
    · rw [List.filter_cons_of_pos hp, List.foldl_cons, List.foldl_cons, ih]
    · have hk : k ≠ r.key := fun hk => hp (h r List.mem_cons_self hk.symm)
      rw [List.filter_cons_of_neg hp, ih, List.foldl_cons]
      exact foldl_applyWith_congr (applyWith_of_ne m hk).symm

/-- Without TTLs and a memory limit, and with the durable LSN captured late enough: once the
    calls have returned, the snapshot of a FLUSH and the records above its LSN give back
    memory, whatever was written while the shards were cleared and the snapshot was taken. -/
theorem flush_recovers {o : Options} {newSeed : UInt64} (hmem : o.maxMemory ≤ 0)
    (hrun : Run Flusher.step (fun c a => a.Settled c) (.init o newSeed) c)
    (hs : c.stage = .scanning lsn cur) (hdone : c.Returned)
    (hidle : ∀ i, c.engine.inflight i = none) (o' : Options) (newSeed' : UInt64)
    (hmem' : o'.maxMemory ≤ 0) (nowMs nowMono : UInt64) :
    ∃ s, (newStore o' newSeed').recover nowMs nowMono cur.out lsn c.engine.log.records = some s ∧
      s.contents = c.engine.store.contents := by
  have hinv : c.Inv := hrun.invariant (fun _ _ _ h ha hs => h.step ha hs) (.init o newSeed hmem)
  obtain ⟨s, hrec, -, hcont⟩ := (newStore_plain o' newSeed' hmem').keyed.recover nowMs nowMono
    cur.out lsn c.engine.log.records
  refine ⟨s, hrec, ?_⟩
  obtain ⟨-, hcov, hafter⟩ := hinv.scan lsn cur hs
  obtain ⟨old, hold⟩ := exists_split_lsn hinv.sorted lsn
  obtain ⟨tail, htail⟩ : ∃ t, t = c.engine.log.records.filter fun r => lsn < r.lsn := ⟨_, rfl⟩
  rw [← htail] at hold
  have hmemtail : ∀ r ∈ tail, r ∈ c.engine.log.records ∧ lsn < r.lsn := fun r hr => by
    rw [htail, List.mem_filter, decide_eq_true_eq] at hr
    exact hr
  have habs : ∀ r ∈ tail, r.Absolute := fun r hr => (hinv.noTTL r (hmemtail r hr).1).1
  rw [hcont, ← htail, foldl_applyWith_eq fun r hr => (habs r hr).effectAt_eq]
  funext k
  by_cases hk : ∃ r ∈ tail, r.key = k
  · -- the records about `k` above the LSN were submitted after its shard was cleared
    obtain ⟨r, hr, hrk⟩ := hk
    rw [hinv.contents, Flusher.recent, hidle, Option.toList_none, List.append_nil, hold,
      List.filter_append, foldRecords, foldWith, List.foldl_append, foldl_filter_effect]
    · exact foldl_effect_absolute ⟨r, hr, habs r hr, hrk⟩
    · intro x hx hxk
      obtain ⟨hx1, hx2⟩ := hmemtail x hx
      have := hafter x hx1 hx2
      rw [hxk] at this
      exact decide_eq_true this
  · rw [foldl_applyWith_of_ne fun r hr hrk => hk ⟨r, hr, hrk⟩]
    have hfin : c.engine.store.shardCount ≤ cur.shard := by
      unfold Flusher.Returned at hdone
      rwa [hs] at hdone
    refine hcov.load (hinv.plain.index _) (lt_of_lt_of_le (hinv.plain.inRange k) hfin) ?_
      (newStore_contents o' newSeed' k)
    rintro (⟨r, hr, hlt, hrk⟩ | ⟨i, r, hr, -⟩)
    · refine hk ⟨r, ?_, hrk⟩
      rw [htail]
      exact List.mem_filter.mpr ⟨hr, decide_eq_true hlt⟩
    · rw [hidle] at hr; cases hr

/-- The snapshot of the last FLUSH: its LSN and what was written. -/
def FlushStage.file : FlushStage → Option (ℕ × List SnapEntry)
  | .scanning lsn cur => some (lsn, cur.out)
  | _ => none

theorem FlushStage.eq_scanning {st : FlushStage} {out : List SnapEntry}
    (h : st.file = some (lsn, out)) : ∃ cur, st = .scanning lsn cur ∧ cur.out = out := by
  cases st with
  | scanning l cur =>
    cases h
    exact ⟨cur, rfl, rfl⟩
  | idle => cases h
  | clearing i => cases h

/-- A key is written and becomes durable; FLUSH clears the shard, another key is written, and
    the snapshot is taken. -/
theorem flush_recovers_one :
    ∃ c s, Run Flusher.step (fun c a => a.Settled c) (.init oneShard 1) c ∧
      c.stage.file = some (1, [⟨[3], [4], 0⟩]) ∧ c.engine.store.contents [1] = none ∧
      (newStore oneShard 2).recover 0 0 [⟨[3], [4], 0⟩] 1 c.engine.log.records = some s ∧
      s.contents = c.engine.store.contents := by
  obtain ⟨c, hrun, hfile, hret, hcount, hfree, h1⟩ := Run.exists_of_guarded Flusher.step
    (fun c a => a.Settled c) (.init oneShard 1)
    [.set [1] [2] 0 0, .submit 0 0, .durable 1, .flush, .clear, .set [3] [4] 0 0, .capture 0,
      .submit 0 0, .batch]
    (fun c => c.stage.file = some (1, [⟨[3], [4], 0⟩]) ∧ c.Returned ∧
      c.engine.store.shardCount = 1 ∧ c.engine.inflight 0 = none ∧
      c.engine.store.contents [1] = none) (by decide +kernel)
  obtain ⟨cur, hs, hout⟩ := FlushStage.eq_scanning hfile
  have hinv : c.Inv :=
    hrun.invariant (fun _ _ _ h ha hs => h.step ha hs) (.init oneShard 1 (by decide))
  have hidle : ∀ i, c.engine.inflight i = none := by
    intro i
    rcases hi : c.engine.inflight i with _ | r
    · rfl
    · have hroute := (hinv.inflight i r hi).2.2
      have hzero : c.engine.store.shardFor r.key = 0 := if_pos hcount
      rw [← hroute, hzero, hfree] at hi
      cases hi
  obtain ⟨s, hrec, hcont⟩ :=
    flush_recovers (by decide) hrun hs hret hidle oneShard 2 (by decide) 0 0
  exact ⟨c, s, hrun, hfile, h1, hout ▸ hrec, hcont⟩

/-- A key is written and its record is still to become durable when FLUSH clears the shard and
    captures the durable LSN. The snapshot is empty, and replay brings the key back. -/
theorem flushed_key_comes_back :
    ∃ c, Run Flusher.step Always (.init oneShard 1) c ∧ c.Returned ∧ c.engine.inflight 0 = none ∧
      c.durableLSN = 1 ∧ c.stage.file = some (0, []) ∧ c.engine.store.contents [1] = none ∧
      ((newStore oneShard 2).recover 0 0 [] 0 c.engine.log.records).map
        (fun s => s.contents [1]) = some (some ([2], 0)) :=
  Run.exists_of_exec Flusher.step (.init oneShard 1)
    [.set [1] [2] 0 0, .submit 0 0, .flush, .clear, .capture 0, .durable 1, .batch] _
    (by decide +kernel)

end KvStore
