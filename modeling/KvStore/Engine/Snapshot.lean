import KvStore.Engine.LogOrder
import KvStore.Engine.Recovery
import KvStore.Store.Filled

/-!
# Snapshots under traffic

`Engine.Snapshot` (`internal/engine/commands.go` lines 328–379) captures the durable
LSN, writes what `Range` hands out, and commits. Clients go on writing between the
batches. What a snapshot misses has to be in the log above the captured LSN.

A key is `Touched` when a record above that LSN names it, or one in flight does. The
invariant of the scan (`Covered`) is about the other keys: what the file has of them is
what memory has, and those of them that sit in the scanned part are in the file.

A `Delete` that frees a scanned slot while there are slots still to be scanned breaks
it: the last entry moves to the freed slot and is never looked at. In runs without such
a `Delete` (`SnapAction.Steady`) nothing is lost.

* `snapshot_replay_recovers`: steady runs.
* `snapshot_loses_moved_key`: a run that is not.
-/

namespace KvStore

open KvStore.Common

/-- The engine, the LSN up to which the log is durable, and the snapshot in progress or
    last taken: the LSN it captured and the scan. -/
structure Snapshotter where
  engine : Engine
  durableLSN : ℕ
  scan : Option (ℕ × RangeCursor)

/-- The steps of clients that use no deadlines, of the log and of `Snapshot`. -/
inductive SnapAction
  | set (key value : Bytes) (nowMs nowMono : UInt64)
  | delete (key : Bytes) (nowMs : UInt64)
  | submit (i : ℕ) (nowMs : UInt64)
  | durable (lsn : ℕ)
  | start (nowMs : UInt64)
  | batch

namespace Snapshotter

/-- The scan has passed all shards. -/
def Finished (c : Snapshotter) (cur : RangeCursor) : Prop := c.engine.store.shardCount ≤ cur.shard

instance (c : Snapshotter) (cur : RangeCursor) : Decidable (c.Finished cur) :=
  inferInstanceAs (Decidable (_ ≤ _))

/-- One step. `snapMu` lets one snapshot run at a time; a batch takes the lock of its
    shard, which a mutation in flight holds. -/
def step (c : Snapshotter) : SnapAction → Option Snapshotter
  | .set key value nowMs nowMono =>
    (c.engine.set key value 0 nowMs nowMono).map fun e => { c with engine := e }
  | .delete key nowMs => (c.engine.delete key nowMs).map fun e => { c with engine := e }
  | .submit i nowMs => (c.engine.submit i nowMs).map fun e => { c with engine := e }
  | .durable lsn =>
    if c.durableLSN ≤ lsn ∧ lsn < c.engine.log.nextLSN then some { c with durableLSN := lsn }
    else none
  | .start nowMs =>
    if ∀ x ∈ c.scan, c.Finished x.2 then
      some { c with scan := some (c.durableLSN, ⟨nowMs, 0, 0, []⟩) }
    else none
  | .batch =>
    c.scan.bind fun (lsn, cur) =>
      if (c.engine.inflight cur.shard).isSome then none
      else (c.engine.store.rangeStep cur).map fun cur => { c with scan := some (lsn, cur) }

end Snapshotter

/-- The condition on a step. A `Set` is one the log takes and leaves the shard below `2^31`
    entries. A `Delete` is one the log takes, and if it frees a slot of the shard being
    scanned, then either that slot is still to be scanned or all slots have been. -/
def SnapAction.Steady (c : Snapshotter) : SnapAction → Prop
  | .set key value _ nowMono =>
    key.length ≤ maxKeyLen ∧ value.length ≤ maxValLen ∧
      ((c.engine.store.shards (c.engine.store.shardFor key)).setLocked key value 0
        nowMono).2.entries.keys.length < 2 ^ 31
  | .delete key _ =>
    key.length ≤ maxKeyLen ∧
      ∀ x ∈ c.scan, x.2.shard = c.engine.store.shardFor key →
        ∀ p, (c.engine.store.shards x.2.shard).entries.lookup key = some p →
          (x.2.offset : ℤ) ≤ (c.engine.store.shards x.2.shard).slots.pos p ∨
            (c.engine.store.shards x.2.shard).slots.items.length ≤ x.2.offset
  | _ => True

/-- A SET or DELETE without a deadline. -/
def Record.NoTTL (r : Record) : Prop := r.Absolute ∧ r.expireAtMs = 0

/-- A store and a log in agreement, without deadlines and without a memory limit, and no
    snapshot taken yet. -/
structure Snapshotter.Agreement (c : Snapshotter) : Prop where
  base : c.engine.Base
  unlimited : ∀ i, (c.engine.store.shards i).budget ≤ 0
  inRange : ∀ k, c.engine.store.shardFor k < c.engine.store.shardCount
  idle : c.engine.pendingKeys = [] ∧ c.engine.evictDrops = 0 ∧ ∀ i, c.engine.inflight i = none
  agree : foldRecords c.engine.log.records = c.engine.store.contents
  noTTL : ∀ r ∈ c.engine.log.records, r.NoTTL
  sorted : c.engine.log.records.Pairwise fun a b => a.lsn < b.lsn
  below : ∀ r ∈ c.engine.log.records, r.lsn < c.engine.log.nextLSN
  durable : c.durableLSN < c.engine.log.nextLSN
  fresh : c.scan = none

/-! ## The invariant -/

/-- A record above `lsn`, or one in flight, is about `k`. -/
def Engine.Touched (e : Engine) (lsn : ℕ) (k : Bytes) : Prop :=
  (∃ r ∈ e.log.records, lsn < r.lsn ∧ r.key = k) ∨ ∃ i r, e.inflight i = some r ∧ r.key = k

/-- What the file says about untouched keys is right, and it has those that were passed. -/
structure Engine.Covered (e : Engine) (lsn : ℕ) (cur : RangeCursor) : Prop where
  file : ∀ x ∈ cur.out, ¬ e.Touched lsn x.key →
    e.store.contents x.key = some (x.value, x.expireAtMs)
  seen : ∀ j, ∀ p ∈ cur.scanned e.store j, ¬ e.Touched lsn ((e.store.shards j).heap p).key →
    (e.store.shards j).clone p ∈ cur.out

structure Snapshotter.Inv (c : Snapshotter) : Prop where
  engine : c.engine.Inv
  quiet : c.engine.pendingKeys = [] ∧ c.engine.evictDrops = 0
  unlimited : ∀ i, (c.engine.store.shards i).budget ≤ 0
  inRange : ∀ k, c.engine.store.shardFor k < c.engine.store.shardCount
  noTTL : ∀ r ∈ c.engine.log.records, r.NoTTL
  inflight : ∀ i r, c.engine.inflight i = some r → r.NoTTL
  sorted : c.engine.log.records.Pairwise fun a b => a.lsn < b.lsn
  below : ∀ r ∈ c.engine.log.records, r.lsn < c.engine.log.nextLSN
  durable : c.durableLSN < c.engine.log.nextLSN
  scan : ∀ lsn cur, c.scan = some (lsn, cur) →
    lsn < c.engine.log.nextLSN ∧ c.engine.Covered lsn cur

variable {c c' : Snapshotter} {e e' : Engine} {lsn : ℕ} {cur cur' : RangeCursor}

theorem Snapshotter.Agreement.inv (h : c.Agreement) : c.Inv where
  engine :=
    { toBase := h.base
      inflight := fun hr => by rw [h.idle.2.2] at hr; cases hr
      pendingLen := fun k hk => by rw [h.idle.1] at hk; cases hk
      follows := fun _ k => ⟨fun hk => (by rw [h.idle.1] at hk; cases hk), fun _ => by
        rw [logged_of_idle h.idle.2.2, ← h.agree]; rfl⟩ }
  quiet := ⟨h.idle.1, h.idle.2.1⟩
  unlimited := h.unlimited
  inRange := h.inRange
  noTTL := h.noTTL
  inflight := fun i r hr => by rw [h.idle.2.2] at hr; cases hr
  sorted := h.sorted
  below := h.below
  durable := h.durable
  scan := fun lsn cur hs => by rw [h.fresh] at hs; cases hs

/-- Memory is what the log and the records in flight say. -/
theorem Snapshotter.Inv.contents (h : c.Inv) (k : Bytes) :
    c.engine.logged Record.effect k = c.engine.store.contents k :=
  (h.engine.follows h.quiet.2 k).2 (by rw [h.quiet.1]; exact List.not_mem_nil)

theorem Snapshotter.Inv.deadline (h : c.Inv) {k : Bytes} {d : Bytes × UInt64}
    (hd : c.engine.store.contents k = some d) : d.2 = 0 := by
  rw [← h.contents, Engine.logged] at hd
  have hlog : ∀ r ∈ c.engine.log.records, r.expireAtMs = 0 := fun r hr => (h.noTTL r hr).2
  cases hi : c.engine.inflight (c.engine.store.shardFor k) with
  | none =>
    rw [hi] at hd
    exact foldRecords_deadline hlog hd
  | some r =>
    rw [hi] at hd
    dsimp only at hd
    rw [← foldWith_append] at hd
    refine foldRecords_deadline (fun x hx => ?_) hd
    rcases List.mem_append.mp hx with hx | hx
    · exact hlog x hx
    · rw [List.mem_singleton.mp hx]; exact (h.inflight _ r hi).2

/-! ## Client steps -/

/-- A mutation that reports no removal. -/
theorem mutate_quiet {rec : Record} {apply : Shard → Bool × Shard} {sh : Shard}
    (hprimary : e.readOnly = false ∧ e.closed = false)
    (hfree : e.inflight (e.store.shardFor rec.key) = none)
    (hsh : e.store.shards (e.store.shardFor rec.key) = sh)
    (hev : (apply sh).2.onEvict = []) (hok : (apply sh).1 = true) :
    e.mutate rec apply = some { e with
      store := e.store.put (e.store.shardFor rec.key) (apply sh).2
      inflight := Function.update e.inflight (e.store.shardFor rec.key) (some rec) } := by
  have hsame : { (apply sh).2 with onEvict := [] } = (apply sh).2 := by rw [← hev]
  unfold Engine.mutate Engine.onShard
  rw [if_neg (by simp [hprimary.1, hprimary.2]), if_neg (by simp [hfree]), hsh]
  simp only [hsame, hev, hok, List.foldl_nil, Option.map_some, if_true]
  rfl

theorem mutate_free {rec : Record} {apply : Shard → Bool × Shard}
    (hstep : e.mutate rec apply = some e') : e.inflight (e.store.shardFor rec.key) = none := by
  unfold Engine.mutate Engine.onShard at hstep
  split_ifs at hstep with _ hfree
  · cases hstep
  · simpa using hfree

theorem Engine.Touched.mutate {rec : Record} {i : ℕ} {k : Bytes}
    (hlog : e'.log.records = e.log.records)
    (hinfl : e'.inflight = Function.update e.inflight i (some rec)) (hfree : e.inflight i = none)
    (h : e.Touched lsn k ∨ k = rec.key) : e'.Touched lsn k := by
  rcases h with (⟨r, hr, hk⟩ | ⟨j, r, hr, hk⟩) | rfl
  · exact Or.inl ⟨r, hlog ▸ hr, hk⟩
  · refine Or.inr ⟨j, r, ?_, hk⟩
    have hji : j ≠ i := by rintro rfl; rw [hfree] at hr; cases hr
    rwa [hinfl, Function.update_of_ne hji]
  · exact Or.inr ⟨i, rec, by rw [hinfl, Function.update_self], rfl⟩

/-- `Submit` moves a record from in flight to the log, above every captured LSN. -/
theorem Engine.Touched.submit {i : ℕ} {r r' : Record} {k : Bytes} (hr : e.inflight i = some r)
    (hkey : r'.key = r.key) (hlsn : lsn < r'.lsn)
    (hlog : e'.log.records = e.log.records ++ [r'])
    (hinfl : e'.inflight = Function.update e.inflight i none) (h : e.Touched lsn k) :
    e'.Touched lsn k := by
  rcases h with ⟨x, hx, hk⟩ | ⟨j, x, hx, hk⟩
  · exact Or.inl ⟨x, hlog ▸ List.mem_append_left _ hx, hk⟩
  · by_cases hj : j = i
    · rw [hj, hr] at hx
      obtain rfl := Option.some.inj hx
      exact Or.inl ⟨r', hlog ▸ List.mem_append_right _ (List.mem_singleton_self _), hlsn,
        hkey.trans hk⟩
    · exact Or.inr ⟨j, x, by rwa [hinfl, Function.update_of_ne hj], hk⟩

/-- A write to one shard that moves nothing into the scanned part, except the entry of its
    own key. -/
theorem mem_scanned_put {store : Store} {i j : ℕ} {sh sh' : Shard} {key : Bytes} {p : Ptr}
    (hsh : store.shards i = sh) (hall : ∀ n, sh.slots.items.length ≤ n → sh.Keeps key n sh')
    (hcur : cur.shard = i → sh.Keeps key cur.offset sh')
    (hp : p ∈ cur.scanned (store.put i sh') j)
    (hkey : (((store.put i sh').shards j).heap p).key ≠ key) :
    p ∈ cur.scanned store j ∧ ((store.put i sh').shards j).heap p = (store.shards j).heap p := by
  subst hsh
  by_cases hji : j = i
  · subst hji
    rw [shards_put_self] at hkey ⊢
    rcases lt_trichotomy j cur.shard with hj | hj | hj
    · rw [scanned_of_lt hj, shards_put_self] at hp
      obtain ⟨h1, h2⟩ := hall (max (store.shards j).slots.items.length sh'.slots.items.length)
        (le_max_left _ _) p (by rwa [List.take_of_length_le (le_max_right _ _)]) hkey
      rw [scanned_of_lt hj]
      exact ⟨List.mem_of_mem_take h1, h2⟩
    · subst hj
      rw [scanned_self, shards_put_self] at hp
      rw [scanned_self]
      exact hcur rfl p hp hkey
    · rw [scanned_of_gt hj] at hp; cases hp
  · have hput : (store.put i sh').shards j = store.shards j := shards_put_of_ne store hji sh'
    refine ⟨?_, by rw [hput]⟩
    unfold RangeCursor.scanned at hp ⊢
    rwa [hput] at hp

/-- A mutation that changes its own key only and moves no other entry into the scanned
    part. -/
theorem Engine.Covered.mutate (h : e.Covered lsn cur) {rec : Record} {i : ℕ} {sh' : Shard}
    (hstore : e'.store = e.store.put i sh') (hlog : e'.log.records = e.log.records)
    (hinfl : e'.inflight = Function.update e.inflight i (some rec)) (hfree : e.inflight i = none)
    (hc : ∀ k, k ≠ rec.key → e'.store.contents k = e.store.contents k)
    (hall : ∀ n, (e.store.shards i).slots.items.length ≤ n →
      (e.store.shards i).Keeps rec.key n sh')
    (hcur : cur.shard = i → (e.store.shards i).Keeps rec.key cur.offset sh') :
    e'.Covered lsn cur := by
  have htouch : ∀ k, e.Touched lsn k ∨ k = rec.key → e'.Touched lsn k :=
    fun k => .mutate hlog hinfl hfree
  refine ⟨fun x hx hk => ?_, fun j p hp hk => ?_⟩
  · have hne : x.key ≠ rec.key := fun heq => hk (htouch _ (Or.inr heq))
    rw [hc _ hne]
    exact h.file x hx fun ht => hk (htouch _ (Or.inl ht))
  · have hne : ((e'.store.shards j).heap p).key ≠ rec.key := fun heq => hk (htouch _ (Or.inr heq))
    rw [hstore] at hp hk hne ⊢
    obtain ⟨h1, h2⟩ := mem_scanned_put rfl hall hcur hp hne
    have hclone : ((e.store.put i sh').shards j).clone p = (e.store.shards j).clone p := by
      rw [Shard.clone, h2]; rfl
    rw [hclone]
    refine h.seen j p h1 fun ht => hk (htouch _ (Or.inl ?_))
    rwa [h2]

theorem Engine.Covered.submit (h : e.Covered lsn cur) {i : ℕ} {r r' : Record}
    (hr : e.inflight i = some r) (hkey : r'.key = r.key) (hlsn : lsn < r'.lsn)
    (hstore : e'.store = e.store) (hlog : e'.log.records = e.log.records ++ [r'])
    (hinfl : e'.inflight = Function.update e.inflight i none) : e'.Covered lsn cur := by
  have htouch : ∀ k, e.Touched lsn k → e'.Touched lsn k :=
    fun k => .submit hr hkey hlsn hlog hinfl
  refine ⟨fun x hx hk => ?_, fun j p hp hk => ?_⟩
  · rw [hstore]
    exact h.file x hx fun ht => hk (htouch _ ht)
  · rw [hstore] at hp hk ⊢
    exact h.seen j p hp fun ht => hk (htouch _ ht)

/-- A batch copies out entries as memory has them, and all it passes. -/
theorem Engine.Covered.batch (h : e.Covered lsn cur) (hindex : IndexInv (e.store.shards cur.shard))
    (hroute : ∀ k, ((e.store.shards cur.shard).contents k).isSome → e.store.shardFor k = cur.shard)
    (hzero : ∀ k d, e.store.contents k = some d → d.2 = 0)
    (hstep : e.store.rangeStep cur = some cur') : e.Covered lsn cur' := by
  -- an entry of a shard is what memory has under its key
  have hmem : ∀ p ∈ (e.store.shards cur.shard).slots.items,
      e.store.contents ((e.store.shards cur.shard).heap p).key =
        some (((e.store.shards cur.shard).heap p).value,
          ((e.store.shards cur.shard).heap p).expireAt) := by
    intro p hp
    have hc := contents_of_lookup (hindex.lookup_of_mem hp)
    rw [Store.contents, hroute _ (by rw [hc]; rfl), hc]
  have hlive : ∀ p ∈ (e.store.shards cur.shard).slots.items,
      ((e.store.shards cur.shard).heap p).expired cur.nowMs = false := by
    intro p hp
    have hdeadline : ((e.store.shards cur.shard).heap p).expireAt = 0 := hzero _ _ (hmem p hp)
    simp [Entry.expired, expiredAt, hdeadline]
  obtain ⟨-, batch, hout, hbatch, hnew⟩ := rangeStep_scanned hstep rfl
  refine ⟨fun x hx hk => ?_, fun j p hp hk => ?_⟩
  · rw [hout] at hx
    rcases List.mem_append.mp hx with hx | hx
    · exact h.file x hx hk
    · obtain ⟨p, hp, rfl, -⟩ := hbatch x hx
      exact hmem p hp
  · rw [hout]
    rcases hnew j p hp with hold | ⟨rfl, hitem, hb⟩
    · exact List.mem_append_left _ (h.seen j p hold hk)
    · exact List.mem_append_right _ (hb (hlive p hitem))

/-- Before the first batch there is nothing to answer for. -/
theorem Engine.Covered.start (e : Engine) (lsn : ℕ) (nowMs : UInt64) :
    e.Covered lsn ⟨nowMs, 0, 0, []⟩ := by
  refine ⟨nofun, fun j p hp => ?_⟩
  unfold RangeCursor.scanned at hp
  simp at hp

/-- After the last batch the file has of an untouched key what memory has. -/
theorem Engine.Covered.load (h : e.Covered lsn cur) {k : Bytes}
    (hindex : IndexInv (e.store.shards (e.store.shardFor k)))
    (hdone : e.store.shardFor k < cur.shard) (hk : ¬ e.Touched lsn k) {m : Keyspace Bytes Bytes}
    (hm : m k = none) : cur.out.foldl (fun m x => x.apply m) m k = e.store.contents k := by
  refine foldl_load (fun x hx hxk => ?_) (fun hsome => ?_) hm
  · subst hxk; exact h.file x hx hk
  · -- the entry of `k` is in a shard the scan has passed
    have hlook : ((e.store.shards (e.store.shardFor k)).entries.lookup k).isSome := by
      rw [← contents_isSome]; exact hsome
    obtain ⟨p, hp⟩ := Option.isSome_iff_exists.mp hlook
    have hpk := hindex.key hp
    have hscanned : p ∈ cur.scanned e.store (e.store.shardFor k) := by
      rw [scanned_of_lt hdone]
      exact hindex.mem_of_lookup hp
    exact ⟨_, h.seen _ p hscanned (by rwa [hpk]), hpk⟩

/-- A mutation that changes its own key only and moves no other entry into the scanned
    part keeps the invariant. -/
theorem Snapshotter.Inv.mutate (h : c.Inv) {rec : Record} {apply : Shard → Bool × Shard} {sh : Shard}
    (hstep : c.engine.mutate rec apply = some e') (hinv : e'.Inv)
    (hsh : c.engine.store.shards (c.engine.store.shardFor rec.key) = sh) (hrec : rec.NoTTL)
    {o : Option (Bytes × UInt64)} (hok : (apply sh).1 = true)
    (heff : Effect sh (apply sh).2 [] (Function.update sh.contents rec.key o))
    (hall : ∀ n, sh.slots.items.length ≤ n → sh.Keeps rec.key n (apply sh).2)
    (hcur : ∀ x ∈ c.scan, x.2.shard = c.engine.store.shardFor rec.key →
      sh.Keeps rec.key x.2.offset (apply sh).2) : Snapshotter.Inv { c with engine := e' } := by
  subst hsh
  have hev : (apply (c.engine.store.shards (c.engine.store.shardFor rec.key))).2.onEvict = [] := by
    rw [heff.onEvict, h.engine.reported, List.nil_append]
  have hfree := mutate_free hstep
  obtain rfl := Option.some.inj (hstep.symm.trans
    (mutate_quiet h.engine.primary hfree rfl hev hok))
  refine
    { engine := hinv
      quiet := h.quiet
      unlimited := fun j => ?_
      inRange := h.inRange
      noTTL := h.noTTL
      inflight := fun j r hr => ?_
      sorted := h.sorted
      below := h.below
      durable := h.durable
      scan := fun lsn cur hs => ⟨(h.scan lsn cur hs).1, ?_⟩ }
  · show ((c.engine.store.put _ _).shards j).budget ≤ 0
    rw [shards_put]
    split_ifs
    · rw [heff.budget]; exact h.unlimited _
    · exact h.unlimited j
  · have hr : Function.update c.engine.inflight (c.engine.store.shardFor rec.key) (some rec) j =
        some r := hr
    by_cases hj : j = c.engine.store.shardFor rec.key
    · rw [hj, Function.update_self] at hr
      exact Option.some.inj hr ▸ hrec
    · rw [Function.update_of_ne hj] at hr
      exact h.inflight j r hr
  · refine (h.scan lsn cur hs).2.mutate rfl rfl rfl hfree (fun k hk => ?_) hall (hcur (lsn, cur) hs)
    show (c.engine.store.put _ _).contents k = _
    rw [contents_put_update heff, Function.update_of_ne hk]

theorem Snapshotter.Inv.set (h : c.Inv) {key value : Bytes} {nowMs nowMono : UInt64}
    (hok : (SnapAction.set key value nowMs nowMono).Steady c)
    (hstep : c.engine.set key value 0 nowMs nowMono = some e') :
    Snapshotter.Inv { c with engine := e' } := by
  obtain ⟨hkl, hvl, hcount⟩ := hok
  have hshard := h.engine.shard (c.engine.store.shardFor key)
  have hb := h.unlimited (c.engine.store.shardFor key)
  have hzero : Engine.deadline 0 nowMs = 0 := if_pos rfl
  rw [← hzero] at hcount
  have hinv : e'.Inv := h.engine.set
    ⟨by rw [h.quiet.1]; exact List.not_mem_nil, hkl, hvl, hcount⟩ hstep
  have hkeeps := setLocked_keeps hshard.toIndexInv hb key value (Engine.deadline 0 nowMs)
    nowMono
  obtain ⟨hres, heff⟩ := setLocked_effect_unlimited hshard.toKeyInv hb key value
    (Engine.deadline 0 nowMs) nowMono
  exact h.mutate hstep hinv rfl ⟨Or.inl rfl, hzero⟩ hres heff (fun n _ => hkeeps n)
    fun _ _ _ => hkeeps _

theorem Snapshotter.Inv.delete (h : c.Inv) {key : Bytes} {nowMs : UInt64}
    (hok : (SnapAction.delete key nowMs).Steady c) (hstep : c.engine.delete key nowMs = some e') :
    Snapshotter.Inv { c with engine := e' } := by
  have hshard := h.engine.shard (c.engine.store.shardFor key)
  have heff := (txnDelete_effect hshard.toKeyInv key nowMs).2
  refine h.mutate hstep (h.engine.delete hok.1 hstep) rfl ⟨Or.inr rfl, rfl⟩ rfl heff
    (fun n hn => txnDelete_keeps hshard.toIndexInv nowMs fun _ _ => Or.inr hn) fun x hx hxs => ?_
  refine txnDelete_keeps hshard.toIndexInv nowMs fun p hp => ?_
  have hcond := hok.2 x hx hxs p
  rw [show x.2.shard = c.engine.store.shardFor key from hxs] at hcond
  exact hcond hp

theorem Snapshotter.Inv.submit (h : c.Inv) {i : ℕ} {nowMs : UInt64}
    (hstep : c.engine.submit i nowMs = some e') : Snapshotter.Inv { c with engine := e' } := by
  have hinv : e'.Inv := Engine.step_inv (a := .submit i nowMs) h.engine trivial hstep
  obtain ⟨r, t, hr, -, rfl⟩ := h.engine.submit_eq hstep
  refine
    { engine := hinv
      quiet := h.quiet
      unlimited := h.unlimited
      inRange := h.inRange
      noTTL := fun x hx => ?_
      inflight := fun j x hx => h.inflight j x (inflight_of_update_none hx)
      sorted := ?_
      below := fun x hx => ?_
      durable := Nat.lt_succ_of_lt h.durable
      scan := fun lsn cur hs => ?_ }
  · rcases List.mem_append.mp hx with hx | hx
    · exact h.noTTL x hx
    · rw [List.mem_singleton.mp hx]
      exact h.inflight i r hr
  · refine List.pairwise_append.mpr ⟨h.sorted, List.pairwise_singleton _ _, fun a ha b hb => ?_⟩
    rw [List.mem_singleton.mp hb]
    exact h.below a ha
  · rcases List.mem_append.mp hx with hx | hx
    · exact Nat.lt_succ_of_lt (h.below x hx)
    · rw [List.mem_singleton.mp hx]
      exact Nat.lt_succ_self _
  · obtain ⟨hlsn, hcov⟩ := h.scan lsn cur hs
    refine ⟨Nat.lt_succ_of_lt hlsn, hcov.submit hr ?_ ?_ rfl rfl rfl⟩
    · rfl
    · exact hlsn

theorem Snapshotter.Inv.batch (h : c.Inv) (hs : c.scan = some (lsn, cur))
    (hstep : c.engine.store.rangeStep cur = some cur') :
    Snapshotter.Inv { c with scan := some (lsn, cur') } := by
  obtain ⟨hlsn, hcov⟩ := h.scan lsn cur hs
  refine ⟨h.engine, h.quiet, h.unlimited, h.inRange, h.noTTL, h.inflight, h.sorted, h.below,
    h.durable, fun l cur1 hc => ?_⟩
  cases hc
  exact ⟨hlsn, hcov.batch (h.engine.shard cur.shard).toIndexInv
    (fun k hk => (h.engine.routed cur.shard k hk).1) (fun _ _ => h.deadline) hstep⟩

theorem Snapshotter.step_inv (h : c.Inv) {a : SnapAction} (ha : a.Steady c)
    (hstep : c.step a = some c') : c'.Inv := by
  cases a with
  | set key value nowMs nowMono =>
    obtain ⟨e, he, rfl⟩ := Option.map_eq_some_iff.mp hstep
    exact h.set ha he
  | delete key nowMs =>
    obtain ⟨e, he, rfl⟩ := Option.map_eq_some_iff.mp hstep
    exact h.delete ha he
  | submit i nowMs =>
    obtain ⟨e, he, rfl⟩ := Option.map_eq_some_iff.mp hstep
    exact h.submit he
  | durable lsn =>
    simp only [Snapshotter.step] at hstep
    split_ifs at hstep with hlsn
    · cases hstep
      exact ⟨h.engine, h.quiet, h.unlimited, h.inRange, h.noTTL, h.inflight, h.sorted, h.below,
        hlsn.2, h.scan⟩
  | start nowMs =>
    simp only [Snapshotter.step] at hstep
    split_ifs at hstep
    · cases hstep
      refine ⟨h.engine, h.quiet, h.unlimited, h.inRange, h.noTTL, h.inflight, h.sorted, h.below,
        h.durable, fun l cur hc => ?_⟩
      cases hc
      exact ⟨h.durable, .start _ _ _⟩
  | batch =>
    obtain ⟨⟨lsn, cur⟩, hs, hb⟩ := Option.bind_eq_some_iff.mp hstep
    dsimp only at hb
    split_ifs at hb
    obtain ⟨cur', hcur, rfl⟩ := Option.map_eq_some_iff.mp hb
    exact h.batch hs hcur

theorem snapshotter_run_inv {c₀ : Snapshotter} (h0 : c₀.Agreement)
    (h : Run Snapshotter.step (fun c a => a.Steady c) c₀ c) : c.Inv :=
  h.invariant (fun _ _ _ hi ha hs => Snapshotter.step_inv hi ha hs) h0.inv

/-! ## Recovery from the snapshot -/

/-- In a steady run, the snapshot and the records above its LSN give back memory, whatever
    was written while it was taken. -/
theorem snapshot_replay_recovers {c₀ : Snapshotter} (h0 : c₀.Agreement)
    (h : Run Snapshotter.step (fun c a => a.Steady c) c₀ c) (hs : c.scan = some (lsn, cur))
    (hdone : c.Finished cur) (hidle : ∀ i, c.engine.inflight i = none) (o : Options)
    (newSeed : UInt64) (hmem : o.maxMemory ≤ 0) (nowMs nowMono : UInt64) :
    ∃ s, (newStore o newSeed).recover nowMs nowMono cur.out lsn c.engine.log.records = some s ∧
      s.contents = c.engine.store.contents := by
  have hinv := snapshotter_run_inv h0 h
  obtain ⟨s, hrec, -, hcont⟩ := (newStore_plain o newSeed hmem).keyed.recover nowMs nowMono cur.out
    lsn c.engine.log.records
  refine ⟨s, hrec, ?_⟩
  obtain ⟨old, hold⟩ := exists_split_lsn hinv.sorted lsn
  obtain ⟨tail, htail⟩ : ∃ t, t = c.engine.log.records.filter fun r => lsn < r.lsn := ⟨_, rfl⟩
  have habs : ∀ r ∈ tail, r.Absolute := fun r hr => by
    rw [htail] at hr
    exact (hinv.noTTL r (List.mem_filter.mp hr).1).1
  rw [hcont, ← htail, foldl_applyWith_eq fun r hr => (habs r hr).effectAt_eq]
  rw [← htail] at hold
  funext k
  by_cases hk : ∃ r ∈ tail, r.key = k
  · -- the last of the records about `k` decides
    obtain ⟨r, hr, hrk⟩ := hk
    rw [← hinv.contents k, logged_of_idle hidle, foldWith, hold, List.foldl_append]
    exact foldl_effect_absolute ⟨r, hr, habs r hr, hrk⟩
  · rw [foldl_applyWith_of_ne fun r hr hrk => hk ⟨r, hr, hrk⟩]
    refine (hinv.scan lsn cur hs).2.load (hinv.engine.shard _).toIndexInv
      (lt_of_lt_of_le (hinv.inRange k) hdone) ?_ (newStore_contents o newSeed k)
    rintro (⟨r, hr, hlt, hrk⟩ | ⟨i, r, hr, -⟩)
    · refine hk ⟨r, ?_, hrk⟩
      rw [htail]
      exact List.mem_filter.mpr ⟨hr, decide_eq_true hlt⟩
    · rw [hidle] at hr; cases hr

theorem newEngine_agreement (o : Options) (newSeed : UInt64) (hmem : o.maxMemory ≤ 0) :
    Snapshotter.Agreement ⟨newEngine o newSeed, 0, none⟩ where
  base := (newEngine_inv o newSeed).toBase
  unlimited := (newStore_plain o newSeed hmem).unlimited
  inRange := newStore_shardFor_lt o newSeed
  idle := ⟨rfl, rfl, fun _ => rfl⟩
  agree := funext fun k => (newStore_contents o newSeed k).symm
  noTTL := nofun
  sorted := List.Pairwise.nil
  below := nofun
  durable := Nat.zero_lt_one
  fresh := rfl

/-- A key is written and one deleted while the snapshot is taken. -/
theorem snapshot_replay_recovers_rewritten :
    ∃ c cur s, exec Snapshotter.step ⟨newEngine oneShard 1, 0, none⟩
        [.set [1] [2] 0 0, .submit 0 0, .durable 1, .set [3] [4] 0 0, .start 0, .submit 0 0, .batch,
          .delete [1] 0, .submit 0 0] = some c ∧ c.scan = some (1, cur) ∧
      (newStore oneShard 1).recover 5 5 cur.out 1 c.engine.log.records = some s ∧
      s.contents = c.engine.store.contents := by
  obtain ⟨s, h1, h2⟩ := snapshot_replay_recovers (newEngine_agreement oneShard 1 (by decide))
    (((((((((Run.refl.tail (.set [1] [2] 0 0) ⟨by decide, by decide, by decide⟩ rfl).tail
      (.submit 0 0) trivial rfl).tail (.durable 1) trivial rfl).tail
      (.set [3] [4] 0 0) ⟨by decide, by decide, by decide⟩ rfl).tail (.start 0) trivial rfl).tail
      (.submit 0 0) trivial rfl).tail .batch trivial rfl).tail (.delete [1] 0)
      ⟨by decide, fun x hx hxs => by cases hx; cases hxs⟩ rfl).tail (.submit 0 0) trivial rfl)
    rfl (by decide) (fun i => by cases i <;> rfl) oneShard 1 (by decide) 5 5
  exact ⟨_, _, s, rfl, rfl, h1, h2⟩

/-! ## A deletion behind the scan -/

/-- `n` keys were written, one after another, and no snapshot was taken. -/
structure FilledLog (n : ℕ) (c : Snapshotter) : Prop where
  count : c.engine.store.shardCount = 1
  shard : (c.engine.store.shards 0).Filled n
  reported : (c.engine.store.shards 0).onEvict = []
  primary : c.engine.readOnly = false ∧ c.engine.closed = false
  logOpen : c.engine.log.closed = false ∧ c.engine.log.fatal = false
  idle : ∀ i, c.engine.inflight i = none
  nextLSN : c.engine.log.nextLSN = n + 1
  below : ∀ r ∈ c.engine.log.records, r.lsn ≤ n
  durable : c.durableLSN = 0
  fresh : c.scan = none

theorem filledLog_zero : FilledLog 0 ⟨newEngine oneShard 1, 0, none⟩ where
  count := rfl
  shard := filled_newShard _ _ _ _ _
  reported := rfl
  primary := ⟨rfl, rfl⟩
  logOpen := ⟨rfl, rfl⟩
  idle _ := rfl
  nextLSN := rfl
  below := nofun
  durable := rfl
  fresh := rfl

/-- A mutation of the only shard, and its `Submit`. -/
theorem run_mutate_submit {a : SnapAction} {rec : Record} {apply : Shard → Bool × Shard} {sh : Shard}
    (ha : c.step a = (c.engine.mutate rec apply).map fun e => { c with engine := e })
    (hcount : c.engine.store.shardCount = 1)
    (hprimary : c.engine.readOnly = false ∧ c.engine.closed = false)
    (hopen : c.engine.log.closed = false ∧ c.engine.log.fatal = false)
    (hidle : ∀ i, c.engine.inflight i = none) (hsub : rec.Submittable)
    (happly : apply (c.engine.store.shards 0) = (true, sh)) (hev : sh.onEvict = []) :
    ∃ e' t, Run Snapshotter.step Always c { c with engine := e' } ∧ e' = { c.engine with
      store := c.engine.store.put 0 sh
      log := { c.engine.log with
        nextLSN := c.engine.log.nextLSN + 1
        records := c.engine.log.records ++
          [{ rec with lsn := c.engine.log.nextLSN, createdAtMs := t }] } } := by
  have hroute : c.engine.store.shardFor rec.key = 0 := if_pos hcount
  have hok : (apply (c.engine.store.shards 0)).1 = true := by rw [happly]
  have hmut := mutate_quiet hprimary (hidle _) (by rw [hroute]) (by rw [happly]; exact hev) hok
  rw [hroute, happly] at hmut
  obtain ⟨t, ht⟩ := submit_of_submittable hopen hsub 0
  have hinfl : Function.update (Function.update c.engine.inflight 0 (some rec)) 0 none =
      c.engine.inflight := by
    rw [Function.update_idem, ← hidle 0, Function.update_eq_self]
  refine ⟨_, t, (Run.refl.tail a trivial (ha.trans (congrArg _ hmut))).tail (.submit 0 0) trivial ?_,
    rfl⟩
  simp only [Snapshotter.step, Engine.submit, Function.update_self, Option.map_some, ht, hinfl]

theorem FilledLog.succ {n : ℕ} (h : FilledLog n c) (hn : n < 2 ^ 64) :
    ∃ c', Run Snapshotter.step Always c c' ∧ FilledLog (n + 1) c' := by
  have hset : (fun sh : Shard => sh.setLocked (nthKey n) [] (Engine.deadline 0 0) 0)
      (c.engine.store.shards 0) = _ := h.shard.setLocked_eq hn
  obtain ⟨e', t, hrun, rfl⟩ := run_mutate_submit (a := .set (nthKey n) [] 0 0) rfl h.count h.primary h.logOpen
    h.idle ⟨by simp [nthKey, maxKeyLen, Engine.record], Nat.zero_le _, by simp [Engine.record]⟩ hset
    (by rw [insert_eq]; exact h.reported)
  refine ⟨_, hrun, h.count, ?_, ?_, h.primary, h.logOpen, h.idle, congrArg (· + 1) h.nextLSN,
    fun r hr => ?_, h.durable, h.fresh⟩
  · show ((c.engine.store.put 0 _).shards 0).Filled (n + 1)
    rw [shards_put_self]
    exact h.shard.insert hn _
  · show ((c.engine.store.put 0 _).shards 0).onEvict = []
    rw [shards_put_self, insert_eq]
    exact h.reported
  · rcases List.mem_append.mp hr with hr | hr
    · exact Nat.le_succ_of_le (h.below r hr)
    · rw [List.mem_singleton.mp hr]
      exact h.nextLSN.le

theorem exists_filledLog : ∀ n < 2 ^ 64, ∃ c,
    Run Snapshotter.step Always ⟨newEngine oneShard 1, 0, none⟩ c ∧ FilledLog n c := by
  intro n
  induction n with
  | zero => intro _; exact ⟨_, .refl, filledLog_zero⟩
  | succ n ih =>
    intro hn
    obtain ⟨c, hrun, hc⟩ := ih (by omega)
    obtain ⟨c', hrun', hc'⟩ := hc.succ (by omega)
    exact ⟨c', hrun.trans hrun', hc'⟩

/-- With 257 keys, the one written first is deleted after the first batch. The last one takes
    its slot, behind the scan, and is neither in the file nor in the log above its LSN. -/
theorem snapshot_loses_moved_key :
    ∃ c lsn cur k d, Run Snapshotter.step Always ⟨newEngine oneShard 1, 0, none⟩ c ∧
      c.scan = some (lsn, cur) ∧ c.Finished cur ∧ (∀ i, c.engine.inflight i = none) ∧
      c.engine.store.contents k = some d ∧
      ∀ nowMs nowMono, ∃ s, s.contents k = none ∧
        (newStore oneShard 1).recover nowMs nowMono cur.out lsn c.engine.log.records = some s := by
  obtain ⟨c, hrun, h⟩ := exists_filledLog 257 (by norm_num)
  obtain ⟨sh, hsh⟩ : ∃ sh, c.engine.store.shards 0 = sh := ⟨_, rfl⟩
  have hfill := hsh ▸ h.shard
  have hlen : sh.slots.items.length = 257 := by rw [hfill.items, List.length_range]
  obtain ⟨out, hout⟩ : ∃ out, sh.rangeLoop 0 rangeBatchSize (sh.slots.items.drop 0) = out := ⟨_, rfl⟩
  -- the first batch
  have hdurable : c.step (.durable 257) = some { c with durableLSN := 257 } :=
    if_pos ⟨by rw [h.durable]; norm_num, by rw [h.nextLSN]; norm_num⟩
  have hstart : Snapshotter.step { c with durableLSN := 257 } (.start 0) =
      some ⟨c.engine, 257, some (257, ⟨0, 0, 0, []⟩)⟩ :=
    if_pos (by rw [h.fresh]; exact nofun)
  have hbatch : Snapshotter.step ⟨c.engine, 257, some (257, ⟨0, 0, 0, []⟩)⟩ .batch =
      some ⟨c.engine, 257, some (257, ⟨0, 0, 256, out⟩)⟩ := by
    simp [Snapshotter.step, h.idle, Store.rangeStep, h.count, hsh, hlen, rangeBatchSize, ← hout]
  have hrun1 := ((hrun.tail _ trivial hdurable).tail _ trivial hstart).tail _ trivial hbatch
  -- the deletion
  obtain ⟨e', t, hrun2, he'⟩ := run_mutate_submit (a := .delete (nthKey 0) 0)
    (c := ⟨c.engine, 257, some (257, ⟨0, 0, 256, out⟩)⟩) rfl h.count h.primary h.logOpen h.idle
    ⟨by simp [nthKey, maxKeyLen, Engine.record], Nat.zero_le _, by simp [Engine.record]⟩
    (by rw [hsh, hfill.txnDelete_eq (j := 0) (by norm_num)])
    (by rw [removeEntryLocked_eq, ← hsh]; exact h.reported)
  have hshard : e'.store.shards 0 = sh.removeEntryLocked 0 := by rw [he', shards_put_self]
  have hcount : e'.store.shardCount = 1 := by rw [he']; exact h.count
  have hidle : ∀ i, e'.inflight i = none := by rw [he']; exact h.idle
  -- the second batch finds nothing left to scan
  have hlen' : (sh.removeEntryLocked 0).slots.items.length = 256 := by
    have hpos := hfill.pos 0 (by norm_num)
    rw [int32_eq (by norm_num) (by norm_num)] at hpos
    rw [removeEntryLocked_eq]
    show (sh.slots.remove 0).items.length = 256
    rw [SlotArray.length_remove_of_inRange (by rw [hpos, hlen]; norm_num), hlen]
  have hend : Snapshotter.step ⟨e', 257, some (257, ⟨0, 0, 256, out⟩)⟩ .batch =
      some ⟨e', 257, some (257, ⟨0, 1, 0, out⟩)⟩ := by
    simp [Snapshotter.step, hidle, Store.rangeStep, hcount, hshard, hlen', rangeBatchSize]
  have hne : ∀ j < 256, nthKey j ≠ nthKey 256 := fun j hj hc => by
    have := nthKey_inj (by omega) (by norm_num) hc
    omega
  refine ⟨_, 257, ⟨0, 1, 0, out⟩, nthKey 256, ((sh.heap 256).value, (sh.heap 256).expireAt),
    (hrun1.trans hrun2).tail _ trivial hend, rfl, hcount.le, hidle, ?_, fun nowMs nowMono => ?_⟩
  · -- it is in memory
    show (e'.store.shards (e'.store.shardFor (nthKey 256))).contents (nthKey 256) = _
    rw [show e'.store.shardFor (nthKey 256) = 0 from if_pos hcount, hshard, removeEntryLocked_eq,
      (hfill.heap 0 (by norm_num)).1]
    refine contents_of_lookup ?_
    rw [AList.lookup_erase_ne (hne 0 (by norm_num)).symm]
    exact hfill.present 256 (by norm_num)
  · obtain ⟨s, hrec, -, hcont⟩ := (newStore_plain oneShard 1 (by decide)).keyed.recover nowMs nowMono
      out 257 e'.log.records
    refine ⟨s, ?_, hrec⟩
    have htail : (e'.log.records.filter fun r => decide (257 < r.lsn)) =
        [{ Engine.record .delete (nthKey 0) [] 0 with lsn := 258, createdAtMs := t }] := by
      rw [he', List.filter_append, List.filter_eq_nil_iff.mpr fun r hr => by
        simpa using h.below r hr]
      simp [h.nextLSN]
    rw [hcont, htail]
    show Keyspace.delete _ (nthKey 0) (nthKey 256) = none
    rw [Keyspace.delete_of_ne _ (hne 0 (by norm_num)).symm]
    refine foldl_load (fun x hx hxk => ?_) (fun hc => by cases hc) (newStore_contents _ _ _)
    -- the file has the first 256 keys
    rw [← hout, rangeLoop_of_live, hfill.items] at hx
    · obtain ⟨p, hp, rfl⟩ := List.mem_map.mp hx
      have hp : p < 256 := by
        rw [List.drop_zero, List.take_range] at hp
        exact List.mem_range.mp hp
      exact absurd ((hfill.heap p (Nat.lt_succ_of_lt hp)).1.symm.trans hxk) (hne p hp)
    · intro p hp
      rw [List.drop_zero, hfill.items, List.mem_range] at hp
      simp [Entry.expired, expiredAt, (hfill.heap p hp).2]

end KvStore
