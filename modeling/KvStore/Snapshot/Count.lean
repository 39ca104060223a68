import KvStore.Common.Windows
import KvStore.Snapshot.File
import KvStore.Store.Budget

/-!
# `Range` without writes

A batch of `Range` (`internal/store/store.go` lines 502–535) is filled with the next 256 live
entries, however many slots it takes to find them, and the next batch begins 256 slots further on.
So entries behind the window of 256 slots take the places of dead ones in it, and come up again.

* `range_eq`: what is handed out, shard by shard and batch by batch.
* `range_exactly_once`: every live entry is handed out once, and a snapshot counts them, if and only
  if there is no live entry behind a window with a dead one.
* `range_repeats`: 257 keys, the first of which is dead. The last one is handed out twice.
-/

namespace KvStore

open KvStore.Common

/-- The entry is live. -/
def Shard.live (sh : Shard) (nowMs : UInt64) (p : Ptr) : Bool := !(sh.heap p).expired nowMs

/-- The live entries of a shard, in the order of their slots. -/
def Shard.liveEntries (sh : Shard) (nowMs : UInt64) : List SnapEntry :=
  (sh.slots.items.filter (sh.live nowMs)).map sh.clone

/-- Behind a window of 256 slots in which an entry is dead, all entries are. -/
def Shard.Aligned (sh : Shard) (nowMs : UInt64) : Prop :=
  ∀ m, (∃ p ∈ (sh.slots.items.drop (rangeBatchSize * m)).take rangeBatchSize,
      (sh.heap p).expired nowMs = true) →
    ∀ p ∈ sh.slots.items.drop (rangeBatchSize * m + rangeBatchSize), (sh.heap p).expired nowMs = true

section

variable {sh : Shard} {s : Store} {nowMs : UInt64} {c c' : RangeCursor}

/-! ## The batches -/

theorem rangeLoop_eq (room : ℕ) (ps : List Ptr) :
    sh.rangeLoop nowMs room ps = ((ps.filter (sh.live nowMs)).take room).map sh.clone := by
  induction ps generalizing room with
  | nil => cases room <;> rfl
  | cons p ps ih =>
    cases room with
    | zero => rfl
    | succ room =>
      rw [Shard.rangeLoop]
      split_ifs with hexp
      · rw [ih, List.filter_cons_of_neg (by simp [Shard.live, hexp])]
      · rw [ih, List.filter_cons_of_pos (by simp [Shard.live, hexp]), List.take_succ_cons,
          List.map_cons]

theorem aligned_iff :
    sh.Aligned nowMs ↔ WindowsAligned rangeBatchSize (sh.live nowMs) sh.slots.items := by
  simp only [Shard.Aligned, WindowsAligned, Shard.live, Bool.not_eq_eq_eq_not, Bool.not_false]

/-- What all batches of a shard hand out. -/
def Shard.handed (sh : Shard) (nowMs : UInt64) : List SnapEntry :=
  (batches rangeBatchSize (sh.live nowMs) sh.slots.items).map sh.clone

/-- Where the scan is, and what it has handed out so far. -/
structure RangeCursor.Exact (c : RangeCursor) (s : Store) (nowMs : UInt64) : Prop where
  clock : c.nowMs = nowMs
  shard : c.shard ≤ s.shardCount
  finished : c.shard = s.shardCount → c.offset = 0
  out : ∃ m, c.offset = rangeBatchSize * m ∧
    c.out = (List.range c.shard).flatMap (fun i => (s.shards i).handed nowMs) ++
      ((List.range m).flatMap (batchAt rangeBatchSize ((s.shards c.shard).live nowMs)
        (s.shards c.shard).slots.items)).map (s.shards c.shard).clone

theorem RangeCursor.Exact.rangeStep (h : c.Exact s nowMs) (hstep : s.rangeStep c = some c') :
    c'.Exact s nowMs := by
  have hlt : c.shard < s.shardCount := by
    by_contra hdone
    rw [Store.rangeStep, if_pos (not_lt.mp hdone)] at hstep
    cases hstep
  obtain ⟨m, hm, hout⟩ := h.out
  have hbatch : (s.shards c.shard).rangeLoop c.nowMs rangeBatchSize
      ((s.shards c.shard).slots.items.drop c.offset) =
      (batchAt rangeBatchSize ((s.shards c.shard).live nowMs) (s.shards c.shard).slots.items m).map
        (s.shards c.shard).clone := by
    rw [rangeLoop_eq, hm, h.clock]
    rfl
  have hmore : c.out ++ (s.shards c.shard).rangeLoop c.nowMs rangeBatchSize
      ((s.shards c.shard).slots.items.drop c.offset) =
      (List.range c.shard).flatMap (fun i => (s.shards i).handed nowMs) ++
        ((List.range (m + 1)).flatMap (batchAt rangeBatchSize ((s.shards c.shard).live nowMs)
          (s.shards c.shard).slots.items)).map (s.shards c.shard).clone := by
    rw [hbatch, hout, List.range_succ, List.flatMap_append, List.flatMap_singleton, List.map_append,
      List.append_assoc]
  -- what was handed out when the batches have reached the last slot of the shard
  have hnext : ∀ n out, (s.shards c.shard).slots.items.length ≤ rangeBatchSize * n →
      out = (List.range c.shard).flatMap (fun i => (s.shards i).handed nowMs) ++
        ((List.range n).flatMap (batchAt rangeBatchSize ((s.shards c.shard).live nowMs)
          (s.shards c.shard).slots.items)).map (s.shards c.shard).clone →
      RangeCursor.Exact ⟨c.nowMs, c.shard + 1, 0, out⟩ s nowMs := by
    intro n out hn hout
    refine ⟨h.clock, hlt, fun _ => rfl, 0, rfl, ?_⟩
    rw [flatMap_batchAt (by decide) hn] at hout
    rw [List.range_zero, List.flatMap_nil, List.map_nil, List.append_nil, List.range_succ,
      List.flatMap_append, List.flatMap_singleton]
    exact hout
  rcases rangeStep_cases hstep rfl with ⟨hlen, rfl⟩ | ⟨hlen, rfl⟩ | ⟨hlen, rfl⟩
  · exact hnext m _ (hm ▸ hlen) hout
  · refine hnext (m + 1) _ ?_ hmore
    rw [Nat.mul_succ, ← hm]
    exact hlen
  · refine ⟨h.clock, h.shard, fun heq => absurd heq hlt.ne, m + 1, ?_, hmore⟩
    rw [Nat.mul_succ, ← hm]

theorem RangeCursor.Exact.rangeFrom (h : c.Exact s nowMs) (fuel : ℕ) :
    (s.rangeFrom fuel c).Exact s nowMs := by
  induction fuel generalizing c with
  | zero => exact h
  | succ fuel ih =>
    rw [Store.rangeFrom]
    cases hstep : s.rangeStep c with
    | none => exact h
    | some c' => exact ih (h.rangeStep hstep)

/-- `Range` hands out the batches of one shard after the other. -/
theorem range_eq (s : Store) (nowMs : UInt64) :
    s.range nowMs = (List.range s.shardCount).flatMap fun i => (s.shards i).handed nowMs := by
  have hstart : RangeCursor.Exact ⟨nowMs, 0, 0, []⟩ s nowMs :=
    ⟨rfl, Nat.zero_le _, fun _ => rfl, 0, rfl, rfl⟩
  have hexact := hstart.rangeFrom (s.slotsFrom 0)
  have hdone : s.shardCount ≤ (s.rangeFrom (s.slotsFrom 0) ⟨nowMs, 0, 0, []⟩).shard :=
    rangeFrom_finished (fun _ => Nat.zero_le _) le_rfl
  have hlast := le_antisymm hexact.shard hdone
  obtain ⟨m, hm, hout⟩ := hexact.out
  have hm : m = 0 := by
    have hzero := hm.symm.trans (hexact.finished hlast)
    exact (Nat.mul_eq_zero.mp hzero).resolve_left (by decide)
  rw [hm, List.range_zero, List.flatMap_nil, List.map_nil, List.append_nil, hlast] at hout
  exact hout

theorem Shard.Aligned.handed (h : sh.Aligned nowMs) : sh.handed nowMs = sh.liveEntries nowMs := by
  rw [Shard.handed, batches_eq_filter (by decide) (aligned_iff.mp h)]
  rfl

/-- A scan that hands out no key twice has found the windows aligned. -/
theorem aligned_of_nodup (hsh : sh.slots.items.Nodup)
    (h : ((sh.handed nowMs).map SnapEntry.key).Nodup) : sh.Aligned nowMs := by
  rw [Shard.handed, List.map_map] at h
  exact aligned_iff.mpr ((batches_nodup_iff (by decide) hsh).mp h.of_map)

/-! ## Each key once -/

/-- The keys with a live entry. -/
def Store.liveKeys (s : Store) (nowMs : UInt64) : List Bytes :=
  (List.range s.shardCount).flatMap fun i =>
    (s.shards i).entries.keys.filter fun k => (liveAt nowMs ((s.shards i).contents k)).isSome

theorem mem_liveEntries (h : IndexInv sh) (x : SnapEntry) :
    x ∈ sh.liveEntries nowMs ↔ liveAt nowMs (sh.contents x.key) = some (x.value, x.expireAtMs) := by
  rw [liveAt_eq_some, Shard.liveEntries]
  simp only [List.mem_map, List.mem_filter]
  constructor
  · rintro ⟨p, ⟨hp, hlive⟩, rfl⟩
    refine ⟨contents_of_lookup (h.lookup_of_mem hp), ?_⟩
    simpa [Shard.live, Entry.expired, Shard.clone] using hlive
  · rintro ⟨hcont, hlive⟩
    obtain ⟨p, hlook, hpair⟩ := Option.map_eq_some_iff.mp hcont
    obtain ⟨hvalue, hexpire⟩ := Prod.mk.inj hpair
    refine ⟨p, ⟨h.mem_of_lookup hlook, ?_⟩, ?_⟩
    · rw [← hexpire] at hlive
      simpa [Shard.live, Entry.expired] using hlive
    · rw [Shard.clone, h.key hlook, hvalue, hexpire]

/-- The keys of the live entries, each one once. -/
theorem liveEntries_keys (h : IndexInv sh) :
    ((sh.liveEntries nowMs).map SnapEntry.key).Nodup := by
  rw [Shard.liveEntries, List.map_map]
  refine List.Nodup.map_on (fun p hp q hq heq => ?_) (h.slots.nodup.filter _)
  have hp' := h.lookup_of_mem (List.mem_of_mem_filter hp)
  have hq' := h.lookup_of_mem (List.mem_of_mem_filter hq)
  have heq : (sh.heap p).key = (sh.heap q).key := heq
  rw [heq, hq'] at hp'
  exact (Option.some.inj hp').symm

variable (h : s.Linked)

include h

theorem Store.Linked.mem_flatMap_liveEntries (x : SnapEntry) :
    x ∈ (List.range s.shardCount).flatMap (fun i => (s.shards i).liveEntries nowMs) ↔
      liveAt nowMs (s.contents x.key) = some (x.value, x.expireAtMs) := by
  rw [List.mem_flatMap]
  constructor
  · rintro ⟨i, -, hx⟩
    rw [mem_liveEntries (h.linked i).toIndexInv] at hx
    have hroute := h.routed (liveAt_eq_some.mp hx).1
    rw [Store.contents, hroute]
    exact hx
  · intro hx
    exact ⟨s.shardFor x.key, List.mem_range.mpr (h.inRange x.key),
      (mem_liveEntries (h.linked _).toIndexInv x).mpr hx⟩

/-- A key is in one shard only. -/
theorem Store.Linked.nodup_flatMap {f : ℕ → List Bytes} (hf : ∀ i, (f i).Nodup)
    (hlive : ∀ i, ∀ k ∈ f i, ∃ d, (s.shards i).contents k = some d) :
    ((List.range s.shardCount).flatMap f).Nodup := by
  refine List.nodup_flatMap.mpr ⟨fun i _ => hf i, ?_⟩
  refine List.nodup_range.imp fun {i j} hne k hi hj => hne ?_
  obtain ⟨d, hd⟩ := hlive i k hi
  obtain ⟨d', hd'⟩ := hlive j k hj
  exact (h.routed hd).symm.trans (h.routed hd')

theorem Store.Linked.liveKeys_nodup : (s.liveKeys nowMs).Nodup := by
  refine h.nodup_flatMap (fun i => (s.shards i).entries.nodupKeys.filter _) fun i k hk => ?_
  obtain ⟨d, hd⟩ := Option.isSome_iff_exists.mp (List.mem_filter.mp hk).2
  exact ⟨d, (liveAt_eq_some.mp hd).1⟩

theorem Store.Linked.mem_liveKeys (k : Bytes) :
    k ∈ s.liveKeys nowMs ↔ (liveAt nowMs (s.contents k)).isSome := by
  rw [Store.liveKeys, List.mem_flatMap]
  constructor
  · rintro ⟨i, -, hk⟩
    have hlive := (List.mem_filter.mp hk).2
    obtain ⟨d, hd⟩ := Option.isSome_iff_exists.mp hlive
    rw [Store.contents, h.routed (liveAt_eq_some.mp hd).1]
    exact hlive
  · intro hlive
    refine ⟨s.shardFor k, List.mem_range.mpr (h.inRange k), List.mem_filter.mpr ⟨?_, hlive⟩⟩
    obtain ⟨d, hd⟩ := Option.isSome_iff_exists.mp hlive
    have hsome : ((s.shards (s.shardFor k)).contents k).isSome := by
      rw [show (s.shards (s.shardFor k)).contents k = some d from (liveAt_eq_some.mp hd).1]
      rfl
    rw [contents_isSome] at hsome
    exact AList.lookup_isSome.mp hsome

end

/-- With aligned windows `Range` hands out the live entries of one shard after the other, each key
    once. -/
theorem Store.Linked.range_aligned {s : Store} {nowMs : UInt64} (h : s.Linked)
    (halign : ∀ i < s.shardCount, (s.shards i).Aligned nowMs) :
    ((s.range nowMs).map SnapEntry.key).Nodup ∧
      ∀ x, x ∈ s.range nowMs ↔ liveAt nowMs (s.contents x.key) = some (x.value, x.expireAtMs) := by
  have hrange : s.range nowMs =
      (List.range s.shardCount).flatMap fun i => (s.shards i).liveEntries nowMs := by
    rw [range_eq]
    refine List.flatMap_congr fun i hi => ?_
    exact (halign i (List.mem_range.mp hi)).handed
  rw [hrange]
  refine ⟨?_, h.mem_flatMap_liveEntries⟩
  rw [List.map_flatMap]
  refine h.nodup_flatMap (fun i => liveEntries_keys (h.linked i).toIndexInv) fun i k hk => ?_
  obtain ⟨x, hx, rfl⟩ := List.mem_map.mp hk
  exact ⟨_, (liveAt_eq_some.mp ((mem_liveEntries (h.linked i).toIndexInv x).mp hx)).1⟩

/-- A store in which nothing changes, reached in any way with fewer than `2^31` entries in each
    shard. `Range` hands out each live entry once and nothing else, and the number of entries that a
    snapshot counts is that of the live keys, if and only if in no shard a live entry is behind a
    window of 256 slots in which one is dead. -/
theorem range_exactly_once (opts : Options) (newSeed : UInt64) (wheel : Option Wheel) {s : Store}
    (hrun : Run Store.callStep (fun s c => c.Counted s)
      { newStore opts newSeed with wheel := wheel } s) (nowMs : UInt64) :
    (∀ k, k ∈ s.liveKeys nowMs ↔ (liveAt nowMs (s.contents k)).isSome) ∧
    (s.liveKeys nowMs).Nodup ∧
    ((((s.range nowMs).map SnapEntry.key).Nodup ∧
        (∀ x, x ∈ s.range nowMs ↔
          liveAt nowMs (s.contents x.key) = some (x.value, x.expireAtMs)) ∧
        ∀ lsn createdAtMs w,
          (s.range nowMs).foldlM Snapshot.Writer.add (Snapshot.create lsn createdAtMs) = .ok w →
          w.count = UInt64.ofNat (s.liveKeys nowMs).length) ↔
      ∀ i < s.shardCount, (s.shards i).Aligned nowMs) := by
  have hlinked := Store.Linked.run hrun
  refine ⟨hlinked.mem_liveKeys, hlinked.liveKeys_nodup, fun hrange i hi => ?_, fun halign => ?_⟩
  · have hnodup := hrange.1
    rw [range_eq, List.map_flatMap] at hnodup
    exact aligned_of_nodup (hlinked.linked i).slots.nodup
      ((List.nodup_flatMap.mp hnodup).1 i (List.mem_range.mpr hi))
  · obtain ⟨hnodup, hmem⟩ := hlinked.range_aligned halign
    have hperm : ((s.range nowMs).map SnapEntry.key).Perm (s.liveKeys nowMs) := by
      refine (List.perm_ext_iff_of_nodup hnodup hlinked.liveKeys_nodup).mpr fun k => ?_
      rw [hlinked.mem_liveKeys, List.mem_map, Option.isSome_iff_exists]
      constructor
      · rintro ⟨x, hx, rfl⟩
        exact ⟨_, (hmem x).mp hx⟩
      · rintro ⟨d, hd⟩
        exact ⟨⟨k, d.1, d.2⟩, (hmem ⟨k, d.1, d.2⟩).mpr hd, rfl⟩
    refine ⟨hnodup, hmem, fun lsn createdAtMs w hw => ?_⟩
    rw [Snapshot.foldlM_add (Snapshot.fits_of_foldlM_add hw)] at hw
    cases hw
    rw [← hperm.length_eq, List.length_map]
    exact UInt64.zero_add _

/-- Three keys, of which one has expired but was not reaped. -/
def oneDead : Store :=
  (((newStore oneShard 1).act (.set [1] [2] 1 0)).act (.set [3] [4] 9 0)).act (.set [5] [6] 0 0)

theorem range_exactly_once_dead :
    (oneDead.range 5).length = 2 ∧ ((oneDead.range 5).map SnapEntry.key).Nodup ∧
      ∀ x, x ∈ oneDead.range 5 ↔
        liveAt 5 (oneDead.contents x.key) = some (x.value, x.expireAtMs) := by
  have hrun : Run Store.callStep (fun s c => c.Counted s)
      { newStore oneShard 1 with wheel := none } oneDead :=
    ((Run.refl.tail (StoreCall.op (.set [1] [2] 1 0)) (by decide) rfl).tail
      (StoreCall.op (.set [3] [4] 9 0)) (by decide +kernel) rfl).tail
      (StoreCall.op (.set [5] [6] 0 0)) (by decide +kernel) rfl
  have halign : ∀ i < oneDead.shardCount, (oneDead.shards i).Aligned 5 := by
    intro i hi m hdead p hp
    have hlen : ∀ i < oneDead.shardCount, (oneDead.shards i).slots.items.length ≤ rangeBatchSize := by
      decide +kernel
    rw [List.drop_eq_nil_of_le ((hlen i hi).trans (Nat.le_add_left _ _))] at hp
    cases hp
  obtain ⟨hnodup, hmem, -⟩ := (range_exactly_once oneShard 1 none hrun 5).2.2.mpr halign
  exact ⟨by decide +kernel, hnodup, hmem⟩

/-! ## An entry handed out twice -/

/-- With 257 keys in the shard, the first of which is dead, the first batch goes on to the last
    slot to be full, and the second batch begins at that slot. -/
theorem range_repeats :
    ∃ s, Run Store.callStep (fun _ c => c.Small) (newStore largeShard 1) s ∧
      s.shardCount = 1 ∧ (s.shards 0).slots.items.length = 257 ∧
      ∃ batch x, s.range 5 = batch ++ [x] ∧ x ∈ batch := by
  have hd : ∀ j, (if j = 0 then (1 : UInt64) else 9) ≠ 0 := fun j => by split_ifs <;> decide
  obtain ⟨s, hrun, hcount, -, hs⟩ := exists_loaded_store hd (show 257 < 2 ^ 40 by norm_num)
  have hcalls : Run Store.callStep (fun _ c => c.Small) (newStore largeShard 1) s :=
    hrun.map StoreCall.op fun s a t ha hs => ⟨ha, hs⟩
  have hlen : (s.shards 0).slots.items.length = 257 := by rw [hs.items, List.length_range]
  have hlive : ∀ ps : List Ptr, (∀ p ∈ ps, p < 257) →
      ps.filter ((s.shards 0).live 5) = ps.filter (· ≠ 0) := by
    intro ps hps
    refine List.filter_congr fun p hp => ?_
    rw [Shard.live, Entry.expired, (hs.heap p (hps p hp)).2.1]
    by_cases hp : p = 0
    · rw [if_pos hp, hp]; decide
    · rw [if_neg hp, decide_eq_true hp]
      decide
  have hall := hlive (List.range 257) fun p hp => List.mem_range.mp hp
  have hlast := hlive ((List.range 257).drop rangeBatchSize) fun p hp =>
    List.mem_range.mp (List.mem_of_mem_drop hp)
  have hrange : s.range 5 = ((batchAt rangeBatchSize ((s.shards 0).live 5) (List.range 257) 0) ++
      batchAt rangeBatchSize ((s.shards 0).live 5) (List.range 257) 1).map (s.shards 0).clone := by
    have htwo : (List.range 257).length ≤ rangeBatchSize * 2 := by
      rw [List.length_range]
      decide
    rw [range_eq, hcount, List.range_one, List.flatMap_singleton, Shard.handed, hs.items,
      ← flatMap_batchAt (by decide) htwo]
    show (List.flatMap _ [0, 1]).map _ = _
    rw [List.flatMap_cons, List.flatMap_singleton]
  rw [List.map_append, batchAt, batchAt, Nat.mul_zero, List.drop_zero, Nat.mul_one, hall,
    hlast] at hrange
  refine ⟨s, hcalls, hcount, hlen, _, (s.shards 0).clone 256, hrange, List.mem_map.mpr ⟨256, ?_, rfl⟩⟩
  decide +kernel

end KvStore
