import KvStore.Common.Run
import KvStore.Store.Timers
import KvStore.Store.Upkeep

/-!
# The wheel and the store

`WheelExpirer` (`internal/store/wheel.go` lines 160–277) puts down a timer for every key that is
given a deadline, and removes a key when a timer for its current deadline comes due. A timer comes
due by ticks, an entry expires by milliseconds: a timer that comes due in the tick of its deadline
but before it is dropped, and no other one is put down.

* `expirer_never_forgets`: as long as no `RunOnce` moves the wheel into a tick that a stored
  deadline lies in but has not been reached, every deadline has its timer. If besides no deadline
  has passed when it is given, or lies beyond the levels, then an entry is removed two ticks after
  its deadline.
* `expirer_forgets`: otherwise it can be that an entry is never removed.
-/

namespace KvStore

open KvStore.Common

/-! ## Model -/

/-- The calls on a store with an expirer, each with its readings of the clock. -/
inductive ExpirerCall
  | set (key value : Bytes) (expireAt now mono : UInt64)
  | expire (key : Bytes) (expireAt now : UInt64)
  | delete (key : Bytes) (now : UInt64)
  | runOnce (now : UInt64)

/-- The wall clock at a call. -/
def ExpirerCall.now : ExpirerCall → UInt64
  | .set _ _ _ now _ => now
  | .expire _ _ now => now
  | .delete _ now => now
  | .runOnce now => now

/-- A store with an expirer, and the last reading of the clock. -/
structure Clocked where
  store : Store
  clock : UInt64

/-- `New`, and `NewWheelExpirer` at the reading `start`. -/
def newExpirer (opts : Options) (newSeed tick start : UInt64) : Clocked :=
  ⟨(newStore opts newSeed).attachWheel tick start, start⟩

namespace Clocked

/-- The store after a call. -/
def act (s : Clocked) : ExpirerCall → Store
  | .set key value expireAt _ mono => (s.store.set key value expireAt mono).2
  | .expire key expireAt now => (s.store.expire key expireAt now).2
  | .delete key now => (s.store.delete key now).2
  | .runOnce now => (s.store.runOnce now).2

/-- A call; the clock does not go back. -/
def step (s : Clocked) (c : ExpirerCall) : Option Clocked :=
  if s.clock ≤ c.now then some ⟨s.act c, c.now⟩ else none

end Clocked

/-- A `RunOnce` that moves the wheel finds no entry whose deadline lies in the tick of the clock
    reading but later. -/
def ExpirerCall.OffTick (s : Clocked) : ExpirerCall → Prop
  | .runOnce now => ∀ w ∈ s.store.wheel, w.nowTick < w.tickFor now →
      ∀ i k v x, (s.store.shards i).contents k = some (v, x) → now < x →
        w.tickFor now < w.tickFor x
  | _ => True

/-- A deadline has not passed when it is given, and is within reach of the levels. -/
def InReach (s : Clocked) (expireAt now : UInt64) : Prop :=
  expireAt ≠ 0 → now ≤ expireAt ∧
    ∀ w ∈ s.store.wheel, (w.tickFor expireAt).toNat < w.nowTick.toNat + 2 ^ 40

/-- The deadlines that a call gives. -/
def ExpirerCall.InReach (s : Clocked) : ExpirerCall → Prop
  | .set _ _ expireAt now _ => KvStore.InReach s expireAt now
  | .expire _ expireAt now => KvStore.InReach s expireAt now
  | _ => True

/-! ## Timers that come due -/

section

variable {s : Store} {sh : Shard} {w w' : Wheel} {key k : Bytes} {x now : UInt64}
  {d : Bytes × UInt64}

/-- The removal for one timer. -/
theorem wheelRemove_contents (h : KeyInv sh) (key : Bytes) (x now : UInt64) :
    KeyInv (sh.wheelRemove key x now).2 ∧
      ∀ k d, (sh.wheelRemove key x now).2.contents k = some d →
        sh.contents k = some d ∧ (k = key → d.2 = x → expiredAt d.2 now = false) := by
  unfold Shard.wheelRemove
  cases he : sh.entries.lookup key with
  | none =>
    refine ⟨h, fun k d hk => ⟨hk, ?_⟩⟩
    rintro rfl
    rw [contents_of_lookup_none he] at hk
    cases hk
  | some e =>
    dsimp only
    split_ifs with hne hexp
    · refine ⟨h, fun k d hk => ⟨hk, ?_⟩⟩
      rintro rfl hx
      rw [contents_of_lookup he] at hk
      exact absurd (by rw [← hx, ← Option.some.inj hk]) hne
    · have hremoved := removeAndFire_removed sh e .expired
      refine ⟨(hremoved.effect h).keyInv, fun k d hk => ?_⟩
      rw [hremoved.contents, h.key he] at hk
      split_ifs at hk with hmem
      exact ⟨hk, fun hkey => absurd (List.mem_singleton.mpr hkey) hmem⟩
    · refine ⟨h, fun k d hk => ⟨hk, ?_⟩⟩
      rintro rfl hx
      rw [contents_of_lookup he] at hk
      rw [← Option.some.inj hk]
      exact eq_false_of_ne_true hexp

/-- `RunOnce` removes the entries whose deadline is that of a timer and has passed. -/
theorem fireTimers_contents (now : UInt64) (due : List WheelTimer) :
    ∀ {s : Store}, (∀ i, KeyInv (s.shards i)) →
      (Store.fireTimers now due s).2.wheel = s.wheel ∧
      (Store.fireTimers now due s).2.shardFor = s.shardFor ∧
      (∀ i, KeyInv ((Store.fireTimers now due s).2.shards i)) ∧
      ∀ i k d, ((Store.fireTimers now due s).2.shards i).contents k = some d →
        (s.shards i).contents k = some d ∧
        (s.shardFor k = i → ∀ t ∈ due, t.key = k → t.expireAt = d.2 →
          expiredAt d.2 now = false) := by
  induction due with
  | nil => exact fun h => ⟨rfl, rfl, h, fun i k d hk => ⟨hk, by simp⟩⟩
  | cons t due ih =>
    intro s h
    obtain ⟨hkey, hone⟩ := wheelRemove_contents (h (s.shardFor t.key)) t.key t.expireAt now
    have hput : ∀ i, KeyInv ((s.put (s.shardFor t.key)
        ((s.shards (s.shardFor t.key)).wheelRemove t.key t.expireAt now).2).shards i) := by
      intro i
      rw [shards_put]
      split_ifs
      · exact hkey
      · exact h i
    obtain ⟨hwheel, hroute, hkeys, hrest⟩ := ih hput
    refine ⟨hwheel, hroute, hkeys, fun i k d hk => ?_⟩
    obtain ⟨hbefore, hdue⟩ := hrest i k d hk
    rw [shards_put] at hbefore
    split_ifs at hbefore with hi
    · obtain ⟨hk', hx⟩ := hone k d hbefore
      refine ⟨hi ▸ hk', fun hroutes t' ht' hkey' hx' => ?_⟩
      rcases List.mem_cons.mp ht' with rfl | ht'
      · exact hx hkey'.symm hx'.symm
      · exact hdue hroutes t' ht' hkey' hx'
    · refine ⟨hbefore, fun hroutes t' ht' hkey' hx' => ?_⟩
      rcases List.mem_cons.mp ht' with rfl | ht'
      · exact absurd (by rw [hkey', hroutes]) hi
      · exact hdue hroutes t' ht' hkey' hx'

/-- `Advance` returns something only if it moves the wheel. -/
theorem Wheel.nowTick_lt_of_due {t : WheelTimer} (h : t ∈ (w.advance now).1) :
    w.nowTick < w.tickFor now := by
  rw [UInt64.lt_iff_toNat_lt]
  by_contra hle
  have hzero : (w.tickFor now).toNat - w.nowTick.toNat = 0 := by omega
  have hdue : (w.advance now).1 = [] := by
    show (Wheel.tickLoop ((w.tickFor now).toNat - w.nowTick.toNat) w []).1 = []
    rw [hzero]
    rfl
  rw [hdue] at h
  cases h

theorem Wheel.tickFor_mono (w : Wheel) {a b : UInt64} (h : a ≤ b) :
    (w.tickFor a).toNat ≤ (w.tickFor b).toNat := by
  rw [UInt64.le_iff_toNat_le] at h
  unfold Wheel.tickFor
  split_ifs with ha hb hb
  · exact le_rfl
  · exact Nat.zero_le _
  · exact absurd (UInt64.le_iff_toNat_le.mpr (h.trans (UInt64.le_iff_toNat_le.mp hb))) ha
  · have ha' := UInt64.le_of_lt (UInt64.not_le.mp ha)
    have hb' := UInt64.le_of_lt (UInt64.not_le.mp hb)
    rw [UInt64.toNat_div, UInt64.toNat_div, UInt64.toNat_sub_of_le _ _ ha',
      UInt64.toNat_sub_of_le _ _ hb']
    exact Nat.div_le_div_right (Nat.sub_le_sub_right h _)

/-- Two ticks later in time is two ticks later on the wheel. -/
theorem Wheel.tickFor_two_later (w : Wheel) (htick : w.tickMs ≠ 0) (hepoch : w.epochMs ≤ x)
    (hlate : x.toNat + 2 * w.tickMs.toNat ≤ now.toNat) :
    (w.tickFor x).toNat + 2 ≤ (w.tickFor now).toNat := by
  have hpos : 0 < w.tickMs.toNat := Nat.pos_of_ne_zero fun h => htick (UInt64.toNat_inj.mp h)
  have hle := UInt64.le_iff_toNat_le.mp hepoch
  have htickFor : ∀ y : UInt64, w.epochMs ≤ y →
      (w.tickFor y).toNat = (y.toNat - w.epochMs.toNat) / w.tickMs.toNat := by
    intro y hy
    unfold Wheel.tickFor
    split_ifs with h
    · obtain rfl := UInt64.le_antisymm hy h
      simp
    · rw [UInt64.toNat_div, UInt64.toNat_sub_of_le _ _ hy]
  rw [htickFor x hepoch, htickFor now (UInt64.le_iff_toNat_le.mpr (by omega)),
    ← Nat.add_mul_div_right _ 2 hpos]
  exact Nat.div_le_div_right (by omega)

/-! ## Every deadline has its timer -/

/-- What `fireTTL` does to the wheel. -/
def Wheel.schedule (w : Wheel) (key : Bytes) (expireAt : UInt64) : Wheel :=
  if expireAt = 0 then w else w.add key expireAt

theorem fireTTL_schedule (hw : s.wheel = some w) (key : Bytes) (x : UInt64) :
    s.fireTTL key x = { s with wheel := some (w.schedule key x) } := by
  unfold Store.fireTTL Wheel.schedule
  rw [hw]
  split_ifs
  · rw [← hw]
  · rfl

theorem Wheel.tickFor_schedule (w : Wheel) (key : Bytes) (x : UInt64) :
    (w.schedule key x).tickFor = w.tickFor := by
  unfold Wheel.schedule
  split_ifs
  · rfl
  · exact funext fun ms => Wheel.tickFor_call w (.add key x) ms

theorem Wheel.mem_held_schedule (w : Wheel) (key : Bytes) (x : UInt64) {t : WheelTimer} :
    t ∈ (w.schedule key x).held ↔ t ∈ w.held ∨ x ≠ 0 ∧ t = ⟨key, x⟩ := by
  unfold Wheel.schedule
  split_ifs with hx
  · simp [hx]
  · simp [Wheel.held_add, hx]

/-- The keys of the store are where they are looked for, and each one with a deadline has a timer
    for it. -/
structure Store.Covered (s : Store) (w : Wheel) : Prop where
  wheel : s.wheel = some w
  key : ∀ i, KeyInv (s.shards i)
  routed : ∀ i k d, (s.shards i).contents k = some d → s.shardFor k = i
  timer : ∀ i k v x, (s.shards i).contents k = some (v, x) → x ≠ 0 → ⟨k, x⟩ ∈ w.held

/-- A change of the shard of `key` that brings in at most that key, with its timer. -/
theorem Store.Covered.put (h : s.Covered w) (hheld : ∀ t ∈ w.held, t ∈ w'.held) (hkey : KeyInv sh)
    (hsh : ∀ k d, sh.contents k = some d → (s.shards (s.shardFor key)).contents k = some d ∨
      k = key ∧ (d.2 ≠ 0 → ⟨key, d.2⟩ ∈ w'.held)) :
    Store.Covered { s.put (s.shardFor key) sh with wheel := some w' } w' := by
  refine ⟨rfl, fun i => ?_, fun i k d hk => ?_, fun i k v x hk hx => ?_⟩
  · show KeyInv ((s.put (s.shardFor key) sh).shards i)
    rw [shards_put]
    split_ifs
    · exact hkey
    · exact h.key i
  · replace hk : ((s.put (s.shardFor key) sh).shards i).contents k = some d := hk
    show s.shardFor k = i
    rw [shards_put] at hk
    split_ifs at hk with hi
    · rcases hsh k d hk with hold | ⟨rfl, -⟩
      · rw [hi]
        exact h.routed _ k d hold
      · exact hi.symm
    · exact h.routed i k d hk
  · replace hk : ((s.put (s.shardFor key) sh).shards i).contents k = some (v, x) := hk
    rw [shards_put] at hk
    split_ifs at hk with hi
    · rcases hsh k _ hk with hold | ⟨rfl, htimer⟩
      · exact hheld _ (h.timer _ k v x hold hx)
      · exact htimer hx
    · exact hheld _ (h.timer i k v x hk hx)

/-- A change that brings in nothing. -/
theorem Store.Covered.put_less (h : s.Covered w) (hkey : KeyInv sh)
    (hsh : ∀ k d, sh.contents k = some d → (s.shards (s.shardFor key)).contents k = some d) :
    (s.put (s.shardFor key) sh).Covered w := by
  have hput : Store.Covered { s.put (s.shardFor key) sh with wheel := some w } w :=
    h.put (fun t ht => ht) hkey fun k d hk => .inl (hsh k d hk)
  rw [← h.wheel] at hput
  exact hput

/-- A change of the shard of `key` that gives the key the deadline `x`, and `fireTTL`. -/
theorem Store.Covered.put_fireTTL (h : s.Covered w) (hkey : KeyInv sh)
    (hsh : ∀ k d, sh.contents k = some d → (s.shards (s.shardFor key)).contents k = some d ∨
      k = key ∧ d.2 = x) :
    ((s.put (s.shardFor key) sh).fireTTL key x).Covered (w.schedule key x) := by
  rw [fireTTL_schedule (s := s.put (s.shardFor key) sh) h.wheel]
  refine h.put (fun t ht => (w.mem_held_schedule key x).mpr (.inl ht)) hkey fun k d hk => ?_
  rcases hsh k d hk with hold | ⟨rfl, rfl⟩
  · exact .inl hold
  · exact .inr ⟨rfl, fun hx => (w.mem_held_schedule k d.2).mpr (.inr ⟨hx, rfl⟩)⟩

theorem Store.Covered.set (h : s.Covered w) (key value : Bytes) (x mono : UInt64) :
    (s.set key value x mono).2.Covered
      (if (s.set key value x mono).1 = true then w.schedule key x else w) := by
  obtain ⟨ks, -, -, heff⟩ := setLocked_effect (h.key (s.shardFor key)) key value x mono
  rw [set_eq]
  dsimp only
  split_ifs with hok
  · refine h.put_fireTTL heff.keyInv fun k d hk => ?_
    rw [heff.contents, if_pos hok, Keyspace.set] at hk
    by_cases hkey : k = key
    · rw [hkey, Function.update_self] at hk
      exact .inr ⟨hkey, by rw [← Option.some.inj hk]⟩
    · rw [Function.update_of_ne hkey] at hk
      exact .inl (deleteAll_eq_some hk)
  · refine h.put_less heff.keyInv fun k d hk => ?_
    rw [heff.contents, if_neg hok] at hk
    exact deleteAll_eq_some hk

theorem Store.Covered.expire (h : s.Covered w) (key : Bytes) (x now : UInt64) :
    (s.expire key x now).2.Covered
      (if (s.expire key x now).1 = true then w.schedule key x else w) := by
  obtain ⟨hres, heff⟩ := txnExpire_effect (h.key (s.shardFor key)) key x now
  rw [expire_eq]
  dsimp only
  split_ifs with hok
  · refine h.put_fireTTL heff.keyInv fun k d hk => ?_
    rw [heff.contents] at hk
    split_ifs at hk
    · exact .inl (delete_eq_some hk)
    · by_cases hkey : k = key
      · rw [Keyspace.expire, hkey, Function.update_self] at hk
        obtain ⟨d', -, hd⟩ := Option.map_eq_some_iff.mp hk
        exact .inr ⟨hkey, by rw [← hd]⟩
      · rw [Keyspace.expire, Function.update_of_ne hkey] at hk
        exact .inl hk
  · refine h.put_less heff.keyInv fun k d hk => ?_
    rw [heff.contents] at hk
    split_ifs at hk with hdead
    · exact delete_eq_some hk
    · -- a key that is neither live nor dead is not there
      have hnone : (s.shards (s.shardFor key)).contents key = none := by
        rw [hres, Option.not_isSome_iff_eq_none, liveAt_eq_ite, if_neg hdead] at hok
        exact hok
      by_cases hkey : k = key
      · rw [Keyspace.expire, hkey, Function.update_self, hnone] at hk
        cases hk
      · rw [Keyspace.expire, Function.update_of_ne hkey] at hk
        exact hk

theorem Store.Covered.delete (h : s.Covered w) (key : Bytes) (now : UInt64) :
    (s.delete key now).2.Covered w := by
  obtain ⟨-, heff⟩ := txnDelete_effect (h.key (s.shardFor key)) key now
  refine h.put_less heff.keyInv fun k d hk => ?_
  rw [heff.contents] at hk
  exact delete_eq_some hk

/-- A timer does not come due before the tick of its deadline. -/
def NotEarly (tickFor : UInt64 → UInt64) (t : WheelTimer) (tick : ℕ) : Prop :=
  (tickFor t.expireAt).toNat ≤ tick

theorem runOnce_eq (hw : s.wheel = some w) (now : UInt64) :
    (s.runOnce now).2 = (Store.fireTimers now (w.advance now).1
      { s with wheel := some (w.advance now).2 }).2 := by
  unfold Store.runOnce
  rw [hw]

theorem Store.Covered.runOnce (h : s.Covered w) (hearly : w.Keeps (NotEarly w.tickFor))
    (hoff : w.nowTick < w.tickFor now → ∀ i k v x, (s.shards i).contents k = some (v, x) →
      now < x → w.tickFor now < w.tickFor x) :
    (s.runOnce now).2.Covered (w.advance now).2 := by
  obtain ⟨hwheel, hroute, hkeys, hcontents⟩ := fireTimers_contents now (w.advance now).1
    (s := { s with wheel := some (w.advance now).2 }) h.key
  rw [runOnce_eq h.wheel]
  refine ⟨hwheel, hkeys, fun i k d hk => ?_, fun i k v x hk hx => ?_⟩
  · rw [hroute]
    exact h.routed i k d (hcontents i k d hk).1
  · obtain ⟨hold, hfired⟩ := hcontents i k _ hk
    have hroutes := h.routed i k _ hold
    have hheld := h.timer i k v x hold hx
    rw [← Wheel.held_advance w now, Multiset.mem_add, Multiset.mem_coe] at hheld
    rcases hheld with hdue | hheld
    · -- the timer has come due, and the entry is still there: it has not expired
      have hlive := hfired hroutes _ hdue rfl rfl
      have hlt : now < x := by
        rw [expiredAt, decide_eq_false_iff_not, not_and] at hlive
        exact UInt64.not_le.mp (hlive hx)
      obtain ⟨tick, hle, hnow⟩ := (hearly.advance now).2 _ hdue
      have hafter := hoff (Wheel.nowTick_lt_of_due hdue) i k v x hold hlt
      rw [UInt64.lt_iff_toNat_lt] at hafter
      exact absurd (hle.trans hnow) (not_le.mpr hafter)
    · exact hheld

/-! ## Calls -/

/-- What a call does to the wheel. -/
inductive Wheel.Moves (w : Wheel) : ExpirerCall → Wheel → Prop
  | same (c : ExpirerCall) : w.Moves c w
  | set (key value : Bytes) (x now mono : UInt64) :
      w.Moves (.set key value x now mono) (w.schedule key x)
  | expire (key : Bytes) (x now : UInt64) : w.Moves (.expire key x now) (w.schedule key x)
  | advance (now : UInt64) : w.Moves (.runOnce now) (w.advance now).2

theorem Store.Covered.act {s : Clocked} (h : s.store.Covered w)
    (hearly : w.Keeps (NotEarly w.tickFor)) (c : ExpirerCall) (hoff : c.OffTick s) :
    ∃ w', (s.act c).Covered w' ∧ w.Moves c w' := by
  cases c with
  | set key value x now mono =>
    refine ⟨_, h.set key value x mono, ?_⟩
    split_ifs
    · exact .set key value x now mono
    · exact .same _
  | expire key x now =>
    refine ⟨_, h.expire key x now, ?_⟩
    split_ifs
    · exact .expire key x now
    · exact .same _
  | delete key now => exact ⟨w, h.delete key now, .same _⟩
  | runOnce now => exact ⟨_, h.runOnce hearly (hoff w h.wheel), .advance now⟩

theorem Wheel.tickFor_advance (w : Wheel) (now : UInt64) : (w.advance now).2.tickFor = w.tickFor :=
  funext fun ms => Wheel.tickFor_call w (.advance now) ms

theorem Wheel.Keeps.schedule {Due : WheelTimer → ℕ → Prop} (h : w.Keeps Due)
    (hadd : x ≠ 0 → Due ⟨key, x⟩ (w.targetOf ⟨key, x⟩) ∧
      (w.nowTick.toNat < (w.tickFor x).toNat → Due ⟨key, x⟩ ((w.tickFor x).toNat + 1)) ∧
      (w.nowTick.toNat + 256 ^ wheelLevels ≤ w.targetOf ⟨key, x⟩ →
        ∀ tick, (w.tickFor x).toNat ≤ tick → Due ⟨key, x⟩ tick)) :
    (w.schedule key x).Keeps Due := by
  unfold Wheel.schedule
  split_ifs with hx
  · exact h
  · refine Wheel.Keeps.call (c := .add key x) h fun t ht => ?_
    cases ht
    exact hadd hx

theorem Wheel.Moves.early {c : ExpirerCall} (h : w.Moves c w')
    (hearly : w.Keeps (NotEarly w.tickFor)) : w'.Keeps (NotEarly w'.tickFor) := by
  have hschedule : ∀ key x, (w.schedule key x).Keeps (NotEarly (w.schedule key x).tickFor) := by
    intro key x
    rw [Wheel.tickFor_schedule]
    exact hearly.schedule fun _ => ⟨le_max_left _ _, fun _ => Nat.le_succ _, fun _ _ htick => htick⟩
  cases h with
  | same => exact hearly
  | set key _ x => exact hschedule key x
  | expire key x => exact hschedule key x
  | advance now =>
    rw [Wheel.tickFor_advance]
    exact (hearly.advance now).1

/-! ## Removal in time -/

/-- A timer comes due at the latest two ticks after that of its deadline. -/
def NotLate (tickFor : UInt64 → UInt64) (t : WheelTimer) (tick : ℕ) : Prop :=
  tick ≤ (tickFor t.expireAt).toNat + 2

/-- The timers come due in time, and the wheel is not ahead of the clock. -/
structure Wheel.Timely (w : Wheel) (clock : UInt64) : Prop where
  late : w.Keeps (NotLate w.tickFor)
  tickMs : w.tickMs ≠ 0
  epoch : w.epochMs ≤ clock
  now : w.nowTick.toNat ≤ (w.tickFor clock).toNat
  after : ∀ t ∈ w.held, w.epochMs ≤ t.expireAt

variable {clock : UInt64}

theorem Wheel.Timely.mono (h : w.Timely clock) (hclock : clock ≤ now) : w.Timely now :=
  ⟨h.late, h.tickMs, UInt64.le_trans h.epoch hclock, h.now.trans (w.tickFor_mono hclock), h.after⟩

theorem Wheel.Timely.schedule (h : w.Timely now)
    (hreach : x ≠ 0 → now ≤ x ∧ (w.tickFor x).toNat < w.nowTick.toNat + 2 ^ 40) (key : Bytes) :
    (w.schedule key x).Timely now := by
  have hsame : (w.schedule key x).tickMs = w.tickMs ∧ (w.schedule key x).epochMs = w.epochMs ∧
      (w.schedule key x).nowTick = w.nowTick := by
    unfold Wheel.schedule
    split_ifs
    · exact ⟨rfl, rfl, rfl⟩
    · have hclock := Wheel.sameClock_addLocked w ⟨key, x⟩
      exact ⟨hclock.tickMs, hclock.epochMs, hclock.nowTick⟩
  obtain ⟨htick, hepoch, hnow⟩ := hsame
  refine ⟨?_, by rw [htick]; exact h.tickMs, by rw [hepoch]; exact h.epoch, ?_, fun t ht => ?_⟩
  · rw [Wheel.tickFor_schedule]
    refine h.late.schedule fun hx => ?_
    obtain ⟨hpast, hnear⟩ := hreach hx
    have hle := h.now.trans (w.tickFor_mono hpast)
    have hlevels : 256 ^ wheelLevels = 2 ^ 40 := by decide
    refine ⟨?_, fun _ => Nat.add_le_add_left (by decide) _, fun hfar => ?_⟩
    · show max (w.tickFor x).toNat (w.nowTick.toNat + 1) ≤ (w.tickFor x).toNat + 2
      omega
    · replace hfar : w.nowTick.toNat + 256 ^ wheelLevels ≤
        max (w.tickFor x).toNat (w.nowTick.toNat + 1) := hfar
      omega
  · rw [hnow, Wheel.tickFor_schedule]
    exact h.now
  · rw [hepoch]
    rcases (w.mem_held_schedule key x).mp ht with ht | ⟨hx, rfl⟩
    · exact h.after t ht
    · exact UInt64.le_trans h.epoch (hreach hx).1

theorem Wheel.Timely.advance (h : w.Timely now) : (w.advance now).2.Timely now := by
  obtain ⟨htick, hepoch, -⟩ := Wheel.advance_frame w now
  refine ⟨?_, by rw [htick]; exact h.tickMs, by rw [hepoch]; exact h.epoch, ?_, fun t ht => ?_⟩
  · rw [Wheel.tickFor_advance]
    exact (h.late.advance now).1
  · rw [Wheel.nowTick_advance, Wheel.tickFor_advance]
    exact max_le h.now le_rfl
  · rw [hepoch]
    refine h.after t ?_
    rw [← Wheel.held_advance w now]
    exact Multiset.mem_add.mpr (.inr ht)

theorem Wheel.Moves.timely {s : Clocked} {c : ExpirerCall} (hm : w.Moves c w')
    (hw : s.store.wheel = some w) (h : w.Timely s.clock) (hclock : s.clock ≤ c.now)
    (hreach : c.InReach s) : w'.Timely c.now := by
  have hnow := h.mono hclock
  cases hm with
  | same => exact hnow
  | set key value x now mono =>
    exact hnow.schedule (fun hx => ⟨(hreach hx).1, (hreach hx).2 w hw⟩) key
  | expire key x now =>
    exact hnow.schedule (fun hx => ⟨(hreach hx).1, (hreach hx).2 w hw⟩) key
  | advance now => exact hnow.advance

/-- An entry with a timer is removed two ticks after its deadline. -/
theorem Store.Covered.removes (h : s.Covered w) (hw : w.Timely clock) {i : ℕ} {v : Bytes}
    (hk : (s.shards i).contents k = some (v, x)) (hx : x ≠ 0)
    (hlate : x.toNat + 2 * w.tickMs.toNat ≤ now.toNat) :
    ((s.runOnce now).2.shards i).contents k = none := by
  have hheld := h.timer i k v x hk hx
  have hafter : w.epochMs ≤ x := hw.after _ hheld
  have htick := w.tickFor_two_later hw.tickMs hafter hlate
  have hgone : ⟨k, x⟩ ∉ (w.advance now).2.held := by
    refine (hw.late.advance now).1.not_held fun tick hle => ?_
    rw [Wheel.nowTick_advance]
    have : tick ≤ (w.tickFor x).toNat + 2 := hle
    omega
  rw [← Wheel.held_advance w now, Multiset.mem_add, Multiset.mem_coe] at hheld
  have hdue := hheld.resolve_right hgone
  obtain ⟨-, -, -, hcontents⟩ := fireTimers_contents now (w.advance now).1
    (s := { s with wheel := some (w.advance now).2 }) h.key
  rw [runOnce_eq h.wheel]
  by_contra hne
  obtain ⟨d, hd⟩ := Option.ne_none_iff_exists'.mp hne
  obtain ⟨hold, hfired⟩ := hcontents i k d hd
  have hsame : some d = some (v, x) := hold.symm.trans hk
  obtain rfl := Option.some.inj hsame
  have hlive := hfired (h.routed i k _ hk) _ hdue rfl rfl
  rw [expiredAt, decide_eq_false_iff_not] at hlive
  have hpassed : x ≤ now := UInt64.le_iff_toNat_le.mpr (by omega)
  exact hlive ⟨hx, hpassed⟩

end

/-! ## Main results -/

theorem newExpirer_covered (opts : Options) (newSeed tick start : UInt64) :
    ∃ w, (newExpirer opts newSeed tick start).store.Covered w ∧
      w.Keeps (NotEarly w.tickFor) ∧ w.Timely start := by
  have hnone : ∀ i k, ((newStore opts newSeed).shards i).contents k = none := by
    intro i k
    rw [Shard.contents, newStore_entries]
    rfl
  refine ⟨newWheel (if tick = 0 then 10 else tick) start, ⟨rfl,
    fun i => (newStore_inv opts newSeed i).toKeyInv, fun i k d hk => ?_, fun i k v x hk => ?_⟩,
    Wheel.newWheel_keeps _ _ _, ⟨Wheel.newWheel_keeps _ _ _, ?_, UInt64.le_refl _, ?_, fun t ht => ?_⟩⟩
  · replace hk : ((newStore opts newSeed).shards i).contents k = some d := hk
    rw [hnone] at hk
    cases hk
  · replace hk : ((newStore opts newSeed).shards i).contents k = some (v, x) := hk
    rw [hnone] at hk
    cases hk
  · show (if (if tick = 0 then 10 else tick) = 0 then 1 else if tick = 0 then 10 else tick) ≠ _
    split_ifs with hzero
    · decide
    · decide
    · exact hzero
  · exact Nat.zero_le _
  · rw [Wheel.newWheel_held] at ht
    exact absurd ht (Multiset.notMem_zero t)

theorem Clocked.step_eq {s t : Clocked} {c : ExpirerCall} (h : s.step c = some t) :
    s.clock ≤ c.now ∧ t = ⟨s.act c, c.now⟩ := by
  unfold Clocked.step at h
  split_ifs at h with hclock
  exact ⟨hclock, (Option.some.inj h).symm⟩

/-- In every run in which no `RunOnce` moves the wheel into the tick of a later deadline, each entry
    with a deadline has a timer for it. If the deadlines are in reach besides, then a `RunOnce` two
    ticks after the deadline of an entry, or later, removes the entry. -/
theorem expirer_never_forgets (opts : Options) (newSeed tick start : UInt64) :
    (∀ s, Run Clocked.step (fun s c => c.OffTick s) (newExpirer opts newSeed tick start) s →
      ∃ w, s.store.wheel = some w ∧ ∀ i k v x, (s.store.shards i).contents k = some (v, x) →
        x ≠ 0 → ⟨k, x⟩ ∈ w.held) ∧
    ∀ s, Run Clocked.step (fun s c => c.OffTick s ∧ c.InReach s)
        (newExpirer opts newSeed tick start) s →
      ∀ w ∈ s.store.wheel, ∀ now, s.clock ≤ now →
        ∀ i k v x, (s.store.shards i).contents k = some (v, x) → x ≠ 0 →
          x.toNat + 2 * w.tickMs.toNat ≤ now.toNat →
          ((s.store.runOnce now).2.shards i).contents k = none := by
  obtain ⟨w₀, hcovered, hearly, htimely⟩ := newExpirer_covered opts newSeed tick start
  constructor
  · intro s hrun
    have hinv : ∃ w, s.store.Covered w ∧ w.Keeps (NotEarly w.tickFor) := by
      refine hrun.invariant (P := fun s => ∃ w, s.store.Covered w ∧ w.Keeps (NotEarly w.tickFor))
        ?_ ⟨w₀, hcovered, hearly⟩
      rintro s c t ⟨w, hw, hkeeps⟩ hoff hstep
      obtain ⟨-, rfl⟩ := Clocked.step_eq hstep
      obtain ⟨w', hw', hmoves⟩ := hw.act hkeeps c hoff
      exact ⟨w', hw', hmoves.early hkeeps⟩
    obtain ⟨w, hw, -⟩ := hinv
    exact ⟨w, hw.wheel, hw.timer⟩
  · intro s hrun w hwheel now _ i k v x hk hx hlate
    have hinv : ∃ w, s.store.Covered w ∧ w.Keeps (NotEarly w.tickFor) ∧ w.Timely s.clock := by
      refine hrun.invariant
        (P := fun s => ∃ w, s.store.Covered w ∧ w.Keeps (NotEarly w.tickFor) ∧ w.Timely s.clock)
        ?_ ⟨w₀, hcovered, hearly, htimely⟩
      rintro s c t ⟨w, hw, hkeeps, htime⟩ ⟨hoff, hreach⟩ hstep
      obtain ⟨hclock, rfl⟩ := Clocked.step_eq hstep
      obtain ⟨w', hw', hmoves⟩ := hw.act hkeeps c hoff
      exact ⟨w', hw', hmoves.early hkeeps, hmoves.timely hw.wheel htime hclock hreach⟩
    obtain ⟨w', hw', -, htime⟩ := hinv
    have hsame : some w' = some w := hw'.wheel.symm.trans hwheel
    obtain rfl := Option.some.inj hsame
    exact hw'.removes htime hk hx hlate

/-- A run with ticks of 10 ms: a key with the deadline 105, and a `RunOnce` at 90. The next one, at
    130, removes the key. -/
theorem expirer_never_forgets_one :
    ∃ s, Run Clocked.step (fun s c => c.OffTick s ∧ c.InReach s) (newExpirer oneShard 1 10 0) s ∧
      (s.store.shards 0).contents [1] = some ([2], 105) ∧
      ((s.store.runOnce 130).2.shards 0).contents [1] = none := by
  obtain ⟨s, hs⟩ : ∃ s, s = (newExpirer oneShard 1 10 0).act (.set [1] [2] 105 0 0) := ⟨_, rfl⟩
  have hfirst : Run Clocked.step (fun s c => c.OffTick s ∧ c.InReach s)
      (newExpirer oneShard 1 10 0) ⟨s, 0⟩ := by
    refine Run.refl.tail (.set [1] [2] 105 0 0) ⟨trivial, fun _ => ⟨by decide, ?_⟩⟩ (by rw [hs]; rfl)
    rintro w ⟨⟩
    decide
  have hwheel : s.wheel.any (fun w => w.held = {⟨[1], 105⟩} ∧ w.tickFor 90 < w.tickFor 105) := by
    rw [hs]
    decide +kernel
  obtain ⟨w₁, hw₁, hone⟩ := (Option.any_eq_true _ _).mp hwheel
  obtain ⟨hheld, htick⟩ := of_decide_eq_true hone
  -- the one deadline is not in the tick of 90
  have hoff : ExpirerCall.OffTick ⟨s, 0⟩ (.runOnce 90) := by
    intro w hw _ i k v x hk hlt
    obtain rfl := Option.some.inj (hw₁.symm.trans hw)
    obtain ⟨w₀, hcovered, -, -⟩ := newExpirer_covered oneShard 1 10 0
    have hset := hcovered.set [1] [2] 105 0
    rw [show ((newExpirer oneShard 1 10 0).store.set [1] [2] 105 0).2 = s from hs.symm] at hset
    have hsame := Option.some.inj (hset.wheel.symm.trans hw)
    have htimer := hset.timer i k v x hk (fun h => by rw [h] at hlt; exact absurd hlt (by decide))
    rw [hsame, hheld, Multiset.mem_singleton] at htimer
    cases htimer
    exact htick
  have hrun : Run Clocked.step (fun s c => c.OffTick s ∧ c.InReach s) (newExpirer oneShard 1 10 0)
      ⟨Clocked.act ⟨s, 0⟩ (.runOnce 90), 90⟩ := hfirst.tail (.runOnce 90) ⟨hoff, trivial⟩ rfl
  have hcontents : ((Clocked.act ⟨s, 0⟩ (.runOnce 90)).shards 0).contents [1] = some ([2], 105) := by
    rw [hs]
    decide +kernel
  have hmoved : (Clocked.act ⟨s, 0⟩ (.runOnce 90)).wheel.any (fun w => w.tickMs = 10) := by
    rw [hs]
    decide +kernel
  obtain ⟨w, hw, hten⟩ := (Option.any_eq_true _ _).mp hmoved
  refine ⟨_, hrun, hcontents, ?_⟩
  refine (expirer_never_forgets oneShard 1 10 0).2 _ hrun w hw 130 ?_ 0 [1] [2] 105
    hcontents (by decide) ?_
  · show (90 : UInt64) ≤ 130
    decide
  · rw [of_decide_eq_true hten]
    decide

/-- With ticks of 10 ms: the timer for 105 comes due at 100 and is dropped; at 125 there is none. And
    with a deadline that has passed long ago, a `RunOnce` in the tick of the wheel does nothing. -/
theorem expirer_forgets :
    (∃ s, Run Clocked.step Always (newExpirer oneShard 1 10 0) s ∧
      (s.store.shards 0).contents [1] = some ([2], 105) ∧
      s.store.wheel.map Wheel.held = some 0 ∧
      ((s.store.runOnce 125).2.shards 0).contents [1] = some ([2], 105)) ∧
    ∃ s, Run Clocked.step Always (newExpirer oneShard 1 10 0) s ∧ s.clock = 100 ∧
      (s.store.shards 0).contents [1] = some ([2], 50) ∧
      ((s.store.runOnce 100).2.shards 0).contents [1] = some ([2], 50) := by
  constructor
  · exact Run.exists_of_exec _ _ [.set [1] [2] 105 0 0, .runOnce 100] _ (by decide +kernel)
  · exact Run.exists_of_exec _ _ [.runOnce 100, .set [1] [2] 50 100 0] _ (by decide +kernel)

end KvStore
