import KvStore.Engine.Recovery

/-!
# Re-applying the overlap of catch-up and live feed

`streamTo` (`internal/cluster/primary.go`, lines 106–165) subscribes to the live feed
before it reads the backlog, so a replica receives the records in between twice, and its
comment argues that applying a record twice is idempotent. Here a log is applied
through `applyRecord` (`internal/engine/engine.go`, lines 298–315) from first to last
and then once more from some record on, at clock readings that never go back.

* `overlap_reapplied`: the second pass changes nothing that is live at a reading, if and only if
  every EXPIRE of it that meets an entry past its deadline is made good by a later SET or DELETE, or
  is one of a key that is not live then anyway.
* `overlap_loses_key`: otherwise it loses a key. The second pass puts back the SET of
  an entry with its first deadline; when that has passed meanwhile, the EXPIRE that had
  extended it removes the entry.
-/

namespace KvStore

open KvStore.Common

/-- A record with the readings of the two clocks it is applied at. -/
abbrev Application := Record × UInt64 × UInt64

/-- A record after which nothing of what was there for `k` is left. -/
def Record.Overwrites (r : Record) (k : Bytes) : Prop :=
  r.key = k ∧ (r.type = .set ∨ r.type = .delete)

instance (r : Record) (k : Bytes) : Decidable (r.Overwrites k) :=
  inferInstanceAs (Decidable (_ ∧ _))

/-- An EXPIRE of the second pass that meets an entry past its deadline, with no SET or DELETE of its
    key to come, is one of a key that is not live at `final` after the first pass. -/
def HarmlessAt (final : UInt64) (once : Store) (second : List Application) : Prop :=
  ∀ pre x post mid, second = pre ++ x :: post → replayAt once pre = some mid →
    x.1.type = .expire → deadAt x.2.1 (mid.contents x.1.key) = true →
    (∀ y ∈ post, ¬ y.1.Overwrites x.1.key) → liveAt final (once.contents x.1.key) = none

/-- The EXPIREs of `k` meet no entry past its deadline. -/
def MeetsNoneDead (k : Bytes) (m : Keyspace Bytes Bytes) (ys : List Application) : Prop :=
  ∀ pre y post, ys = pre ++ y :: post → y.1.key = k → y.1.type = .expire →
    deadAt y.2.1 (pre.foldl applyAt m k) = false

theorem MeetsNoneDead.cons {k : Bytes} {m : Keyspace Bytes Bytes} {y : Application}
    {ys : List Application} (h : MeetsNoneDead k m (y :: ys)) :
    (y.1.key = k → y.1.type = .expire → deadAt y.2.1 (m k) = false) ∧
      MeetsNoneDead k (applyAt m y) ys := by
  refine ⟨h [] y ys rfl, fun pre z post hys => ?_⟩
  exact h (y :: pre) z post (by rw [hys, List.cons_append])

/-! ## One key through both passes -/

/-- How the entry `o'` of a key in the second pass relates to its entry `o` at the same record
    of the first pass, when the first pass ends with `q`: the two agree since the last SET or
    DELETE; or no record of the key has been re-applied yet; or only EXPIREs have. -/
def Overlaps (q o o' : Option (Bytes × UInt64)) : Prop :=
  o' = o ∨ o' = q ∨
    ∃ v d x, q = some (v, d) ∧ o' = some (v, x) ∧ ∀ e, o = some e → e.2 = x

/-- At the end of the first pass the two entries are the same. -/
theorem Overlaps.final {q o' : Option (Bytes × UInt64)} (h : Overlaps q q o') : o' = q := by
  rcases h with h | h | ⟨v, d, x, hq, ho', hx⟩
  · exact h
  · exact h
  · have hd : d = x := hx (v, d) hq
    rw [ho', hq, hd]

theorem Overlaps.effectAt {q o o' : Option (Bytes × UInt64)} (h : Overlaps q o o') (r : Record)
    {t t' : UInt64} (ht : t ≤ t') (hlive : r.type = .expire → deadAt t' o' = false) :
    Overlaps q (Record.effectAt t r o) (Record.effectAt t' r o') := by
  unfold Record.effectAt
  cases hr : r.type with
  | set => exact .inl rfl
  | delete => exact .inl rfl
  | segmentHdr => exact h
  | expire =>
    have hdead : ¬ deadAt t' o' = true := by rw [hlive hr]; decide
    dsimp only
    rw [if_neg hdead]
    -- what the first pass leaves, if anything, has the deadline of this EXPIRE
    have hfirst : ∀ e, (if deadAt t o = true then none else o.map fun d => (d.1, r.expireAtMs)) =
        some e → e.2 = r.expireAtMs := by
      intro e he
      split_ifs at he
      obtain ⟨d, -, rfl⟩ := Option.map_eq_some_iff.mp he
      rfl
    rcases h with h | h | ⟨v, d, x, hq, ho', -⟩
    · subst h
      have hdead' : ¬ deadAt t o' = true := fun hd => hdead (deadAt_mono ht hd)
      rw [if_neg hdead']
      exact .inl rfl
    · cases hq : q with
      | none =>
        rw [h, hq]
        exact .inr (.inl rfl)
      | some d =>
        rw [h, hq]
        exact .inr (.inr ⟨d.1, d.2, r.expireAtMs, rfl, rfl, hfirst⟩)
    · rw [ho']
      exact .inr (.inr ⟨v, d, r.expireAtMs, hq, rfl, hfirst⟩)

/-- Both passes over the same records, one application at a time. -/
theorem Overlaps.foldl {q : Option (Bytes × UInt64)} {k : Bytes} :
    ∀ (xs ys : List Application) (m m' : Keyspace Bytes Bytes),
      ys.map Prod.fst = xs.map Prod.fst → (∀ x ∈ xs, ∀ y ∈ ys, x.2.1 ≤ y.2.1) →
      MeetsNoneDead k m' ys → Overlaps q (m k) (m' k) →
      Overlaps q (xs.foldl applyAt m k) (ys.foldl applyAt m' k)
  | [], [], _, _, _, _, _, h => h
  | [], _ :: _, _, _, hsame, _, _, _ => by cases hsame
  | _ :: _, [], _, _, hsame, _, _, _ => by cases hsame
  | x :: xs, y :: ys, m, m', hsame, hle, hnone, h => by
    obtain ⟨hxy, hrest⟩ := List.cons.inj hsame
    obtain ⟨hhead, htail⟩ := hnone.cons
    refine Overlaps.foldl xs ys (applyAt m x) (applyAt m' y) hrest
      (fun a ha b hb => hle a (List.mem_cons_of_mem x ha) b (List.mem_cons_of_mem y hb))
      htail ?_
    have ht : x.2.1 ≤ y.2.1 := hle x List.mem_cons_self y List.mem_cons_self
    unfold applyAt
    rw [← hxy]
    by_cases hk : k = y.1.key
    · subst hk
      rw [applyWith_self, applyWith_self]
      exact h.effectAt y.1 ht (hhead rfl)
    · rw [applyWith_of_ne m hk, applyWith_of_ne m' hk]
      exact h

/-! ## What the second pass loses -/

/-- An EXPIRE of `k` meets an entry past its deadline, and no SET or DELETE of `k` follows. -/
def Loses (k : Bytes) (m : Keyspace Bytes Bytes) (ys : List Application) : Prop :=
  ∃ pre y post, ys = pre ++ y :: post ∧ y.1.key = k ∧ y.1.type = .expire ∧
    deadAt y.2.1 (pre.foldl applyAt m k) = true ∧ ∀ z ∈ post, ¬ z.1.Overwrites k

/-- An entry that is gone stays gone until a SET. -/
theorem foldl_applyAt_none {k : Bytes} {ys : List Application}
    (hys : ∀ y ∈ ys, ¬ y.1.Overwrites k) {m : Keyspace Bytes Bytes} (hm : m k = none) :
    ys.foldl applyAt m k = none := by
  induction ys generalizing m with
  | nil => exact hm
  | cons y ys ih =>
    obtain ⟨hy, hys⟩ := List.forall_mem_cons.mp hys
    refine ih hys ?_
    unfold applyAt
    by_cases hk : k = y.1.key
    · subst hk
      rw [applyWith_self, hm, Record.effectAt]
      cases htype : y.1.type with
      | set => exact absurd ⟨rfl, .inl htype⟩ hy
      | delete => rfl
      | expire => rfl
      | segmentHdr => rfl
    · rw [applyWith_of_ne m hk, hm]

theorem foldl_applyAt_of_loses {k : Bytes} {m : Keyspace Bytes Bytes} {ys : List Application}
    (h : Loses k m ys) : ys.foldl applyAt m k = none := by
  obtain ⟨pre, y, post, rfl, rfl, hexpire, hdead, hpost⟩ := h
  rw [List.foldl_append, List.foldl_cons]
  refine foldl_applyAt_none hpost ?_
  rw [applyAt, applyWith_self, Record.effectAt, hexpire]
  exact if_pos hdead

theorem exists_last_or_none (p : Application → Prop) [DecidablePred p] (l : List Application) :
    (∀ x ∈ l, ¬ p x) ∨ ∃ pre x post, l = pre ++ x :: post ∧ p x ∧ ∀ y ∈ post, ¬ p y := by
  induction l with
  | nil => exact .inl fun x hx => by cases hx
  | cons a l ih =>
    rcases ih with hnone | ⟨pre, x, post, rfl, hx, hpost⟩
    · by_cases ha : p a
      · exact .inr ⟨[], a, l, rfl, ha, hnone⟩
      · exact .inl (List.forall_mem_cons.mpr ⟨ha, hnone⟩)
    · exact .inr ⟨a :: pre, x, post, rfl, hx, hpost⟩

/-- After a SET or DELETE the two passes agree on its key. -/
theorem applyAt_overwrites {k : Bytes} {x y : Application} (hxy : y.1 = x.1)
    (hy : y.1.Overwrites k) (m m' : Keyspace Bytes Bytes) : applyAt m' y k = applyAt m x k := by
  obtain ⟨rfl, htype⟩ := hy
  rw [applyAt, applyAt, applyWith_self, ← hxy, applyWith_self, Record.effectAt, Record.effectAt]
  rcases htype with htype | htype <;> rw [htype]

/-- A key that the second pass does not lose is as the first pass left it: what counts are the
    records after the last SET or DELETE of it. -/
theorem foldl_applyAt_of_not_loses {k : Bytes} {xs ys : List Application}
    (hsame : ys.map Prod.fst = xs.map Prod.fst) (hle : ∀ x ∈ xs, ∀ y ∈ ys, x.2.1 ≤ y.2.1)
    {m m' : Keyspace Bytes Bytes} (hm' : m' k = xs.foldl applyAt m k) (hnot : ¬ Loses k m' ys) :
    ys.foldl applyAt m' k = xs.foldl applyAt m k := by
  rcases exists_last_or_none (fun y => y.1.Overwrites k) ys with
    hnone | ⟨pre, y, post, rfl, hy, hpost⟩
  · have hmeets : MeetsNoneDead k m' ys := by
      intro pre y post hys hkey hexpire
      by_contra hdead
      refine hnot ⟨pre, y, post, hys, hkey, hexpire, Bool.eq_true_of_not_eq_false hdead, ?_⟩
      exact fun z hz => hnone z (by rw [hys]; simp [hz])
    exact (Overlaps.foldl xs ys m m' hsame hle hmeets (.inr (.inl hm'))).final
  · -- the first pass up to the same record
    obtain ⟨pre', rest, rfl, hpre', hrest⟩ := List.map_eq_append_iff.mp
      (hsame.symm.trans List.map_append)
    obtain ⟨x, post', rfl, hx, hpost'⟩ := List.map_eq_cons_iff.mp hrest
    have hmeets : MeetsNoneDead k ((pre ++ [y]).foldl applyAt m') post := by
      intro pre₁ z post₁ hz hkey hexpire
      by_contra hdead
      refine hnot ⟨pre ++ y :: pre₁, z, post₁, by rw [hz, List.append_assoc, List.cons_append], hkey,
        hexpire, ?_, fun w hw => hpost w (by rw [hz]; simp [hw])⟩
      rw [List.foldl_append, List.foldl_cons]
      rw [List.foldl_append] at hdead
      exact Bool.eq_true_of_not_eq_false hdead
    have hagree : (pre ++ [y]).foldl applyAt m' k = (pre' ++ [x]).foldl applyAt m k := by
      rw [List.foldl_append, List.foldl_append]
      exact applyAt_overwrites hx.symm hy _ _
    rw [List.append_cons pre, List.append_cons pre', List.foldl_append (l := pre ++ [y]),
      List.foldl_append (l := pre' ++ [x])]
    exact (Overlaps.foldl post' post _ _ hpost'.symm
      (fun a ha b hb => hle a (by simp [ha]) b (by simp [hb])) hmeets (.inl hagree)).final

/-! ## Both passes through the store -/

theorem harmlessAt_iff {s : Store} (hs : s.Keyed) (final : UInt64) (ys : List Application) :
    HarmlessAt final s ys ↔ ∀ k, Loses k s.contents ys → liveAt final (s.contents k) = none := by
  constructor
  · rintro h k ⟨pre, y, post, hys, rfl, hexpire, hdead, hpost⟩
    obtain ⟨mid, hmid, -, hcontents⟩ := hs.replayAt pre
    exact h pre y post mid hys hmid hexpire (by rw [hcontents]; exact hdead) hpost
  · intro h pre y post mid hys hmid hexpire hdead hpost
    obtain ⟨mid', hmid', -, hcontents⟩ := hs.replayAt pre
    cases hmid.symm.trans hmid'
    rw [hcontents] at hdead
    exact h _ ⟨pre, y, post, hys, rfl, hexpire, hdead, hpost⟩

/-- Applying a log and then its records from some point on once more, at clock readings that
    never go back, succeeds. At every reading it leaves what applying the log once leaves, if and
    only if every EXPIRE of the second pass that meets an entry past its deadline is followed by a
    SET or DELETE of its key, or has a key that is not live then anyway. -/
theorem overlap_reapplied {o : Options} {seed : UInt64} {first second : List Application} {n : ℕ}
    (hmem : o.maxMemory ≤ 0)
    (hsame : second.map Prod.fst = (first.map Prod.fst).drop n)
    (hclock : (first ++ second).Pairwise fun x y => x.2.1 ≤ y.2.1) :
    ∃ once twice, replayAt (newStore o seed) first = some once ∧
      replayAt once second = some twice ∧
      ∀ final, twice.contents.live final = once.contents.live final ↔
        HarmlessAt final once second := by
  have hkeyed : (newStore o seed).Keyed := (newStore_plain o seed hmem).keyed
  obtain ⟨once, honce, hkonce, hconce⟩ := hkeyed.replayAt first
  obtain ⟨twice, htwice, -, hctwice⟩ := hkonce.replayAt second
  refine ⟨once, twice, honce, htwice, fun final => ?_⟩
  -- the records applied twice are the last ones of the first pass
  have hle : ∀ x ∈ first.drop n, ∀ y ∈ second, x.2.1 ≤ y.2.1 := fun x hx y hy =>
    (List.pairwise_append.mp hclock).2.2 x (List.drop_subset n first hx) y hy
  have hsplit : once.contents =
      (first.drop n).foldl applyAt ((first.take n).foldl applyAt (newStore o seed).contents) := by
    rw [hconce, ← List.foldl_append, List.take_append_drop]
  rw [harmlessAt_iff hkonce, funext_iff]
  refine forall_congr' fun k => ?_
  rw [Keyspace.live, Keyspace.live, hctwice]
  by_cases hloses : Loses k once.contents second
  · rw [foldl_applyAt_of_loses hloses, liveAt_none]
    exact ⟨fun h _ => h.symm, fun h => (h hloses).symm⟩
  · have hsecond : second.foldl applyAt once.contents k = once.contents k := by
      have hk := congrFun hsplit k
      exact (foldl_applyAt_of_not_loses (by rw [hsame, List.map_drop]) hle hk hloses).trans hk.symm
    rw [hsecond]
    exact iff_of_true rfl fun h => absurd h hloses

/-- A key set with the deadline 10, which is then moved to 100, both applied at `now`. -/
def setThenExtend (now : UInt64) : List Application :=
  [({ lsn := 1, createdAtMs := 1, type := .set, flags := 0, key := [1], value := [2],
      expireAtMs := 10 }, now, now),
   ({ lsn := 2, createdAtMs := 1, type := .expire, flags := 0, key := [1], value := [],
      expireAtMs := 100 }, now, now)]

/-- Applied at 5 and again at 6, the two records leave the key as it was. -/
theorem overlap_reapplied_early :
    ∃ once twice, replayAt (newStore oneShard 1) (setThenExtend 5) = some once ∧
      replayAt once (setThenExtend 6) = some twice ∧
      twice.contents.live 50 = once.contents.live 50 ∧
      once.contents.live 50 [1] = some ([2], 100) := by
  have hkeyed : (newStore oneShard 1).Keyed := (newStore_plain oneShard 1 (by decide)).keyed
  obtain ⟨once, twice, honce, htwice, hiff⟩ := @overlap_reapplied oneShard 1 (setThenExtend 5)
    (setThenExtend 6) 0 (by decide) rfl (by decide)
  obtain ⟨once', honce', hk, hc⟩ := hkeyed.replayAt (setThenExtend 5)
  cases honce.symm.trans honce'
  refine ⟨once, twice, honce, htwice, (hiff 50).mpr ((harmlessAt_iff hk 50 _).mpr ?_), ?_⟩
  case refine_2 =>
    rw [hc]
    rfl
  rintro k ⟨pre, y, post, hys, rfl, hexpire, hdead, -⟩
  -- the EXPIRE is the second record, and meets the SET before it at 6
  rcases pre with _ | ⟨z, _ | ⟨z', pre⟩⟩
  · cases hys
    cases hexpire
  · cases hys
    rw [hc] at hdead
    exact absurd hdead (by decide)
  · rcases pre with _ | _ <;> cases hys

/-- Applied at 5 and again from the first one at 20, they lose the key: its SET comes back with
    the deadline 10, and the EXPIRE meets it dead. -/
theorem overlap_loses_key :
    ∃ once twice, replayAt (newStore oneShard 1) (setThenExtend 5) = some once ∧
      replayAt once (setThenExtend 20) = some twice ∧
      once.contents.live 20 [1] = some ([2], 100) ∧ twice.contents.live 20 [1] = none := by
  have hkeyed : (newStore oneShard 1).Keyed := (newStore_plain oneShard 1 (by decide)).keyed
  obtain ⟨once, honce, hk1, hc1⟩ := hkeyed.replayAt (setThenExtend 5)
  obtain ⟨twice, htwice, -, hc2⟩ := hk1.replayAt (setThenExtend 20)
  refine ⟨once, twice, honce, htwice, ?_, ?_⟩
  · rw [hc1]
    rfl
  · rw [hc2]
    rfl

end KvStore
