import KvStore.Store.StoreInv

/-!
# `Range`

Model of `Store.Range` (`internal/store/store.go` lines 496–535). It copies the
entries of one shard after the other in batches of 256 slots and releases the lock in
between, so one batch is a step here and anything can happen between two of them.

What has been scanned are the slots below `offset` of the current shard and all slots
of the shards before it (`RangeCursor.scanned`). Two facts carry a scan under writes:

* `rangeStep_scanned`: a batch copies out every entry it moves into the scanned part.
* `Shard.Keeps`: a write moves no entry of another key into the scanned part. `Set`
  always keeps it. `Delete` does not when it frees a scanned slot and the last slot is
  not scanned yet.
-/

namespace KvStore

open KvStore.Common

/-- What `Range` hands out: the fields of `Clone` that its callers use. -/
structure SnapEntry where
  key : Bytes
  value : Bytes
  expireAtMs : UInt64
  deriving DecidableEq, Repr

def Shard.clone (sh : Shard) (p : Ptr) : SnapEntry :=
  ⟨(sh.heap p).key, (sh.heap p).value, (sh.heap p).expireAt⟩

/-- The loop under the lock (lines 511–517), with `room` places left in the batch. -/
def Shard.rangeLoop (sh : Shard) (nowMs : UInt64) : ℕ → List Ptr → List SnapEntry
  | 0, _ => []
  | _ + 1, [] => []
  | room + 1, p :: ps =>
    if (sh.heap p).expired nowMs then rangeLoop sh nowMs (room + 1) ps
    else sh.clone p :: rangeLoop sh nowMs room ps

/-- `batchSize` (line 503). -/
def rangeBatchSize : ℕ := 256

/-- The variables of `Range`, and what was handed to `fn` so far. -/
structure RangeCursor where
  nowMs : UInt64
  shard : ℕ
  offset : ℕ
  out : List SnapEntry

/-- One iteration of the inner loop (lines 507–532), with the step to the next shard where
    it breaks; `none` when all shards are done. -/
def Store.rangeStep (s : Store) (c : RangeCursor) : Option RangeCursor :=
  if s.shardCount ≤ c.shard then none
  else
    let sh := s.shards c.shard
    let total := sh.slots.items.length
    let batch := sh.rangeLoop c.nowMs rangeBatchSize (sh.slots.items.drop c.offset)
    let scanned := min rangeBatchSize (total - c.offset)
    if scanned = 0 then some { c with shard := c.shard + 1, offset := 0 }
    else
      let offset := c.offset + scanned
      if total ≤ offset then
        some { c with shard := c.shard + 1, offset := 0, out := c.out ++ batch }
      else some { c with offset := offset, out := c.out ++ batch }

/-- The entries of shard `j` that the scan has passed. -/
def RangeCursor.scanned (c : RangeCursor) (s : Store) (j : ℕ) : List Ptr :=
  if j < c.shard then (s.shards j).slots.items
  else if j = c.shard then (s.shards j).slots.items.take c.offset
  else []

variable {s : Store} {sh sh' : Shard} {c c' : RangeCursor} {key : Bytes}

/-! ## A batch -/

/-- Without dead entries a batch is the next slots. -/
theorem rangeLoop_of_live {nowMs : UInt64} :
    ∀ {room : ℕ} {ps : List Ptr}, (∀ p ∈ ps, (sh.heap p).expired nowMs = false) →
      sh.rangeLoop nowMs room ps = (ps.take room).map sh.clone := by
  intro room ps
  induction ps generalizing room with
  | nil => intro _; cases room <;> simp [Shard.rangeLoop]
  | cons p ps ih =>
    intro hlive
    cases room with
    | zero => rfl
    | succ room =>
      rw [Shard.rangeLoop, if_neg (by simp [hlive p List.mem_cons_self]),
        ih fun q hq => hlive q (List.mem_cons_of_mem p hq), List.take_succ_cons, List.map_cons]

/-- What a batch copies out is in the shard, and alive. -/
theorem mem_rangeLoop {nowMs : UInt64} {x : SnapEntry} :
    ∀ {room : ℕ} {ps : List Ptr}, x ∈ sh.rangeLoop nowMs room ps →
      ∃ p ∈ ps, x = sh.clone p ∧ (sh.heap p).expired nowMs = false := by
  intro room ps
  induction ps generalizing room with
  | nil => intro h; cases room <;> cases h
  | cons p ps ih =>
    intro h
    cases room with
    | zero => cases h
    | succ room =>
      rw [Shard.rangeLoop] at h
      split_ifs at h with hexp
      · obtain ⟨q, hq, hx⟩ := ih h
        exact ⟨q, List.mem_cons_of_mem p hq, hx⟩
      · rcases List.mem_cons.mp h with h | h
        · exact ⟨p, List.mem_cons_self, h, Bool.eq_false_iff.mpr hexp⟩
        · obtain ⟨q, hq, hx⟩ := ih h
          exact ⟨q, List.mem_cons_of_mem p hq, hx⟩

/-- A batch copies out what is alive in the next slots. Dead entries take no room in it. -/
theorem clone_mem_rangeLoop {nowMs : UInt64} {p : Ptr} (hp : (sh.heap p).expired nowMs = false) :
    ∀ {room : ℕ} {ps : List Ptr}, p ∈ ps.take room → sh.clone p ∈ sh.rangeLoop nowMs room ps := by
  intro room ps
  induction ps generalizing room with
  | nil => intro h; cases room <;> cases h
  | cons q ps ih =>
    intro h
    cases room with
    | zero => cases h
    | succ room =>
      rw [Shard.rangeLoop]
      rcases List.mem_cons.mp h with rfl | h
      · rw [if_neg (by simp [hp])]
        exact List.mem_cons_self
      · split_ifs
        · exact ih ((List.take_subset_take_left ps (Nat.le_succ room)) h)
        · exact List.mem_cons_of_mem _ (ih h)

theorem scanned_of_lt {j : ℕ} (hj : j < c.shard) : c.scanned s j = (s.shards j).slots.items :=
  if_pos hj

theorem scanned_self : c.scanned s c.shard = (s.shards c.shard).slots.items.take c.offset := by
  rw [RangeCursor.scanned, if_neg (lt_irrefl _), if_pos rfl]

theorem scanned_of_gt {j : ℕ} (hj : c.shard < j) : c.scanned s j = [] := by
  rw [RangeCursor.scanned, if_neg (by omega), if_neg (by omega)]

theorem scanned_next (j : ℕ) (out : List SnapEntry) :
    RangeCursor.scanned ⟨c.nowMs, c.shard + 1, 0, out⟩ s j =
      if j = c.shard then (s.shards j).slots.items else c.scanned s j := by
  rcases lt_trichotomy j c.shard with hj | rfl | hj
  · rw [if_neg (by omega), scanned_of_lt hj]
    exact if_pos (by show j < c.shard + 1; omega)
  · rw [if_pos rfl]
    exact if_pos (Nat.lt_succ_self c.shard)
  · rw [if_neg (by omega), scanned_of_gt hj]
    unfold RangeCursor.scanned
    dsimp only
    rw [if_neg (by omega), List.take_zero, ite_self]

theorem scanned_more (j o : ℕ) (out : List SnapEntry) :
    RangeCursor.scanned ⟨c.nowMs, c.shard, o, out⟩ s j =
      if j = c.shard then (s.shards j).slots.items.take o else c.scanned s j := by
  rcases lt_trichotomy j c.shard with hj | rfl | hj
  · rw [if_neg (by omega), scanned_of_lt hj]
    exact if_pos hj
  · rw [if_pos rfl]
    exact scanned_self
  · rw [if_neg (by omega), scanned_of_gt hj]
    exact scanned_of_gt hj

/-- The three ways a batch can end: nothing was left, the shard is done, or there is more. -/
theorem rangeStep_cases (hstep : s.rangeStep c = some c') (hsh : s.shards c.shard = sh) :
    (sh.slots.items.length ≤ c.offset ∧ c' = ⟨c.nowMs, c.shard + 1, 0, c.out⟩) ∨
    (sh.slots.items.length ≤ c.offset + rangeBatchSize ∧
      c' = ⟨c.nowMs, c.shard + 1, 0, c.out ++
        sh.rangeLoop c.nowMs rangeBatchSize (sh.slots.items.drop c.offset)⟩) ∨
    (c.offset + rangeBatchSize < sh.slots.items.length ∧
      c' = ⟨c.nowMs, c.shard, c.offset + rangeBatchSize, c.out ++
        sh.rangeLoop c.nowMs rangeBatchSize (sh.slots.items.drop c.offset)⟩) := by
  have hpos : 0 < rangeBatchSize := by decide
  unfold Store.rangeStep at hstep
  rw [hsh] at hstep
  dsimp only at hstep
  split_ifs at hstep with hdone hzero hfull
  · exact Or.inl ⟨by omega, (Option.some.inj hstep).symm⟩
  · exact Or.inr (Or.inl ⟨by omega, (Option.some.inj hstep).symm⟩)
  · have hscanned : min rangeBatchSize (sh.slots.items.length - c.offset) = rangeBatchSize := by
      omega
    rw [hscanned] at hstep hfull
    exact Or.inr (Or.inr ⟨by omega, (Option.some.inj hstep).symm⟩)

/-- A batch copies out live entries of the current shard, among them every one it passes. -/
theorem rangeStep_scanned (hstep : s.rangeStep c = some c') (hsh : s.shards c.shard = sh) :
    c'.nowMs = c.nowMs ∧ ∃ batch, c'.out = c.out ++ batch ∧
      (∀ x ∈ batch, ∃ p ∈ sh.slots.items, x = sh.clone p ∧
        (sh.heap p).expired c.nowMs = false) ∧
      ∀ j, ∀ p ∈ c'.scanned s j, p ∈ c.scanned s j ∨
        (j = c.shard ∧ p ∈ sh.slots.items ∧
          ((sh.heap p).expired c.nowMs = false → sh.clone p ∈ batch)) := by
  obtain ⟨batch, hbatch⟩ : ∃ b, b = sh.rangeLoop c.nowMs rangeBatchSize
    (sh.slots.items.drop c.offset) := ⟨_, rfl⟩
  have hout : ∀ x ∈ batch, ∃ p ∈ sh.slots.items, x = sh.clone p ∧
      (sh.heap p).expired c.nowMs = false := fun x hx => by
    rw [hbatch] at hx
    obtain ⟨p, hp, hx⟩ := mem_rangeLoop hx
    exact ⟨p, List.mem_of_mem_drop hp, hx⟩
  -- the slots up to the end of the batch were scanned before or are in the batch
  have hsplit : ∀ p ∈ sh.slots.items.take (c.offset + rangeBatchSize),
      p ∈ c.scanned s c.shard ∨ (c.shard = c.shard ∧ p ∈ sh.slots.items ∧
        ((sh.heap p).expired c.nowMs = false → sh.clone p ∈ batch)) := by
    intro p hp
    have hmem := List.mem_of_mem_take hp
    rw [List.take_add, List.mem_append] at hp
    rw [scanned_self, hsh, hbatch]
    exact hp.imp id fun hp => ⟨rfl, hmem, fun hlive => clone_mem_rangeLoop hlive hp⟩
  rcases rangeStep_cases hstep hsh with ⟨hlen, rfl⟩ | ⟨hlen, rfl⟩ | ⟨hlen, rfl⟩
  · refine ⟨rfl, [], (List.append_nil _).symm, nofun, fun j p hp => Or.inl ?_⟩
    rw [scanned_next] at hp
    split_ifs at hp with hj
    · subst hj
      rw [scanned_self, hsh, List.take_of_length_le hlen, ← hsh]
      exact hp
    · exact hp
  · refine ⟨rfl, batch, by rw [hbatch], hout, fun j p hp => ?_⟩
    rw [scanned_next] at hp
    split_ifs at hp with hj
    · subst hj
      rw [hsh] at hp
      exact hsplit p (by rwa [List.take_of_length_le hlen])
    · exact Or.inl hp
  · refine ⟨rfl, batch, by rw [hbatch], hout, fun j p hp => ?_⟩
    rw [scanned_more] at hp
    split_ifs at hp with hj
    · subst hj
      rw [hsh] at hp
      exact hsplit p hp
    · exact Or.inl hp

/-! ## Writes between two batches -/

/-- The entries in the first `n` slots of `sh'`, other than that of `key`, are entries in
    the first `n` slots of `sh`, unchanged. -/
def Shard.Keeps (key : Bytes) (n : ℕ) (sh sh' : Shard) : Prop :=
  ∀ p ∈ sh'.slots.items.take n, (sh'.heap p).key ≠ key →
    p ∈ sh.slots.items.take n ∧ sh'.heap p = sh.heap p

/-- `Set` overwrites the entry of its key or appends a new one. -/
theorem setLocked_keeps (h : IndexInv sh) (hb : sh.budget ≤ 0) (key value : Bytes)
    (expireAt nowMono : UInt64) (n : ℕ) :
    sh.Keeps key n (sh.setLocked key value expireAt nowMono).2 := by
  obtain ⟨m, -, hunl, hres⟩ := setLocked_cases sh key value expireAt nowMono
  obtain rfl := hunl hb
  rcases hres with ⟨hpos, -⟩ | ⟨old, hold, hres⟩ | ⟨hnew, hres⟩
  · omega
  · rw [hres, h.overwrite_eq (h.mem_of_lookup hold)]
    intro p hp hne
    have hpo : p ≠ old := by
      rintro rfl
      exact hne (by simpa using h.key hold)
    exact ⟨hp, Function.update_of_ne hpo _ _⟩
  · rw [hres, insert_eq]
    intro p hp hne
    have hpo : p ≠ m.alloc := by
      rintro rfl
      exact hne (by simp)
    refine ⟨?_, Function.update_of_ne hpo _ _⟩
    have hp : p ∈ (m.slots.items ++ [m.alloc]).take n := hp
    rw [List.take_append, List.mem_append] at hp
    refine hp.resolve_right fun hc => hpo ?_
    exact List.mem_singleton.mp (List.mem_of_mem_take hc)

/-- `Delete` moves the last entry to the slot it frees. -/
theorem txnDelete_keeps (h : IndexInv sh) (nowMs : UInt64) {n : ℕ}
    (hok : ∀ p, sh.entries.lookup key = some p →
      (n : ℤ) ≤ sh.slots.pos p ∨ sh.slots.items.length ≤ n) :
    sh.Keeps key n (sh.txnDelete key nowMs).2 := by
  have hremove : ∀ p, sh.entries.lookup key = some p → sh.Keeps key n (sh.removeEntryLocked p) := by
    intro p hp
    rw [removeEntryLocked_eq]
    exact fun q hq _ => ⟨h.slots.mem_take_remove (h.mem_of_lookup hp) (hok p hp) hq, rfl⟩
  unfold Shard.txnDelete Shard.delLocked
  rcases hk : sh.entries.lookup key with _ | p
  · exact fun q hq _ => ⟨hq, rfl⟩
  · dsimp only
    split_ifs
    · exact hremove p hk
    · exact hremove p hk

/-! ## A scan that nothing disturbs -/

/-- The iterations of `Range` from a cursor on, at most `fuel`. -/
def Store.rangeFrom (s : Store) : ℕ → RangeCursor → RangeCursor
  | 0, c => c
  | fuel + 1, c =>
    match s.rangeStep c with
    | none => c
    | some c => s.rangeFrom fuel c

/-- The slots of the shards from `i` on, and one more for each shard. -/
def Store.slotsFrom (s : Store) (i : ℕ) : ℕ :=
  ((List.range' i (s.shardCount - i)).map fun j => (s.shards j).slots.items.length + 1).sum

/-- `Range` at the clock reading `nowMs`. Every iteration passes a slot or a shard. -/
def Store.range (s : Store) (nowMs : UInt64) : List SnapEntry :=
  (s.rangeFrom (s.slotsFrom 0) ⟨nowMs, 0, 0, []⟩).out

theorem slotsFrom_eq {i : ℕ} (hi : i < s.shardCount) :
    s.slotsFrom i = (s.shards i).slots.items.length + 1 + s.slotsFrom (i + 1) := by
  have hlen : s.shardCount - i = s.shardCount - (i + 1) + 1 := by omega
  rw [Store.slotsFrom, hlen, List.range'_succ, List.map_cons, List.sum_cons]
  rfl

theorem rangeFrom_finished : ∀ {fuel : ℕ} {c : RangeCursor},
    (c.shard < s.shardCount → c.offset ≤ (s.shards c.shard).slots.items.length) →
      s.slotsFrom c.shard ≤ fuel + c.offset → s.shardCount ≤ (s.rangeFrom fuel c).shard := by
  intro fuel
  induction fuel with
  | zero =>
    intro c hoff hfuel
    rw [Store.rangeFrom]
    by_contra hlt
    have hslots := slotsFrom_eq (not_le.mp hlt)
    have := hoff (not_le.mp hlt)
    omega
  | succ fuel ih =>
    intro c hoff hfuel
    rw [Store.rangeFrom]
    cases hstep : s.rangeStep c with
    | none =>
      unfold Store.rangeStep at hstep
      dsimp only at hstep ⊢
      split_ifs at hstep with hdone
      exact hdone
    | some c' =>
      have hlt : c.shard < s.shardCount := by
        by_contra hdone
        rw [Store.rangeStep, if_pos (not_lt.mp hdone)] at hstep
        cases hstep
      have hslots := slotsFrom_eq hlt
      have := hoff hlt
      have hpos : 0 < rangeBatchSize := by decide
      rcases rangeStep_cases hstep rfl with ⟨-, rfl⟩ | ⟨-, rfl⟩ | ⟨hlen, rfl⟩
      · exact ih (fun _ => Nat.zero_le _) (by dsimp only; omega)
      · exact ih (fun _ => Nat.zero_le _) (by dsimp only; omega)
      · exact ih (fun _ => hlen.le) (by dsimp only; omega)

/-- What the scan has handed out is alive in the store, and what it has passed is handed out. -/
structure RangeCursor.Scans (c : RangeCursor) (s : Store) (nowMs : UInt64) : Prop where
  clock : c.nowMs = nowMs
  out : ∀ x ∈ c.out, ∃ j, ∃ p ∈ (s.shards j).slots.items, x = (s.shards j).clone p ∧
    ((s.shards j).heap p).expired nowMs = false
  passed : ∀ j, ∀ p ∈ c.scanned s j, ((s.shards j).heap p).expired nowMs = false →
    (s.shards j).clone p ∈ c.out

theorem RangeCursor.Scans.rangeStep {nowMs : UInt64} (h : c.Scans s nowMs)
    (hstep : s.rangeStep c = some c') : c'.Scans s nowMs := by
  obtain ⟨hnow, batch, hout, hbatch, hscan⟩ := rangeStep_scanned hstep rfl
  rw [h.clock] at hnow hbatch hscan
  refine ⟨hnow, fun x hx => ?_, fun j p hp hlive => ?_⟩
  · rw [hout] at hx
    rcases List.mem_append.mp hx with hx | hx
    · exact h.out x hx
    · obtain ⟨p, hp, hx⟩ := hbatch x hx
      exact ⟨c.shard, p, hp, hx⟩
  · rw [hout]
    rcases hscan j p hp with hold | ⟨rfl, -, hnew⟩
    · exact List.mem_append_left _ (h.passed j p hold hlive)
    · exact List.mem_append_right _ (hnew hlive)

theorem RangeCursor.Scans.rangeFrom {nowMs : UInt64} (h : c.Scans s nowMs) (fuel : ℕ) :
    (s.rangeFrom fuel c).Scans s nowMs := by
  induction fuel generalizing c with
  | zero => exact h
  | succ fuel ih =>
    rw [Store.rangeFrom]
    cases hstep : s.rangeStep c with
    | none => exact h
    | some c' => exact ih (h.rangeStep hstep)

/-- `Range` hands out what is alive, and nothing else. -/
theorem Store.Plain.mem_range (h : s.Plain) (nowMs : UInt64) (x : SnapEntry) :
    x ∈ s.range nowMs ↔ liveAt nowMs (s.contents x.key) = some (x.value, x.expireAtMs) := by
  have hstart : RangeCursor.Scans ⟨nowMs, 0, 0, []⟩ s nowMs := by
    refine ⟨rfl, nofun, fun j p hp => ?_⟩
    rw [RangeCursor.scanned, if_neg (Nat.not_lt_zero j), List.take_zero, ite_self] at hp
    cases hp
  have hscans := hstart.rangeFrom (s.slotsFrom 0)
  have hdone : s.shardCount ≤ (s.rangeFrom (s.slotsFrom 0) ⟨nowMs, 0, 0, []⟩).shard :=
    rangeFrom_finished (fun _ => Nat.zero_le _) le_rfl
  rw [liveAt_eq_some]
  constructor
  · intro hx
    obtain ⟨j, p, hp, rfl, hlive⟩ := hscans.out x hx
    have hlook := (h.index j).lookup_of_mem hp
    have hcont := contents_of_lookup hlook
    have hroute := h.routed j ((s.shards j).heap p).key (by rw [hcont]; rfl)
    refine ⟨?_, hlive⟩
    show (s.shards (s.shardFor ((s.shards j).heap p).key)).contents ((s.shards j).heap p).key = _
    rw [hroute, hcont]
    rfl
  · rintro ⟨hcont, hlive⟩
    obtain ⟨p, hlook, hpair⟩ := Option.map_eq_some_iff.mp hcont
    have hkey := (h.index (s.shardFor x.key)).key hlook
    have hitems := (h.index (s.shardFor x.key)).mem_of_lookup hlook
    have hclone : (s.shards (s.shardFor x.key)).clone p = x := by
      obtain ⟨hvalue, hexpire⟩ := Prod.mk.inj hpair
      rw [Shard.clone, hkey, hvalue, hexpire]
    rw [← hclone]
    refine hscans.passed _ p ?_ ?_
    · rw [scanned_of_lt (lt_of_lt_of_le (h.inRange x.key) hdone)]
      exact hitems
    · rw [← congrArg Prod.snd hpair] at hlive
      exact hlive

end KvStore
