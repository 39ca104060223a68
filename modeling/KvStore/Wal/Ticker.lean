import KvStore.Wal.Writer

/-!
# The ticker of fsync=everysec

Model of `everySecLoop` (`internal/wal/writer.go` lines 412–436) beside the WAL goroutine. The
ticker swaps `pendingSync`, reads `w.seg` and syncs the segment it has read, in three steps. The
goroutine may rotate between any two of them, which closes the old segment and puts another one
into `w.seg`. A sync of a closed file fails, also on a disk without faults.

A segment is known by how many segments the writer had opened before it, so that what the ticker
holds can be told from what is in `w.seg` by then.

* `healthy_disk_not_fatal`: as long as the ticker does not read `w.seg` while the segment there is
  closed, and no rotation closes the segment that the ticker is about to sync, no call fails and
  `Submit` refuses no record for an error of the disk.
* `rotation_makes_fatal`: otherwise the log is given up.
-/

namespace KvStore

open KvStore.Common

/-! ## The ticker -/

/-- Where `everySecLoop` is: at the timer, after the swap that found something to sync, before the
    sync of the segment it has read, or returned. -/
inductive TickStage
  | waiting
  | swapped
  | syncing (segment : ℕ) (path : Bytes)
  | returned
  deriving DecidableEq

/-- The writer with its files and the ticker. `replaced` counts the segments that were in `w.seg`
    before the one that is there. -/
structure Ticking where
  writer : Writer
  disk : Disk Bytes
  replaced : ℕ
  ticker : TickStage

/-- The steps of `Submit`, of the WAL goroutine, of `Close` and of the ticker. -/
inductive TickAction
  | check (r : Record)
  | send (i : ℕ) (nowMs : UInt64)
  | take
  | gather
  | flush
  | call (res : IoResult) (nowMs : UInt64)
  | finish
  | close
  | swap
  | load
  | sync (res : IoResult)
  | stop

/-- `w.seg = seg` (line 406) lies between the two stages. -/
def Stage.replaces : Stage → Stage → Bool
  | .create .., .write _ => true
  | _, _ => false

namespace Ticking

/-- The writer as `Open` (lines 180–216) starts it, and the ticker under fsync=everysec. -/
def start (o : WriterOptions) (startLSN : ℕ) (seg : OpenSegment) (d : Disk Bytes) : Ticking where
  writer := .start startLSN seg
  disk := d
  replaced := 0
  ticker := if o.fsync = .everySec then .waiting else .returned

/-- The file of a segment that was read from `w.seg` is closed by now. -/
def IsClosed (s : Ticking) (segment : ℕ) : Prop :=
  segment < s.replaced ∨ s.writer.seg.closed = true

instance (s : Ticking) (segment : ℕ) : Decidable (s.IsClosed segment) :=
  inferInstanceAs (Decidable (_ ∨ _))

/-- A step that leaves the files alone. -/
def onWriter (s : Ticking) (f : Writer → Option Writer) : Option Ticking :=
  (f s.writer).map fun w => { s with writer := w }

/-- The next system call of the goroutine. `Close` goes on when both goroutines have returned
    (line 467). -/
def call (o : WriterOptions) (s : Ticking) (res : IoResult) (nowMs : UInt64) : Option Ticking :=
  if s.writer.stage = .closing ∧ s.ticker ≠ .returned then none
  else
    (s.writer.call o s.disk res nowMs).map fun p =>
      { s with
        writer := p.1
        disk := p.2
        replaced := if s.writer.stage.replaces p.1.stage then s.replaced + 1 else s.replaced }

/-- The steps of `everySecLoop`. -/
def tick (s : Ticking) : TickAction → Option Ticking
  | .swap =>
    if s.ticker = .waiting then
      some { s with
        writer := { s.writer with pendingSync := false }
        ticker := if s.writer.pendingSync then .swapped else .waiting }
    else none
  | .load =>
    if s.ticker = .swapped then
      some { s with ticker := .syncing s.replaced s.writer.seg.path }
    else none
  | .sync res =>
    match s.ticker with
    | .syncing segment path =>
      if s.IsClosed segment ∨ res ≠ .ok then
        some { s with writer := { s.writer with fatal := true }, ticker := .returned }
      else some { s with disk := Disk.modify s.disk path File.sync, ticker := .waiting }
    | _ => none
  | .stop =>
    if s.ticker = .waiting ∧ s.writer.closed = true then some { s with ticker := .returned }
    else none
  | _ => none

/-- One step. -/
def step (o : WriterOptions) (s : Ticking) : TickAction → Option Ticking
  | .check r => s.onWriter fun w => w.check r
  | .send i nowMs => s.onWriter fun w => (w.send o i nowMs).map Prod.snd
  | .take => s.onWriter Writer.take
  | .gather => s.onWriter (Writer.gather o)
  | .flush => s.onWriter (Writer.flush o)
  | .call res nowMs => s.call o res nowMs
  | .finish => s.onWriter fun w => w.finish.map Prod.snd
  | .close => s.onWriter fun w => if w.closed then none else some { w with closed := true }
  | a => s.tick a

end Ticking

/-! ## A healthy disk, and the condition -/

/-- The name of the segment that is to be created is free. -/
def Writer.NameFree (w : Writer) (d : Disk Bytes) : Prop :=
  match w.stage with
  | .create b .create => Disk.read d (segmentName (firstLSN b)) = none
  | _ => True

/-- Every call on an open file succeeds, and so does the creation of a segment. -/
def TickAction.Healthy (s : Ticking) : TickAction → Prop
  | .call res _ => res = .ok ∧ s.writer.NameFree s.disk
  | .sync res => res = .ok
  | _ => True

/-- The stage whose system call closes `w.seg` in a rotation. -/
def Stage.closes : Stage → Bool
  | .rotateClose _ => true
  | _ => false

/-- The ticker has read `w.seg` and not synced it yet. -/
def TickStage.holds : TickStage → Bool
  | .syncing .. => true
  | _ => false

/-- The ticker does not read `w.seg` while the segment there is closed, and no rotation closes a
    segment that the ticker has read and not synced yet. -/
def TickAction.Apart (s : Ticking) : TickAction → Prop
  | .call _ _ => s.writer.stage.closes = true → s.ticker.holds = false
  | .load => s.writer.seg.closed = false
  | _ => True

instance Writer.decidableNameFree (w : Writer) (d : Disk Bytes) : Decidable (w.NameFree d) := by
  unfold Writer.NameFree
  split <;> infer_instance

instance TickAction.decidableHealthy (s : Ticking) : (a : TickAction) → Decidable (a.Healthy s)
  | .call _ _ => inferInstanceAs (Decidable (_ ∧ _))
  | .sync res => inferInstanceAs (Decidable (res = .ok))
  | .check _ | .send .. | .take | .gather | .flush | .finish | .close | .swap | .load | .stop =>
    instDecidableTrue

instance TickAction.decidableApart (s : Ticking) : (a : TickAction) → Decidable (a.Apart s)
  | .call _ _ => inferInstanceAs (Decidable (_ → _))
  | .load => inferInstanceAs (Decidable (_ = _))
  | .check _ | .send .. | .take | .gather | .flush | .finish | .close | .swap | .sync _ | .stop =>
    instDecidableTrue

/-! ## The invariant -/

/-- The stages in which the segment in `w.seg` is closed: inside `createSegment` of a rotation,
    and after `Close`. -/
def Stage.detached : Stage → Bool
  | .create .. => true
  | .stopped => true
  | _ => false

/-- No call has failed, and the segment in `w.seg` is open where the goroutine uses it. -/
structure Writer.Unbroken (w : Writer) : Prop where
  fatal : w.fatal = false
  closed : w.seg.closed = w.stage.detached

/-- What the ticker is about to sync is the open segment in `w.seg`. -/
structure Ticking.Sound (s : Ticking) : Prop where
  writer : s.writer.Unbroken
  handle : ∀ n path, s.ticker = .syncing n path →
    n = s.replaced ∧ s.writer.stage.detached = false

variable {o : WriterOptions} {w w' : Writer} {s s' : Ticking} {d d' : Disk Bytes}

/-- A step that does not touch the segment, and in which no call fails. -/
structure Writer.Spares (w w' : Writer) : Prop where
  seg : w'.seg = w.seg
  fatal : w'.fatal = w.fatal
  detached : w'.stage.detached = w.stage.detached

theorem check_spares {r : Record} (h : w.check r = some w') : w.Spares w' := by
  unfold Writer.check at h
  split_ifs at h
  cases h
  exact ⟨rfl, rfl, rfl⟩

theorem send_spares {i : ℕ} {nowMs : UInt64} {a : Option Record}
    (h : w.send o i nowMs = some (a, w')) : w.Spares w' := by
  unfold Writer.send at h
  split at h
  · cases h
  · split_ifs at h
    · cases h; exact ⟨rfl, rfl, rfl⟩
    · cases h; exact ⟨rfl, rfl, rfl⟩

theorem take_spares (h : w.take = some w') : w.Spares w' := by
  unfold Writer.take at h
  split at h
  · rename_i hstage _
    cases h
    exact ⟨rfl, rfl, by rw [hstage]; rfl⟩
  · rename_i hstage _
    split_ifs at h
    cases h
    exact ⟨rfl, rfl, by rw [hstage]; rfl⟩
  · cases h

theorem gather_spares (h : w.gather o = some w') : w.Spares w' := by
  unfold Writer.gather at h
  split at h
  · rename_i hstage _
    split_ifs at h
    cases h
    exact ⟨rfl, rfl, by rw [hstage]; rfl⟩
  · cases h

theorem flush_spares (h : w.flush o = some w') : w.Spares w' := by
  unfold Writer.flush at h
  split at h
  · rename_i batch hstage
    cases h
    refine ⟨rfl, rfl, ?_⟩
    rw [hstage]
    dsimp only
    split_ifs <;> rfl
  · cases h

theorem finish_spares {a : Option (Record × Bool)} (h : w.finish = some (a, w')) :
    w.Spares w' := by
  unfold Writer.finish at h
  split at h
  · rename_i hstage
    cases h
    exact ⟨rfl, rfl, by rw [hstage]; rfl⟩
  · rename_i hstage
    cases h
    exact ⟨rfl, rfl, by rw [hstage]; rfl⟩
  · cases h

theorem Writer.Unbroken.spares (h : w.Unbroken) (hw : w.Spares w') : w'.Unbroken :=
  ⟨hw.fatal.trans h.fatal, by rw [hw.seg, hw.detached, h.closed]⟩

theorem Ticking.Sound.onWriter (h : s.Sound) {f : Writer → Option Writer}
    (hstep : s.onWriter f = some s') (hf : ∀ w', f s.writer = some w' → s.writer.Spares w') :
    s'.Sound := by
  obtain ⟨w', hw', rfl⟩ := Option.map_eq_some_iff.mp hstep
  refine ⟨h.writer.spares (hf w' hw'), fun n path hn => ?_⟩
  obtain ⟨hseg, hdet⟩ := h.handle n path hn
  exact ⟨hseg, (hf w' hw').detached.trans hdet⟩

/-! ## System calls -/

/-- A call of `createSegment` that succeeds. -/
theorem createStep_ok {firstLSN : ℕ} {nowMs : UInt64} {c : CreateCall}
    (hfree : c = .create → Disk.read d (segmentName firstLSN) = none) :
    (createStep d firstLSN nowMs .ok c).2 ≠ .failed := by
  cases c with
  | create =>
    have : ¬ (Disk.read d (segmentName firstLSN) ≠ none ∨ IoResult.ok ≠ .ok) := by
      simp [hfree rfl]
    rw [createStep, if_neg this]
    simp
  | writeHeader => simp [createStep]
  | syncHeader => simp [createStep]
  | syncDir => simp [createStep]

/-- What a call of the goroutine does on a healthy disk: `w.seg` is closed by the stage that
    closes it, replaced by the stage that replaces it, and else left as it is. -/
theorem Writer.Unbroken.call (h : w.Unbroken) {nowMs : UInt64} (hfree : w.NameFree d)
    (hcall : w.call o d .ok nowMs = some (w', d')) :
    w'.Unbroken ∧ (w'.stage.detached = true → w.stage.detached = false →
        w.stage.closes = true ∨ w.stage = .closing) ∧
      (w.stage.replaces w'.stage = true → w.stage.detached = true) := by
  obtain ⟨hfatal, hclosed⟩ := h
  unfold Writer.call at hcall
  split at hcall
  case h_1 batch hstage =>
    have hopen : w.seg.closed = false := by rw [hclosed, hstage]; rfl
    have hsync : w.seg.sync d .ok = some (Disk.modify d w.seg.path File.sync) := by
      simp [OpenSegment.sync, hopen]
    rw [hsync] at hcall
    cases hcall
    refine ⟨⟨hfatal, by rw [hopen]; rfl⟩, nofun, fun hrep => ?_⟩
    rw [hstage] at hrep
    cases hrep
  case h_2 batch hstage =>
    cases hcall
    refine ⟨⟨hfatal, rfl⟩, fun _ _ => .inl (by rw [hstage]; rfl), fun hrep => ?_⟩
    rw [hstage] at hrep
    cases hrep
  case h_3 batch c hstage =>
    have hdet : w.stage.detached = true := by rw [hstage]; rfl
    have hok : (createStep d (firstLSN batch) nowMs .ok c).2 ≠ .failed := by
      refine createStep_ok fun hc => ?_
      rw [hc] at hstage
      unfold Writer.NameFree at hfree
      rwa [hstage] at hfree
    split at hcall
    · cases hcall
      exact ⟨⟨hfatal, by rw [hclosed, hdet]; rfl⟩, fun _ hd => absurd hd (by simp [hdet]),
        fun _ => hdet⟩
    · cases hcall
      exact ⟨⟨hfatal, rfl⟩, nofun, fun _ => hdet⟩
    · rename_i heq
      rw [heq] at hok
      exact absurd rfl hok
  case h_4 batch hstage =>
    have hopen : w.seg.closed = false := by rw [hclosed, hstage]; rfl
    have hwrite : w.seg.write d (encodeRecords batch) .ok =
        ({ w.seg with size := w.seg.size + (encodeRecords batch).length },
          Disk.modify d w.seg.path fun f => f.writeAt w.seg.size (encodeRecords batch), true) := by
      simp [OpenSegment.write, hopen]
    rw [hwrite] at hcall
    have hrep : ∀ st, w.stage.replaces st = true → w.stage.detached = true := fun st hrep => by
      rw [hstage] at hrep
      cases hrep
    dsimp only at hcall
    split at hcall
    · cases hcall; exact ⟨⟨hfatal, hopen⟩, nofun, hrep _⟩
    · cases hcall; exact ⟨⟨hfatal, hopen⟩, nofun, hrep _⟩
  case h_5 batch hstage =>
    have hopen : w.seg.closed = false := by rw [hclosed, hstage]; rfl
    have hsync : w.seg.sync d .ok = some (Disk.modify d w.seg.path File.sync) := by
      simp [OpenSegment.sync, hopen]
    rw [hsync] at hcall
    cases hcall
    refine ⟨⟨hfatal, by rw [hopen]; rfl⟩, nofun, fun hrep => ?_⟩
    rw [hstage] at hrep
    cases hrep
  case h_6 hstage =>
    cases hcall
    refine ⟨⟨hfatal, rfl⟩, fun _ _ => .inr hstage, fun hrep => ?_⟩
    rw [hstage] at hrep
    cases hrep
  case h_7 => cases hcall

theorem Ticking.Sound.call (h : s.Sound) {nowMs : UInt64} (hfree : s.writer.NameFree s.disk)
    (hapart : s.writer.stage.closes = true → s.ticker.holds = false)
    (hstep : s.call o .ok nowMs = some s') : s'.Sound := by
  unfold Ticking.call at hstep
  split_ifs at hstep with hwait
  obtain ⟨⟨w', d'⟩, hcall, rfl⟩ := Option.map_eq_some_iff.mp hstep
  obtain ⟨hw', hclose, hrep⟩ := h.writer.call hfree hcall
  refine ⟨hw', fun n path hn => ?_⟩
  obtain ⟨hseg, hdet⟩ := h.handle n path hn
  have hkept : s.writer.stage.replaces w'.stage = false := by
    rw [Bool.eq_false_iff]
    intro hrepl
    rw [hrep hrepl] at hdet
    cases hdet
  refine ⟨by rw [hseg, hkept]; rfl, Bool.eq_false_iff.mpr fun hdet' => ?_⟩
  -- whoever closes the segment finds the ticker elsewhere
  rcases hclose hdet' hdet with hcloses | hclosing
  · have hnot := hapart hcloses
    rw [show s.ticker = _ from hn] at hnot
    cases hnot
  · refine hwait ⟨hclosing, fun hret => ?_⟩
    rw [show s.ticker = _ from hn] at hret
    cases hret

/-! ## The ticker's own steps -/

theorem Ticking.Sound.tick (h : s.Sound) {a : TickAction} (hhealthy : a.Healthy s)
    (hapart : a.Apart s) (hstep : s.tick a = some s') : s'.Sound := by
  unfold Ticking.tick at hstep
  split at hstep
  case h_1 =>
    split_ifs at hstep with hwaiting
    · cases hstep
      exact ⟨⟨h.writer.fatal, h.writer.closed⟩, nofun⟩
    · cases hstep
      exact ⟨⟨h.writer.fatal, h.writer.closed⟩, nofun⟩
  case h_2 =>
    split_ifs at hstep
    cases hstep
    refine ⟨h.writer, fun n path hn => ?_⟩
    cases hn
    exact ⟨rfl, h.writer.closed.symm.trans hapart⟩
  case h_3 res =>
    split at hstep
    · rename_i segment path htick
      obtain ⟨hseg, hdet⟩ := h.handle segment path htick
      have hopen : ¬ (s.IsClosed segment ∨ res ≠ .ok) := by
        rintro ((hlt | hclosed) | hres)
        · omega
        · rw [h.writer.closed, hdet] at hclosed
          cases hclosed
        · exact hres hhealthy
      rw [if_neg hopen] at hstep
      cases hstep
      exact ⟨h.writer, nofun⟩
    · cases hstep
  case h_4 =>
    split_ifs at hstep
    cases hstep
    exact ⟨h.writer, nofun⟩
  case h_5 => cases hstep

theorem Ticking.Sound.step (h : s.Sound) {a : TickAction} (hhealthy : a.Healthy s)
    (hapart : a.Apart s) (hstep : s.step o a = some s') : s'.Sound := by
  cases a with
  | check r =>
    rw [Ticking.step] at hstep
    exact h.onWriter hstep fun w' hw' => check_spares hw'
  | send i nowMs =>
    rw [Ticking.step] at hstep
    refine h.onWriter hstep fun w' hw' => ?_
    obtain ⟨⟨a, w''⟩, hsend, rfl⟩ := Option.map_eq_some_iff.mp hw'
    exact send_spares hsend
  | take => exact h.onWriter hstep fun w' hw' => take_spares hw'
  | gather => exact h.onWriter hstep fun w' hw' => gather_spares hw'
  | flush => exact h.onWriter hstep fun w' hw' => flush_spares hw'
  | call res nowMs =>
    obtain ⟨rfl, hfree⟩ := hhealthy
    exact h.call hfree hapart hstep
  | finish =>
    rw [Ticking.step] at hstep
    refine h.onWriter hstep fun w' hw' => ?_
    obtain ⟨⟨a, w''⟩, hfin, rfl⟩ := Option.map_eq_some_iff.mp hw'
    exact finish_spares hfin
  | close =>
    rw [Ticking.step] at hstep
    refine h.onWriter hstep fun w' hw' => ?_
    split_ifs at hw'
    cases hw'
    exact ⟨rfl, rfl, rfl⟩
  | swap => exact h.tick hhealthy hapart hstep
  | load => exact h.tick hhealthy hapart hstep
  | sync res => exact h.tick hhealthy hapart hstep
  | stop => exact h.tick hhealthy hapart hstep

theorem Ticking.Sound.start {startLSN : ℕ} {seg : OpenSegment} (hopen : seg.closed = false) :
    (Ticking.start o startLSN seg d).Sound := by
  refine ⟨⟨rfl, hopen⟩, fun n path hn => ?_⟩
  unfold Ticking.start at hn
  dsimp only at hn
  split_ifs at hn

/-! ## Main results -/

/-- On a disk without faults the log stays usable in every run whose steps keep the ticker apart
    from rotations: no fatal error is recorded, and until `Close` every record of a size the log
    takes passes the checks of `Submit`. -/
theorem healthy_disk_not_fatal {startLSN : ℕ} {seg : OpenSegment} (hopen : seg.closed = false)
    (hrun : Run (Ticking.step o) (fun s a => a.Healthy s ∧ a.Apart s)
      (Ticking.start o startLSN seg d) s) :
    s.writer.fatal = false ∧
      ∀ r : Record, r.Submittable → s.writer.closed = false → (s.writer.check r).isSome := by
  have hsound : s.Sound :=
    hrun.invariant (fun _ _ _ hs ha hstep => hs.step ha.1 ha.2 hstep) (.start hopen)
  refine ⟨hsound.writer.fatal, fun r hr hclosed => ?_⟩
  unfold Writer.check
  rw [if_neg (by simp [hclosed, hsound.writer.fatal, hr])]
  rfl

/-- A log whose segments take 4096 bytes, just opened. -/
def tickingOptions : WriterOptions := ⟨.everySec, 4096, 1024, 8192⟩

def newLog : Ticking :=
  .start tickingOptions 1 (createdSegment 1)
    [(segmentName 1, ⟨appendRecord (newSegmentHeader 1 0), segmentHdrLen⟩)]

/-- A record that fills such a segment. -/
def largeRecord : Record := ⟨0, 0, .set, 0, [107], List.replicate 4096 0, 0⟩

/-- The ticker syncs the first segment, and then the second record goes to a new one. -/
theorem healthy_disk_not_fatal_rotated :
    ∃ s, Run (Ticking.step tickingOptions) (fun s a => a.Healthy s ∧ a.Apart s) newLog s ∧
      s.replaced = 1 ∧ s.writer.writtenLSN = 2 ∧ s.writer.fatal = false := by
  obtain ⟨s, hrun, hrep, hlsn⟩ := Run.exists_of_guarded (Ticking.step tickingOptions)
    (fun s a => a.Healthy s ∧ a.Apart s) newLog
    [.check largeRecord, .send 0 7, .take, .flush, .call .ok 7, .finish, .finish, .swap, .load,
      .sync .ok, .check largeRecord, .send 0 7, .take, .flush, .call .ok 7, .call .ok 7,
      .call .ok 7, .call .ok 7, .call .ok 7, .call .ok 7, .call .ok 7]
    (fun s => s.replaced = 1 ∧ s.writer.writtenLSN = 2) (by decide +kernel)
  exact ⟨s, hrun, hrep, hlsn, (healthy_disk_not_fatal rfl hrun).1⟩

/-- The ticker reads `w.seg` when the first record has been written. The second record makes the
    goroutine rotate, and the sync of the ticker finds the segment closed. No record is taken any
    more. -/
theorem rotation_makes_fatal :
    ∃ s, Run (Ticking.step tickingOptions) (fun s a => a.Healthy s) newLog s ∧
      s.writer.closed = false ∧ s.writer.fatal = true ∧ ∀ r, s.writer.check r = none := by
  obtain ⟨s, hrun, hclosed, hfatal⟩ := Run.exists_of_guarded (Ticking.step tickingOptions)
    (fun s a => a.Healthy s) newLog
    [.check largeRecord, .send 0 7, .take, .flush, .call .ok 7, .finish, .finish, .swap, .load,
      .check largeRecord, .send 0 7, .take, .flush, .call .ok 7, .call .ok 7, .sync .ok]
    (fun s => s.writer.closed = false ∧ s.writer.fatal = true) (by decide +kernel)
  refine ⟨s, hrun, hclosed, hfatal, fun r => ?_⟩
  rw [Writer.check, if_pos (.inr (.inl hfatal))]

end KvStore
