import KvStore.Wal.WriterCalls

/-!
# What survives crashes and I/O errors

The process of `KvStore.Wal.Writer` under fsync=always. The directory it leaves behind
is at every moment a `Layout` that has the records of all commits finished with nil in
its durable bytes, so any crash followed by `Replay` brings them back.

* `WalSys.step_inv`: every step but a restart keeps that, whatever its system call
  returns.
* `WalSys.step_dense`: without I/O errors the log is dense, and a restart keeps it too.

Both need that no batch is flushed to a file whose scan reports a fault, and the LSNs
to stay below the sixteen digits of a segment name.
-/

namespace KvStore

open KvStore.Common

variable {o : WriterOptions} {res : IoResult} {w w' : Writer} {L L' : Layout} {s s' : WalSys}
  {a : WalAction}

/-! ## Conditions on steps -/

/-- A batch is flushed only to a file that scans without a fault, and LSNs stay below
    `10 ^ 16`. -/
def WalAction.Careful (s : WalSys) : WalAction → Prop
  | .send _ _ => ∀ w, s.proc = .running w → w.nextLSN < 10 ^ 16
  | .flush => ∀ w, s.proc = .running w → w.Sound s.disk
  | _ => True

/-- What the system call of the step returns, if it makes one. -/
def WalAction.result : WalAction → IoResult
  | .call res _ => res
  | _ => .ok

/-- What a condition on the writer says of a process. -/
instance {P : Writer → Prop} [DecidablePred P] (p : Proc) :
    Decidable (∀ w, p = .running w → P w) :=
  match p with
  | .down => .isTrue nofun
  | .opening _ _ => .isTrue nofun
  | .running w => decidable_of_iff (P w) ⟨fun h _ hw => by cases hw; exact h, fun h => h w rfl⟩

instance (s : WalSys) (a : WalAction) : Decidable (a.Careful s) :=
  match a with
  | .send _ _ => inferInstanceAs (Decidable (∀ w, s.proc = .running w → w.nextLSN < 10 ^ 16))
  | .flush => inferInstanceAs (Decidable (∀ w, s.proc = .running w → w.Sound s.disk))
  | .recover | .check _ | .take | .gather | .call _ _ | .finish | .close | .crash _ => .isTrue trivial

/-! ## Steps of a running writer -/

/-- What a step does to the writer, the log and the histories. -/
inductive WalSys.Moves (o : WriterOptions) (res : IoResult) (s : WalSys) (w : Writer) (L : Layout)
    (s' : WalSys) (w' : Writer) (L' : Layout) : Prop
  | leads (h : w.Leads o res L w' L') (hacc : s'.accepted = s.accepted)
      (hfin : s'.finished = s.finished)
  | sends (r : Record) (h : w.Sends r w') (hinv : w'.Inv o L) (hL : L' = L)
      (hacc : s'.accepted = s.accepted ++ [r]) (hfin : s'.finished = s.finished)
  | finishes (r : Record) (ok : Bool) (h : w.Finishes r ok w') (hinv : w'.Inv o L) (hL : L' = L)
      (hdurable : ok = true → o.fsync = .always → r ∈ L.durable)
      (hacc : s'.accepted = s.accepted) (hfin : s'.finished = s.finished ++ [(r, ok)])

theorem onWriter_eq {f : Writer → Option Writer} (hproc : s.proc = .running w)
    (h : s.onWriter f = some s') : ∃ w', f w = some w' ∧ s' = { s with proc := .running w' } := by
  rw [WalSys.onWriter, hproc] at h
  obtain ⟨w', hf, rfl⟩ := Option.map_eq_some_iff.mp h
  exact ⟨w', hf, rfl⟩

theorem WalSys.running_step (hdisk : s.disk = L.disk) (hproc : s.proc = .running w)
    (h : w.Inv o L) (hok : a.Careful s) (hcrash : ∀ keep, a ≠ .crash keep)
    (hstep : s.step o a = some s') :
    ∃ w' L', s'.proc = .running w' ∧ s'.disk = L'.disk ∧
      s.Moves o a.result w L s' w' L' := by
  cases a with
  | recover =>
    rw [WalSys.step, WalSys.recover, hproc] at hstep
    cases hstep
  | check r =>
    obtain ⟨w', hw, rfl⟩ := onWriter_eq hproc hstep
    exact ⟨w', L, rfl, hdisk, .leads (h.check hw) rfl rfl⟩
  | send i nowMs =>
    rw [WalSys.step, hproc] at hstep
    obtain ⟨⟨a, w'⟩, hw, rfl⟩ := Option.map_eq_some_iff.mp hstep
    rcases h.send (hok w hproc) hw with ⟨rfl, hleads⟩ | ⟨r, rfl, hsends, hinv⟩
    · exact ⟨w', L, rfl, hdisk, .leads hleads (List.append_nil _) rfl⟩
    · exact ⟨w', L, rfl, hdisk, .sends r hsends hinv rfl rfl rfl⟩
  | take =>
    obtain ⟨w', hw, rfl⟩ := onWriter_eq hproc hstep
    exact ⟨w', L, rfl, hdisk, .leads (h.take hw) rfl rfl⟩
  | gather =>
    obtain ⟨w', hw, rfl⟩ := onWriter_eq hproc hstep
    exact ⟨w', L, rfl, hdisk, .leads (h.gather hw) rfl rfl⟩
  | flush =>
    obtain ⟨w', hw, rfl⟩ := onWriter_eq hproc hstep
    obtain ⟨L', hL', hleads⟩ := h.flush (hdisk ▸ hok w hproc) hw
    exact ⟨w', L', rfl, hdisk.trans hL'.symm, .leads hleads rfl rfl⟩
  | call res nowMs =>
    rw [WalSys.step, WalSys.call, hproc] at hstep
    obtain ⟨⟨w', d⟩, hw, rfl⟩ := Option.map_eq_some_iff.mp hstep
    rw [hdisk] at hw
    obtain ⟨L', rfl, hleads⟩ := h.call hw
    exact ⟨w', L', rfl, rfl, .leads hleads rfl rfl⟩
  | finish =>
    rw [WalSys.step, hproc] at hstep
    obtain ⟨⟨a, w'⟩, hw, rfl⟩ := Option.map_eq_some_iff.mp hstep
    rcases h.finish hw with ⟨rfl, hleads⟩ | ⟨r, ok, rfl, hfin, hinv, hdurable⟩
    · exact ⟨w', L, rfl, hdisk, .leads hleads rfl (List.append_nil _)⟩
    · exact ⟨w', L, rfl, hdisk, .finishes r ok hfin hinv rfl hdurable rfl rfl⟩
  | close =>
    obtain ⟨w', hw, rfl⟩ := onWriter_eq hproc hstep
    split_ifs at hw
    cases hw
    exact ⟨_, L, rfl, hdisk, .leads h.close rfl rfl⟩
  | crash keep => exact absurd rfl (hcrash keep)

theorem WalSys.Moves.inv (h : s.Moves o res w L s' w' L') : w'.Inv o L' := by
  cases h with
  | leads h _ _ => exact h.inv
  | sends r _ hinv hL _ _ => exact hL ▸ hinv
  | finishes r ok _ hinv hL _ _ _ => exact hL ▸ hinv

/-- The commits finished with nil stay those of durable records. -/
theorem WalSys.Moves.acked (h : s.Moves o res w L s' w' L') (halways : o.fsync = .always)
    (hacked : ∀ r, (r, true) ∈ s.finished → r ∈ L.durable) :
    ∀ r, (r, true) ∈ s'.finished → r ∈ L'.durable := by
  intro r hr
  cases h with
  | leads h _ hfin => exact h.durable (hacked r (hfin ▸ hr))
  | sends _ _ _ hL _ hfin => exact hL ▸ hacked r (hfin ▸ hr)
  | finishes x ok _ _ hL hdurable _ hfin =>
    rw [hfin] at hr
    rcases List.mem_append.mp hr with hr | hr
    · exact hL ▸ hacked r hr
    · cases List.mem_singleton.mp hr
      exact hL ▸ hdurable rfl halways

/-! ## The system and its files -/

/-- The process and the directory it works on. -/
def Proc.Agrees (o : WriterOptions) (L : Layout) : Proc → Prop
  | .down => True
  | .opening f c => c ≠ .create ∧ L.Fresh f c.written ∧ L.sealed = [] ∧ 0 < f
  | .running w => w.Inv o L

/-- The files are the directory `L`, and have what was acknowledged in durable bytes. -/
structure WalSys.Laid (o : WriterOptions) (s : WalSys) (L : Layout) : Prop where
  disk : s.disk = L.disk
  acked : o.fsync = .always → ∀ r, (r, true) ∈ s.finished → r ∈ L.durable
  proc : s.proc.Agrees o L

/-- No file yet, and nothing acknowledged. -/
structure WalSys.Empty (f : ℕ) (s : WalSys) : Prop where
  disk : s.disk = []
  acked : ∀ r, (r, true) ∉ s.finished
  accepted : s.accepted = []
  proc : s.proc = .down ∨ s.proc = .opening f .create

theorem start_inv {seg : OpenSegment} {startLSN : ℕ} (hseg : seg.Tracks L)
    (hbound : ∀ r ∈ L.records, r.lsn < startLSN) (hname : L.last.firstLSN ≤ startLSN)
    (hpos : 0 < startLSN) : (Writer.start startLSN seg).Inv o L where
  follows := by
    have hrest : (Writer.start startLSN seg).rest = [] := rfl
    refine ⟨nofun, ?_, ?_, ?_, hname, hpos⟩
    · rw [hrest]
      exact ⟨nofun, (List.append_nil L.records).symm ▸ L.order, nofun⟩
    · rw [hrest]
      exact nofun
    · rw [hrest, List.append_nil]
      exact hbound
  agrees := .inr hseg

/-- The calls of `createSegment` that `Open` makes after the first. -/
theorem WalSys.Laid.opening_call (h : s.Laid o L) {f : ℕ} {c : CreateCall}
    (hproc : s.proc = .opening f c) {nowMs : UInt64} (hstep : s.call o res nowMs = some s') :
    ∃ L' m, s'.Laid o L' ∧ L'.sealed = [] ∧ L'.Fresh f m ∧ s'.accepted = s.accepted ∧
      ∀ w, s'.proc = .running w → w = .start f (createdSegment f) := by
  have hagrees := h.proc
  rw [hproc] at hagrees
  obtain ⟨hc, hfresh, hsealed, hpos⟩ := hagrees
  obtain ⟨L', m, out, hcreate, hsealed', hfresh', hout⟩ := hfresh.createStep_eq hc nowMs res
  rw [hsealed] at hsealed'
  have hempty : L.sealedRecords = [] := by rw [Layout.sealedRecords, hsealed]; rfl
  have hempty' : L'.sealedRecords = [] := by rw [Layout.sealedRecords, hsealed']; rfl
  have hacked : o.fsync = .always → ∀ r, (r, true) ∈ s.finished → r ∈ L'.durable := by
    rw [hfresh'.durable_eq, hempty', ← hempty, ← hfresh.durable_eq]
    exact h.acked
  rw [WalSys.call, hproc] at hstep
  simp only [h.disk, hcreate] at hstep
  rcases hout with ⟨c', rfl, hc', rfl⟩ | ⟨rfl, rfl⟩ | ⟨rfl, -⟩
  · cases hstep
    exact ⟨L', _, ⟨rfl, hacked, hc', hfresh', hsealed', hpos⟩, hsealed', hfresh', rfl, by simp⟩
  · cases hstep
    have hpath : segmentName f = L'.last.path := by rw [SegmentImage.path, hfresh'.name]
    refine ⟨L', _, ⟨rfl, hacked, start_inv ⟨rfl, hpath, hfresh'.size.symm⟩ ?_ hfresh'.name.le hpos⟩,
      hsealed', hfresh', rfl, fun w hw => by cases hw; rfl⟩
    rw [hfresh'.records_eq, hempty']
    simp
  · cases hstep
    exact ⟨L', _, ⟨rfl, hacked, trivial⟩, hsealed', hfresh', rfl, by simp⟩

/-- The first call of `createSegment` in an empty directory. -/
theorem WalSys.Empty.call {f : ℕ} (h : s.Empty f) (hpos : 0 < f) (hsmall : f < 10 ^ 16)
    {nowMs : UInt64} (hstep : s.call o res nowMs = some s') :
    s'.Empty f ∨ ∃ L', s'.Laid o L' ∧ L'.sealed = [] ∧ L'.Fresh f 0 ∧
      s'.accepted = s.accepted ∧ ∀ w, s'.proc ≠ .running w := by
  rcases h.proc with hproc | hproc
  · rw [WalSys.call, hproc] at hstep
    cases hstep
  · rw [WalSys.call, hproc, h.disk] at hstep
    have hnone : Disk.read ([] : Disk Bytes) (segmentName f) = none := rfl
    cases res with
    | ok =>
      have hcreate : createStep [] f nowMs .ok .create =
          ((Layout.first f 0 hsmall).disk, .next .writeHeader) := rfl
      simp only [hcreate] at hstep
      cases hstep
      refine .inr ⟨Layout.first f 0 hsmall, ⟨rfl, fun _ r hr => absurd hr (h.acked r), nofun,
        ⟨rfl, rfl, rfl⟩, rfl, hpos⟩, rfl, ⟨rfl, rfl, rfl⟩, rfl, nofun⟩
    | error n =>
      have hcreate : createStep [] f nowMs (.error n) .create = ([], .failed) := rfl
      simp only [hcreate] at hstep
      cases hstep
      exact .inl ⟨rfl, h.acked, h.accepted, .inl rfl⟩

theorem WalSys.Laid.crash (h : s.Laid o L) (keep : Bytes → ℕ) :
    ∃ n hn hs, Disk.crash s.disk keep = (L.crash n hn hs).disk ∧
      WalSys.Laid o { s with disk := Disk.crash s.disk keep, proc := .down } (L.crash n hn hs) := by
  obtain ⟨n, hn, hs, hdisk⟩ := L.crash_disk keep
  rw [h.disk]
  exact ⟨n, hn, hs, hdisk, hdisk, h.acked, trivial⟩

/-! ## Any results, no restart -/

/-- The files are a log directory, or there are none yet. -/
def WalSys.Inv (o : WriterOptions) (s : WalSys) : Prop := s.Empty 1 ∨ ∃ L, s.Laid o L

theorem step_of_not_running (hproc : ∀ w, s.proc ≠ .running w) (hrecover : a ≠ .recover)
    (hcrash : ∀ keep, a ≠ .crash keep) (hstep : s.step o a = some s') :
    ∃ res nowMs, a = .call res nowMs ∧ s.call o res nowMs = some s' := by
  have hon : ∀ f, s.onWriter f = none := by
    intro f
    unfold WalSys.onWriter
    split
    · next w hw => exact absurd hw (hproc w)
    · rfl
  cases a with
  | recover => exact absurd rfl hrecover
  | crash keep => exact absurd rfl (hcrash keep)
  | call res nowMs => exact ⟨res, nowMs, rfl, hstep⟩
  | send i nowMs =>
    rw [WalSys.step] at hstep
    split at hstep
    · next w hw => exact absurd hw (hproc w)
    · cases hstep
  | finish =>
    rw [WalSys.step] at hstep
    split at hstep
    · next w hw => exact absurd hw (hproc w)
    · cases hstep
  | check r => rw [WalSys.step, hon] at hstep; cases hstep
  | take => rw [WalSys.step, hon] at hstep; cases hstep
  | gather => rw [WalSys.step, hon] at hstep; cases hstep
  | flush => rw [WalSys.step, hon] at hstep; cases hstep
  | close => rw [WalSys.step, hon] at hstep; cases hstep

/-- Every careful step but a restart, whatever its call returns. -/
theorem WalSys.step_inv (h : s.Inv o) (hok : a.Careful s) (hrecover : a ≠ .recover)
    (hstep : s.step o a = some s') : s'.Inv o := by
  by_cases hcrash : ∃ keep, a = .crash keep
  · obtain ⟨keep, rfl⟩ := hcrash
    cases hstep
    rcases h with h | ⟨L, h⟩
    · exact .inl ⟨by rw [h.disk]; rfl, h.acked, h.accepted, .inl rfl⟩
    · obtain ⟨n, hn, hs, -, hlaid⟩ := h.crash keep
      exact .inr ⟨_, hlaid⟩
  · have hcrash : ∀ keep, a ≠ .crash keep := fun keep hc => hcrash ⟨keep, hc⟩
    rcases h with h | ⟨L, h⟩
    · obtain ⟨res, nowMs, rfl, hcall⟩ := step_of_not_running
        (fun w hw => by rcases h.proc with hp | hp <;> rw [hp] at hw <;> cases hw)
        hrecover hcrash hstep
      rcases h.call (by decide) (by decide) hcall with h' | ⟨L', hlaid, -⟩
      · exact .inl h'
      · exact .inr ⟨L', hlaid⟩
    · cases hproc : s.proc with
      | running w =>
        have hw := h.proc
        rw [hproc] at hw
        obtain ⟨w', L', hproc', hdisk', hmoves⟩ := running_step h.disk hproc hw hok hcrash hstep
        exact .inr ⟨L', hdisk', fun halways => hmoves.acked halways (h.acked halways),
          by rw [hproc']; exact hmoves.inv⟩
      | down =>
        obtain ⟨res, nowMs, rfl, hcall⟩ := step_of_not_running (by simp [hproc]) hrecover hcrash hstep
        rw [WalSys.call, hproc] at hcall
        cases hcall
      | opening f c =>
        obtain ⟨res, nowMs, rfl, hcall⟩ := step_of_not_running (by simp [hproc]) hrecover hcrash hstep
        obtain ⟨L', m, hlaid, -⟩ := h.opening_call hproc hcall
        exact .inr ⟨L', hlaid⟩

/-- `Replay` succeeds and applies what was acknowledged, in LSN order. -/
theorem WalSys.Inv.replays (h : s.Inv o) (halways : o.fsync = .always) :
    ∃ res applied d, replay s.disk 0 false collect [] = .ok (res, applied, d) ∧
      (applied.Pairwise fun a b => a.lsn < b.lsn) ∧ ∀ r, (r, true) ∈ s.finished → r ∈ applied := by
  rcases h with h | ⟨L, h⟩
  · rw [h.disk]
    exact ⟨_, [], [], rfl, List.Pairwise.nil, fun r hr => absurd hr (h.acked r)⟩
  · obtain ⟨res, -, -, -, hreplay⟩ := L.replay_disk
    rw [h.disk]
    exact ⟨res, _, _, hreplay, L.present_order, fun r hr =>
      L.durable_prefix.subset (h.acked halways r hr)⟩

/-! ## No I/O errors, and restarts -/

/-- The submissions of this run have consecutive LSNs from `start` on, and in order are
    either in the files, behind what was there, or still to be written. -/
structure Writer.Dense (start : ℕ) (base accepted : List Record) (w : Writer) (L : Layout) :
    Prop where
  lsns : accepted.map Record.lsn = List.range' start accepted.length
  next : w.nextLSN = start + accepted.length
  written : w.fatal = false → ∃ written, L.present = base ++ written ∧ accepted = written ++ w.rest
  stuck : w.fatal = true → w.Stuck

theorem start_dense (startLSN : ℕ) (seg : OpenSegment) (L : Layout) :
    (Writer.start startLSN seg).Dense startLSN L.present [] L :=
  ⟨rfl, rfl, fun _ => ⟨[], (List.append_nil _).symm, rfl⟩, nofun⟩

section Dense

variable {start : ℕ} {base accepted : List Record}

theorem Writer.Dense.effect (h : w.Dense start base accepted L) (hnext : w'.nextLSN = w.nextLSN)
    (heff : w.Effect .ok L w' L') : w'.Dense start base accepted L' := by
  have hnext' : w'.nextLSN = start + accepted.length := hnext.trans h.next
  cases heff with
  | keep _ _ hpresent hrest _ hfatal hstuck =>
    refine ⟨h.lsns, hnext', fun hf => ?_, fun hf => hstuck (h.stuck (hfatal ▸ hf))⟩
    rw [hpresent, hrest]
    exact h.written (hfatal ▸ hf)
  | rotated hstage hfull _ hsealed _ hnil hrest _ hfatal =>
    refine ⟨h.lsns, hnext', fun hf => ?_, fun hf => ?_⟩
    · have hpresent : L'.present = L.present := by
        have hwhole : L'.last.whole L'.size = [] :=
          List.prefix_nil.mp (hnil ▸ L'.last.whole_sublist L'.size)
        rw [hfull.present_eq, Layout.present, hwhole, List.append_nil, Layout.sealedRecords, hsealed,
          List.flatMap_append, List.flatMap_singleton]
        rfl
      rw [hpresent, hrest]
      exact h.written (hfatal ▸ hf)
    · exact absurd hstage ((h.stuck (hfatal ▸ hf)).2 _ _)
  | wrote hopen hfull hfull' hsealed hlast hrest _ _ hfatal =>
    refine ⟨h.lsns, hnext', fun hf => ?_, fun hf => ?_⟩
    · obtain ⟨written, hpresent, hacc⟩ := h.written (hfatal ▸ hf)
      refine ⟨written ++ w.stage.pending, ?_, ?_⟩
      · have hrec : L'.records = L.records ++ w.stage.pending := by
          rw [Layout.records, Layout.records, Layout.sealedRecords, hsealed, hlast,
            List.append_assoc]
          rfl
        rw [hfull'.present_eq, hrec, ← hfull.present_eq, hpresent, List.append_assoc]
      · rw [hacc, hrest, List.append_assoc]
        rfl
    · have hclosed := (h.stuck (hfatal ▸ hf)).1
      rw [hopen] at hclosed
      cases hclosed
  | failed hrest hfatal hok =>
    obtain ⟨rfl, hstuck⟩ := hok rfl
    exact ⟨h.lsns, hnext', fun hf => (by rw [hfatal] at hf; cases hf), fun _ => hstuck⟩

theorem Writer.Dense.sends (h : w.Dense start base accepted L) {r : Record} (hs : w.Sends r w') :
    w'.Dense start base (accepted ++ [r]) L := by
  refine ⟨?_, ?_, fun hf => ?_, fun hf => hs.stuck (h.stuck (hs.fatal ▸ hf))⟩
  · rw [List.map_append, h.lsns, List.length_append, List.length_singleton, List.range'_concat,
      List.map_singleton, hs.lsn, h.next, Nat.one_mul]
  · rw [hs.next, h.next, List.length_append, List.length_singleton, Nat.add_assoc]
  · obtain ⟨written, hpresent, hacc⟩ := h.written (hs.fatal ▸ hf)
    exact ⟨written, hpresent, by rw [hacc, hs.rest, List.append_assoc]⟩

theorem Writer.Dense.finishes (h : w.Dense start base accepted L) {r : Record} {ok : Bool}
    (hs : w.Finishes r ok w') : w'.Dense start base accepted L := by
  refine ⟨h.lsns, hs.next.trans h.next, fun hf => ?_, fun hf => hs.stuck (h.stuck (hs.fatal ▸ hf))⟩
  rw [hs.rest]
  exact h.written (hs.fatal ▸ hf)

theorem WalSys.Moves.dense (h : s.Moves o .ok w L s' w' L')
    (hdense : w.Dense start base s.accepted L) : w'.Dense start base s'.accepted L' := by
  cases h with
  | leads h hacc _ => exact hacc ▸ hdense.effect h.next h.effect
  | sends r h _ hL hacc _ =>
    rw [hacc, hL]
    exact hdense.sends h
  | finishes r ok h _ hL _ hacc _ =>
    rw [hacc, hL]
    exact hdense.finishes h

theorem lsn_of_range' {pre post : List Record} {r : Record}
    (h : (pre ++ r :: post).map Record.lsn = List.range' start (pre ++ r :: post).length) :
    r.lsn = start + pre.length := by
  have hget := congrArg (fun l : List ℕ => l[pre.length]?) h
  have hlt : pre.length < (pre ++ r :: post).length := by simp
  rw [List.getElem?_map, List.getElem?_append_right le_rfl, Nat.sub_self,
    List.getElem?_range' hlt] at hget
  simpa using hget

/-- Records with consecutive LSNs reach up to the next one. -/
theorem le_topLSN_of_range' {pre post : List Record}
    (h : (pre ++ post).map Record.lsn = List.range' start (pre ++ post).length)
    (hstart : start ≤ topLSN base + 1) : start + pre.length ≤ topLSN (base ++ pre) + 1 := by
  rw [topLSN_append]
  rcases List.eq_nil_or_concat pre with rfl | ⟨init, r, rfl⟩
  · exact (Nat.add_zero start).symm ▸ hstart.trans (Nat.succ_le_succ (Nat.le_max_left _ _))
  · rw [List.concat_eq_append] at h ⊢
    rw [List.append_assoc] at h
    have hr : r.lsn = start + init.length := lsn_of_range' h
    have htop : r.lsn ≤ topLSN (init ++ [r]) := le_topLSN (by simp)
    rw [List.length_append, List.length_singleton]
    omega

end Dense

/-- The last segment is named at most one above the records before it. -/
def Layout.Chained (L : Layout) : Prop := L.last.firstLSN ≤ topLSN L.sealedRecords + 1

theorem Layout.Chained.effect {start : ℕ} {base accepted : List Record} (h : L.Chained)
    (hdense : w.Dense start base accepted L) (hstart : start ≤ topLSN base + 1)
    (heff : w.Effect .ok L w' L') : L'.Chained := by
  unfold Layout.Chained at h ⊢
  cases heff with
  | keep hsealed hname _ _ _ _ _ => rwa [hname, sealedRecords, hsealed]
  | wrote _ _ _ hsealed hlast _ _ _ _ => rwa [hlast, sealedRecords, hsealed]
  | failed _ _ hok => rwa [(hok rfl).1]
  | rotated hstage hfull hne hsealed hname _ _ _ _ =>
    have hfatal : w.fatal = false := by
      by_contra hf
      exact (hdense.stuck (by simpa using hf)).2 _ _ hstage
    obtain ⟨written, hpresent, hacc⟩ := hdense.written hfatal
    have hrecords : L'.sealedRecords = base ++ written := by
      rw [← hpresent, hfull.present_eq, sealedRecords, hsealed, List.flatMap_append,
        List.flatMap_singleton]
      rfl
    obtain ⟨r, b, hpending⟩ := List.exists_cons_of_ne_nil hne
    have hlsns := hdense.lsns
    rw [hacc, Writer.rest, hpending, List.cons_append] at hlsns
    have hr : firstLSN w.stage.pending = start + written.length := by
      rw [hpending]
      exact lsn_of_range' hlsns
    rw [hname, hr, hrecords]
    exact le_topLSN_of_range' hlsns hstart

theorem WalSys.Moves.chained {start : ℕ} {base : List Record} (h : s.Moves o .ok w L s' w' L')
    (hchained : L.Chained) (hdense : w.Dense start base s.accepted L)
    (hstart : start ≤ topLSN base + 1) : L'.Chained := by
  cases h with
  | leads h _ _ => exact hchained.effect hdense hstart h.effect
  | sends _ _ _ hL _ _ => exact hL ▸ hchained
  | finishes _ _ _ _ hL _ _ _ => exact hL ▸ hchained

/-- The directory with the density of the log that a restart relies on. -/
structure WalSys.LaidDense (o : WriterOptions) (s : WalSys) (L : Layout) : Prop
    extends s.Laid o L where
  chained : L.Chained
  opening : ∀ f c, s.proc = .opening f c → s.accepted = []
  dense : ∀ w, s.proc = .running w →
    ∃ start base, start ≤ topLSN base + 1 ∧ w.Dense start base s.accepted L

/-- The files are a dense log directory, or there are none yet. -/
def WalSys.DenseInv (o : WriterOptions) (s : WalSys) : Prop := s.Empty 1 ∨ ∃ L, s.LaidDense o L

theorem WalSys.DenseInv.inv (h : s.DenseInv o) : s.Inv o :=
  h.imp_right fun ⟨L, hL⟩ => ⟨L, hL.toLaid⟩

/-- `Replay` and `Open` on a directory. -/
theorem WalSys.LaidDense.recover (h : s.LaidDense o L) (hstep : s.recover = some s') :
    s'.LaidDense o L.replayed := by
  obtain ⟨res, hpath, hoff, hnext, hreplay⟩ := L.replay_disk
  have hread : Disk.read L.replayed.disk L.last.path =
      some ⟨L.replayed.last.bytes.take L.replayed.size, L.replayed.synced⟩ := L.replayed.read_last
  have hopen : openWriter L.replayed.disk res.nextLSN
      (res.resumePath.map fun p => (p, res.resumeOffset)) =
      some (.running (.start res.nextLSN ⟨L.last.path, (parseSegmentName L.last.path).getD 0,
        L.replayed.size, false⟩), L.replayed.disk) := by
    rw [hpath, hoff]
    show (openSegmentForAppend L.replayed.disk L.last.path L.replayed.size).map _ = _
    rw [openSegmentForAppend, hread, Option.map_some, Option.map_some, if_neg]
    rw [L.replayed.length_take_size]
    omega
  rw [WalSys.recover, h.disk, hreplay] at hstep
  cases hproc : s.proc with
  | opening f c => rw [hproc] at hstep; cases hstep
  | running w => rw [hproc] at hstep; cases hstep
  | down =>
    rw [hproc] at hstep
    simp only [hopen] at hstep
    cases hstep
    have hbound : ∀ r ∈ L.replayed.records, r.lsn < res.nextLSN := fun r hr => by
      rw [hnext]
      exact Nat.lt_succ_of_le (le_topLSN (L.replayed_records ▸ hr))
    have hname : L.replayed.last.firstLSN ≤ res.nextLSN := by
      refine h.chained.trans ?_
      rw [hnext, Layout.present, topLSN_append]
      exact Nat.succ_le_succ (Nat.le_max_left _ _)
    refine ⟨⟨rfl, fun halways r hr => L.durable_replayed.subset (h.acked halways r hr),
      start_inv ⟨rfl, rfl, rfl⟩ hbound hname (by omega)⟩, h.chained, by simp, fun w hw => ?_⟩
    cases hw
    exact ⟨_, _, by rw [L.replayed_present]; exact hnext.le, start_dense _ _ _⟩

theorem WalSys.Empty.recover (h : s.Empty 1) (hstep : s.recover = some s') : s'.Empty 1 := by
  rw [WalSys.recover, h.disk] at hstep
  rcases h.proc with hproc | hproc
  · rw [hproc] at hstep
    cases hstep
    exact ⟨rfl, h.acked, rfl, .inr rfl⟩
  · rw [hproc] at hstep
    cases hstep

/-- Making the first segment. -/
theorem WalSys.LaidDense.of_fresh {f m : ℕ} (h : s.Laid o L) (hfresh : L.Fresh f m) (hf : f ≤ 1) (hacc : s.accepted = [])
    (hrunning : ∀ w, s.proc = .running w → w = .start f (createdSegment f)) : s.LaidDense o L where
  toLaid := h
  chained := by
    rw [Layout.Chained, hfresh.name]
    omega
  opening := fun _ _ _ => hacc
  dense := fun w hw => by
    rw [hrunning w hw, hacc]
    exact ⟨f, L.present, by omega, start_dense _ _ _⟩

/-- Every careful step whose call succeeds, restarts included. -/
theorem WalSys.step_dense (h : s.DenseInv o) (hok : a.Careful s) (hres : a.result = .ok)
    (hstep : s.step o a = some s') : s'.DenseInv o := by
  by_cases hrecover : a = .recover
  · subst hrecover
    rcases h with h | ⟨L, h⟩
    · exact .inl (h.recover hstep)
    · exact .inr ⟨_, h.recover hstep⟩
  by_cases hcrash : ∃ keep, a = .crash keep
  · obtain ⟨keep, rfl⟩ := hcrash
    cases hstep
    rcases h with h | ⟨L, h⟩
    · exact .inl ⟨by rw [h.disk]; rfl, h.acked, h.accepted, .inl rfl⟩
    · obtain ⟨n, hn, hs, -, hlaid⟩ := h.toLaid.crash keep
      exact .inr ⟨_, hlaid, h.chained, nofun, nofun⟩
  have hcrash : ∀ keep, a ≠ .crash keep := fun keep hc => hcrash ⟨keep, hc⟩
  rcases h with h | ⟨L, h⟩
  · obtain ⟨res, nowMs, rfl, hcall⟩ := step_of_not_running
      (fun w hw => by rcases h.proc with hp | hp <;> rw [hp] at hw <;> cases hw)
      hrecover hcrash hstep
    rcases h.call (by decide) (by decide) hcall with h' | ⟨L', hlaid, -, hfresh, hacc, hrun⟩
    · exact .inl h'
    · exact .inr ⟨L', .of_fresh hlaid hfresh le_rfl (hacc.trans h.accepted)
        fun w hw => absurd hw (hrun w)⟩
  · cases hproc : s.proc with
    | running w =>
      have hw := h.proc
      rw [hproc] at hw
      obtain ⟨start, base, hstart, hdense⟩ := h.dense w hproc
      obtain ⟨w', L', hproc', hdisk', hmoves⟩ := running_step h.disk hproc hw hok hcrash hstep
      rw [hres] at hmoves
      refine .inr ⟨L', ⟨hdisk', fun halways => hmoves.acked halways (h.acked halways),
        by rw [hproc']; exact hmoves.inv⟩, hmoves.chained h.chained hdense hstart,
        fun f c hp => ?_, fun w₁ hw₁ => ⟨start, base, hstart, ?_⟩⟩
      · rw [hproc'] at hp
        cases hp
      · rw [hproc'] at hw₁
        cases hw₁
        exact hmoves.dense hdense
    | down =>
      obtain ⟨res, nowMs, rfl, hcall⟩ := step_of_not_running (by simp [hproc]) hrecover hcrash hstep
      rw [WalSys.call, hproc] at hcall
      cases hcall
    | opening f c =>
      obtain ⟨res, nowMs, rfl, hcall⟩ := step_of_not_running (by simp [hproc]) hrecover hcrash hstep
      have hagrees := h.proc
      rw [hproc] at hagrees
      have hf : f ≤ 1 := by
        have hchained := h.chained
        rwa [Layout.Chained, hagrees.2.1.name, Layout.sealedRecords, hagrees.2.2.1] at hchained
      obtain ⟨L', m, hlaid, -, hfresh, hacc, hrun⟩ := h.toLaid.opening_call hproc hcall
      exact .inr ⟨L', .of_fresh hlaid hfresh hf (hacc.trans (h.opening f c hproc)) hrun⟩

/-! ## Main results -/

theorem WalSys.init_dense : WalSys.init.DenseInv o := .inl ⟨rfl, nofun, rfl, .inl rfl⟩

/-- A step of a run without I/O errors. -/
def WalAction.Errorless (s : WalSys) (a : WalAction) : Prop := a.Careful s ∧ a.result = .ok

instance (s : WalSys) (a : WalAction) : Decidable (a.Errorless s) :=
  inferInstanceAs (Decidable (_ ∧ _))

/-- A step of a run without restarts; its system call may return anything. -/
def WalAction.Unrestarted (s : WalSys) (a : WalAction) : Prop := a.Careful s ∧ a ≠ .recover

instance (s : WalSys) (a : WalAction) : Decidable (a.Unrestarted s) :=
  match a with
  | .recover => .isFalse fun h => h.2 rfl
  | .send i t => decidable_of_iff (WalAction.Careful s (.send i t)) ⟨fun h => ⟨h, nofun⟩, And.left⟩
  | .flush => decidable_of_iff (WalAction.Careful s .flush) ⟨fun h => ⟨h, nofun⟩, And.left⟩
  | .check _ | .take | .gather | .call _ _ | .finish | .close | .crash _ => .isTrue ⟨trivial, nofun⟩

theorem errorless_run (h : Run (WalSys.step o) WalAction.Errorless WalSys.init s) :
    s.DenseInv o :=
  h.invariant (fun _ _ _ hinv hok hstep => WalSys.step_dense hinv hok.1 hok.2 hstep)
    WalSys.init_dense

/-- **Acknowledged writes survive crashes.** Under fsync=always, in a run of the writer,
    crashes, replays and restarts from an empty directory, without I/O errors: whatever a
    further crash leaves, `Replay` succeeds and applies, in LSN order, every record whose
    commit was ever finished with nil. -/
theorem acked_survive_crashes (halways : o.fsync = .always)
    (hrun : Run (WalSys.step o) WalAction.Errorless WalSys.init s) (keep : Bytes → ℕ) :
    ∃ res applied d, replay (Disk.crash s.disk keep) 0 false collect [] = .ok (res, applied, d) ∧
      (applied.Pairwise fun a b => a.lsn < b.lsn) ∧ ∀ r, (r, true) ∈ s.finished → r ∈ applied :=
  WalSys.Inv.replays (s := { s with disk := Disk.crash s.disk keep, proc := .down })
    (WalSys.step_inv (a := .crash keep) (errorless_run hrun).inv trivial nofun rfl) halways

/-- One record a batch. -/
def singleOptions : WriterOptions := ⟨.always, 4096, 1, 16⟩

/-- A SET of one byte to one byte, and what `Submit` makes of it at clock 7. -/
def sampleRecord : Record := ⟨0, 0, .set, 0, [1], [2], 0⟩

def stampedSample (lsn : ℕ) : Record := { sampleRecord with lsn := lsn, createdAtMs := 7 }

/-- A record is acknowledged, the process crashes and restarts, and so does a second one. -/
theorem acked_survive_crashes_sample :
    ∃ s, Run (WalSys.step singleOptions) WalAction.Errorless .init s ∧
      s.finished = [(stampedSample 1, true), (stampedSample 2, true)] ∧
      ∀ keep, ∃ res applied d,
        replay (Disk.crash s.disk keep) 0 false collect [] = .ok (res, applied, d) ∧
        (applied.Pairwise fun a b => a.lsn < b.lsn) ∧ ∀ r, (r, true) ∈ s.finished → r ∈ applied := by
  have hexec : (exec (guarded (WalSys.step singleOptions) WalAction.Errorless) .init
      [.recover, .call .ok 0, .call .ok 0, .call .ok 0, .call .ok 0, .check sampleRecord, .send 0 7,
        .take, .flush, .call .ok 0, .call .ok 0, .finish, .crash fun _ => 0, .recover,
        .check sampleRecord, .send 0 7, .take, .flush, .call .ok 0, .call .ok 0, .finish]).map
      WalSys.finished = some [(stampedSample 1, true), (stampedSample 2, true)] := by
    decide +kernel
  obtain ⟨s, hs, hfin⟩ := Option.map_eq_some_iff.mp hexec
  exact ⟨s, .of_guarded hs, hfin, acked_survive_crashes rfl (.of_guarded hs)⟩

/-- Without the condition on `flush`: a crash leaves a segment file without its header,
    `Replay` resumes in it at offset 0, and the next record is acknowledged there. The log
    is then refused. -/
theorem torn_header_loses_log :
    ∃ s, exec (WalSys.step singleOptions) .init [.recover, .call .ok 0, .crash fun _ => 0,
        .recover, .check sampleRecord, .send 0 7, .take, .flush, .call .ok 0, .call .ok 0,
        .finish] = some s ∧
      s.finished = [(stampedSample 1, true)] ∧
      replay (Disk.crash s.disk fun _ => 0) 0 false collect [] =
        .error (.corruptMidLog (segmentName 1) 0 (some (.badHeader (.notHeader .set)))) := by
  refine ⟨_, rfl, rfl, ?_⟩
  decide +kernel

/-- **Acknowledged writes survive I/O errors.** Under fsync=always, after a run without
    errors go on without restarts, with system calls that return anything: `Replay` of
    the files left behind succeeds and applies every record whose commit was finished
    with nil. -/
theorem acked_survive_errors {t : WalSys} (halways : o.fsync = .always)
    (hrun : Run (WalSys.step o) WalAction.Errorless WalSys.init s)
    (herr : Run (WalSys.step o) WalAction.Unrestarted s t) :
    ∃ res applied d, replay t.disk 0 false collect [] = .ok (res, applied, d) ∧
      (applied.Pairwise fun a b => a.lsn < b.lsn) ∧ ∀ r, (r, true) ∈ t.finished → r ∈ applied :=
  (herr.invariant (fun _ _ _ hinv hok hstep => WalSys.step_inv hinv hok.1 hok.2 hstep)
    (errorless_run hrun).inv).replays halways

/-- The sync of one record fails and the next one is acknowledged. -/
theorem acked_survive_errors_failed_sync :
    ∃ s t, Run (WalSys.step singleOptions) WalAction.Errorless .init s ∧
      Run (WalSys.step singleOptions) WalAction.Unrestarted s t ∧
      t.finished = [(stampedSample 1, false), (stampedSample 2, true)] ∧
      ∃ res applied d, replay t.disk 0 false collect [] = .ok (res, applied, d) ∧
        (applied.Pairwise fun a b => a.lsn < b.lsn) ∧ ∀ r, (r, true) ∈ t.finished → r ∈ applied := by
  have hexec : ((exec (guarded (WalSys.step singleOptions) WalAction.Errorless) .init
      [.recover, .call .ok 0, .call .ok 0, .call .ok 0, .call .ok 0, .check sampleRecord,
        .check sampleRecord, .send 0 7, .send 0 7]).bind fun s =>
      (exec (guarded (WalSys.step singleOptions) WalAction.Unrestarted) s
        [.take, .flush, .call .ok 0, .call (.error 0) 0, .finish, .finish,
          .take, .flush, .call .ok 0, .call .ok 0, .finish]).map WalSys.finished) =
      some [(stampedSample 1, false), (stampedSample 2, true)] := by
    decide +kernel
  obtain ⟨s, hs, hrest⟩ := Option.bind_eq_some_iff.mp hexec
  obtain ⟨t, ht, hfin⟩ := Option.map_eq_some_iff.mp hrest
  exact ⟨s, t, .of_guarded hs, .of_guarded ht, hfin,
    acked_survive_errors rfl (.of_guarded hs) (.of_guarded ht)⟩

/-- Without the condition on `flush`: one byte of a batch is written before an error, the
    next batch is acknowledged behind it, and `Replay` cuts both off as a torn tail. -/
theorem write_after_torn_batch_lost :
    ∃ s, exec (WalSys.step singleOptions) .init [.recover, .call .ok 0, .call .ok 0, .call .ok 0,
        .call .ok 0, .check sampleRecord, .check sampleRecord, .send 0 7, .send 0 7,
        .take, .flush, .call (.error 1) 0, .finish, .finish,
        .take, .flush, .call .ok 0, .call .ok 0, .finish] = some s ∧
      s.finished = [(stampedSample 1, false), (stampedSample 2, true)] ∧
      (replay s.disk 0 false collect []).toOption.map (fun p => p.2.1) = some [] := by
  refine ⟨_, rfl, rfl, ?_⟩
  decide +kernel

end KvStore
