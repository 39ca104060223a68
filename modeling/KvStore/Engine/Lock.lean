import KvStore.Common.Run
import KvStore.Wal.Segment

/-!
# The lock on a data directory

Model of `AcquireDirLock` and `Release` in `internal/engine/lock.go`. Any number of processes take
file-system steps on one path in any order: they create the lock file exclusively, write their pid
into it, read what another process wrote, remove the file and create it again. A file that was
removed lives on for whoever has it open, so that files are numbered (`Ino`) and the path names one
of them or none.

* `lock_exclusive`: at most one live process holds the lock, as long as no process reads a file that
  is being written, and no process removes a file other than the one it has read.
* `lock_taken_twice`: otherwise two can.
-/

namespace KvStore

open KvStore.Common

/-! ## The pid in the file -/

/-- "%d\n" with the pid (line 82). -/
def pidText (pid : ℕ) : Bytes := decimal (Nat.log 10 pid + 1) pid ++ [10]

/-- The white space of `strings.TrimSpace` among the ASCII characters. -/
def isSpace (b : UInt8) : Bool := b ∈ ([9, 10, 11, 12, 13, 32] : Bytes)

/-- `strings.TrimSpace`. -/
def trimSpace (s : Bytes) : Bytes := ((s.dropWhile isSpace).reverse.dropWhile isSpace).reverse

/-- `strconv.Atoi`. -/
def atoi (s : Bytes) : Option ℤ :=
  let digits (s : Bytes) : Option ℕ := if s = [] then none else s.foldlM parseDigit 0
  match s with
  | 43 :: s => ((digits s).filter (· < 2 ^ 63)).map fun n => (n : ℤ)
  | 45 :: s => ((digits s).filter (· ≤ 2 ^ 63)).map fun n => -(n : ℤ)
  | s => ((digits s).filter (· < 2 ^ 63)).map fun n => (n : ℤ)

/-- The pid that `AcquireDirLock` finds in a file (line 48). -/
def parsePid (data : Bytes) : Option ℤ := atoi (trimSpace (data.takeWhile (· ≠ 10)))

theorem isDigit_of_mem_decimal {w n : ℕ} {b : UInt8} (h : b ∈ decimal w n) :
    48 ≤ b.toNat ∧ b.toNat ≤ 57 := by
  induction w generalizing n with
  | zero => cases h
  | succ w ih =>
    rcases List.mem_append.mp h with h | h
    · exact ih h
    · rw [List.mem_singleton.mp h, UInt8.toNat_ofNat']
      omega

theorem trimSpace_of_forall {s : Bytes} (h : ∀ b ∈ s, isSpace b = false) : trimSpace s = s := by
  have hdrop : ∀ l : Bytes, (∀ b ∈ l, isSpace b = false) → l.dropWhile isSpace = l := by
    intro l hl
    cases l with
    | nil => rfl
    | cons b l => rw [List.dropWhile_cons, hl b List.mem_cons_self, if_neg (by decide)]
  rw [trimSpace, hdrop s h, hdrop s.reverse fun b hb => h b (List.mem_reverse.mp hb),
    List.reverse_reverse]

theorem parsePid_pidText {pid : ℕ} (h : pid < 2 ^ 31) :
    parsePid (pidText pid) = some (pid : ℤ) := by
  obtain ⟨s, hs⟩ : ∃ s, s = decimal (Nat.log 10 pid + 1) pid := ⟨_, rfl⟩
  have hdigit : ∀ b ∈ s, 48 ≤ b.toNat ∧ b.toNat ≤ 57 := fun b hb =>
    isDigit_of_mem_decimal (hs ▸ hb)
  have hline : (pidText pid).takeWhile (· ≠ 10) = s := by
    rw [pidText, ← hs, List.takeWhile_append_of_pos fun b hb => ?_]
    · simp
    · have hb := hdigit b hb
      refine decide_eq_true fun hten => ?_
      rw [hten] at hb
      exact absurd hb (by decide)
  have htrim : trimSpace s = s := by
    refine trimSpace_of_forall fun b hb => ?_
    have hb := hdigit b hb
    refine decide_eq_false fun hspace => ?_
    have hall : ∀ c ∈ ([9, 10, 11, 12, 13, 32] : Bytes), c.toNat < 48 := by simp
    exact absurd (hall b hspace) (not_lt.mpr hb.1)
  have hvalue : s.foldlM parseDigit 0 = some pid := by
    rw [hs, foldlM_parseDigit_decimal, Nat.mod_eq_of_lt (Nat.lt_pow_succ_log_self (by decide) pid)]
  have hne : s ≠ [] := by
    intro hnil
    have hlen := congrArg List.length (hs.symm.trans hnil)
    rw [length_decimal] at hlen
    cases hlen
  rw [parsePid, hline, htrim]
  cases s with
  | nil => exact absurd rfl hne
  | cons b s =>
    have hb := hdigit b List.mem_cons_self
    have hplus : b ≠ 43 := fun hc => by rw [hc] at hb; exact absurd hb (by decide)
    have hminus : b ≠ 45 := fun hc => by rw [hc] at hb; exact absurd hb (by decide)
    unfold atoi
    dsimp only
    split
    · rename_i hcons
      exact absurd (List.cons.inj hcons).1 hplus
    · rename_i hcons
      exact absurd (List.cons.inj hcons).1 hminus
    · rw [if_neg hne, hvalue, Option.filter_some, if_pos (decide_eq_true (by omega))]
      rfl

/-! ## Processes -/

/-- A file, whatever its name is by now. -/
abbrev Ino := ℕ

/-- Where a process is in `AcquireDirLock` or `Release`. -/
inductive LockPhase
  /-- Neither in one of them, nor holding the lock. -/
  | idle
  /-- Before `OpenFile` in `tryCreate`; `retake` is the second call (line 63). -/
  | creating (retake : Bool)
  /-- Has created the file and has `rest` to write; with nothing left, before `Sync`. -/
  | writing (ino : Ino) (rest : Bytes)
  /-- The file exists: before `ReadFile`. -/
  | reading
  /-- Has read `data` from the file, before `processAlive`. -/
  | judging (ino : Ino) (data : Bytes)
  /-- Has found the file stale, before `Remove`. -/
  | removing (ino : Ino)
  /-- `AcquireDirLock` has returned the lock. -/
  | held (ino : Ino)
  /-- In `Release`, before `Remove`. -/
  | releasing (ino : Ino)
  deriving DecidableEq, Repr

/-- The path, the files, and the processes by their pids. -/
structure LockState where
  path : Option Ino
  files : Ino → Bytes
  next : Ino
  phase : ℕ → LockPhase
  alive : ℕ → Bool

/-- The steps of a process. A file-system call other than those that find the file there or missing
    may fail at any time. -/
inductive LockAction
  | acquire
  | create
  | write (n : ℕ)
  | sync
  | read
  | judge
  | remove
  | release
  | fail
  | exit
  deriving DecidableEq, Repr

namespace LockState

/-- Process `p` goes on to another phase. -/
def goto (s : LockState) (p : ℕ) (phase : LockPhase) : LockState :=
  { s with phase := Function.update s.phase p phase }

/-- One step of process `p`. -/
def act (s : LockState) (p : ℕ) : LockAction → Option LockState
  | .acquire =>
    if s.phase p = .idle ∧ 0 < p ∧ p < 2 ^ 31 then some (s.goto p (.creating false)) else none
  | .create =>
    match s.phase p, s.path with
    | .creating _, none =>
      some ({ s with path := some s.next, files := Function.update s.files s.next [],
                     next := s.next + 1 }.goto p (.writing s.next (pidText p)))
    | .creating false, some _ => some (s.goto p .reading)
    | .creating true, some _ => some (s.goto p .idle)
    | _, _ => none
  | .write n =>
    match s.phase p with
    | .writing ino rest =>
      some ({ s with files := Function.update s.files ino (s.files ino ++ rest.take n) }.goto p
        (.writing ino (rest.drop n)))
    | _ => none
  | .sync =>
    match s.phase p with
    | .writing ino [] => some (s.goto p (.held ino))
    | _ => none
  | .read =>
    match s.phase p, s.path with
    | .reading, some ino => some (s.goto p (.judging ino (s.files ino)))
    | .reading, none => some (s.goto p .idle)
    | _, _ => none
  | .judge =>
    match s.phase p with
    | .judging ino data =>
      match parsePid data with
      | some pid =>
        if pid > 0 ∧ s.alive pid.toNat = true then some (s.goto p .idle)
        else some (s.goto p (.removing ino))
      | none => some (s.goto p (.removing ino))
    | _ => none
  | .remove =>
    match s.phase p with
    | .removing _ => some ({ s with path := none }.goto p (.creating true))
    | .releasing _ => some ({ s with path := none }.goto p .idle)
    | _ => none
  | .release =>
    match s.phase p with
    | .held ino => some (s.goto p (.releasing ino))
    | _ => none
  | .fail =>
    match s.phase p with
    | .held _ => none
    | _ => some (s.goto p .idle)
  | .exit => some { s with alive := Function.update s.alive p false }

@[simp] theorem phase_goto_self (s : LockState) (p : ℕ) (phase : LockPhase) :
    (s.goto p phase).phase p = phase := Function.update_self ..

theorem phase_goto_of_ne (s : LockState) {p q : ℕ} (h : q ≠ p) (phase : LockPhase) :
    (s.goto p phase).phase q = s.phase q := Function.update_of_ne h ..

/-- Live processes take steps. -/
def step (s : LockState) (a : ℕ × LockAction) : Option LockState :=
  if s.alive a.1 = true then s.act a.1 a.2 else none

/-- No lock file, or one with the pid of a process, which holds the lock if it is alive. -/
def Initial (s : LockState) : Prop :=
  (s.path = none ∧ ∀ p, s.phase p = .idle) ∨
    ∃ pid, 0 < pid ∧ pid < 2 ^ 31 ∧ s.path = some 0 ∧ s.next = 1 ∧ s.files 0 = pidText pid ∧
      s.phase pid = (if s.alive pid = true then .held 0 else .idle) ∧
      ∀ p, p ≠ pid → s.phase p = .idle

end LockState

/-- No process reads a file into which a live process has more to write, and no process removes as
    stale another file than the one it has read. -/
def LockAction.Careful (s : LockState) (p : ℕ) : LockAction → Prop
  | .read => ∀ q ino rest, s.alive q = true → s.phase q = .writing ino rest →
      s.path = some ino → rest = []
  | .remove => ∀ ino ino', s.phase p = .removing ino → s.path = some ino' → ino' = ino
  | _ => True

/-! ## The invariant -/

/-- The file that a process has created and not yet given up, and what it has to write to it. -/
def LockPhase.file : LockPhase → Option (Ino × Bytes)
  | .writing ino rest => some (ino, rest)
  | .held ino => some (ino, [])
  | .releasing ino => some (ino, [])
  | _ => none

/-- What a process knows about the file it has read: of a live owner it has read the pid, and
    when it has found the file stale there is none. -/
def LockPhase.Knows (s : LockState) : LockPhase → Prop
  | .judging ino data => ino < s.next ∧
      ∀ q rest, s.alive q = true → (s.phase q).file = some (ino, rest) → data = pidText q
  | .removing ino => ino < s.next ∧
      ∀ q rest, s.alive q = true → (s.phase q).file ≠ some (ino, rest)
  | _ => True

/-- One live process at most has a file, which is the one at the path. -/
structure LockInv (s : LockState) : Prop where
  fresh : ∀ ino, s.path = some ino → ino < s.next
  pid : ∀ p, s.alive p = true → s.phase p ≠ .idle → 0 < p ∧ p < 2 ^ 31
  file : ∀ p ino rest, s.alive p = true → (s.phase p).file = some (ino, rest) →
    s.path = some ino ∧ s.files ino ++ rest = pidText p
  unique : ∀ p q x y, s.alive p = true → s.alive q = true → (s.phase p).file = some x →
    (s.phase q).file = some y → p = q
  knows : ∀ p, s.alive p = true → (s.phase p).Knows s

section Inv

variable {s s' : LockState} {p : ℕ}

theorem LockState.Initial.inv (h : s.Initial) : LockInv s := by
  rcases h with ⟨hpath, hidle⟩ | ⟨pid, hpos, hlt, hpath, hnext, hfile, hphase, hidle⟩
  · refine ⟨?_, ?_, ?_, ?_, ?_⟩
    · intro ino hino
      rw [hpath] at hino
      cases hino
    · intro p _ hp
      exact absurd (hidle p) hp
    · intro p ino rest _ hp
      rw [hidle p] at hp
      cases hp
    · intro p q x y _ _ hp
      rw [hidle p] at hp
      cases hp
    · intro p _
      rw [hidle p]
      trivial
  · have hother : ∀ p x, s.alive p = true → (s.phase p).file = some x → p = pid := by
      intro p x _ hp
      by_contra hne
      rw [hidle p hne] at hp
      cases hp
    refine ⟨?_, ?_, ?_, ?_, ?_⟩
    · intro ino hino
      rw [hpath] at hino
      rw [hnext, ← Option.some.inj hino]
      decide
    · intro p _ hp
      by_cases hpp : p = pid
      · exact hpp ▸ ⟨hpos, hlt⟩
      · exact absurd (hidle p hpp) hp
    · intro p ino rest halive hp
      obtain rfl := hother p _ halive hp
      rw [hphase, if_pos halive] at hp
      cases hp
      exact ⟨hpath, by rw [hfile, List.append_nil]⟩
    · intro p q x y hp hq hfp hfq
      rw [hother p x hp hfp, hother q y hq hfq]
    · intro p halive
      by_cases hpp : p = pid
      · subst hpp
        rw [hphase, if_pos halive]
        trivial
      · rw [hidle p hpp]
        trivial

/-- A process knows what it knew of the file it has read, as long as no process gets hold of that
    file. -/
theorem LockPhase.Knows.mono {phase : LockPhase} (h : phase.Knows s) (hnext : s.next ≤ s'.next)
    (hfile : ∀ q ino rest, ino < s.next → s'.alive q = true →
      (s'.phase q).file = some (ino, rest) →
      s.alive q = true ∧ ∃ rest', (s.phase q).file = some (ino, rest')) : phase.Knows s' := by
  cases phase with
  | judging ino data =>
    refine ⟨lt_of_lt_of_le h.1 hnext, fun q rest hq hqf => ?_⟩
    obtain ⟨hq, rest', hqf⟩ := hfile q ino rest h.1 hq hqf
    exact h.2 q rest' hq hqf
  | removing ino =>
    refine ⟨lt_of_lt_of_le h.1 hnext, fun q rest hq hqf => ?_⟩
    obtain ⟨hq, rest', hqf⟩ := hfile q ino rest h.1 hq hqf
    exact h.2 q rest' hq hqf
  | _ => trivial

/-- Process `p` goes on, with the file it had or without one. -/
theorem LockInv.goto (h : LockInv s) {phase : LockPhase} (hpid : phase ≠ .idle → 0 < p ∧ p < 2 ^ 31)
    (hfile : phase.file = none ∨ phase.file = (s.phase p).file) (hknows : phase.Knows s) :
    LockInv (s.goto p phase) := by
  have hsame : ∀ q x, ((s.goto p phase).phase q).file = some x → (s.phase q).file = some x := by
    intro q x hq
    by_cases hqp : q = p
    · subst hqp
      rw [LockState.phase_goto_self] at hq
      rcases hfile with hnone | heq
      · rw [hnone] at hq
        cases hq
      · rw [← heq, hq]
    · rwa [LockState.phase_goto_of_ne s hqp] at hq
  have hmono : ∀ ph : LockPhase, ph.Knows s → ph.Knows (s.goto p phase) := fun ph hph =>
    hph.mono le_rfl fun q ino rest _ hq hqf => ⟨hq, rest, hsame q _ hqf⟩
  refine ⟨h.fresh, fun q hq hne => ?_,
    fun q ino rest hq hqf => h.file q ino rest hq (hsame q _ hqf),
    fun q r x y hq hr hqf hrf => h.unique q r x y hq hr (hsame q x hqf) (hsame r y hrf),
    fun q hq => ?_⟩
  · by_cases hqp : q = p
    · subst hqp
      rw [LockState.phase_goto_self] at hne
      exact hpid hne
    · rw [LockState.phase_goto_of_ne s hqp] at hne
      exact h.pid q hq hne
  · by_cases hqp : q = p
    · subst hqp
      rw [LockState.phase_goto_self]
      exact hmono phase hknows
    · rw [LockState.phase_goto_of_ne s hqp]
      exact hmono _ (h.knows q hq)

/-- No process but `p` has a file, and `p` gets the one at the path or none. -/
theorem LockInv.alone (h : LockInv s) (hpid : 0 < p ∧ p < 2 ^ 31)
    (halone : ∀ q, q ≠ p → s.alive q = true → (s.phase q).file = none)
    (halive : s'.alive = s.alive) (hnext : s.next ≤ s'.next) {phase : LockPhase}
    (hphase : s'.phase = Function.update s.phase p phase) (hknows : phase.Knows s')
    (hfresh : ∀ ino, s'.path = some ino → ino < s'.next)
    (hfile : ∀ ino rest, phase.file = some (ino, rest) →
      s'.path = some ino ∧ s'.files ino ++ rest = pidText p)
    (hold : ∀ ino rest, phase.file = some (ino, rest) → s.next ≤ ino ∨
      ∃ rest', (s.phase p).file = some (ino, rest')) (hp : s.alive p = true) : LockInv s' := by
  have hself : s'.phase p = phase := by rw [hphase, Function.update_self]
  have hother : ∀ q, q ≠ p → s'.phase q = s.phase q := fun q hq => by
    rw [hphase, Function.update_of_ne hq]
  have howner : ∀ q x, s'.alive q = true → (s'.phase q).file = some x → q = p := by
    intro q x hq hqf
    by_contra hne
    rw [hother q hne, halone q hne (halive ▸ hq)] at hqf
    cases hqf
  refine ⟨hfresh, fun q hq hne => ?_, fun q ino rest hq hqf => ?_, fun q r x y hq hr hqf hrf => ?_,
    fun q hq => ?_⟩
  · by_cases hqp : q = p
    · exact hqp ▸ hpid
    · rw [hother q hqp] at hne
      exact h.pid q (halive ▸ hq) hne
  · obtain rfl := howner q _ hq hqf
    rw [hself] at hqf
    exact hfile ino rest hqf
  · rw [howner q x hq hqf, howner r y hr hrf]
  · by_cases hqp : q = p
    · rw [hqp, hself]
      exact hknows
    · rw [hother q hqp]
      refine (h.knows q (halive ▸ hq)).mono hnext fun r ino rest hlt hr hrf => ?_
      obtain rfl := howner r _ hr hrf
      rw [hself] at hrf
      rcases hold ino rest hrf with hle | hrest
      · exact absurd hlt (not_lt.mpr hle)
      · exact ⟨hp, hrest⟩

theorem LockInv.act (h : LockInv s) (hp : s.alive p = true) {a : LockAction}
    (ha : a.Careful s p) (hstep : s.act p a = some s') : LockInv s' := by
  have hpid : s.phase p ≠ .idle → 0 < p ∧ p < 2 ^ 31 := h.pid p hp
  cases a with
  | acquire =>
    rw [LockState.act] at hstep
    split_ifs at hstep with hguard
    cases hstep
    exact h.goto (fun _ => hguard.2) (.inl rfl) trivial
  | create =>
    rw [LockState.act] at hstep
    split at hstep
    · -- the file is new, and nobody else has one
      rename_i retake hphase hpath
      cases hstep
      have hnone : ∀ q, s.alive q = true → (s.phase q).file = none := by
        intro q hq
        by_contra hne
        obtain ⟨⟨ino, rest⟩, hqf⟩ := Option.ne_none_iff_exists'.mp hne
        have hfound := (h.file q ino rest hq hqf).1
        rw [hpath] at hfound
        cases hfound
      refine h.alone (hpid (by rw [hphase]; exact nofun)) (fun q _ hq => hnone q hq) rfl
        (Nat.le_succ _) rfl trivial ?_ ?_ ?_ hp
      · rintro ino ⟨⟩
        exact Nat.lt_succ_self _
      · rintro ino rest ⟨⟩
        refine ⟨rfl, ?_⟩
        show Function.update s.files s.next [] s.next ++ pidText p = _
        rw [Function.update_self, List.nil_append]
      · rintro ino rest ⟨⟩
        exact .inl le_rfl
    · rename_i hphase _
      cases hstep
      exact h.goto (fun _ => hpid (by rw [hphase]; exact nofun)) (.inl rfl) trivial
    · cases hstep
      exact h.goto (fun hne => absurd rfl hne) (.inl rfl) trivial
    · cases hstep
  | write n =>
    rw [LockState.act] at hstep
    split at hstep
    · rename_i ino rest hphase
      cases hstep
      have hpf : (s.phase p).file = some (ino, rest) := by rw [hphase]; rfl
      obtain ⟨hpath, hcontent⟩ := h.file p ino rest hp hpf
      refine h.alone (hpid (by rw [hphase]; exact nofun)) (fun q hqp hq => ?_) rfl le_rfl rfl
        trivial h.fresh ?_ ?_ hp
      · by_contra hne
        obtain ⟨x, hqf⟩ := Option.ne_none_iff_exists'.mp hne
        exact hqp (h.unique q p x _ hq hp hqf hpf)
      · rintro ino' rest' ⟨⟩
        refine ⟨hpath, ?_⟩
        show Function.update s.files ino (s.files ino ++ rest.take n) ino ++ rest.drop n = _
        rw [Function.update_self, List.append_assoc, List.take_append_drop, hcontent]
      · rintro ino' rest' ⟨⟩
        exact .inr ⟨rest, hpf⟩
    · cases hstep
  | sync =>
    rw [LockState.act] at hstep
    split at hstep
    · rename_i ino hphase
      cases hstep
      exact h.goto (fun _ => hpid (by rw [hphase]; exact nofun)) (.inr (by rw [hphase]; rfl))
        trivial
    · cases hstep
  | read =>
    rw [LockState.act] at hstep
    split at hstep
    · -- what a live owner has written is complete
      rename_i ino hphase hpath
      cases hstep
      refine h.goto (fun _ => hpid (by rw [hphase]; exact nofun)) (.inl rfl)
        ⟨h.fresh ino hpath, fun q rest hq hqf => ?_⟩
      have hcontent := (h.file q ino rest hq hqf).2
      have hrest : rest = [] := by
        cases hqphase : s.phase q with
        | writing ino' rest' =>
          rw [hqphase] at hqf
          cases hqf
          exact ha q ino rest hq hqphase hpath
        | held ino' => rw [hqphase] at hqf; cases hqf; rfl
        | releasing ino' => rw [hqphase] at hqf; cases hqf; rfl
        | _ => rw [hqphase] at hqf; cases hqf
      rwa [hrest, List.append_nil] at hcontent
    · cases hstep
      exact h.goto (fun hne => absurd rfl hne) (.inl rfl) trivial
    · cases hstep
  | judge =>
    rw [LockState.act] at hstep
    split at hstep
    · rename_i ino data hphase
      have hknows := h.knows p hp
      rw [hphase] at hknows
      obtain ⟨hlt, hread⟩ := hknows
      have hvalid := hpid (by rw [hphase]; exact nofun)
      -- a live owner would have been found alive
      have hstale : (∀ q, s.alive q = true → 0 < q → q < 2 ^ 31 → parsePid data ≠ some (q : ℤ)) →
          LockInv (s.goto p (.removing ino)) := by
        intro hno
        refine h.goto (fun _ => hvalid) (.inl rfl) ⟨hlt, fun q rest hq hqf => ?_⟩
        have hqpid := h.pid q hq fun hidle => by
          rw [hidle] at hqf
          cases hqf
        refine hno q hq hqpid.1 hqpid.2 ?_
        rw [hread q rest hq hqf]
        exact parsePid_pidText hqpid.2
      split at hstep
      · rename_i pid hparse
        split_ifs at hstep with hlive
        · cases hstep
          exact h.goto (fun hne => absurd rfl hne) (.inl rfl) trivial
        · cases hstep
          refine hstale fun q hq hpos _ hfound => hlive ?_
          rw [hparse] at hfound
          cases hfound
          exact ⟨by exact_mod_cast hpos, hq⟩
      · rename_i hparse
        cases hstep
        refine hstale fun q _ _ _ hfound => ?_
        rw [hparse] at hfound
        cases hfound
    · cases hstep
  | remove =>
    rw [LockState.act] at hstep
    split at hstep
    · -- the file is the one that was found stale
      rename_i ino hphase
      cases hstep
      have hknows := h.knows p hp
      rw [hphase] at hknows
      refine h.alone (hpid (by rw [hphase]; exact nofun)) (fun q _ hq => ?_) rfl le_rfl rfl trivial
        nofun nofun nofun hp
      by_contra hne
      obtain ⟨⟨ino', rest⟩, hqf⟩ := Option.ne_none_iff_exists'.mp hne
      have hpath := (h.file q ino' rest hq hqf).1
      obtain rfl := ha ino ino' hphase hpath
      exact hknows.2 q rest hq hqf
    · rename_i ino hphase
      cases hstep
      have hpf : (s.phase p).file = some (ino, []) := by rw [hphase]; rfl
      refine h.alone (hpid (by rw [hphase]; exact nofun)) (fun q hqp hq => ?_) rfl le_rfl rfl
        trivial nofun nofun nofun hp
      by_contra hne
      obtain ⟨x, hqf⟩ := Option.ne_none_iff_exists'.mp hne
      exact hqp (h.unique q p x _ hq hp hqf hpf)
    · cases hstep
  | release =>
    rw [LockState.act] at hstep
    split at hstep
    · rename_i ino hphase
      cases hstep
      exact h.goto (fun _ => hpid (by rw [hphase]; exact nofun)) (.inr (by rw [hphase]; rfl))
        trivial
    · cases hstep
  | fail =>
    rw [LockState.act] at hstep
    split at hstep
    · cases hstep
    · cases hstep
      exact h.goto (fun hne => absurd rfl hne) (.inl rfl) trivial
  | exit =>
    cases hstep
    have hsub : ∀ q, Function.update s.alive p false q = true → s.alive q = true := by
      intro q hq
      by_cases hqp : q = p
      · exact hqp ▸ hp
      · rwa [Function.update_of_ne hqp] at hq
    exact ⟨h.fresh, fun q hq => h.pid q (hsub q hq),
      fun q ino rest hq => h.file q ino rest (hsub q hq),
      fun q r x y hq hr => h.unique q r x y (hsub q hq) (hsub r hr), fun q hq =>
        (h.knows q (hsub q hq)).mono le_rfl fun r ino rest _ hr hrf => ⟨hsub r hr, rest, hrf⟩⟩

end Inv

/-! ## Mutual exclusion -/

/-- Whatever the processes do, two live ones do not hold the lock at the same time, if at every step
    no process reads a file that a live process is still writing, and none removes as stale another
    file than the one it has read. -/
theorem lock_exclusive {s₀ s : LockState} (h₀ : s₀.Initial)
    (hrun : Run LockState.step (fun s a => a.2.Careful s a.1) s₀ s) {p q : ℕ} {ino ino' : Ino}
    (hp : s.alive p = true) (hq : s.alive q = true) (hpheld : s.phase p = .held ino)
    (hqheld : s.phase q = .held ino') : p = q := by
  have hinv : LockInv s := by
    refine hrun.invariant (fun s a s' hs ha hstep => ?_) h₀.inv
    unfold LockState.step at hstep
    split_ifs at hstep with halive
    exact hs.act halive ha hstep
  exact hinv.unique p q (ino, []) (ino', []) hp hq (by rw [hpheld]; rfl) (by rw [hqheld]; rfl)

/-- The file of process 9, which has died. -/
def staleLock : LockState where
  path := some 0
  files := fun _ => pidText 9
  next := 1
  phase := fun _ => .idle
  alive := fun p => p ≠ 9

theorem staleLock_initial : staleLock.Initial :=
  .inr ⟨9, by decide, by decide, rfl, rfl, rfl, rfl, fun _ _ => rfl⟩

/-- Process 1 breaks the stale lock, and is then the only holder. -/
theorem lock_exclusive_stale :
    ∃ s, Run LockState.step (fun s a => a.2.Careful s a.1) staleLock s ∧ s.phase 1 = .held 1 ∧
      ∀ q ino, s.alive q = true → s.phase q = .held ino → q = 1 := by
  have hreading : Run LockState.step (fun s a => a.2.Careful s a.1) staleLock
      ((staleLock.goto 1 (.creating false)).goto 1 .reading) :=
    (Run.refl.tail (1, .acquire) trivial rfl).tail (1, .create) trivial rfl
  have hnobody :
      LockAction.read.Careful ((staleLock.goto 1 (.creating false)).goto 1 .reading) 1 := by
    intro q ino rest _ hq _
    by_cases hq1 : q = 1
    · rw [hq1, LockState.phase_goto_self] at hq
      cases hq
    · rw [LockState.phase_goto_of_ne _ hq1, LockState.phase_goto_of_ne _ hq1] at hq
      cases hq
  have hremoving : Run LockState.step (fun s a => a.2.Careful s a.1) staleLock _ :=
    (hreading.tail (1, LockAction.read) hnobody rfl).tail (1, LockAction.judge) trivial rfl
  have hremoved := hremoving.tail (1, LockAction.remove) (by rintro ino ino' ⟨⟩ ⟨⟩; rfl) rfl
  have hrun := ((hremoved.tail (1, LockAction.create) trivial rfl).tail (1, LockAction.write 2)
    trivial rfl).tail (1, LockAction.sync) trivial rfl
  exact ⟨_, hrun, rfl, fun q ino hq hqheld =>
    lock_exclusive staleLock_initial hrun hq rfl hqheld rfl⟩

/-- Processes 1 and 2 find the lock of process 9 stale. Process 1 takes it, and process 2 removes
    the file of process 1 and takes it as well. -/
theorem lock_taken_twice :
    staleLock.Initial ∧ ∃ s, Run LockState.step Always staleLock s ∧
      s.alive 1 = true ∧ s.alive 2 = true ∧ s.phase 1 = .held 1 ∧ s.phase 2 = .held 2 :=
  ⟨staleLock_initial, Run.exists_of_exec LockState.step staleLock
    [(1, .acquire), (2, .acquire), (1, .create), (2, .create), (1, .read), (2, .read), (1, .judge),
      (2, .judge), (1, .remove), (1, .create), (1, .write 2), (1, .sync), (2, .remove),
      (2, .create), (2, .write 2), (2, .sync)] _ (by decide +kernel)⟩

end KvStore
