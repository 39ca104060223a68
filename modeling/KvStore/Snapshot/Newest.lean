import KvStore.Snapshot.File

/-!
# The newest valid snapshot

Model of `List` and `LoadNewestValid` in `internal/snapshot/read.go`. The files of a
directory are tried from the newest to the oldest, with the same callback, until one loads.

* `newest_valid_exact`: the callback has been passed the entries of the file that is reported, and
  nothing else, if and only if no file before it passes the checks and has an entry to hand out.
* `newest_valid_mixed`: otherwise it has been passed entries of a newer file before.
  The checks come before the first entry of a file, but the end of its entries and the
  callback do not.
-/

namespace KvStore.Snapshot

open KvStore.Common

/-! ## The code -/

/-- `Info` (lines 30–34). -/
structure Info where
  path : Bytes
  lastIncludedLSN : ℕ
  size : ℕ
  deriving DecidableEq, Repr

/-- `strconv.ParseUint(s, 10, 64)`. -/
def parseUint (s : Bytes) : Option ℕ :=
  if s = [] then none else (s.foldlM parseDigit 0).filter (· < 2 ^ 64)

/-- What `List` makes of one directory entry (lines 47–59). -/
def info (entry : Bytes × File) : Option Info :=
  if ¬ snapshotExt <:+ entry.1 then none
  else
    (parseUint (entry.1.take (entry.1.length - snapshotExt.length))).map fun lsn =>
      ⟨entry.1, lsn, entry.2.bytes.length⟩

/-- `List` (lines 37–63). -/
def list (d : Disk Bytes) : List Info :=
  (d.filterMap info).insertionSort fun a b => a.lastIncludedLSN ≥ b.lastIncludedLSN

/-- The errors of `LoadNewestValid`: `ErrNoSnapshot`, or that of the oldest file. -/
inductive NewestError (ε : Type)
  | noSnapshot
  | last (path : Bytes) (err : LoadError ε)
  deriving DecidableEq, Repr

variable {σ ε : Type}

/-- `Load` of the file called `path`. -/
def loadPath (fn : σ → SnapEntry → σ × Option ε) (d : Disk Bytes) (path : Bytes)
    (dv : Delivery σ) : Delivery σ × Except (LoadError ε) Header :=
  match Disk.read d path with
  | none => (dv, .error (.file .unreadable))
  | some f => load fn f.bytes dv

/-- The loop of `LoadNewestValid` (lines 234–240). -/
def tryLoad (fn : σ → SnapEntry → σ × Option ε) (d : Disk Bytes) :
    List Info → NewestError ε → Delivery σ →
      Delivery σ × Except (NewestError ε) (Header × Bytes)
  | [], lastErr, dv => (dv, .error lastErr)
  | s :: snaps, _, dv =>
    match loadPath fn d s.path dv with
    | (dv, .ok hdr) => (dv, .ok (hdr, s.path))
    | (dv, .error err) => tryLoad fn d snaps (.last s.path err) dv

/-- `LoadNewestValid` (lines 225–242), with a callback in the state `s`. -/
def loadNewestValid (fn : σ → SnapEntry → σ × Option ε) (d : Disk Bytes) (s : σ) :
    Delivery σ × Except (NewestError ε) (Header × Bytes) :=
  tryLoad fn d (list d) .noSnapshot ⟨s, []⟩

/-! ## What a file delivers -/

/-- A file of which no entry reaches the callback: it does not pass the checks, or there is no whole
    entry at the front of its body. -/
def Silent (file : Bytes) : Prop :=
  ∀ hdr, verify file = .ok hdr → ∀ p, readEntry (body file) ≠ .ok p

variable {fn : σ → SnapEntry → σ × Option ε} {d : Disk Bytes} {path : Bytes}
  {dv dv' : Delivery σ}

/-- A file that fails the checks passes nothing to the callback. -/
theorem load_of_verify_error {file : Bytes} {err : FileError} (h : verify file = .error err) :
    load fn file dv = (dv, .error (.file err)) := by
  rw [load, h]

theorem readEntry_nil (p : SnapEntry × Bytes) : readEntry [] ≠ .ok p := by
  rw [readEntry, if_pos (by decide)]
  nofun

theorem length_of_readEntry {rest rest' : Bytes} {e : SnapEntry}
    (h : readEntry rest = .ok (e, rest')) : rest'.length < rest.length := by
  obtain ⟨-, rfl⟩ := entryBytes_of_readEntry h
  rw [List.length_append, length_entryBytes, entryHeaderLen]
  omega

/-- A loop over the entries that ends well has passed all of them. -/
theorem loadEntries_ok {fuel : ℕ} {rest : Bytes} {seen n : UInt64} (hfuel : rest.length ≤ fuel)
    (h : loadEntries fn fuel rest seen dv = (dv', .ok n)) :
    ∃ es, (∀ e ∈ es, Fits e) ∧ rest = entriesBytes es ∧ n = seen + UInt64.ofNat es.length ∧
      dv'.passed = dv.passed ++ es := by
  induction fuel generalizing rest seen dv with
  | zero =>
    cases h
    rw [Nat.le_zero, List.length_eq_zero_iff] at hfuel
    exact ⟨[], nofun, hfuel, (UInt64.add_zero _).symm, (List.append_nil _).symm⟩
  | succ fuel ih =>
    rw [loadEntries] at h
    split_ifs at h with hnil
    · cases h
      exact ⟨[], nofun, hnil, (UInt64.add_zero _).symm, (List.append_nil _).symm⟩
    cases hread : readEntry rest with
    | error err =>
      rw [hread] at h
      cases h
    | ok p =>
      obtain ⟨e, rest'⟩ := p
      rw [hread] at h
      dsimp only at h
      have hless := length_of_readEntry hread
      obtain ⟨he, rfl⟩ := entryBytes_of_readEntry hread
      rcases hfn : fn dv.state e with ⟨state, _ | err⟩ <;> rw [hfn] at h
      · obtain ⟨es, hes, hrest, hn, hpassed⟩ := ih (by omega) h
        refine ⟨e :: es, List.forall_mem_cons.mpr ⟨he, hes⟩, ?_, ?_, ?_⟩
        · rw [hrest, entriesBytes_cons]
        · rw [hn, List.length_cons, UInt64.ofNat_add, UInt64.add_assoc, UInt64.add_comm 1]
          rfl
        · rw [hpassed, List.append_assoc]
          rfl
      · cases h

/-- What has been passed stays passed. -/
theorem loadEntries_passed (fn : σ → SnapEntry → σ × Option ε) (fuel : ℕ) (rest : Bytes)
    (seen : UInt64) (dv : Delivery σ) : dv.passed <+: (loadEntries fn fuel rest seen dv).1.passed := by
  induction fuel generalizing rest seen dv with
  | zero => exact List.prefix_refl _
  | succ fuel ih =>
    rw [loadEntries]
    split_ifs
    · exact List.prefix_refl _
    rcases readEntry rest with err | ⟨e, rest'⟩
    · exact List.prefix_refl _
    · dsimp only
      rcases fn dv.state e with ⟨state, _ | err⟩
      · exact (List.prefix_append _ _).trans (ih rest' (seen + 1) ⟨state, dv.passed ++ [e]⟩)
      · exact List.prefix_append _ _

/-- A file that loads passes its entries, behind what was passed before. -/
theorem load_ok {file : Bytes} {hdr : Header} (h : load fn file dv = (dv', .ok hdr)) :
    ∃ es, verify file = .ok hdr ∧ Contains file hdr es ∧ dv'.passed = dv.passed ++ es := by
  unfold load at h
  cases hverify : verify file with
  | error err =>
    rw [hverify] at h
    cases h
  | ok hdr' =>
    rw [hverify] at h
    dsimp only at h
    rcases hload : loadEntries fn (body file).length (body file) 0 dv with ⟨dv₁, err | seen⟩ <;>
      rw [hload] at h
    · cases h
    · dsimp only at h
      obtain ⟨es, hes, hbody, hseen, hpassed⟩ := loadEntries_ok le_rfl hload
      split_ifs at h with hcount <;> cases h
      rw [UInt64.zero_add] at hseen
      exact ⟨es, rfl, ⟨hes, hbody, by rw [← hseen, not_not.mp hcount]⟩, hpassed⟩

/-- A file passes nothing iff it is silent. -/
theorem load_passed (fn : σ → SnapEntry → σ × Option ε) (file : Bytes) (dv : Delivery σ) :
    dv.passed <+: (load fn file dv).1.passed ∧
      ((load fn file dv).1.passed = dv.passed ↔ Silent file) := by
  cases hverify : verify file with
  | error err =>
    rw [load_of_verify_error hverify]
    refine ⟨List.prefix_refl _, iff_of_true rfl fun hdr hok => ?_⟩
    rw [hverify] at hok
    cases hok
  | ok hdr =>
    have hload : (load fn file dv).1 = (loadEntries fn (body file).length (body file) 0 dv).1 := by
      rw [load, hverify]
      dsimp only
      rcases loadEntries fn (body file).length (body file) 0 dv with ⟨dv₁, err | seen⟩
      · rfl
      · dsimp only
        split_ifs <;> rfl
    have hsilent : Silent file ↔ ∀ p, readEntry (body file) ≠ .ok p :=
      ⟨fun h => h hdr hverify, fun h _ _ => h⟩
    rw [hload, hsilent]
    refine ⟨loadEntries_passed fn _ _ _ _, ?_⟩
    cases hread : readEntry (body file) with
    | error err =>
      refine iff_of_true ?_ (by simp)
      cases hbody : (body file).length with
      | zero => rfl
      | succ fuel =>
        rw [loadEntries]
        split_ifs
        · rfl
        · rw [hread]
    | ok p =>
      obtain ⟨e, rest⟩ := p
      refine iff_of_false (fun hsame => ?_) fun hno => hno _ rfl
      have hless := length_of_readEntry hread
      obtain ⟨fuel, hfuel⟩ : ∃ fuel, (body file).length = fuel + 1 :=
        ⟨(body file).length - 1, by omega⟩
      have hne : body file ≠ [] := fun hnil => by
        rw [hnil] at hread
        exact readEntry_nil _ hread
      rw [hfuel, loadEntries, if_neg hne, hread] at hsame
      -- the entry is passed first, and stays passed
      have hlong : dv.passed ++ [e] <+: dv.passed := by
        rcases hfn : fn dv.state e with ⟨state, _ | err⟩ <;> simp only [hfn] at hsame
        · have hpassed := loadEntries_passed fn fuel rest (0 + 1) ⟨state, dv.passed ++ [e]⟩
          rwa [hsame] at hpassed
        · rw [hsame]
      have hlen := hlong.length_le
      rw [List.length_append, List.length_singleton] at hlen
      omega

/-- The files before the one that loads, and what they leave. -/
theorem tryLoad_ok {snaps : List Info} {lastErr : NewestError ε} {hdr : Header}
    (hok : tryLoad fn d snaps lastErr dv = (dv', .ok (hdr, path))) :
    ∃ newer i older, snaps = newer ++ i :: older ∧ i.path = path ∧
      ∃ f es, Disk.read d path = some f ∧ verify f.bytes = .ok hdr ∧ Contains f.bytes hdr es ∧
        ∃ before, dv'.passed = dv.passed ++ before ++ es ∧
          (before = [] ↔ ∀ j ∈ newer, ∀ f, Disk.read d j.path = some f → Silent f.bytes) := by
  induction snaps generalizing lastErr dv with
  | nil => cases hok
  | cons s snaps ih =>
    rw [tryLoad] at hok
    rcases hload : loadPath fn d s.path dv with ⟨dv₁, err | hdr'⟩ <;> rw [hload] at hok
    · obtain ⟨newer, i, older, rfl, hpath, f, es, hread, hverify, hes, before, hpassed, hsilent⟩ :=
        ih hok
      -- what the first one passes comes before what the others pass
      obtain ⟨first, hfirst, hnone⟩ : ∃ first, dv₁.passed = dv.passed ++ first ∧
          (first = [] ↔ ∀ f, Disk.read d s.path = some f → Silent f.bytes) := by
        unfold loadPath at hload
        cases hs : Disk.read d s.path with
        | none =>
          rw [hs] at hload
          cases hload
          exact ⟨[], (List.append_nil _).symm, iff_of_true rfl nofun⟩
        | some g =>
          rw [hs] at hload
          obtain ⟨⟨first, hfirst⟩, hiff⟩ := load_passed fn g.bytes dv
          replace hload : load fn g.bytes dv = (dv₁, .error err) := hload
          rw [hload] at hfirst hiff
          refine ⟨first, hfirst.symm, ?_⟩
          have hg : (∀ f, some g = some f → Silent f.bytes) ↔ Silent g.bytes :=
            ⟨fun h => h g rfl, fun h f hf => Option.some.inj hf ▸ h⟩
          rw [hg, ← hiff, ← hfirst, List.append_right_eq_self]
      refine ⟨s :: newer, i, older, rfl, hpath, f, es, hread, hverify, hes, first ++ before, ?_, ?_⟩
      · rw [hpassed, hfirst, List.append_assoc dv.passed]
      · rw [List.append_eq_nil_iff, hnone, hsilent, List.forall_mem_cons]
    · cases hok
      unfold loadPath at hload
      cases hs : Disk.read d s.path with
      | none =>
        rw [hs] at hload
        cases hload
      | some g =>
        rw [hs] at hload
        obtain ⟨es, hverify, hes, hpassed⟩ := load_ok hload
        exact ⟨[], s, snaps, rfl, rfl, g, es, rfl, hverify, hes, [], by rw [hpassed, List.append_nil],
          iff_of_true rfl nofun⟩

/-- The files of a listing have the names of the directory. -/
theorem nodup_list (hnames : (d.map Prod.fst).Nodup) : ((list d).map Info.path).Nodup := by
  have hpath : ∀ p i, info p = some i → i.path = p.1 := by
    intro p i h
    unfold info at h
    split_ifs at h
    obtain ⟨lsn, -, rfl⟩ := Option.map_eq_some_iff.mp h
    rfl
  have hsub : ((d.filterMap info).map Info.path).Sublist (d.map Prod.fst) := by
    induction d with
    | nil => exact List.Sublist.refl _
    | cons p d ih =>
      have ih := ih (List.nodup_cons.mp hnames).2
      rw [List.filterMap_cons, List.map_cons]
      cases hi : info p with
      | none => exact ih.cons _
      | some i =>
        rw [List.map_cons, hpath p i hi]
        exact ih.cons_cons _
  have hperm : ((list d).map Info.path).Perm ((d.filterMap info).map Info.path) :=
    (List.perm_insertionSort _ _).map _
  exact hperm.nodup_iff.mpr (hnames.sublist hsub)

/-- When `LoadNewestValid` succeeds: it has passed the entries of the snapshot it reports to `fn`
    and nothing else, if and only if every file that is listed before fails the checks, or has no
    whole entry at the front of its body. -/
theorem newest_valid_exact (fn : σ → SnapEntry → σ × Option ε) (d : Disk Bytes)
    (hnames : (d.map Prod.fst).Nodup) (s : σ) {dv : Delivery σ} {hdr : Header} {path : Bytes}
    (hok : loadNewestValid fn d s = (dv, .ok (hdr, path))) :
    (∃ f es, Disk.read d path = some f ∧ verify f.bytes = .ok hdr ∧ Contains f.bytes hdr es ∧
      dv.passed = es) ↔
    ∀ i ∈ (list d).takeWhile (fun i => i.path ≠ path), ∀ f, Disk.read d i.path = some f →
      Silent f.bytes := by
  obtain ⟨newer, i, older, hlist, rfl, f, es, hread, hverify, hes, before, hpassed, hsilent⟩ :=
    tryLoad_ok hok
  have hbefore : (list d).takeWhile (fun j => j.path ≠ i.path) = newer := by
    have hnodup := nodup_list hnames
    rw [hlist, List.map_append, List.map_cons] at hnodup
    have hne : ∀ j ∈ newer, decide (j.path ≠ i.path) = true := fun j hj => decide_eq_true
      ((List.nodup_append.mp hnodup).2.2 _ (List.mem_map_of_mem hj) _ List.mem_cons_self)
    rw [hlist, List.takeWhile_append_of_pos hne, List.takeWhile_cons_of_neg (by simp),
      List.append_nil]
  rw [hbefore, ← hsilent, hpassed, List.nil_append]
  constructor
  · rintro ⟨f', es', hread', -, hes', hsame⟩
    obtain rfl : f = f' := Option.some.inj (hread.symm.trans hread')
    rw [hes'.unique hes hverify] at hsame
    exact List.append_left_eq_self.mp hsame
  · rintro rfl
    exact ⟨f, es, hread, hverify, hes, rfl⟩

/-! ## Two snapshots -/

/-- A directory with the snapshots at LSN 1 and 2, the older one with the entry c. -/
def twoSnapshots (newer : Bytes) : Disk Bytes :=
  [(name 1, ⟨fileBytes 1 0 [⟨[99], [], 0⟩], 0⟩), (name 2, ⟨newer, 0⟩)]

theorem list_twoSnapshots (newer : Bytes) :
    list (twoSnapshots newer) = [⟨name 2, 2, newer.length⟩,
      ⟨name 1, 1, (fileBytes 1 0 [⟨[99], [], 0⟩]).length⟩] := by
  have h1 : parseUint ((name 1).take ((name 1).length - snapshotExt.length)) = some 1 := by
    decide +kernel
  have h2 : parseUint ((name 2).take ((name 2).length - snapshotExt.length)) = some 2 := by
    decide +kernel
  have hext : snapshotExt <:+ name 1 ∧ snapshotExt <:+ name 2 :=
    ⟨List.suffix_append _ _, List.suffix_append _ _⟩
  simp [list, twoSnapshots, info, h1, h2, hext, List.insertionSort, List.orderedInsert]

theorem read_twoSnapshots (newer : Bytes) :
    Disk.read (twoSnapshots newer) (name 2) = some ⟨newer, 0⟩ ∧
      Disk.read (twoSnapshots newer) (name 1) = some ⟨fileBytes 1 0 [⟨[99], [], 0⟩], 0⟩ := by
  have hne : name 1 ≠ name 2 := by decide +kernel
  simp [twoSnapshots, Disk.read, hne]

/-- The newer one fails, and the callback takes the entry of the older one. -/
theorem loadNewestValid_twoSnapshots {newer : Bytes} {s : σ} {dv : Delivery σ} {err : LoadError ε}
    (hnewer : load fn newer ⟨s, []⟩ = (dv, .error err))
    (hfn : (fn dv.state ⟨[99], [], 0⟩).2 = none) :
    loadNewestValid fn (twoSnapshots newer) s =
      (dv.after fn [⟨[99], [], 0⟩], .ok (⟨1, 0, 1, 1⟩, name 1)) := by
  obtain ⟨hread2, hread1⟩ := read_twoSnapshots newer
  have holder : load fn (fileBytes 1 0 [⟨[99], [], 0⟩]) dv =
      (dv.after fn [⟨[99], [], 0⟩], .ok ⟨1, 0, 1, 1⟩) :=
    (contains_fileBytes (by unfold Fits; decide) 1 0).load (verify_fileBytes _ _ _) ⟨hfn, trivial⟩
  rw [loadNewestValid, list_twoSnapshots, tryLoad, loadPath, hread2]
  dsimp only
  rw [hnewer]
  dsimp only
  rw [tryLoad, loadPath, hread1]
  dsimp only
  rw [holder]

/-- A newer file that is cut off, and a callback that counts entries. -/
theorem newest_valid_exact_cut :
    (loadNewestValid (fun (n : ℕ) _ => (n + 1, (none : Option Empty))) (twoSnapshots [75]) 0).2 =
        .ok (⟨1, 0, 1, 1⟩, name 1) ∧
      ∃ f es, Disk.read (twoSnapshots [75]) (name 1) = some f ∧
        verify f.bytes = .ok ⟨1, 0, 1, 1⟩ ∧ Contains f.bytes ⟨1, 0, 1, 1⟩ es ∧
        (loadNewestValid (fun (n : ℕ) _ => (n + 1, (none : Option Empty)))
          (twoSnapshots [75]) 0).1.passed = es := by
  have hcut : verify [75] = .error (.incomplete 1) := rfl
  have hok : loadNewestValid (fun (n : ℕ) _ => (n + 1, (none : Option Empty)))
      (twoSnapshots [75]) 0 = (⟨1, [⟨[99], [], 0⟩]⟩, .ok (⟨1, 0, 1, 1⟩, name 1)) :=
    loadNewestValid_twoSnapshots (load_of_verify_error hcut) rfl
  rw [hok]
  have hnames : ((twoSnapshots [75]).map Prod.fst).Nodup := by decide +kernel
  refine ⟨rfl, (newest_valid_exact _ _ hnames 0 hok).mpr fun i hi f hf => ?_⟩
  have hcutFile : f.bytes = [75] := by
    obtain ⟨hread2, -⟩ := read_twoSnapshots [75]
    have hne : name 2 ≠ name 1 := by decide +kernel
    rw [list_twoSnapshots, List.takeWhile_cons, if_pos (decide_eq_true hne), List.takeWhile_cons,
      if_neg (by simp), List.mem_singleton] at hi
    rw [hi, hread2] at hf
    rw [← Option.some.inj hf]
  rw [hcutFile]
  intro hdr hverify
  rw [hcut] at hverify
  cases hverify

/-- The newer snapshot has the entries a and b, and the callback refuses b. It is passed both of
    them before it is passed c, the one entry of the snapshot that is reported. -/
theorem newest_valid_mixed :
    ∃ dv, loadNewestValid (fun (_ : Unit) e => ((), if e.key = [98] then some () else none))
        (twoSnapshots (fileBytes 2 0 [⟨[97], [], 0⟩, ⟨[98], [], 0⟩])) () =
        (dv, .ok (⟨1, 0, 1, 1⟩, name 1)) ∧
      dv.passed = [⟨[97], [], 0⟩, ⟨[98], [], 0⟩, ⟨[99], [], 0⟩] ∧
      ¬ ∃ f es, Disk.read (twoSnapshots (fileBytes 2 0 [⟨[97], [], 0⟩, ⟨[98], [], 0⟩])) (name 1) =
          some f ∧ Contains f.bytes ⟨1, 0, 1, 1⟩ es ∧ dv.passed = es := by
  have hnewer : load (fun (_ : Unit) e => ((), if e.key = [98] then some () else none))
      (fileBytes 2 0 [⟨[97], [], 0⟩, ⟨[98], [], 0⟩]) ⟨(), []⟩ =
      (⟨(), [⟨[97], [], 0⟩, ⟨[98], [], 0⟩]⟩, .error (.callback ())) := by
    rw [load, verify_fileBytes, body_fileBytes]
    rfl
  refine ⟨_, loadNewestValid_twoSnapshots hnewer rfl, rfl, ?_⟩
  rintro ⟨f, es, -, hcontains, hpassed⟩
  have hcount := hcontains.count
  rw [← hpassed] at hcount
  exact absurd hcount (by decide)

end KvStore.Snapshot
