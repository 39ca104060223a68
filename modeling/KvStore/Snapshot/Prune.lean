import KvStore.Snapshot.Newest

/-!
# The snapshot directory

Model of `Prune` in `internal/snapshot/read.go` and of the rename in `Commit`. A directory that
only these two write to is a `shelf`: files named after their LSNs, the newest one last.

* `list_shelf`: `List` goes through a shelf from its end.
* `rename_shelf`, `prune_shelf`: what `Commit` and `Prune` make of a shelf.
-/

namespace KvStore.Snapshot

open KvStore.Common

/-! ## The code -/

/-- `tmpExt` (write.go line 52), ".tmp". -/
def tmpExt : Bytes := [46, 116, 109, 112]

/-- The rename in `Commit` (write.go lines 188–191). The file takes the place of one that has the
    name already. -/
def rename (d : Disk Bytes) (path bytes : Bytes) : Disk Bytes :=
  Disk.remove d path ++ [(path, ⟨bytes, bytes.length⟩)]

/-- `Prune` (lines 247–273), with the number of snapshots removed. -/
def prune (d : Disk Bytes) (keep : ℕ) : Disk Bytes × ℕ :=
  let keep := if keep < 1 then 1 else keep
  let old := (list d).drop keep
  let d := old.foldl (fun d s => Disk.remove d s.path) d
  (d.filter fun p => ¬ tmpExt <:+ p.1, old.length)

/-! ## Names -/

section Name

variable {lsn lsn' : UInt64}

theorem name_eq (h : lsn.toNat < 10 ^ 16) : name lsn = decimal 16 lsn.toNat ++ snapshotExt := by
  rw [name, Nat.max_eq_left (Nat.toDigits_length 10 _ 16 (by decide) h)]

/-- `List` reads the LSN from the name. -/
theorem info_name (h : lsn.toNat < 10 ^ 16) (f : File) :
    info (name lsn, f) = some ⟨name lsn, lsn.toNat, f.bytes.length⟩ := by
  have hsuffix : ¬ ¬ snapshotExt <:+ name lsn := by
    rw [name_eq h]
    exact not_not.mpr (List.suffix_append _ _)
  have htake : (name lsn).take ((name lsn).length - snapshotExt.length) =
      decimal 16 lsn.toNat := by
    rw [name_eq h, List.length_append, Nat.add_sub_cancel, List.take_left' rfl]
  have hne : decimal 16 lsn.toNat ≠ [] := List.ne_nil_of_length_pos (by rw [length_decimal]; decide)
  rw [info, if_neg hsuffix, htake, parseUint, if_neg hne, foldlM_parseDigit_decimal,
    Nat.mod_eq_of_lt h, Option.filter_some, if_pos (decide_eq_true lsn.toNat_lt)]
  rfl

theorem name_inj (h : lsn.toNat < 10 ^ 16) (h' : lsn'.toNat < 10 ^ 16)
    (hname : name lsn = name lsn') : lsn = lsn' := by
  have hinfo := info_name h ⟨[], 0⟩
  rw [hname, info_name h'] at hinfo
  exact UInt64.toNat_inj.mp (congrArg Info.lastIncludedLSN (Option.some.inj hinfo)).symm

theorem not_tmpExt_suffix (h : lsn.toNat < 10 ^ 16) : ¬ tmpExt <:+ name lsn := by
  intro hsuffix
  rw [name_eq h] at hsuffix
  have hext := List.suffix_of_suffix_length_le hsuffix (List.suffix_append _ _) (by decide)
  exact absurd hext (by decide)

end Name

/-! ## Shelves -/

/-- Files by the LSNs of their names. -/
def shelf (fs : List (UInt64 × File)) : Disk Bytes := fs.map fun p => (name p.1, p.2)

/-- The LSNs ascend, and are short enough for sixteen digits. -/
structure Shelved (fs : List (UInt64 × File)) : Prop where
  sorted : fs.Pairwise fun a b => a.1 < b.1
  short : ∀ p ∈ fs, p.1.toNat < 10 ^ 16

/-- What `List` says about a file. -/
def fileInfo (p : UInt64 × File) : Info := ⟨name p.1, p.1.toNat, p.2.bytes.length⟩

variable {fs gs : List (UInt64 × File)} {p : UInt64 × File} {lsn : UInt64}

theorem Shelved.sublist (h : Shelved fs) (hsub : gs.Sublist fs) : Shelved gs :=
  ⟨h.sorted.sublist hsub, fun p hp => h.short p (hsub.subset hp)⟩

theorem Shelved.nodup (h : Shelved fs) : ((shelf fs).map Prod.fst).Nodup := by
  rw [shelf, List.map_map, List.nodup_iff_pairwise_ne, List.pairwise_map]
  refine h.sorted.imp_of_mem fun {a b} ha hb hlt hname => ?_
  have heq := name_inj (h.short a ha) (h.short b hb) hname
  rw [heq] at hlt
  exact UInt64.lt_irrefl _ hlt

theorem Shelved.read (h : Shelved fs) (hp : p ∈ fs) : Disk.read (shelf fs) (name p.1) = some p.2 :=
  Disk.read_of_mem h.nodup (List.mem_map_of_mem (f := fun p => (name p.1, p.2)) hp)

/-- `List` finds all files, the newest one first. -/
theorem list_shelf (h : Shelved fs) : list (shelf fs) = fs.reverse.map fileInfo := by
  have hinfo : (shelf fs).filterMap info = fs.map fileInfo := by
    rw [shelf, List.filterMap_map]
    exact List.filterMap_eq_map_iff_forall_eq_some.mpr fun p hp => info_name (h.short p hp) p.2
  have hdesc : (fs.reverse.map fileInfo).Pairwise fun a b =>
      a.lastIncludedLSN > b.lastIncludedLSN := by
    rw [List.pairwise_map, List.pairwise_reverse]
    exact h.sorted.imp UInt64.lt_iff_toNat_lt.mp
  have hperm : (list (shelf fs)).Perm (fs.reverse.map fileInfo) := by
    rw [list, hinfo]
    exact (List.perm_insertionSort _ _).trans ((List.reverse_perm fs).map fileInfo).symm
  refine hperm.eq_of_pairwise ?_ (List.pairwise_insertionSort _ _) (hdesc.imp Nat.le_of_lt)
  intro a b ha hb hab hba
  have hinj : ((fs.reverse.map fileInfo).map Info.lastIncludedLSN).Nodup :=
    List.pairwise_map.mpr (hdesc.imp Nat.ne_of_gt)
  exact List.inj_on_of_nodup_map hinj (hperm.mem_iff.mp ha) hb (Nat.le_antisymm hba hab)

/-- A new snapshot goes to the end, in place of one at the same LSN. -/
theorem rename_shelf (h : Shelved fs) (hlsn : lsn.toNat < 10 ^ 16) (b : Bytes) :
    rename (shelf fs) (name lsn) b =
      shelf (fs.filter (fun p => p.1 ≠ lsn) ++ [(lsn, ⟨b, b.length⟩)]) := by
  have hremove : Disk.remove (shelf fs) (name lsn) = shelf (fs.filter fun p => p.1 ≠ lsn) := by
    rw [Disk.remove, shelf, List.filter_map, shelf]
    refine congrArg (List.map _) (List.filter_congr fun p hp => ?_)
    have hiff : name p.1 = name lsn ↔ p.1 = lsn :=
      ⟨name_inj (h.short p hp) hlsn, congrArg name⟩
    simp [hiff]
  rw [rename, hremove, shelf, shelf, List.map_append]
  rfl

/-- The newest snapshots stay. -/
theorem prune_shelf (h : Shelved fs) {keep : ℕ} (hkeep : 1 ≤ keep) :
    (prune (shelf fs) keep).1 = shelf (fs.drop (fs.length - keep)) := by
  obtain ⟨old, kept, hfs, hold, hkept⟩ : ∃ old kept, fs = old ++ kept ∧
      fs.take (fs.length - keep) = old ∧ fs.drop (fs.length - keep) = kept :=
    ⟨_, _, (List.take_append_drop _ _).symm, rfl, rfl⟩
  have hpaths : ((list (shelf fs)).drop keep).map Info.path =
      ((shelf old).map Prod.fst).reverse := by
    rw [list_shelf h, ← List.map_drop, List.drop_reverse, hold, List.map_map, List.map_reverse,
      shelf, List.map_map]
    rfl
  have hsplit : shelf fs = shelf old ++ shelf kept := by rw [hfs, shelf, List.map_append]; rfl
  have hdisjoint : ∀ x ∈ shelf kept, x.1 ∉ (shelf old).map Prod.fst := by
    have hnodup := h.nodup
    rw [hsplit, List.map_append] at hnodup
    intro x hx hmem
    exact (List.disjoint_of_nodup_append hnodup) hmem (List.mem_map_of_mem hx)
  have hshort : ∀ x ∈ shelf kept, ¬ tmpExt <:+ x.1 := by
    intro x hx
    obtain ⟨p, hp, rfl⟩ := List.mem_map.mp hx
    exact not_tmpExt_suffix (h.short p (hfs ▸ List.mem_append_right old hp))
  have hremove : ((list (shelf fs)).drop keep).foldl (fun d s => Disk.remove d s.path)
      (shelf fs) = shelf kept := by
    rw [Disk.foldl_remove, hpaths, hsplit, List.filter_append, List.filter_eq_nil_iff.mpr,
      List.filter_eq_self.mpr, List.nil_append]
    · intro x hx
      simpa using hdisjoint x hx
    · intro x hx
      simpa using ⟨x.2, hx⟩
  rw [prune, if_neg (Nat.not_lt.mpr hkeep), hremove, hkept]
  exact List.filter_eq_self.mpr fun x hx => decide_eq_true (hshort x hx)

/-- The newest file is replaced. -/
theorem Shelved.modify (h : Shelved (fs ++ [p])) (f : File) :
    Shelved (fs ++ [(p.1, f)]) ∧
      (Disk.modify (shelf (fs ++ [p])) (name p.1) fun _ => f) = shelf (fs ++ [(p.1, f)]) := by
  have happend : ∀ q, shelf (fs ++ [q]) = shelf fs ++ [(name q.1, q.2)] := fun q => by
    rw [shelf, List.map_append]
    rfl
  have hnodup := h.nodup
  rw [happend, List.map_append] at hnodup
  have hnotMem : name p.1 ∉ (shelf fs).map Prod.fst := fun hmem =>
    List.disjoint_of_nodup_append hnodup hmem (List.mem_singleton_self _)
  obtain ⟨hsorted, hpair, hlast⟩ := List.pairwise_append.mp h.sorted
  refine ⟨⟨List.pairwise_append.mpr ⟨hsorted, List.pairwise_singleton _ _, ?_⟩, ?_⟩, ?_⟩
  · intro a ha b hb
    rw [List.mem_singleton.mp hb]
    exact hlast a ha p (List.mem_singleton_self p)
  · intro q hq
    rcases List.mem_append.mp hq with hq | hq
    · exact h.short q (List.mem_append_left _ hq)
    · rw [List.mem_singleton.mp hq]
      exact h.short p (List.mem_append_right _ (List.mem_singleton_self p))
  · rw [happend, Disk.modify_append_singleton hnotMem, happend]

/-! ## Loading from a shelf -/

variable {σ ε : Type} {fn : σ → SnapEntry → σ × Option ε}

/-- `LoadNewestValid` comes to the file `p`. -/
theorem tryLoad_shelf (h : Shelved gs) (hp : p ∈ gs) (fs : List (UInt64 × File))
    (err : NewestError ε) (dv : Delivery σ) :
    tryLoad fn (shelf gs) ((fs ++ [p]).reverse.map fileInfo) err dv =
      match load fn p.2.bytes dv with
      | (dv, .ok hdr) => (dv, .ok (hdr, name p.1))
      | (dv, .error err) =>
        tryLoad fn (shelf gs) (fs.reverse.map fileInfo) (.last (name p.1) err) dv := by
  rw [List.reverse_append, List.reverse_singleton, List.singleton_append, List.map_cons, tryLoad]
  rcases hload : load fn p.2.bytes dv with ⟨dv', err' | hdr⟩ <;>
  · simp only [loadPath, fileInfo, h.read hp, hload]

/-- The newest file, when it loads. -/
theorem loadNewestValid_shelf (h : Shelved (fs ++ [p])) {st : σ} {dv : Delivery σ} {hdr : Header}
    (hload : load fn p.2.bytes ⟨st, []⟩ = (dv, .ok hdr)) :
    loadNewestValid fn (shelf (fs ++ [p])) st = (dv, .ok (hdr, name p.1)) := by
  rw [loadNewestValid, list_shelf h, tryLoad_shelf h (by simp), hload]

/-- The newest file, when it fails the checks. -/
theorem loadNewestValid_shelf_skip (h : Shelved (fs ++ [p])) (st : σ) {err : FileError}
    (hbad : verify p.2.bytes = .error err) :
    loadNewestValid fn (shelf (fs ++ [p])) st =
      tryLoad fn (shelf (fs ++ [p])) (fs.reverse.map fileInfo) (.last (name p.1) (.file err))
        ⟨st, []⟩ := by
  rw [loadNewestValid, list_shelf h, tryLoad_shelf h (by simp), load_of_verify_error hbad]

/-- The file before it, when that one loads. -/
theorem loadNewestValid_shelf_older {q : UInt64 × File} (h : Shelved (fs ++ [q] ++ [p])) {st : σ}
    {dv : Delivery σ} {hdr : Header} {err : FileError} (hbad : verify p.2.bytes = .error err)
    (hload : load fn q.2.bytes ⟨st, []⟩ = (dv, .ok hdr)) :
    loadNewestValid fn (shelf (fs ++ [q] ++ [p])) st = (dv, .ok (hdr, name q.1)) := by
  rw [loadNewestValid_shelf_skip h st hbad, tryLoad_shelf h (by simp), hload]

end KvStore.Snapshot
