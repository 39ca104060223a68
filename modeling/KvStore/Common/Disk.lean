import KvStore.Common.Bytes

/-!
# Files, fsync and crashes

A file is its contents together with how many of its leading bytes are known to be on
stable storage. A disk is a directory of named files. A crash cuts every file back to
any length that keeps what was fsynced; what survives is not counted as fsynced by
surviving, so a second crash may cut it back further.

The lemmas are about a directory whose files have different names: an operation on one
of them leaves the others alone.
-/

namespace KvStore.Common

/-- A file: its contents, the first `synced` bytes of which are durable. -/
structure File where
  bytes : Bytes
  synced : ℕ
  deriving DecidableEq, Repr

namespace File

/-- `write` at position `pos`, with zeros where it lies beyond the end. -/
def writeAt (f : File) (pos : ℕ) (data : Bytes) : File where
  bytes := f.bytes.take pos ++ (List.replicate (pos - f.bytes.length) 0 ++
    (data ++ f.bytes.drop (pos + data.length)))
  synced := min f.synced pos

/-- `fsync`. -/
def sync (f : File) : File := { f with synced := f.bytes.length }

/-- `ftruncate` to at most `size` bytes. -/
def truncate (f : File) (size : ℕ) : File := ⟨f.bytes.take size, min f.synced size⟩

/-- What a crash leaves that keeps `size` bytes, or all fsynced ones if these are more. -/
def crash (f : File) (size : ℕ) : File := { f with bytes := f.bytes.take (max f.synced size) }

/-- Writing at the end appends. -/
theorem writeAt_length (f : File) (h : f.synced ≤ f.bytes.length) (data : Bytes) :
    f.writeAt f.bytes.length data = ⟨f.bytes ++ data, f.synced⟩ := by
  simp [writeAt, h]

end File

/-- A directory of files. -/
abbrev Disk (ν : Type) := List (ν × File)

namespace Disk

variable {ν : Type} [DecidableEq ν]

/-- The file called `name`. -/
def read (d : Disk ν) (name : ν) : Option File :=
  (d.find? fun p => p.1 = name).map Prod.snd

/-- Replace the file called `name` by what `g` makes of it. -/
def modify (d : Disk ν) (name : ν) (g : File → File) : Disk ν :=
  d.map fun p => if p.1 = name then (p.1, g p.2) else p

/-- A new empty file. -/
def create (d : Disk ν) (name : ν) : Disk ν := d ++ [(name, ⟨[], 0⟩)]

/-- Unlink `name`. -/
def remove (d : Disk ν) (name : ν) : Disk ν := d.filter fun p => p.1 ≠ name

omit [DecidableEq ν] in
/-- What a crash leaves that keeps `keep name` bytes of each file. -/
def crash (d : Disk ν) (keep : ν → ℕ) : Disk ν := d.map fun p => (p.1, p.2.crash (keep p.1))

variable {d pre : Disk ν} {name : ν} {f : File}

theorem read_of_mem (h : (d.map Prod.fst).Nodup) (hf : (name, f) ∈ d) :
    read d name = some f := by
  induction d with
  | nil => cases hf
  | cons p d ih =>
    obtain ⟨hp, hd⟩ := List.nodup_cons.mp h
    rcases List.mem_cons.mp hf with rfl | hf
    · simp [read]
    · have hne : p.1 ≠ name := fun he => hp (he ▸ List.mem_map_of_mem hf)
      simpa [read, hne] using ih hd hf

theorem read_eq_none (h : name ∉ d.map Prod.fst) : read d name = none := by
  simp only [read, Option.map_eq_none_iff, List.find?_eq_none, decide_eq_true_eq]
  exact fun p hp he => h (he ▸ List.mem_map_of_mem hp)

theorem read_modify (d : Disk ν) (name name' : ν) (g : File → File) :
    read (modify d name g) name' =
      (read d name').map fun f => if name' = name then g f else f := by
  induction d with
  | nil => rfl
  | cons p d ih =>
    by_cases hp : p.1 = name'
    · by_cases hn : p.1 = name
      · simp [read, modify, ← hp, hn]
      · simp [read, modify, hn, ← hp]
    · have hread : ∀ (q : ν × File) (e : Disk ν), q.1 ≠ name' → read (q :: e) name' = read e name' :=
        fun q e hq => by simp [read, hq]
      have hmod : modify (p :: d) name g =
          (if p.1 = name then (p.1, g p.2) else p) :: modify d name g := rfl
      rw [hmod, hread, ih, hread p d hp]
      split_ifs <;> exact hp

theorem modify_of_notMem (h : name ∉ d.map Prod.fst) (g : File → File) : modify d name g = d := by
  refine (List.map_congr_left fun p hp => if_neg ?_).trans (List.map_id _)
  exact fun he => h (he ▸ List.mem_map_of_mem hp)

/-- The last file of a directory is changed in place. -/
theorem modify_append_singleton (h : name ∉ pre.map Prod.fst) (g : File → File) :
    modify (pre ++ [(name, f)]) name g = pre ++ [(name, g f)] := by
  rw [modify, List.map_append, ← modify, modify_of_notMem h]
  simp

theorem read_append_singleton (h : name ∉ pre.map Prod.fst) :
    read (pre ++ [(name, f)]) name = some f := by
  have hpre := read_eq_none h
  rw [read, Option.map_eq_none_iff] at hpre
  simp [read, List.find?_append, hpre]

/-- Unlink several files. -/
theorem foldl_remove {α : Type} (path : α → ν) (l : List α) (d : Disk ν) :
    l.foldl (fun d x => remove d (path x)) d = d.filter fun p => p.1 ∉ l.map path := by
  induction l generalizing d with
  | nil => simp
  | cons x l ih =>
    rw [List.foldl_cons, ih, remove, List.filter_filter]
    congr 1
    funext p
    rw [List.map_cons, Bool.eq_iff_iff]
    simp [and_comm]

end Disk

end KvStore.Common
