import KvStore.Store.Range
import KvStore.Wal.Segment

/-!
# The snapshot file

Model of `internal/snapshot/write.go` and of `Load` in `read.go`. A snapshot is a header,
entries and a footer with their number and a checksum over everything before it. `Load`
checks the footer, the checksum and the header before it hands out the first entry.

* `snapshot_round_trip`: `Load` of what `Create`, `Add` and `Commit` wrote hands out the
  entries that were added, and `Load` of a part of it fails.

A file that is cut off ends in the middle of an entry, or the footer is looked for where an
entry begins. No entry begins like a footer: the magic would be the length of a value
that `Add` refuses.
-/

namespace KvStore.Snapshot

open KvStore.Common

/-! ## The format -/

/-- The sizes, the limits and the magics (write.go lines 41–58), "KVSNAP01" and "KVSNAPFT". -/
def headerLen : ℕ := 32

def footerLen : ℕ := 20

def formatVersion : UInt32 := 1

def entryHeaderLen : ℕ := 14

def maxKeyLen : ℕ := 2 ^ 16 - 1

def maxValLen : ℕ := 16 * 2 ^ 20

def headerMagic : Bytes := [75, 86, 83, 78, 65, 80, 48, 49]

def footerMagic : Bytes := [75, 86, 83, 78, 65, 80, 70, 84]

/-- `snapshotExt` (line 51), ".snap". -/
def snapshotExt : Bytes := [46, 115, 110, 97, 112]

/-- `Name` (lines 70–72). -/
def name (lastIncludedLSN : UInt64) : Bytes :=
  decimal (max 16 (Nat.toDigits 10 lastIncludedLSN.toNat).length) lastIncludedLSN.toNat ++
    snapshotExt

/-! ## Writing -/

/-- `Writer` (lines 75–86), with what is in the temporary file. -/
structure Writer where
  file : Bytes
  crc : UInt32
  count : UInt64
  lsn : UInt64
  closed : Bool
  deriving DecidableEq, Repr

/-- The errors of `Add` and `Commit`. -/
inductive WriteError
  | keyTooLong (len : ℕ)
  | valueTooLong (len : ℕ)
  | alreadyClosed
  deriving DecidableEq, Repr

/-- `write` (lines 119–130). -/
def Writer.write (w : Writer) (b : Bytes) : Writer :=
  { w with file := w.file ++ b, crc := crcUpdate w.crc b }

/-- The header that `Create` writes (lines 107–111). -/
def headerBytes (lastIncludedLSN createdAtMs : UInt64) : Bytes :=
  headerMagic ++ (putLE 4 formatVersion.toNat ++ (putLE 8 createdAtMs.toNat ++
    (putLE 8 lastIncludedLSN.toNat ++ putLE 4 0)))

/-- `Create` (lines 93–117). -/
def create (lastIncludedLSN createdAtMs : UInt64) : Writer :=
  Writer.write ⟨[], 0, 0, lastIncludedLSN, false⟩ (headerBytes lastIncludedLSN createdAtMs)

/-- What `Add` writes for an entry (lines 140–147). -/
def entryBytes (e : SnapEntry) : Bytes :=
  putLE 2 e.key.length ++ (putLE 4 e.value.length ++ (putLE 8 e.expireAtMs.toNat ++
    (e.key ++ e.value)))

/-- `Add` (lines 133–153). -/
def Writer.add (w : Writer) (e : SnapEntry) : Except WriteError Writer :=
  if e.key.length > maxKeyLen then .error (.keyTooLong e.key.length)
  else if e.value.length > maxValLen then .error (.valueTooLong e.value.length)
  else .ok { w.write (entryBytes e) with count := w.count + 1 }

/-- The footer up to the checksum (lines 163–165). -/
def footerHead (count : UInt64) : Bytes := footerMagic ++ putLE 8 count.toNat

/-- `Commit` (lines 157–198): the name of the file and what is in it. -/
def Writer.commit (w : Writer) : Except WriteError (Bytes × Bytes) :=
  if w.closed then .error .alreadyClosed
  else
    let head := footerHead w.count
    .ok (name w.lsn, w.file ++ (head ++ putLE 4 (crcUpdate w.crc head).toNat))

/-- `Create`, an `Add` for each entry, and `Commit`. -/
def writeSnapshot (lastIncludedLSN createdAtMs : UInt64) (es : List SnapEntry) :
    Except WriteError (Bytes × Bytes) :=
  match es.foldlM Writer.add (create lastIncludedLSN createdAtMs) with
  | .error err => .error err
  | .ok w => w.commit

/-! ## Loading -/

/-- `Header` (read.go lines 66–71). -/
structure Header where
  version : UInt32
  createdAtMs : UInt64
  lastIncludedLSN : UInt64
  entryCount : UInt64
  deriving DecidableEq, Repr

/-- What `Load` finds wrong with a file. Three of these wrap `ErrIncomplete`: a file that is too
    short, too few bytes for another entry, and an entry that overruns the body. -/
inductive FileError
  | unreadable
  | incomplete (size : ℕ)
  | badFooter
  | badCRC (computed stored : UInt32)
  | badMagic
  | badVersion (version : UInt32)
  | trailing (len : ℕ)
  | implausibleLength (keyLen valLen : ℕ)
  | overrun
  | entryCount (stored seen : UInt64)
  deriving DecidableEq, Repr

/-- The errors of `Load`. -/
inductive LoadError (ε : Type)
  | file (err : FileError)
  | callback (err : ε)
  deriving DecidableEq, Repr

/-- The state of the callback, and the entries that were passed to it. -/
structure Delivery (σ : Type) where
  state : σ
  passed : List SnapEntry
  deriving DecidableEq, Repr

/-- The loop of `crcRange` (lines 199–210) over what is left of the file. -/
def crcLoop : ℕ → Bytes → ℕ → UInt32 → UInt32
  | 0, _, _, crc => crc
  | fuel + 1, f, remaining, crc =>
    if remaining = 0 then crc
    else
      let toRead := min remaining (2 ^ 20)
      crcLoop fuel (f.drop toRead) (remaining - toRead) (crcUpdate crc (f.take toRead))

/-- `crcRange` (lines 195–213). -/
def crcRange (f : Bytes) (n : ℕ) : UInt32 := crcLoop n f n 0

variable {σ ε : Type}

/-- What `Load` does before the first entry (lines 95–142). -/
def verify (file : Bytes) : Except FileError Header :=
  let size := file.length
  if size < headerLen + footerLen then .error (.incomplete size)
  else
    let footer := file.drop (size - footerLen)
    if footer.take 8 ≠ footerMagic then .error .badFooter
    else
      let wantCRC := UInt32.ofNat (field footer 16 4)
      let crc := crcRange file (size - 4)
      if crc ≠ wantCRC then .error (.badCRC crc wantCRC)
      else
        let head := file.take headerLen
        if head.take 8 ≠ headerMagic then .error .badMagic
        else
          let version := UInt32.ofNat (field head 8 4)
          if version ≠ formatVersion then .error (.badVersion version)
          else .ok {
            version
            createdAtMs := UInt64.ofNat (field head 12 8)
            lastIncludedLSN := UInt64.ofNat (field head 20 8)
            entryCount := UInt64.ofNat (field footer 8 8) }

/-- The entry at the front of the rest of the body (lines 151–182). -/
def readEntry (rest : Bytes) : Except FileError (SnapEntry × Bytes) :=
  if rest.length < entryHeaderLen then .error (.trailing rest.length)
  else
    let keyLen := field rest 0 2
    let valLen := field rest 2 4
    if valLen > maxValLen ∨ keyLen > maxKeyLen then .error (.implausibleLength keyLen valLen)
    else if entryHeaderLen + (keyLen + valLen) > rest.length then .error .overrun
    else
      let buf := (rest.drop entryHeaderLen).take (keyLen + valLen)
      .ok (⟨buf.take keyLen, buf.drop keyLen, UInt64.ofNat (field rest 6 8)⟩,
        rest.drop (entryHeaderLen + (keyLen + valLen)))

/-- The loop over the entries (lines 150–187), with the number of entries seen. An iteration
    takes at least `entryHeaderLen` bytes off the body. -/
def loadEntries (fn : σ → SnapEntry → σ × Option ε) :
    ℕ → Bytes → UInt64 → Delivery σ → Delivery σ × Except (LoadError ε) UInt64
  | 0, _, seen, dv => (dv, .ok seen)
  | fuel + 1, rest, seen, dv =>
    if rest = [] then (dv, .ok seen)
    else
      match readEntry rest with
      | .error err => (dv, .error (.file err))
      | .ok (e, rest) =>
        match fn dv.state e with
        | (state, some err) => (⟨state, dv.passed ++ [e]⟩, .error (.callback err))
        | (state, none) => loadEntries fn fuel rest (seen + 1) ⟨state, dv.passed ++ [e]⟩

/-- The bytes between header and footer. -/
def body (file : Bytes) : Bytes := (file.take (file.length - footerLen)).drop headerLen

/-- `Load` (lines 82–193). -/
def load (fn : σ → SnapEntry → σ × Option ε) (file : Bytes) (dv : Delivery σ) :
    Delivery σ × Except (LoadError ε) Header :=
  match verify file with
  | .error err => (dv, .error (.file err))
  | .ok hdr =>
    match loadEntries fn (body file).length (body file) 0 dv with
    | (dv, .error err) => (dv, .error err)
    | (dv, .ok seen) =>
      if seen ≠ hdr.entryCount then (dv, .error (.file (.entryCount hdr.entryCount seen)))
      else (dv, .ok hdr)

/-! ## What the writer leaves -/

/-- The entries that `Add` takes. -/
def Fits (e : SnapEntry) : Prop := e.key.length ≤ maxKeyLen ∧ e.value.length ≤ maxValLen

/-- The entries one after another. -/
def entriesBytes (es : List SnapEntry) : Bytes := es.flatMap entryBytes

theorem entriesBytes_cons (e : SnapEntry) (es : List SnapEntry) :
    entriesBytes (e :: es) = entryBytes e ++ entriesBytes es := rfl

/-- Everything that the checksum covers. -/
def covered (lastIncludedLSN createdAtMs : UInt64) (es : List SnapEntry) : Bytes :=
  headerBytes lastIncludedLSN createdAtMs ++
    (entriesBytes es ++ footerHead (UInt64.ofNat es.length))

/-- The committed file. -/
def fileBytes (lastIncludedLSN createdAtMs : UInt64) (es : List SnapEntry) : Bytes :=
  covered lastIncludedLSN createdAtMs es ++
    putLE 4 (crcUpdate 0 (covered lastIncludedLSN createdAtMs es)).toNat

theorem add_of_fits {e : SnapEntry} (h : Fits e) (w : Writer) :
    w.add e = .ok { w.write (entryBytes e) with count := w.count + 1 } := by
  rw [Writer.add, if_neg (not_lt.mpr h.1), if_neg (not_lt.mpr h.2)]

theorem fits_of_add {e : SnapEntry} {w w' : Writer} (h : w.add e = .ok w') : Fits e := by
  unfold Writer.add at h
  split_ifs at h with hkey hvalue
  exact ⟨not_lt.mp hkey, not_lt.mp hvalue⟩

theorem foldlM_add {es : List SnapEntry} (h : ∀ e ∈ es, Fits e) (w : Writer) :
    es.foldlM Writer.add w = .ok { w.write (entriesBytes es) with
      count := w.count + UInt64.ofNat es.length } := by
  induction es generalizing w with
  | nil => simp [Writer.write, entriesBytes, crcUpdate, pure, Except.pure]
  | cons e es ih =>
    rw [List.foldlM_cons, add_of_fits (h e List.mem_cons_self)]
    show es.foldlM Writer.add _ = _
    rw [ih fun e he => h e (List.mem_cons_of_mem _ he)]
    simp only [Writer.write, entriesBytes_cons, crcUpdate_append, List.append_assoc,
      List.length_cons, UInt64.ofNat_add, UInt64.add_assoc]
    rw [UInt64.add_comm 1]
    rfl

theorem fits_of_foldlM_add {es : List SnapEntry} {w w' : Writer}
    (h : es.foldlM Writer.add w = .ok w') : ∀ e ∈ es, Fits e := by
  induction es generalizing w with
  | nil => simp
  | cons e es ih =>
    rw [List.foldlM_cons] at h
    cases hadd : w.add e with
    | error err => rw [hadd] at h; cases h
    | ok w₁ =>
      rw [hadd] at h
      exact List.forall_mem_cons.mpr ⟨fits_of_add hadd, ih h⟩

section Written

variable {lsn createdAtMs : UInt64} {es : List SnapEntry}

theorem writeSnapshot_eq (h : ∀ e ∈ es, Fits e) :
    writeSnapshot lsn createdAtMs es = .ok (name lsn, fileBytes lsn createdAtMs es) := by
  rw [writeSnapshot, foldlM_add h]
  simp only [Writer.commit, create, Writer.write, fileBytes, covered, crcUpdate_append,
    List.append_assoc, List.nil_append, UInt64.zero_add]
  rfl

theorem fits_of_writeSnapshot {p : Bytes × Bytes}
    (h : writeSnapshot lsn createdAtMs es = .ok p) : ∀ e ∈ es, Fits e := by
  unfold writeSnapshot at h
  cases hadd : es.foldlM Writer.add (create lsn createdAtMs) with
  | error err => rw [hadd] at h; cases h
  | ok w => exact fits_of_foldlM_add hadd

end Written

/-! ## Sizes -/

@[simp] theorem length_headerBytes (lsn createdAtMs : UInt64) :
    (headerBytes lsn createdAtMs).length = headerLen := by
  simp [headerBytes, headerMagic, headerLen]

@[simp] theorem length_footerHead (count : UInt64) : (footerHead count).length = 16 := by
  simp [footerHead, footerMagic]

@[simp] theorem length_entryBytes (e : SnapEntry) :
    (entryBytes e).length = entryHeaderLen + (e.key.length + e.value.length) := by
  simp only [entryBytes, List.length_append, length_putLE, entryHeaderLen]
  omega

theorem length_covered (lsn createdAtMs : UInt64) (es : List SnapEntry) :
    (covered lsn createdAtMs es).length = headerLen + (entriesBytes es).length + 16 := by
  rw [covered, List.length_append, List.length_append, length_headerBytes, length_footerHead]
  omega

theorem length_fileBytes (lsn createdAtMs : UInt64) (es : List SnapEntry) :
    (fileBytes lsn createdAtMs es).length =
      headerLen + (entriesBytes es).length + footerLen := by
  rw [fileBytes, List.length_append, length_covered, length_putLE, footerLen]

theorem length_le_length_entriesBytes (es : List SnapEntry) :
    es.length ≤ (entriesBytes es).length := by
  induction es with
  | nil => exact le_rfl
  | cons e es ih =>
    rw [entriesBytes_cons, List.length_append, length_entryBytes, List.length_cons, entryHeaderLen]
    omega

/-! ## The checks before the first entry -/

theorem crcLoop_eq {fuel n : ℕ} (h : n ≤ fuel) (f : Bytes) (crc : UInt32) :
    crcLoop fuel f n crc = crcUpdate crc (f.take n) := by
  induction fuel generalizing f n crc with
  | zero =>
    obtain rfl : n = 0 := Nat.le_zero.mp h
    simp [crcLoop, crcUpdate]
  | succ fuel ih =>
    unfold crcLoop
    by_cases hn : n = 0
    · simp [hn, crcUpdate]
    · have hle : min n (2 ^ 20) ≤ n := Nat.min_le_left _ _
      have hpos : 0 < min n (2 ^ 20) := by omega
      rw [if_neg hn]
      dsimp only
      rw [ih (by omega), ← crcUpdate_append, ← List.take_add, Nat.add_sub_cancel' hle]

theorem crcRange_eq (f : Bytes) (n : ℕ) : crcRange f n = crcUpdate 0 (f.take n) :=
  crcLoop_eq le_rfl f 0

/-- The footer of a committed file, where `Load` looks for it. -/
theorem drop_fileBytes (lsn createdAtMs : UInt64) (es : List SnapEntry) :
    (fileBytes lsn createdAtMs es).drop ((fileBytes lsn createdAtMs es).length - footerLen) =
      footerHead (UInt64.ofNat es.length) ++
        putLE 4 (crcUpdate 0 (covered lsn createdAtMs es)).toNat := by
  rw [length_fileBytes, Nat.add_sub_cancel, fileBytes, covered, ← List.append_assoc,
    List.append_assoc]
  exact List.drop_left' (by rw [List.length_append, length_headerBytes])

theorem field_footerHead (count : UInt64) (rest : Bytes) :
    field (footerHead count ++ rest) 8 8 = count.toNat := by
  rw [footerHead, List.append_assoc, field_add (a := 8) (o := 0) _ rfl]
  exact field_zero_putLE rest count.toNat_lt

section Header

variable (lsn createdAtMs : UInt64)

theorem take_headerBytes : (headerBytes lsn createdAtMs).take 8 = headerMagic :=
  List.take_left' rfl

theorem field_headerBytes_version :
    field (headerBytes lsn createdAtMs) 8 4 = formatVersion.toNat := by
  rw [headerBytes, field_add (a := 8) (o := 0) _ rfl]
  exact field_zero_putLE _ (by decide)

theorem field_headerBytes_createdAtMs :
    field (headerBytes lsn createdAtMs) 12 8 = createdAtMs.toNat := by
  rw [headerBytes, field_add (a := 8) (o := 4) _ rfl,
    field_add (a := 4) (o := 0) _ (length_putLE _ _)]
  exact field_zero_putLE _ createdAtMs.toNat_lt

theorem field_headerBytes_lsn : field (headerBytes lsn createdAtMs) 20 8 = lsn.toNat := by
  rw [headerBytes, field_add (a := 8) (o := 12) _ rfl,
    field_add (a := 4) (o := 8) _ (length_putLE _ _), field_add (a := 8) (o := 0) _ (length_putLE _ _)]
  exact field_zero_putLE _ lsn.toNat_lt

end Header

theorem verify_fileBytes (lsn createdAtMs : UInt64) (es : List SnapEntry) :
    verify (fileBytes lsn createdAtMs es) =
      .ok ⟨formatVersion, createdAtMs, lsn, UInt64.ofNat es.length⟩ := by
  have hlen := length_fileBytes lsn createdAtMs es
  have hcovered := length_covered lsn createdAtMs es
  have hfooter := drop_fileBytes lsn createdAtMs es
  have hcrc : (fileBytes lsn createdAtMs es).take ((fileBytes lsn createdAtMs es).length - 4) =
      covered lsn createdAtMs es := by
    rw [fileBytes]
    exact List.take_left' (by simp)
  have hhead : (fileBytes lsn createdAtMs es).take headerLen = headerBytes lsn createdAtMs := by
    rw [fileBytes, covered, List.append_assoc]
    exact List.take_left' (length_headerBytes lsn createdAtMs)
  have hcount := field_footerHead (UInt64.ofNat es.length)
    (putLE 4 (crcUpdate 0 (covered lsn createdAtMs es)).toNat)
  have hwant : field (footerHead (UInt64.ofNat es.length) ++
      putLE 4 (crcUpdate 0 (covered lsn createdAtMs es)).toNat) 16 4 =
      (crcUpdate 0 (covered lsn createdAtMs es)).toNat := by
    rw [field_add (a := 16) (o := 0) _ (length_footerHead _), ← List.append_nil (putLE 4 _)]
    exact field_zero_putLE [] (UInt32.toNat_lt _)
  have hmagic : ∀ rest, (footerHead (UInt64.ofNat es.length) ++ rest).take 8 = footerMagic := by
    intro rest
    rw [footerHead, List.append_assoc]
    exact List.take_left' rfl
  unfold verify
  dsimp only
  rw [if_neg (by omega), hfooter, hmagic, if_neg (not_not.mpr rfl), hwant, UInt32.ofNat_toNat,
    crcRange_eq, hcrc, if_neg (not_not.mpr rfl), hhead, take_headerBytes,
    if_neg (not_not.mpr rfl), field_headerBytes_version, UInt32.ofNat_toNat,
    if_neg (not_not.mpr rfl), field_headerBytes_createdAtMs, field_headerBytes_lsn, hcount]
  simp only [UInt64.ofNat_toNat]

theorem body_fileBytes (lsn createdAtMs : UInt64) (es : List SnapEntry) :
    body (fileBytes lsn createdAtMs es) = entriesBytes es := by
  have hcut : (fileBytes lsn createdAtMs es).take
      ((fileBytes lsn createdAtMs es).length - footerLen) =
      headerBytes lsn createdAtMs ++ entriesBytes es := by
    rw [length_fileBytes, Nat.add_sub_cancel, fileBytes, covered, ← List.append_assoc,
      List.append_assoc]
    exact List.take_left' (by rw [List.length_append, length_headerBytes])
  rw [body, hcut]
  exact List.drop_left' (length_headerBytes lsn createdAtMs)

/-! ## One entry -/

section Entry

variable {e : SnapEntry}

theorem field_entryBytes_key (h : Fits e) (rest : Bytes) :
    field (entryBytes e ++ rest) 0 2 = e.key.length := by
  rw [entryBytes, List.append_assoc]
  exact field_zero_putLE _ (Nat.lt_of_le_of_lt h.1 (by decide))

theorem field_entryBytes_value (h : Fits e) (rest : Bytes) :
    field (entryBytes e ++ rest) 2 4 = e.value.length := by
  rw [entryBytes, List.append_assoc, field_add (a := 2) (o := 0) _ (length_putLE _ _),
    List.append_assoc]
  exact field_zero_putLE _ (Nat.lt_of_le_of_lt h.2 (by decide))

theorem field_entryBytes_expireAtMs (e : SnapEntry) (rest : Bytes) :
    field (entryBytes e ++ rest) 6 8 = e.expireAtMs.toNat := by
  rw [entryBytes, List.append_assoc, field_add (a := 2) (o := 4) _ (length_putLE _ _),
    List.append_assoc, field_add (a := 4) (o := 0) _ (length_putLE _ _), List.append_assoc]
  exact field_zero_putLE _ e.expireAtMs.toNat_lt

/-- `Load` reads back an entry that is there as a whole. -/
theorem readEntry_entryBytes (h : Fits e) (rest : Bytes) :
    readEntry (entryBytes e ++ rest) = .ok (e, rest) := by
  have hlen : (entryBytes e ++ rest).length =
      entryHeaderLen + (e.key.length + e.value.length) + rest.length := by
    rw [List.length_append, length_entryBytes]
  have hbuf : ((entryBytes e ++ rest).drop entryHeaderLen).take
      (e.key.length + e.value.length) = e.key ++ e.value := by
    have hsplit : entryBytes e ++ rest = (putLE 2 e.key.length ++ (putLE 4 e.value.length ++
        putLE 8 e.expireAtMs.toNat)) ++ (e.key ++ e.value ++ rest) := by
      simp only [entryBytes, List.append_assoc]
    rw [hsplit, List.drop_left' (by simp [entryHeaderLen])]
    exact List.take_left' List.length_append
  unfold readEntry
  dsimp only
  rw [field_entryBytes_key h, field_entryBytes_value h, field_entryBytes_expireAtMs, hbuf,
    if_neg (by omega), if_neg (not_or.mpr ⟨not_lt.mpr h.2, not_lt.mpr h.1⟩), if_neg (by omega),
    List.take_left' rfl, List.drop_left' rfl, UInt64.ofNat_toNat,
    List.drop_left' (length_entryBytes e)]

/-- What is read as an entry is what is written for it. -/
theorem entryBytes_of_readEntry {rest rest' : Bytes} (h : readEntry rest = .ok (e, rest')) :
    Fits e ∧ rest = entryBytes e ++ rest' := by
  unfold readEntry at h
  dsimp only at h
  split_ifs at h with hhdr hbig hover
  cases h
  rw [not_or, not_lt, not_lt] at hbig
  have hkey : field rest 0 2 + field rest 2 4 ≤ (rest.drop entryHeaderLen).length := by
    rw [List.length_drop]
    omega
  have hklen : (((rest.drop entryHeaderLen).take (field rest 0 2 + field rest 2 4)).take
      (field rest 0 2)).length = field rest 0 2 := by
    rw [List.length_take_of_le]
    rw [List.length_take_of_le hkey]
    omega
  have hvlen : (((rest.drop entryHeaderLen).take (field rest 0 2 + field rest 2 4)).drop
      (field rest 0 2)).length = field rest 2 4 := by
    rw [List.length_drop, List.length_take_of_le hkey]
    omega
  rw [entryHeaderLen, not_lt] at hhdr
  refine ⟨⟨hklen.trans_le hbig.2, hvlen.trans_le hbig.1⟩, ?_⟩
  rw [entryBytes, hklen, hvlen, UInt64.toNat_ofNat_of_lt' (field_lt rest 6 8),
    List.take_append_drop]
  simp only [List.append_assoc]
  rw [← List.drop_drop, List.take_append_drop, entryHeaderLen,
    putLE_field_append 6 (show 6 + 8 ≤ rest.length by omega),
    putLE_field_append 2 (show 2 + 4 ≤ rest.length by omega),
    putLE_field_append 0 (show 0 + 2 ≤ rest.length by omega), List.drop_zero]

/-- An entry that is cut off is not read. -/
theorem readEntry_take (h : Fits e) {m : ℕ} (hm : m < (entryBytes e).length) :
    ∃ err, readEntry ((entryBytes e).take m) = .error err := by
  have hlen : ((entryBytes e).take m).length = m := List.length_take_of_le hm.le
  unfold readEntry
  by_cases hhdr : m < entryHeaderLen
  · rw [if_pos (by omega)]
    exact ⟨_, rfl⟩
  · -- the lengths are there, and say that more is needed
    have hkey := field_entryBytes_key h []
    have hvalue := field_entryBytes_value h []
    rw [List.append_nil] at hkey hvalue
    rw [length_entryBytes] at hm
    unfold entryHeaderLen at hhdr
    dsimp only
    rw [field_take _ (by omega), field_take _ (by omega), hkey, hvalue, hlen,
      if_neg (by unfold entryHeaderLen; omega),
      if_neg (not_or.mpr ⟨not_lt.mpr h.2, not_lt.mpr h.1⟩), if_pos hm]
    exact ⟨_, rfl⟩

end Entry

/-! ## All entries -/

section Entries

variable {fn : σ → SnapEntry → σ × Option ε} {fuel : ℕ} {rest : Bytes} {seen : UInt64}
  {dv : Delivery σ} {e : SnapEntry} {es : List SnapEntry}

/-- `fn` takes all of the entries, one after another from the state `s`. -/
def Accepts (fn : σ → SnapEntry → σ × Option ε) : σ → List SnapEntry → Prop
  | _, [] => True
  | s, e :: es => (fn s e).2 = none ∧ Accepts fn (fn s e).1 es

/-- The callback after entries that it takes. -/
def Delivery.after (fn : σ → SnapEntry → σ × Option ε) (dv : Delivery σ) (es : List SnapEntry) :
    Delivery σ :=
  ⟨es.foldl (fun s e => (fn s e).1) dv.state, dv.passed ++ es⟩

theorem entryBytes_append_ne_nil (e : SnapEntry) (rest : Bytes) : entryBytes e ++ rest ≠ [] := by
  intro hnil
  have hlen := congrArg List.length hnil
  rw [List.length_append, length_entryBytes, entryHeaderLen, List.length_nil] at hlen
  omega

/-- An iteration whose entry is read. -/
theorem loadEntries_entry (hfits : Fits e) (fuel : ℕ) (rest : Bytes) (seen : UInt64)
    (dv : Delivery σ) :
    loadEntries fn (fuel + 1) (entryBytes e ++ rest) seen dv =
      match fn dv.state e with
      | (state, some err) => (⟨state, dv.passed ++ [e]⟩, .error (.callback err))
      | (state, none) => loadEntries fn fuel rest (seen + 1) ⟨state, dv.passed ++ [e]⟩ := by
  rw [loadEntries, if_neg (entryBytes_append_ne_nil e rest), readEntry_entryBytes hfits]

/-- `Load` hands out the entries that were written, if `fn` takes them. -/
theorem loadEntries_entriesBytes (hfits : ∀ e ∈ es, Fits e) (hfn : Accepts fn dv.state es)
    {fuel : ℕ} (hfuel : es.length ≤ fuel) (seen : UInt64) :
    loadEntries fn fuel (entriesBytes es) seen dv =
      (dv.after fn es, .ok (seen + UInt64.ofNat es.length)) := by
  induction es generalizing fuel seen dv with
  | nil =>
    have hafter : dv.after fn [] = dv := by
      rw [Delivery.after, List.append_nil]
      rfl
    rw [hafter]
    cases fuel <;> simp [loadEntries, entriesBytes]
  | cons e es ih =>
    obtain ⟨hfirst, hrest⟩ := List.forall_mem_cons.mp hfits
    obtain ⟨hnone, hlater⟩ := hfn
    obtain ⟨fuel, rfl⟩ : ∃ k, fuel = k + 1 := ⟨fuel - 1, by rw [List.length_cons] at hfuel; omega⟩
    rw [entriesBytes_cons, loadEntries_entry hfirst]
    generalize hr : fn dv.state e = r at hnone hlater ⊢
    obtain ⟨state, err⟩ := r
    cases hnone
    dsimp only
    rw [ih hrest hlater (Nat.le_of_succ_le_succ hfuel)]
    simp only [Delivery.after, List.foldl_cons, hr, List.append_assoc, List.singleton_append,
      List.length_cons, UInt64.ofNat_add, UInt64.add_assoc]
    rw [UInt64.add_comm 1]
    rfl

variable (fn) in
/-- Entries that are cut off are not loaded, unless the cut is right before one of them. -/
theorem loadEntries_take (hfits : ∀ e ∈ es, Fits e) {m : ℕ} (hm : m < (entriesBytes es).length)
    {fuel : ℕ} (hfuel : m ≤ fuel) (seen : UInt64) (dv : Delivery σ) :
    (∃ err, (loadEntries fn fuel ((entriesBytes es).take m) seen dv).2 = .error err) ∨
      ∃ done e later, es = done ++ e :: later ∧ (entriesBytes done).length = m := by
  induction es generalizing m fuel seen dv with
  | nil => exact absurd hm (Nat.not_lt_zero m)
  | cons e es ih =>
    obtain ⟨hfirst, hrest⟩ := List.forall_mem_cons.mp hfits
    rw [entriesBytes_cons, List.length_append] at hm
    by_cases hzero : m = 0
    · exact .inr ⟨[], e, es, rfl, hzero.symm⟩
    obtain ⟨fuel, rfl⟩ : ∃ k, fuel = k + 1 := ⟨fuel - 1, by omega⟩
    by_cases hcut : m < (entryBytes e).length
    · -- the cut is in the first entry
      obtain ⟨err, herr⟩ := readEntry_take hfirst hcut
      have hne : (entryBytes e).take m ≠ [] := by
        intro hnil
        have hlen := congrArg List.length hnil
        rw [List.length_take_of_le hcut.le] at hlen
        exact hzero hlen
      rw [entriesBytes_cons, List.take_append_of_le_length hcut.le, loadEntries, if_neg hne, herr]
      exact .inl ⟨.file err, rfl⟩
    · rw [entriesBytes_cons, List.take_append, List.take_of_length_le (not_lt.mp hcut),
        loadEntries_entry hfirst]
      rcases fn dv.state e with ⟨state, _ | err⟩
      · have hsize := length_entryBytes e
        rw [entryHeaderLen] at hsize
        refine (ih hrest (by omega) (by omega) (seen + 1) ⟨state, dv.passed ++ [e]⟩).imp id ?_
        rintro ⟨done, e', later, rfl, hlen⟩
        refine ⟨e :: done, e', later, rfl, ?_⟩
        rw [entriesBytes_cons, List.length_append]
        omega
      · exact .inl ⟨_, rfl⟩

end Entries

/-! ## The whole file -/

/-- No entry begins like a footer. -/
theorem take_entryBytes_ne {e : SnapEntry} (h : Fits e) (rest : Bytes) :
    (entryBytes e ++ rest).take 8 ≠ footerMagic := by
  intro hmagic
  have hvalue := field_entryBytes_value h rest
  rw [← field_take _ (show 2 + 4 ≤ 8 by decide), hmagic] at hvalue
  have hlimit : e.value.length ≤ maxValLen := h.2
  rw [← hvalue] at hlimit
  exact absurd hlimit (by decide)

/-- A file that passes the checks ends in a footer. -/
theorem footer_of_verify {file : Bytes} {hdr : Header}
    (h : verify file = .ok hdr) :
    (file.drop (file.length - footerLen)).take 8 = footerMagic := by
  unfold verify at h
  dsimp only at h
  by_contra hmagic
  rw [if_pos hmagic] at h
  split_ifs at h

theorem le_length_of_verify {file : Bytes} {hdr : Header}
    (h : verify file = .ok hdr) :
    headerLen + footerLen ≤ file.length := by
  unfold verify at h
  by_contra hsize
  rw [if_pos (not_le.mp hsize)] at h
  cases h

section File

variable {lsn createdAtMs : UInt64} {es : List SnapEntry}

/-- `es` are the entries of a file with the header `hdr`: they fill its body, and there are as
    many of them as the footer says. -/
structure Contains (file : Bytes) (hdr : Header) (es : List SnapEntry) : Prop where
  fits : ∀ e ∈ es, Fits e
  body : body file = entriesBytes es
  count : hdr.entryCount = UInt64.ofNat es.length

/-- A file that is what it should be is loaded, if `fn` takes its entries. -/
theorem Contains.load {file : Bytes} {hdr : Header} (h : Contains file hdr es)
    {fn : σ → SnapEntry → σ × Option ε} {dv : Delivery σ} (hverify : verify file = .ok hdr)
    (hfn : Accepts fn dv.state es) : load fn file dv = (dv.after fn es, .ok hdr) := by
  have hfuel : es.length ≤ (Snapshot.body file).length := by
    rw [h.body]
    exact length_le_length_entriesBytes es
  rw [Snapshot.load, hverify]
  dsimp only
  rw [h.body] at hfuel ⊢
  rw [loadEntries_entriesBytes h.fits hfn hfuel, UInt64.zero_add, ← h.count]
  exact if_neg (not_not.mpr rfl)

/-- The entries of a file are determined by its bytes. -/
theorem Contains.unique {file : Bytes} {hdr : Header} {es' : List SnapEntry}
    (h : Contains file hdr es) (h' : Contains file hdr es') (hverify : verify file = .ok hdr) :
    es = es' := by
  let fn : Unit → SnapEntry → Unit × Option Unit := fun _ _ => ((), none)
  have haccepts : ∀ es, Accepts fn () es := by
    intro es
    induction es with
    | nil => trivial
    | cons e es ih => exact ⟨rfl, ih⟩
  have hload : Snapshot.load fn file ⟨(), []⟩ = _ := h.load hverify (haccepts es)
  exact congrArg (fun p => p.1.passed) (hload.symm.trans (h'.load hverify (haccepts es')))

theorem contains_fileBytes (hfits : ∀ e ∈ es, Fits e) (lsn createdAtMs : UInt64) :
    Contains (fileBytes lsn createdAtMs es)
      ⟨formatVersion, createdAtMs, lsn, UInt64.ofNat es.length⟩ es :=
  ⟨hfits, body_fileBytes lsn createdAtMs es, rfl⟩

/-- The file behind its header. -/
theorem fileBytes_eq (lsn createdAtMs : UInt64) (es : List SnapEntry) :
    ∃ footer, fileBytes lsn createdAtMs es =
      headerBytes lsn createdAtMs ++ (entriesBytes es ++ footer) :=
  ⟨_, by rw [fileBytes, covered, List.append_assoc, List.append_assoc]⟩

theorem load_take (hfits : ∀ e ∈ es, Fits e) {n : ℕ}
    (hn : n < (fileBytes lsn createdAtMs es).length) (fn : σ → SnapEntry → σ × Option ε)
    (dv : Delivery σ) :
    ∃ err, (load fn ((fileBytes lsn createdAtMs es).take n) dv).2 = .error err := by
  have hlen : ((fileBytes lsn createdAtMs es).take n).length = n := List.length_take_of_le hn.le
  obtain ⟨footer, hfile⟩ := fileBytes_eq lsn createdAtMs es
  rw [length_fileBytes] at hn
  unfold load
  cases hverify : verify ((fileBytes lsn createdAtMs es).take n) with
  | error err => exact ⟨.file err, rfl⟩
  | ok hdr =>
    have hmagic := footer_of_verify hverify
    have hsize := le_length_of_verify hverify
    rw [hlen] at hmagic hsize
    have hbody : body ((fileBytes lsn createdAtMs es).take n) =
        (entriesBytes es).take (n - (headerLen + footerLen)) := by
      rw [body, hlen, List.take_take, Nat.min_eq_left (Nat.sub_le _ _), hfile, List.drop_take,
        List.drop_left' (length_headerBytes _ _), List.take_append_of_le_length (by omega),
        Nat.sub_sub, Nat.add_comm]
    have hm : n - (headerLen + footerLen) < (entriesBytes es).length := by omega
    dsimp only
    rw [hbody, List.length_take_of_le hm.le]
    rcases loadEntries_take fn hfits hm le_rfl 0 dv with ⟨err, herr⟩ | ⟨done, e, later, rfl, hdone⟩
    · generalize loadEntries fn _ _ 0 dv = r at herr ⊢
      obtain ⟨dv', res⟩ := r
      cases herr
      exact ⟨err, rfl⟩
    · -- the footer is looked for where `e` begins
      exfalso
      apply take_entryBytes_ne (hfits e (by simp)) (entriesBytes later ++ footer)
      have hfooter : 8 ≤ n - (n - footerLen) := by
        have h20 : footerLen = 20 := rfl
        omega
      rw [← hmagic, List.drop_take, List.take_take, Nat.min_eq_left hfooter, hfile]
      have hsplit : headerBytes lsn createdAtMs ++ (entriesBytes (done ++ e :: later) ++ footer) =
          (headerBytes lsn createdAtMs ++ entriesBytes done) ++
            (entryBytes e ++ (entriesBytes later ++ footer)) := by
        simp [entriesBytes]
      rw [hsplit, List.drop_left' (by rw [List.length_append, length_headerBytes]; omega)]

/-- Writing takes the entries whose key and value are not too long. `Load` of the committed file
    passes them to a callback that takes them, in their order, and returns the LSN and their
    number; `Load` of a part of the file fails, whatever the callback does. -/
theorem snapshot_round_trip (lsn createdAtMs : UInt64) (es : List SnapEntry) :
    ((∃ p, writeSnapshot lsn createdAtMs es = .ok p) ↔
      ∀ e ∈ es, e.key.length ≤ 65535 ∧ e.value.length ≤ 16 * 2 ^ 20) ∧
    ∀ path file, writeSnapshot lsn createdAtMs es = .ok (path, file) →
      (∀ (σ ε : Type) (fn : σ → SnapEntry → σ × Option ε) (s : σ), Accepts fn s es →
        (load fn file ⟨s, []⟩).1.passed = es ∧
        (load fn file ⟨s, []⟩).2 =
          .ok ⟨formatVersion, createdAtMs, lsn, UInt64.ofNat es.length⟩) ∧
      ∀ n < file.length, ∀ (σ ε : Type) (fn : σ → SnapEntry → σ × Option ε) (s : σ),
        ∃ err, (load fn (file.take n) ⟨s, []⟩).2 = .error err := by
  refine ⟨⟨fun ⟨_, h⟩ => fits_of_writeSnapshot h, fun h => ⟨_, writeSnapshot_eq h⟩⟩, ?_⟩
  intro path file hwrite
  have hfits := fits_of_writeSnapshot hwrite
  rw [writeSnapshot_eq hfits] at hwrite
  cases hwrite
  refine ⟨fun σ ε fn s hfn => ?_, fun n hn σ ε fn s => load_take hfits hn fn ⟨s, []⟩⟩
  rw [(contains_fileBytes hfits lsn createdAtMs).load (verify_fileBytes lsn createdAtMs es) hfn]
  exact ⟨rfl, rfl⟩

/-- A value that is a footer, up to the checksum. -/
theorem snapshot_round_trip_footer :
    ∃ file, writeSnapshot 7 1000 [⟨[97], footerHead 0, 5⟩] = .ok (name 7, file) ∧
      (load (fun (n : ℕ) _ => (n + 1, (none : Option Empty))) file ⟨0, []⟩).1.passed =
        [⟨[97], footerHead 0, 5⟩] ∧
      ∀ n < 83, ∃ err,
        (load (fun (n : ℕ) _ => (n + 1, (none : Option Empty))) (file.take n) ⟨0, []⟩).2 =
          .error err := by
  have hwrite : writeSnapshot 7 1000 [⟨[97], footerHead 0, 5⟩] =
      .ok (name 7, fileBytes 7 1000 [⟨[97], footerHead 0, 5⟩]) :=
    writeSnapshot_eq (by unfold Fits; decide)
  obtain ⟨hload, hcut⟩ := (snapshot_round_trip 7 1000 [⟨[97], footerHead 0, 5⟩]).2 _ _ hwrite
  refine ⟨_, hwrite, (hload ℕ Empty _ 0 ⟨rfl, trivial⟩).1, fun n hn => ?_⟩
  exact hcut n (by rw [length_fileBytes]; exact hn) ℕ Empty _ 0

end File

end KvStore.Snapshot
