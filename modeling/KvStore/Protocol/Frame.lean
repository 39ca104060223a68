import KvStore.Common.Reader
import KvStore.Protocol.Codes

/-!
# Frames

Model of `internal/protocol/frame.go`: a frame is a header of 16 bytes and a body, and
`ReadFrame` reads one off a source, however the bytes arrive. A scratch buffer is the list of
its bytes up to its capacity; the body of the frame that is returned is its front.

* `framing_self_synchronising`: iterating `ReadFrame` over frames written one after another
  gives them back, and over a stream that is cut the frames before the cut and then an
  end that is unexpected exactly inside a frame.
-/

namespace KvStore

open KvStore.Common

/-- `Header` (lines 43–50). -/
structure Header where
  version : UInt8 := 0
  code : UInt8 := 0
  flags : UInt16 := 0
  reserved : UInt16 := 0
  requestID : UInt32 := 0
  bodyLen : UInt32 := 0
  deriving DecidableEq, Repr

/-- `EncodeHeader` (lines 53–62): the header's 16 bytes. -/
def encodeHeader (h : Header) : Bytes :=
  putLE 2 magic.toNat ++ (putLE 1 h.version.toNat ++ (putLE 1 h.code.toNat ++
    (putLE 2 h.flags.toNat ++ (putLE 2 h.reserved.toNat ++ (putLE 4 h.requestID.toNat ++
      putLE 4 h.bodyLen.toNat)))))

/-- `DecodeHeader` (lines 70–100). -/
def decodeHeader (src : Bytes) : Except CodecError Header :=
  if src.length < headerLen then .error .truncated
  else if UInt16.ofNat (field src 0 2) ≠ magic then .error .badMagic
  else if UInt8.ofNat (field src 2 1) ≠ protocolVersion then .error .badVersion
  else if UInt16.ofNat (field src 4 2) &&& ~~~allFlags ≠ 0 then .error .unknownFlags
  else if UInt16.ofNat (field src 6 2) ≠ 0 then .error .reservedSet
  else if (UInt32.ofNat (field src 12 4)).toNat > maxFrameLen then .error .frameTooLarge
  else .ok {
    version := UInt8.ofNat (field src 2 1)
    code := UInt8.ofNat (field src 3 1)
    flags := UInt16.ofNat (field src 4 2)
    reserved := UInt16.ofNat (field src 6 2)
    requestID := UInt32.ofNat (field src 8 4)
    bodyLen := UInt32.ofNat (field src 12 4) }

/-- `Frame` (lines 104–107). -/
structure Frame where
  header : Header := {}
  body : Bytes := []
  deriving DecidableEq, Repr

/-- `NoReply` (line 116). -/
def Frame.noReply (f : Frame) : Bool := f.header.flags &&& flagNoReply ≠ 0

/-- What `ReadFrame` can fail with. -/
inductive FrameError
  | io (e : ReadErr)
  | codec (e : CodecError)
  deriving DecidableEq, Repr

/-- What a call of `ReadFrame` returns, and the source after it. -/
structure FrameRead (σ : Type) where
  frame : Frame
  buf : Bytes
  err : Option FrameError
  src : σ

/-- The limit `ReadFrame` applies for a given `maxBody` (lines 147–149). -/
def bodyLimit (maxBody : ℕ) : ℕ :=
  if maxBody = 0 ∨ maxBody > maxFrameLen then maxFrameLen else maxBody

/-- `buf` with `p` copied over its front. -/
def overwrite (buf p : Bytes) : Bytes := p ++ buf.drop p.length

/-- The body part of `ReadFrame` (lines 150–170), after the header `h`. -/
def readBody {σ : Type} (R : Reader σ) (src : σ) (h : Header) (buf : Bytes) (maxBody : ℕ) :
    FrameRead σ :=
  if h.bodyLen.toNat > bodyLimit maxBody then
    { frame := { header := h }, buf, err := some (.codec .frameTooLarge), src }
  else if h.bodyLen = 0 then { frame := { header := h }, buf, err := none, src }
  else
    let buf := if buf.length % 2 ^ 32 < h.bodyLen.toNat then List.replicate h.bodyLen.toNat 0 else buf
    let (p, err, src) := R.readFull src h.bodyLen.toNat
    let buf := overwrite buf p
    match err with
    | some _ => { frame := { header := h }, buf, err := some (.io .unexpectedEOF), src }
    | none => { frame := { header := h, body := buf.take h.bodyLen.toNat }, buf, err := none, src }

/-- `ReadFrame` (lines 133–171). -/
def readFrame {σ : Type} (R : Reader σ) (src : σ) (hdrBuf buf : Bytes) (maxBody : ℕ) :
    FrameRead σ :=
  let hdrBuf := if hdrBuf.length < headerLen then List.replicate headerLen 0 else hdrBuf
  let (p, err, src) := R.readFull src headerLen
  match err with
  | some e => { frame := {}, buf, err := some (.io e), src }
  | none =>
    match decodeHeader ((overwrite hdrBuf p).take headerLen) with
    | .error e => { frame := {}, buf, err := some (.codec e), src }
    | .ok h => readBody R src h buf maxBody

/-- `WriteFrame` (lines 176–183) appended to `dst`. -/
def writeFrame (dst : Bytes) (h : Header) (body : Bytes) : Bytes :=
  dst ++ encodeHeader { h with bodyLen := UInt32.ofNat body.length } ++ body

/-- Call `ReadFrame` up to `calls` times, until one fails. The buffers of the call with number `i`
    are `scratch i buf`, where `buf` is what the call before returned. -/
def readFrames {σ : Type} (R : Reader σ) (maxBody : ℕ) (scratch : ℕ → Bytes → Bytes × Bytes) :
    ℕ → ℕ → σ → Bytes → List Frame × Option FrameError
  | 0, _, _, _ => ([], none)
  | calls + 1, i, src, buf =>
    let r := readFrame R src (scratch i buf).1 (scratch i buf).2 maxBody
    match r.err with
    | some e => ([], some e)
    | none =>
      let (fs, e) := readFrames R maxBody scratch calls (i + 1) r.src r.buf
      (r.frame :: fs, e)

/-! ## One frame -/

/-- The frame that is read when the header `h` and `body` are written. -/
def sentFrame (x : Header × Bytes) : Frame :=
  { header := { x.1 with bodyLen := UInt32.ofNat x.2.length }, body := x.2 }

/-- The bytes it is written as. -/
def frameBytes (x : Header × Bytes) : Bytes := writeFrame [] x.1 x.2

/-- What a writer may pass to `WriteFrame` for a reader with the limit `maxBody`. -/
structure Sendable (maxBody : ℕ) (x : Header × Bytes) : Prop where
  version : x.1.version = protocolVersion
  flags : x.1.flags &&& ~~~allFlags = 0
  reserved : x.1.reserved = 0
  body : x.2.length ≤ bodyLimit maxBody

@[simp] theorem length_encodeHeader (h : Header) : (encodeHeader h).length = headerLen := by
  simp [encodeHeader, headerLen]

theorem bodyLimit_le (maxBody : ℕ) : bodyLimit maxBody ≤ maxFrameLen := by
  unfold bodyLimit
  split_ifs <;> omega

theorem Sendable.length_toNat {maxBody : ℕ} {x : Header × Bytes} (h : Sendable maxBody x) :
    (UInt32.ofNat x.2.length).toNat = x.2.length := by
  refine UInt32.toNat_ofNat_of_lt' ?_
  have h1 := h.body
  have h2 := bodyLimit_le maxBody
  have h3 : maxFrameLen < UInt32.size := by decide
  omega

/-- What `DecodeHeader` makes of a header as it was written. -/
theorem decodeHeader_eq (h : Header) : decodeHeader (encodeHeader h) =
    if h.version ≠ protocolVersion then .error .badVersion
    else if h.flags &&& ~~~allFlags ≠ 0 then .error .unknownFlags
    else if h.reserved ≠ 0 then .error .reservedSet
    else if h.bodyLen.toNat > maxFrameLen then .error .frameTooLarge
    else .ok h := by
  have f0 : field (encodeHeader h) 0 2 = magic.toNat := field_zero_putLE _ magic.toNat_lt
  have f2 : field (encodeHeader h) 2 1 = h.version.toNat :=
    (field_add (o := 0) _ (length_putLE 2 _) 1).trans (field_zero_putLE _ h.version.toNat_lt)
  have f3 : field (encodeHeader h) 3 1 = h.code.toNat :=
    (field_add (o := 1) _ (length_putLE 2 _) 1).trans
      ((field_add (o := 0) _ (length_putLE 1 _) 1).trans (field_zero_putLE _ h.code.toNat_lt))
  -- what follows the first four bytes
  have hdrop : ∀ off len, field (encodeHeader h) (2 + (1 + (1 + off))) len =
      field (putLE 2 h.flags.toNat ++ (putLE 2 h.reserved.toNat ++ (putLE 4 h.requestID.toNat ++
        putLE 4 h.bodyLen.toNat))) off len := fun off len =>
    (field_add _ (length_putLE 2 _) len).trans ((field_add _ (length_putLE 1 _) len).trans
      (field_add _ (length_putLE 1 _) len))
  have f4 : field (encodeHeader h) 4 2 = h.flags.toNat :=
    (hdrop 0 2).trans (field_zero_putLE _ h.flags.toNat_lt)
  have f6 : field (encodeHeader h) 6 2 = h.reserved.toNat :=
    (hdrop 2 2).trans ((field_add (o := 0) _ (length_putLE 2 _) 2).trans
      (field_zero_putLE _ h.reserved.toNat_lt))
  have f8 : field (encodeHeader h) 8 4 = h.requestID.toNat :=
    (hdrop 4 4).trans ((field_add (o := 2) _ (length_putLE 2 _) 4).trans
      ((field_add (o := 0) _ (length_putLE 2 _) 4).trans
        (field_zero_putLE _ h.requestID.toNat_lt)))
  have f12 : field (encodeHeader h) 12 4 = h.bodyLen.toNat := by
    have hlast := field_zero_putLE [] (show h.bodyLen.toNat < 256 ^ 4 from h.bodyLen.toNat_lt)
    rw [List.append_nil] at hlast
    exact (hdrop 8 4).trans ((field_add (o := 6) _ (length_putLE 2 _) 4).trans
      ((field_add (o := 4) _ (length_putLE 2 _) 4).trans
        ((field_add (o := 0) _ (length_putLE 4 _) 4).trans hlast)))
  unfold decodeHeader
  rw [f0, f2, f3, f4, f6, f8, f12]
  simp only [UInt16.ofNat_toNat, UInt8.ofNat_toNat, UInt32.ofNat_toNat]
  rw [if_neg (by rw [length_encodeHeader]; omega), if_neg (not_not.mpr rfl)]

theorem decodeHeader_encodeHeader {h : Header} (hversion : h.version = protocolVersion)
    (hflags : h.flags &&& ~~~allFlags = 0) (hreserved : h.reserved = 0)
    (hlen : h.bodyLen.toNat ≤ maxFrameLen) : decodeHeader (encodeHeader h) = .ok h := by
  rw [decodeHeader_eq, if_neg (not_not.mpr hversion), if_neg (not_not.mpr hflags),
    if_neg (not_not.mpr hreserved), if_neg (not_lt.mpr hlen)]

theorem frameBytes_eq (x : Header × Bytes) :
    frameBytes x = encodeHeader (sentFrame x).header ++ x.2 := rfl

@[simp] theorem length_frameBytes (x : Header × Bytes) :
    (frameBytes x).length = headerLen + x.2.length := by
  rw [frameBytes_eq, List.length_append, length_encodeHeader]

theorem Sendable.decodeHeader {maxBody : ℕ} {x : Header × Bytes} (h : Sendable maxBody x) :
    decodeHeader (encodeHeader (sentFrame x).header) = .ok (sentFrame x).header := by
  refine decodeHeader_encodeHeader h.version h.flags h.reserved ?_
  show (UInt32.ofNat x.2.length).toNat ≤ maxFrameLen
  rw [h.length_toNat]
  exact h.body.trans (bodyLimit_le maxBody)

theorem take_overwrite {buf p : Bytes} {n : ℕ} (h : p.length = n) : (overwrite buf p).take n = p :=
  List.take_left' h

section

variable {σ : Type} (R : Reader σ) {maxBody : ℕ} {x : Header × Bytes} {src : σ} (hdrBuf buf : Bytes)

variable (maxBody) in
/-- A read of the header that comes out full. -/
theorem readFrame_header {h : Header} {rest : Bytes} (hcont : R.content src = encodeHeader h ++ rest)
    (hdecode : decodeHeader (encodeHeader h) = .ok h) :
    R.content (R.readFull src headerLen).2.2 = rest ∧
      readFrame R src hdrBuf buf maxBody =
        readBody R (R.readFull src headerLen).2.2 h buf maxBody := by
  obtain ⟨hp, herr, hsrc⟩ := R.readFull_spec src headerLen
  have hlen := length_encodeHeader h
  rw [hcont, List.take_left' hlen] at hp
  rw [hcont, List.drop_left' hlen] at hsrc
  rw [hcont, List.length_append, hlen, if_pos (Nat.le_add_right _ _)] at herr
  refine ⟨hsrc, ?_⟩
  unfold readFrame
  dsimp only
  rw [herr]
  dsimp only
  rw [hp, take_overwrite hlen, hdecode]

variable (maxBody) in
/-- A header that is refused. -/
theorem readFrame_refused {h : Header} {rest : Bytes} {err : CodecError}
    (hcont : R.content src = encodeHeader h ++ rest)
    (hdecode : decodeHeader (encodeHeader h) = .error err) :
    (readFrame R src hdrBuf buf maxBody).err = some (.codec err) := by
  obtain ⟨hp, herr, -⟩ := R.readFull_spec src headerLen
  have hlen := length_encodeHeader h
  rw [hcont, List.take_left' hlen] at hp
  rw [hcont, List.length_append, hlen, if_pos (Nat.le_add_right _ _)] at herr
  unfold readFrame
  dsimp only
  rw [herr]
  dsimp only
  rw [hp, take_overwrite hlen, hdecode]

theorem readBody_empty {h : Header} (hzero : h.bodyLen = 0) :
    readBody R src h buf maxBody = { frame := { header := h }, buf, err := none, src } := by
  unfold readBody
  rw [hzero, UInt32.toNat_zero, if_neg (Nat.not_lt_zero _), if_pos rfl]

/-- `ReadFrame` gives back a frame that is there as a whole. -/
theorem readFrame_whole (hx : Sendable maxBody x) {rest : Bytes}
    (hcont : R.content src = frameBytes x ++ rest) :
    (readFrame R src hdrBuf buf maxBody).err = none ∧
      (readFrame R src hdrBuf buf maxBody).frame = sentFrame x ∧
      R.content (readFrame R src hdrBuf buf maxBody).src = rest := by
  rw [frameBytes_eq, List.append_assoc] at hcont
  obtain ⟨hsrc', heq⟩ := readFrame_header R maxBody hdrBuf buf hcont hx.decodeHeader
  generalize (R.readFull src headerLen).2.2 = src' at hsrc' heq
  have hlen : (sentFrame x).header.bodyLen.toNat = x.2.length := hx.length_toNat
  obtain ⟨hp, herr, hcont'⟩ := R.readFull_spec src' x.2.length
  rw [hsrc', List.take_left' rfl] at hp
  rw [hsrc', List.drop_left' rfl] at hcont'
  rw [hsrc', List.length_append, if_pos (Nat.le_add_right _ _)] at herr
  rw [heq]
  by_cases hzero : (sentFrame x).header.bodyLen = 0
  · -- a frame without a body
    have hnil : x.2 = [] := by
      rw [hzero] at hlen
      exact List.length_eq_zero_iff.mp hlen.symm
    rw [readBody_empty R buf hzero]
    refine ⟨rfl, ?_, ?_⟩
    · rw [sentFrame, hnil]
    · rw [hsrc', hnil, List.nil_append]
  · unfold readBody
    rw [hlen, if_neg (not_lt.mpr hx.body), if_neg hzero]
    dsimp only
    rw [herr]
    dsimp only
    rw [hp, take_overwrite rfl]
    exact ⟨rfl, rfl, hcont'⟩

variable (maxBody src) in
/-- The end of the source inside the header, or right before it. -/
theorem readFrame_short (hlen : (R.content src).length < headerLen) :
    (readFrame R src hdrBuf buf maxBody).err =
      some (.io (if R.content src = [] then .eof else .unexpectedEOF)) := by
  obtain ⟨-, herr, -⟩ := R.readFull_spec src headerLen
  rw [if_neg (not_le.mpr hlen), ← apply_ite some] at herr
  unfold readFrame
  dsimp only
  rw [herr]

/-- Where a frame is cut off, `ReadFrame` reports the end, as an unexpected one unless the cut is
    right before the frame. -/
theorem readFrame_cut (hx : Sendable maxBody x) {k : ℕ} (hk : k < (frameBytes x).length)
    (hcont : R.content src = (frameBytes x).take k) :
    (readFrame R src hdrBuf buf maxBody).err =
      some (.io (if k = 0 then .eof else .unexpectedEOF)) := by
  have hlenk : (R.content src).length = k := by
    rw [hcont, List.length_take_of_le hk.le]
  by_cases hheader : k < headerLen
  · rw [readFrame_short R maxBody src hdrBuf buf (by omega)]
    simp only [← List.length_eq_zero_iff, hlenk]
  · -- in the body
    rw [not_lt] at hheader
    have hlen : (sentFrame x).header.bodyLen.toNat = x.2.length := hx.length_toNat
    rw [length_frameBytes] at hk
    have hsplit : R.content src =
        encodeHeader (sentFrame x).header ++ x.2.take (k - headerLen) := by
      rw [hcont, frameBytes_eq, List.take_append, length_encodeHeader,
        List.take_of_length_le (by rw [length_encodeHeader]; exact hheader)]
    obtain ⟨hsrc', heq⟩ :=
      readFrame_header R maxBody hdrBuf buf hsplit hx.decodeHeader
    generalize (R.readFull src headerLen).2.2 = src' at hsrc' heq
    obtain ⟨-, herr, -⟩ := R.readFull_spec src' x.2.length
    rw [hsrc', List.length_take_of_le (by omega), if_neg (by omega)] at herr
    have hzero : ¬ (sentFrame x).header.bodyLen = 0 := by
      intro h
      rw [h] at hlen
      have : x.2.length = 0 := hlen.symm
      omega
    have hsome : ∃ e, (R.readFull src' x.2.length).2.1 = some e := by
      rw [herr]
      split_ifs
      · exact ⟨_, rfl⟩
      · exact ⟨_, rfl⟩
    obtain ⟨e, hsome⟩ := hsome
    rw [heq, if_neg (by have : 0 < headerLen := by decide
                        omega)]
    unfold readBody
    rw [hlen, if_neg (not_lt.mpr hx.body), if_neg hzero]
    dsimp only
    rw [hsome]

end

/-! ## A stream of frames -/

/-- The bytes of frames written one after another. -/
def stream (fs : List (Header × Bytes)) : Bytes := (fs.map frameBytes).flatten

theorem stream_cons (x : Header × Bytes) (fs : List (Header × Bytes)) :
    stream (x :: fs) = frameBytes x ++ stream fs := rfl

theorem length_stream_take_le (k : ℕ) (fs : List (Header × Bytes)) :
    (stream (fs.take k)).length ≤ (stream fs).length := by
  have hsplit : stream fs = stream (fs.take k) ++ stream (fs.drop k) := by
    unfold stream
    rw [← List.flatten_append, ← List.map_append, List.take_append_drop]
  rw [hsplit, List.length_append]
  exact Nat.le_add_right _ _

/-- Reading a stream cut after `n` bytes gives the frames that end before the cut, and then the
    end of the stream. -/
theorem readFrames_take {σ : Type} (R : Reader σ) {maxBody : ℕ}
    (scratch : ℕ → Bytes → Bytes × Bytes) {fs : List (Header × Bytes)}
    (hfs : ∀ x ∈ fs, Sendable maxBody x) {n : ℕ} (hn : n ≤ (stream fs).length) :
    ∃ k ≤ fs.length, (stream (fs.take k)).length ≤ n ∧
      (k < fs.length → n < (stream (fs.take (k + 1))).length) ∧
      ∀ calls > k, ∀ i src buf, R.content src = (stream fs).take n →
        readFrames R maxBody scratch calls i src buf = ((fs.take k).map sentFrame,
          some (.io (if (stream (fs.take k)).length = n then .eof else .unexpectedEOF))) := by
  induction fs generalizing n with
  | nil =>
    have hzero : n = 0 := Nat.le_zero.mp hn
    subst hzero
    refine ⟨0, le_rfl, le_rfl, fun h => absurd h (lt_irrefl 0), fun calls hcalls i src buf hsrc => ?_⟩
    obtain ⟨c, rfl⟩ : ∃ c, calls = c + 1 := ⟨calls - 1, by omega⟩
    have hnil : R.content src = [] := hsrc
    have herr := readFrame_short R maxBody src (scratch i buf).1 (scratch i buf).2
      (by rw [hnil]; decide)
    rw [hnil, if_pos rfl] at herr
    rw [readFrames]
    dsimp only
    rw [herr]
    rfl
  | cons x fs ih =>
    rw [List.forall_mem_cons] at hfs
    by_cases hcut : n < (frameBytes x).length
    · -- the cut is in the first frame
      refine ⟨0, Nat.zero_le _, Nat.zero_le _, fun _ => ?_, fun calls hcalls i src buf hsrc => ?_⟩
      · rw [List.take_succ_cons, List.take_zero, stream_cons, List.length_append]
        omega
      obtain ⟨c, rfl⟩ : ∃ c, calls = c + 1 := ⟨calls - 1, by omega⟩
      rw [stream_cons, List.take_append_of_le_length hcut.le] at hsrc
      have herr := readFrame_cut R (scratch i buf).1 (scratch i buf).2 hfs.1 hcut hsrc
      rw [readFrames]
      dsimp only
      rw [herr]
      simp [stream, eq_comm]
    · -- the first frame is there, and the cut is after it
      rw [not_lt] at hcut
      rw [stream_cons, List.length_append] at hn
      obtain ⟨k, hk, hbefore, hafter, hread⟩ :=
        ih hfs.2 (n := n - (frameBytes x).length) (by omega)
      refine ⟨k + 1, Nat.succ_le_succ hk, ?_, fun h => ?_, fun calls hcalls i src buf hsrc => ?_⟩
      · rw [List.take_succ_cons, stream_cons, List.length_append]
        omega
      · rw [List.take_succ_cons, stream_cons, List.length_append]
        have := hafter (by simpa using h)
        omega
      obtain ⟨c, rfl⟩ : ∃ c, calls = c + 1 := ⟨calls - 1, by omega⟩
      rw [stream_cons, List.take_append, List.take_of_length_le hcut] at hsrc
      obtain ⟨herr, hframe, hrest⟩ :=
        readFrame_whole R (scratch i buf).1 (scratch i buf).2 hfs.1 hsrc
      rw [readFrames]
      dsimp only
      rw [herr]
      dsimp only
      rw [hread c (by omega) _ _ _ hrest, hframe, List.take_succ_cons, List.map_cons, stream_cons,
        List.length_append]
      have hiff : (stream (fs.take k)).length = n - (frameBytes x).length ↔
          (frameBytes x).length + (stream (fs.take k)).length = n := by omega
      simp only [hiff]

/-- However the bytes of frames written one after another arrive, and whatever scratch buffers are
    passed to each call, iterating `ReadFrame` gives the frames back in order and then `io.EOF`;
    and when the stream is cut it gives the frames that end before the cut, and then `io.EOF` if
    the cut is at the end of a frame, `io.ErrUnexpectedEOF` otherwise. -/
theorem framing_self_synchronising {maxBody : ℕ} {fs : List (Header × Bytes)}
    (hfs : ∀ x ∈ fs, Sendable maxBody x) (scratch : ℕ → Bytes → Bytes × Bytes) (buf : Bytes) :
    (∀ src : Chunks, src.1.flatten = stream fs → ∀ calls > fs.length,
      readFrames Chunks.reader maxBody scratch calls 0 src buf =
        (fs.map sentFrame, some (.io .eof))) ∧
    ∀ n ≤ (stream fs).length, ∃ k ≤ fs.length,
      (stream (fs.take k)).length ≤ n ∧ (k < fs.length → n < (stream (fs.take (k + 1))).length) ∧
      ∀ src : Chunks, src.1.flatten = (stream fs).take n → ∀ calls > k,
        readFrames Chunks.reader maxBody scratch calls 0 src buf = ((fs.take k).map sentFrame,
          some (.io (if (stream (fs.take k)).length = n then .eof else .unexpectedEOF))) := by
  have hcut : ∀ n ≤ (stream fs).length, ∃ k ≤ fs.length,
      (stream (fs.take k)).length ≤ n ∧ (k < fs.length → n < (stream (fs.take (k + 1))).length) ∧
      ∀ src : Chunks, src.1.flatten = (stream fs).take n → ∀ calls > k,
        readFrames Chunks.reader maxBody scratch calls 0 src buf = ((fs.take k).map sentFrame,
          some (.io (if (stream (fs.take k)).length = n then .eof else .unexpectedEOF))) := by
    intro n hn
    obtain ⟨k, hk, hbefore, hafter, hread⟩ := readFrames_take Chunks.reader scratch hfs hn
    exact ⟨k, hk, hbefore, hafter, fun src hsrc calls hcalls =>
      hread calls hcalls 0 src buf hsrc⟩
  refine ⟨fun src hsrc calls hcalls => ?_, hcut⟩
  obtain ⟨k, hk, hbefore, hafter, hread⟩ := hcut (stream fs).length le_rfl
  -- an uncut stream is one that is cut at its end
  have hall : k = fs.length := by
    by_contra hne
    have hlt := hafter (by omega)
    exact absurd (length_stream_take_le (k + 1) fs) (not_le.mpr hlt)
  subst hall
  have hwhole := hread src (by rw [hsrc, List.take_length]) calls hcalls
  rwa [List.take_length, if_pos rfl] at hwhole

/-- Two frames, the second one without a body, cut in the header of the second; the reads yield
    one byte, then the rest. -/
theorem framing_self_synchronising_two :
    let fs : List (Header × Bytes) :=
      [({ version := 1, code := 2, requestID := 7 }, [1, 0, 9]), ({ version := 1, code := 1 }, [])]
    ∃ src : Chunks, src.1.flatten = (stream fs).take 25 ∧
      readFrames Chunks.reader 0 (fun _ buf => ([], buf)) 3 0 src [] =
        ([sentFrame ({ version := 1, code := 2, requestID := 7 }, [1, 0, 9])],
          some (.io .unexpectedEOF)) := by
  intro fs
  have hfs : ∀ x ∈ fs, Sendable 0 x := by
    intro x hx
    rcases List.mem_pair.mp hx with rfl | rfl
    · exact ⟨rfl, by decide, rfl, by decide⟩
    · exact ⟨rfl, by decide, rfl, by decide⟩
  obtain ⟨k, hk, hbefore, hafter, hread⟩ :=
    (framing_self_synchronising hfs (fun _ buf => ([], buf)) []).2 25 (by decide)
  refine ⟨⟨[[0x4B], ((stream fs).take 25).drop 1], by decide⟩, rfl, ?_⟩
  have hone : k = 1 := by
    have hk : k ≤ 2 := hk
    interval_cases k
    · exact absurd (hafter (by decide)) (by decide)
    · rfl
    · exact absurd hbefore (by decide)
  subst hone
  exact hread _ rfl 3 (by decide)

end KvStore
