import KvStore.Server.Output

/-!
# What reaches the socket of a connection

* `output_in_order`: whatever fails and whoever closes, the writer sends a beginning of the
  responses that were accepted, and as long as it works the rest is on its way.
* `output_bounded`: the responses that wait never exceed `output_buffer_limit`.
* `output_delivered`: as long as the connection is open, the writer alone can bring everything that
  was accepted to the socket.
* `closed_twice_iff`: the channel `closed` is closed twice when a connection is both hijacked and
  closed, and only then.
* `direct_frame_splits`: what the read loop writes itself can come in the middle of a response.
-/

namespace KvStore

open KvStore.Common

namespace Output

variable {C : OutputConfig} {s s' : Output} {a : OutputAction}

/-! ## The counter -/

/-- The bytes of the responses on the channel. -/
def queuedBytes (out : List Bytes) : ℕ := (out.map List.length).sum

/-- Bytes that the read loop put on the channel and has not counted yet. -/
def uncounted : OutReader → ℕ
  | .counting n => n
  | _ => 0

/-- Bytes that the writer took off the channel and has not subtracted yet. -/
def overcounted : OutWriter → ℕ
  | .received b => b.length
  | _ => 0

@[simp] theorem queuedBytes_append (l : List Bytes) (b : Bytes) :
    queuedBytes (l ++ [b]) = queuedBytes l + b.length := by simp [queuedBytes]

@[simp] theorem queuedBytes_cons (b : Bytes) (l : List Bytes) :
    queuedBytes (b :: l) = b.length + queuedBytes l := by simp [queuedBytes]

/-- What `outSize` says, and what the check of `enqueue` makes of it. -/
structure Accounted (C : OutputConfig) (reader : OutReader) (writer : OutWriter) (out : List Bytes)
    (outSize : ℤ) : Prop where
  size : outSize + uncounted reader = queuedBytes out + overcounted writer
  offered : ∀ r, reader = .offering r → outSize + r.length ≤ C.limit
  limit : (queuedBytes out : ℤ) ≤ max C.limit 0
  length : out.length ≤ C.cap

namespace Accounted

variable {reader reader' : OutReader} {writer writer' : OutWriter} {out : List Bytes} {outSize : ℤ}

theorem setReader (h : Accounted C reader writer out outSize)
    (hcount : uncounted reader' = uncounted reader)
    (hoff : ∀ r, reader' = .offering r → outSize + r.length ≤ C.limit) :
    Accounted C reader' writer out outSize :=
  ⟨hcount ▸ h.size, hoff, h.limit, h.length⟩

theorem setWriter (h : Accounted C reader writer out outSize)
    (hcount : overcounted writer' = overcounted writer) :
    Accounted C reader writer' out outSize :=
  ⟨hcount ▸ h.size, h.offered, h.limit, h.length⟩

/-- There was room for the response when its size was checked, and nobody else takes room. -/
theorem send {resp : Bytes} (h : Accounted C (.offering resp) writer out outSize)
    (hroom : out.length < C.cap) :
    Accounted C (.counting resp.length) writer (out ++ [resp]) outSize := by
  have hsize := h.size
  have hfits := h.offered resp rfl
  simp only [uncounted] at hsize
  refine ⟨?_, by simp, ?_, by simpa using hroom⟩
  · simp only [queuedBytes_append, uncounted]
    omega
  · simp only [queuedBytes_append]
    omega

theorem count {n : ℕ} (h : Accounted C (.counting n) writer out outSize) :
    Accounted C .serving writer out (outSize + n) :=
  ⟨by simpa [uncounted] using h.size, by simp, h.limit, h.length⟩

theorem receive {b : Bytes} (h : Accounted C reader writer (b :: out) outSize)
    (hidle : overcounted writer = 0) : Accounted C reader (.received b) out outSize := by
  obtain ⟨hsize, hoff, hlimit, hlength⟩ := h
  simp only [queuedBytes_cons, hidle, List.length_cons] at hsize hlimit hlength
  refine ⟨?_, hoff, by omega, by omega⟩
  simp only [overcounted]
  omega

theorem subtract {b : Bytes} (h : Accounted C reader (.received b) out outSize) :
    Accounted C reader (.writing b) out (outSize - b.length) := by
  obtain ⟨hsize, hoff, hlimit, hlength⟩ := h
  simp only [overcounted] at hsize
  refine ⟨?_, fun r hr => ?_, hlimit, hlength⟩
  · simp only [overcounted]
    omega
  · have hfits := hoff r hr
    omega

end Accounted

/-! ## The bytes -/

/-- The bytes that the writer put on the socket. -/
def sentBytes (wire : List Chunk) : Bytes := (wire.filter fun c => !c.direct).flatMap Chunk.bytes

@[simp] theorem sentBytes_direct (wire : List Chunk) (b : Bytes) :
    sentBytes (wire ++ [⟨true, b⟩]) = sentBytes wire := by simp [sentBytes]

@[simp] theorem sentBytes_append (wire : List Chunk) (b : Bytes) :
    sentBytes (wire ++ [⟨false, b⟩]) = sentBytes wire ++ b := by simp [sentBytes]

/-- The response the writer is working on, as far as it is not in the buffer. -/
def inHand : OutWriter → Bytes
  | .received b => b
  | .writing p => p
  | _ => []

/-- The writer has not failed or returned. -/
def Working : OutWriter → Prop
  | .failing => False
  | .gone => False
  | _ => True

/-- What the writer sent is the beginning of what was accepted, and while it works the rest is on
    its way. -/
structure InOrder (C : OutputConfig) (writer : OutWriter) (out : List Bytes) (buf : Bytes)
    (wire : List Chunk) (accepted : List Bytes) : Prop where
  sent : sentBytes wire <+: accepted.flatten
  rest : Working writer → sentBytes wire ++ (buf ++ inHand writer ++ out.flatten) = accepted.flatten
  empty : writer = .select → buf = []
  buffer : buf.length ≤ C.size

namespace InOrder

variable {writer writer' : OutWriter} {out accepted : List Bytes} {buf : Bytes} {wire : List Chunk}

theorem setWriter (h : InOrder C writer out buf wire accepted)
    (hworking : Working writer' → Working writer) (hhand : inHand writer' = inHand writer)
    (hempty : writer' = .select → buf = []) : InOrder C writer' out buf wire accepted :=
  ⟨h.sent, fun hw => hhand ▸ h.rest (hworking hw), hempty, h.buffer⟩

theorem send (h : InOrder C writer out buf wire accepted) (resp : Bytes) :
    InOrder C writer (out ++ [resp]) buf wire (accepted ++ [resp]) := by
  refine ⟨?_, fun hw => ?_, h.empty, h.buffer⟩
  · rw [List.flatten_append]
    exact h.sent.trans (List.prefix_append _ _)
  · simp [← h.rest hw]

theorem direct (h : InOrder C writer out buf wire accepted) (b : Bytes) :
    InOrder C writer out buf (wire ++ [⟨true, b⟩]) accepted := by
  refine ⟨?_, fun hw => ?_, h.empty, h.buffer⟩
  · rw [sentBytes_direct]
    exact h.sent
  · rw [sentBytes_direct]
    exact h.rest hw

theorem receive {b : Bytes} (h : InOrder C writer (b :: out) buf wire accepted)
    (hworking : Working writer) (hhand : inHand writer = []) :
    InOrder C (.received b) out buf wire accepted := by
  refine ⟨h.sent, fun _ => ?_, by simp, h.buffer⟩
  have hsame := h.rest hworking
  rw [hhand] at hsame
  simpa [inHand] using hsame

/-- What is in hand fits the buffer. -/
theorem fits {p : Bytes} (h : InOrder C (.writing p) out buf wire accepted)
    (hfits : p.length ≤ C.size - buf.length) :
    InOrder C .draining out (buf ++ p) wire accepted := by
  refine ⟨h.sent, fun _ => ?_, by simp, ?_⟩
  · simpa [inHand] using h.rest trivial
  · have hbuffer := h.buffer
    rw [List.length_append]
    omega

/-- A call of `Write` of the socket takes `b`. -/
theorem put (h : InOrder C writer out buf wire accepted) (hworking : Working writer) {b : Bytes}
    (hbytes : b ++ inHand writer' = buf ++ inHand writer) :
    InOrder C writer' out [] (wire ++ [⟨false, b⟩]) accepted := by
  have hsame : sentBytes wire ++ b ++ (inHand writer' ++ out.flatten) = accepted.flatten := by
    rw [List.append_assoc, ← List.append_assoc b, hbytes]
    exact h.rest hworking
  refine ⟨?_, fun _ => ?_, fun _ => rfl, Nat.zero_le _⟩
  · rw [sentBytes_append, ← hsame]
    exact List.prefix_append _ _
  · rw [sentBytes_append]
    exact hsame

/-- It fails, after some bytes of `b`. -/
theorem putFails (h : InOrder C writer out buf wire accepted) (hworking : Working writer)
    {b rest : Bytes} (hbytes : b ++ rest = buf ++ inHand writer) (k : ℕ) {left : Bytes}
    (hleft : left.length ≤ C.size) :
    InOrder C .failing out left (wire ++ [⟨false, b.take k⟩]) accepted := by
  refine ⟨?_, False.elim, by simp, hleft⟩
  rw [sentBytes_append, ← h.rest hworking, ← hbytes, List.append_assoc]
  exact (List.prefix_append_right_inj _).mpr ((List.take_prefix k b).trans (List.prefix_append _ _))

end InOrder

/-! ## Closing -/

/-- The channel was closed by `close` or by a hijack, and twice if both happened. -/
structure ClosedBy (s : Output) : Prop where
  closed : s.closed = (s.once || s.hijacked)
  panicked : s.panicked = (s.once && s.hijacked)
  last : s.writer = .flushing true ∨ s.writer = .gone → s.closed = true
  taken : s.hijacked = true → s.reader = .gone
  socket : s.socketOpen = false → s.once = true

@[simp] theorem close_reader (s : Output) : s.close.reader = s.reader := by
  unfold close closeChannel
  split_ifs <;> rfl

@[simp] theorem close_writer (s : Output) : s.close.writer = s.writer := by
  unfold close closeChannel
  split_ifs <;> rfl

@[simp] theorem close_hijacked (s : Output) : s.close.hijacked = s.hijacked := by
  unfold close closeChannel
  split_ifs <;> rfl

@[simp] theorem close_once (s : Output) : s.close.once = true := by
  unfold close
  split_ifs with honce
  · exact honce
  · rfl

theorem ClosedBy.close (h : s.ClosedBy) : s.close.ClosedBy := by
  unfold Output.close
  split_ifs with honce
  · exact h
  · obtain ⟨hclosed, hpanicked, hlast, htaken, -⟩ := h
    unfold closeChannel
    split_ifs with hch
    · exact ⟨by simpa using hch, by simp_all, hlast, htaken, fun _ => rfl⟩
    · exact ⟨by simp, by simp_all, fun _ => rfl, htaken, fun _ => rfl⟩

theorem ClosedBy.hijack (h : s.ClosedBy) (hr : s.reader = .serving) :
    ClosedBy { s.closeChannel with hijacked := true, reader := .gone } := by
  obtain ⟨hclosed, hpanicked, hlast, htaken, hsocket⟩ := h
  have hfirst : s.hijacked = false := by simpa [hr] using htaken
  unfold closeChannel
  split_ifs with hch
  · exact ⟨by simpa using hch, by simp_all, hlast, fun _ => rfl, hsocket⟩
  · exact ⟨by simp, by simp_all, fun _ => rfl, fun _ => rfl, hsocket⟩

/-! ## All steps -/

/-- What holds in every state of a connection. -/
structure Inv (C : OutputConfig) (s : Output) : Prop where
  accounted : Accounted C s.reader s.writer s.out s.outSize
  inOrder : InOrder C s.writer s.out s.buf s.wire s.accepted
  closedBy : s.ClosedBy

namespace Inv

theorem init (C : OutputConfig) : Output.init.Inv C := by
  refine ⟨⟨rfl, by simp [Output.init], ?_, Nat.zero_le _⟩,
    ⟨List.nil_prefix, fun _ => rfl, fun _ => rfl, Nat.zero_le _⟩, rfl, rfl, ?_, ?_, ?_⟩
  all_goals simp [queuedBytes, Output.init]

/-- The read loop goes somewhere else. -/
theorem setReader (h : s.Inv C) {r : OutReader} (hr : s.reader ≠ .gone)
    (hcount : uncounted r = uncounted s.reader)
    (hoff : ∀ resp, r = .offering resp → s.outSize + resp.length ≤ C.limit) :
    Inv C { s with reader := r } := by
  obtain ⟨hclosed, hpanicked, hlast, htaken, hsocket⟩ := h.closedBy
  exact ⟨h.accounted.setReader hcount hoff, h.inOrder, hclosed, hpanicked, hlast,
    fun hj => absurd (htaken hj) hr, hsocket⟩

/-- The writer goes somewhere else. -/
theorem setWriter (h : s.Inv C) {w : OutWriter} (hworking : Working w → Working s.writer)
    (hcount : overcounted w = overcounted s.writer) (hhand : inHand w = inHand s.writer)
    (hempty : w = .select → s.buf = [])
    (hlast : w = .flushing true ∨ w = .gone → s.closed = true) : Inv C { s with writer := w } := by
  obtain ⟨hclosed, hpanicked, -, htaken, hsocket⟩ := h.closedBy
  exact ⟨h.accounted.setWriter hcount, h.inOrder.setWriter hworking hhand hempty, hclosed,
    hpanicked, hlast, htaken, hsocket⟩

theorem close (h : s.Inv C) : s.close.Inv C := by
  refine ⟨?_, ?_, h.closedBy.close⟩
  all_goals unfold Output.close closeChannel
  all_goals split_ifs
  all_goals first | exact h.accounted | exact h.inOrder

/-! ### The read loop -/

theorem respond (h : s.Inv C) (resp : Bytes) (hr : s.reader = .serving) :
    (s.respond C resp).Inv C := by
  unfold Output.respond
  split_ifs with hlimit
  · exact h.setReader (by simp [hr]) (by rw [hr]; rfl) (by simp)
  · refine h.setReader (by simp [hr]) (by rw [hr]; rfl) fun r hr => ?_
    cases hr
    omega

theorem send (h : s.Inv C) {resp : Bytes} (hr : s.reader = .offering resp)
    (hroom : s.out.length < C.cap) :
    Inv C { s with
      out := s.out ++ [resp]
      accepted := s.accepted ++ [resp]
      reader := .counting resp.length } := by
  obtain ⟨hclosed, hpanicked, hlast, htaken, hsocket⟩ := h.closedBy
  have haccounted := h.accounted
  rw [hr] at haccounted htaken
  exact ⟨haccounted.send hroom, h.inOrder.send resp, hclosed, hpanicked, hlast,
    fun hj => absurd (htaken hj) (by simp), hsocket⟩

theorem count (h : s.Inv C) {n : ℕ} (hr : s.reader = .counting n) :
    Inv C { s with outSize := s.outSize + n, reader := .serving } := by
  obtain ⟨hclosed, hpanicked, hlast, htaken, hsocket⟩ := h.closedBy
  have haccounted := h.accounted
  rw [hr] at haccounted htaken
  exact ⟨haccounted.count, h.inOrder, hclosed, hpanicked, hlast,
    fun hj => absurd (htaken hj) (by simp), hsocket⟩

theorem hijack (h : s.Inv C) (hr : s.reader = .serving) :
    Inv C { s.closeChannel with hijacked := true, reader := .gone } := by
  have haccounted := h.accounted
  rw [hr] at haccounted
  refine ⟨?_, ?_, h.closedBy.hijack hr⟩
  all_goals unfold closeChannel
  all_goals split_ifs
  all_goals first | exact haccounted.setReader rfl (by simp) | exact h.inOrder

/-! ### The writer -/

theorem receive (h : s.Inv C) (hreceive : s.receive = some s') : s'.Inv C := by
  obtain ⟨hclosed, hpanicked, -, htaken, hsocket⟩ := h.closedBy
  obtain ⟨b, rest, hout, hw, rfl⟩ : ∃ b rest, s.out = b :: rest ∧
      (s.writer = .select ∨ s.writer = .draining) ∧
      s' = { s with writer := .received b, out := rest } := by
    unfold Output.receive at hreceive
    split at hreceive
    · rename_i b rest hw hout
      cases hreceive
      exact ⟨b, rest, hout, .inl hw, rfl⟩
    · rename_i b rest hw hout
      cases hreceive
      exact ⟨b, rest, hout, .inr hw, rfl⟩
    · cases hreceive
  have hidle : overcounted s.writer = 0 ∧ inHand s.writer = [] ∧ Working s.writer := by
    rcases hw with hw | hw <;> rw [hw] <;> exact ⟨rfl, rfl, trivial⟩
  have haccounted := h.accounted
  have horder := h.inOrder
  rw [hout] at haccounted horder
  exact ⟨haccounted.receive hidle.1, horder.receive hidle.2.2 hidle.2.1, hclosed, hpanicked,
    by simp, htaken, hsocket⟩

theorem subtract (h : s.Inv C) {b : Bytes} (hw : s.writer = .received b) :
    Inv C { s with outSize := s.outSize - b.length, writer := .writing b } := by
  obtain ⟨hclosed, hpanicked, -, htaken, hsocket⟩ := h.closedBy
  have haccounted := h.accounted
  rw [hw] at haccounted
  exact ⟨haccounted.subtract,
    h.inOrder.setWriter (fun _ => by rw [hw]; trivial) (by rw [hw]; rfl) (by simp), hclosed,
    hpanicked, by simp, htaken, hsocket⟩

theorem put (h : s.Inv C) {b : Bytes} {fails : Option ℕ} {next : OutWriter}
    (hput : s.put b fails next = some s') (hworking : Working s.writer)
    (hcount : overcounted s.writer = 0 ∧ overcounted next = 0)
    (hbytes : b ++ inHand next = s.buf ++ inHand s.writer)
    (hsize : s.buf ≠ [] → b.length ≤ C.size)
    (hlast : next = .flushing true ∨ next = .gone → s.closed = true) : s'.Inv C := by
  obtain ⟨hclosed, hpanicked, -, htaken, hsocket⟩ := h.closedBy
  cases fails with
  | none =>
    simp only [Output.put, Option.ite_none_right_eq_some] at hput
    obtain ⟨-, heq⟩ := hput
    cases heq
    exact ⟨h.accounted.setWriter (hcount.2.trans hcount.1.symm), h.inOrder.put hworking hbytes,
      hclosed, hpanicked, hlast, htaken, hsocket⟩
  | some k =>
    simp only [Output.put, Option.ite_none_right_eq_some] at hput
    obtain ⟨-, heq⟩ := hput
    cases heq
    refine ⟨h.accounted.setWriter hcount.1.symm, h.inOrder.putFails hworking hbytes k ?_, hclosed,
      hpanicked, by simp, htaken, hsocket⟩
    split_ifs with hbuf
    · exact Nat.zero_le _
    · have hle := hsize (by simpa using hbuf)
      rw [List.length_drop]
      omega

theorem write (h : s.Inv C) {fails : Option ℕ} (hwrite : s.write C fails = some s') : s'.Inv C := by
  obtain ⟨hclosed, hpanicked, hlast, htaken, hsocket⟩ := h.closedBy
  unfold Output.write at hwrite
  split at hwrite
  · rename_i p hw
    split at hwrite
    · rename_i out rest hround
      refine h.put hwrite (by rw [hw]; trivial) (by rw [hw]; exact ⟨rfl, rfl⟩) ?_ (fun hbuf => ?_)
        (by simp)
      · rw [hw]
        exact bufRound_append hround
      · exact bufRound_length_le hround hbuf h.inOrder.buffer
    · rename_i hround
      cases hwrite
      have horder := h.inOrder
      rw [hw] at horder
      exact ⟨h.accounted.setWriter (by rw [hw]; rfl), horder.fits (bufRound_none_iff.mp hround),
        hclosed, hpanicked, by simp, htaken, hsocket⟩
  · rename_i last hw
    have hnext : flushed last = .flushing true ∨ flushed last = .gone → s.closed = true := by
      intro hgone
      cases last with
      | true => exact hlast (.inl hw)
      | false => simp [flushed] at hgone
    have hidle : overcounted (flushed last) = 0 ∧ inHand (flushed last) = [] := by
      cases last <;> exact ⟨rfl, rfl⟩
    split_ifs at hwrite with hbuf
    · cases hwrite
      exact h.setWriter (fun _ => by rw [hw]; trivial) (by rw [hw, hidle.1]; rfl)
        (by rw [hw, hidle.2]; rfl) (fun _ => List.isEmpty_iff.mp hbuf) hnext
    · refine h.put hwrite (by rw [hw]; trivial) ⟨by rw [hw]; rfl, hidle.1⟩ ?_
        (fun _ => h.inOrder.buffer) hnext
      rw [hw, hidle.2]
      rfl
  · cases hwrite

theorem act (h : s.Inv C) (hact : s.act C a = some s') : s'.Inv C := by
  obtain ⟨hclosed, hpanicked, hlast, htaken, hsocket⟩ := id h.closedBy
  cases a with
  | respond resp =>
    simp only [Output.act, Option.ite_none_right_eq_some] at hact
    obtain ⟨hr, heq⟩ := hact
    cases heq
    exact h.respond resp hr
  | send =>
    simp only [Output.act] at hact
    split at hact
    · rename_i resp hr
      split_ifs at hact with hroom
      cases hact
      exact h.send hr hroom
    · cases hact
  | refuse =>
    simp only [Output.act] at hact
    split at hact
    · rename_i resp hr
      split_ifs at hact
      cases hact
      exact h.setReader (by simp [hr]) (by rw [hr]; rfl) (by simp)
    · cases hact
  | count =>
    simp only [Output.act] at hact
    split at hact
    · rename_i n hr
      cases hact
      exact h.count hr
    · cases hact
  | direct frame n =>
    simp only [Output.act, Option.ite_none_right_eq_some] at hact
    obtain ⟨-, heq⟩ := hact
    cases heq
    exact ⟨h.accounted, h.inOrder.direct _, hclosed, hpanicked, hlast, htaken, hsocket⟩
  | leave =>
    simp only [Output.act, Option.ite_none_right_eq_some] at hact
    obtain ⟨hr, heq⟩ := hact
    cases heq
    exact h.setReader (by simp [hr]) (by rw [hr]; rfl) (by simp)
  | readerCloses =>
    simp only [Output.act, Option.ite_none_right_eq_some] at hact
    obtain ⟨hr, heq⟩ := hact
    cases heq
    exact h.close.setReader (by simp [hr]) (by simp [hr, uncounted]) (by simp)
  | hijack =>
    simp only [Output.act, Option.ite_none_right_eq_some] at hact
    obtain ⟨hr, heq⟩ := hact
    cases heq
    exact h.hijack hr
  | wake =>
    simp only [Output.act, Option.ite_none_right_eq_some] at hact
    obtain ⟨⟨hw, hch⟩, heq⟩ := hact
    cases heq
    exact h.setWriter (fun _ => by rw [hw]; trivial) (by rw [hw]; rfl) (by rw [hw]; rfl) (by simp)
      fun _ => hch
  | receive => exact h.receive hact
  | subtract =>
    simp only [Output.act] at hact
    split at hact
    · rename_i b hw
      cases hact
      exact h.subtract hw
    · cases hact
  | write fails => exact h.write hact
  | drained =>
    simp only [Output.act, Option.ite_none_right_eq_some] at hact
    obtain ⟨⟨hw, -⟩, heq⟩ := hact
    cases heq
    exact h.setWriter (fun _ => by rw [hw]; trivial) (by rw [hw]; rfl) (by rw [hw]; rfl) (by simp)
      (by simp)
  | writerCloses =>
    simp only [Output.act, Option.ite_none_right_eq_some] at hact
    obtain ⟨hw, heq⟩ := hact
    cases heq
    exact h.close.setWriter False.elim (by simp [hw, overcounted]) (by simp [hw, inHand]) (by simp)
      fun _ => by simp [h.close.closedBy.closed]
  | closeSocket =>
    simp only [Output.act, Option.ite_none_right_eq_some] at hact
    obtain ⟨honce, heq⟩ := hact
    cases heq
    exact ⟨h.accounted, h.inOrder, hclosed, hpanicked, hlast, htaken, fun _ => honce⟩
  | shutdown =>
    cases hact
    exact h.close

theorem step (h : s.Inv C) (hstep : s.step C a = some s') : s'.Inv C := by
  simp only [Output.step, Option.ite_none_left_eq_some] at hstep
  exact h.act hstep.2

theorem of_run (hrun : Run (Output.step C) Always Output.init s) : s.Inv C :=
  hrun.invariant (fun _ _ _ h _ hstep => h.step hstep) (.init C)

end Inv

/-! ## Delivery -/

/-- The writer gets from `s` to `s'` with `Write`s that succeed. -/
def Delivers (C : OutputConfig) (s s' : Output) : Prop :=
  Run (Output.step C) (fun _ a => a.Delivers) s s'

/-- The connection can be written to, and the writer leaves that as it is. -/
def Open (s : Output) : Prop := s.panicked = false ∧ s.socketOpen = true

namespace Delivers

variable {b p : Bytes} {rest : List Bytes}

theorem act (a : OutputAction) (hopen : s.Open) (ha : a.Delivers) (hact : s.act C a = some s') :
    Delivers C s s' :=
  Run.refl.tail a ha (by simp [Output.step, hopen.1, hact])

theorem subtract (hopen : s.Open) (hw : s.writer = .received b) :
    Delivers C s { s with writer := .writing b, outSize := s.outSize - b.length } :=
  act .subtract hopen trivial (by simp [Output.act, hw])

theorem receive (hopen : s.Open) (hw : s.writer = .select ∨ s.writer = .draining)
    (hout : s.out = b :: rest) :
    Delivers C s { s with writer := .writing b, out := rest, outSize := s.outSize - b.length } := by
  have hfirst : s.act C .receive = some { s with writer := .received b, out := rest } := by
    rcases hw with hw | hw <;> simp [Output.act, Output.receive, hw, hout]
  have hnext := subtract (C := C) (s := { s with writer := .received b, out := rest }) hopen rfl
  exact (act .receive hopen trivial hfirst).trans hnext

/-- What is in hand goes to the buffer or the socket. -/
theorem writes (n : ℕ) : ∀ {s : Output} {p : Bytes}, s.Open → s.writer = .writing p →
    s.buf.length + p.length ≤ n →
    ∃ s', Delivers C s s' ∧ s'.Open ∧ s'.writer = .draining ∧ s'.out = s.out ∧
      s'.accepted = s.accepted := by
  induction n using Nat.strong_induction_on with
  | _ n ih =>
    intro s p hopen hw hn
    rcases hround : bufRound C.size s.buf p with _ | ⟨out, rest⟩
    · have hstep : s.act C (.write none) = some { s with
          buf := s.buf ++ p, writer := .draining } := by
        simp [Output.act, Output.write, hw, hround]
      exact ⟨_, act (.write none) hopen trivial hstep, hopen, rfl, rfl, rfl⟩
    · have hstep : s.act C (.write none) = some { s with
          wire := s.wire ++ [⟨false, out⟩], buf := [], writer := .writing rest } := by
        simp [Output.act, Output.write, hw, hround, Output.put, hopen.2]
      have hlt := bufRound_length hround
      obtain ⟨s', hmore, h'⟩ := ih rest.length (by omega) (s := { s with
        wire := s.wire ++ [⟨false, out⟩], buf := [], writer := .writing rest }) hopen rfl (by simp)
      exact ⟨s', (act (.write none) hopen trivial hstep).trans hmore, h'⟩

theorem flushes (hopen : s.Open) (hw : s.writer = .flushing false) :
    ∃ s', Delivers C s s' ∧ s'.Open ∧ s'.writer = .select ∧ s'.out = s.out ∧
      s'.accepted = s.accepted := by
  by_cases hbuf : s.buf.isEmpty = true
  · have hstep : s.act C (.write none) = some { s with writer := .select } := by
      simp only [Output.act, Output.write, hw, hbuf, if_pos]
      rfl
    exact ⟨_, act (.write none) hopen trivial hstep, hopen, rfl, rfl, rfl⟩
  · have hstep : s.act C (.write none) = some { s with
        wire := s.wire ++ [⟨false, s.buf⟩], buf := [], writer := .select } := by
      simp only [Output.act, Output.write, hw, if_neg hbuf, Output.put, hopen.2, if_pos]
      rfl
    exact ⟨_, act (.write none) hopen trivial hstep, hopen, rfl, rfl, rfl⟩

/-- The writer takes everything off the channel, and flushes. -/
theorem drains (out : List Bytes) : ∀ {s : Output}, s.Open → s.writer = .draining → s.out = out →
    ∃ s', Delivers C s s' ∧ s'.writer = .select ∧ s'.out = [] ∧ s'.accepted = s.accepted := by
  induction out with
  | nil =>
    intro s hopen hw hout
    have hstep : s.act C .drained = some { s with writer := .flushing false } := by
      simp [Output.act, hw, hout]
    obtain ⟨s', hmore, -, hw', hout', hacc⟩ := flushes (C := C) (s := { s with
      writer := .flushing false }) hopen rfl
    exact ⟨s', (act .drained hopen trivial hstep).trans hmore, hw', hout'.trans hout, hacc⟩
  | cons b rest ih =>
    intro s hopen hw hout
    obtain ⟨s₁, h₁, hopen₁, hw₁, hout₁, hacc₁⟩ := writes (C := C) _ (s := { s with
      writer := .writing b, out := rest, outSize := s.outSize - b.length }) hopen rfl le_rfl
    obtain ⟨s₂, h₂, hw₂, hout₂, hacc₂⟩ := ih hopen₁ hw₁ hout₁
    exact ⟨s₂, ((receive hopen (.inr hw) hout).trans h₁).trans h₂, hw₂, hout₂, hacc₂.trans hacc₁⟩

theorem selects (hopen : s.Open) (hw : s.writer = .select) :
    ∃ s', Delivers C s s' ∧ s'.writer = .select ∧ s'.out = [] ∧ s'.accepted = s.accepted := by
  rcases hout : s.out with _ | ⟨b, rest⟩
  · exact ⟨s, .refl, hw, hout, rfl⟩
  · obtain ⟨s₁, h₁, hopen₁, hw₁, -, hacc₁⟩ := writes (C := C) _ (s := { s with
      writer := .writing b, out := rest, outSize := s.outSize - b.length }) hopen rfl le_rfl
    obtain ⟨s₂, h₂, hw₂, hout₂, hacc₂⟩ := drains s₁.out hopen₁ hw₁ rfl
    exact ⟨s₂, ((receive hopen (.inl hw) hout).trans h₁).trans h₂, hw₂, hout₂, hacc₂.trans hacc₁⟩

theorem all (hopen : s.Open) (hworking : Working s.writer) (hlast : s.writer ≠ .flushing true) :
    ∃ s', Delivers C s s' ∧ s'.writer = .select ∧ s'.out = [] ∧ s'.accepted = s.accepted := by
  cases hw : s.writer with
  | select => exact selects hopen hw
  | received b =>
    obtain ⟨s₁, h₁, hopen₁, hw₁, -, hacc₁⟩ := writes (C := C) _ (s := { s with
      writer := .writing b, outSize := s.outSize - b.length }) hopen rfl le_rfl
    obtain ⟨s₂, h₂, hw₂, hout₂, hacc₂⟩ := drains s₁.out hopen₁ hw₁ rfl
    exact ⟨s₂, ((subtract hopen hw).trans h₁).trans h₂, hw₂, hout₂, hacc₂.trans hacc₁⟩
  | writing p =>
    obtain ⟨s₁, h₁, hopen₁, hw₁, -, hacc₁⟩ := writes (C := C) _ hopen hw le_rfl
    obtain ⟨s₂, h₂, hw₂, hout₂, hacc₂⟩ := drains s₁.out hopen₁ hw₁ rfl
    exact ⟨s₂, h₁.trans h₂, hw₂, hout₂, hacc₂.trans hacc₁⟩
  | draining => exact drains s.out hopen hw rfl
  | flushing last =>
    cases last with
    | true => exact absurd hw hlast
    | false =>
      obtain ⟨s₁, h₁, hopen₁, hw₁, -, hacc₁⟩ := flushes (C := C) hopen hw
      obtain ⟨s₂, h₂, hw₂, hout₂, hacc₂⟩ := selects hopen₁ hw₁
      exact ⟨s₂, h₁.trans h₂, hw₂, hout₂, hacc₂.trans hacc₁⟩
  | failing =>
    rw [hw] at hworking
    exact absurd hworking id
  | gone =>
    rw [hw] at hworking
    exact absurd hworking id

end Delivers

end Output

/-! ## Runs -/

section runs

open Output

variable {C : OutputConfig} {s : Output}

/-- Whatever fails and whoever closes, the bytes the writer put on the socket are the beginning of
    the accepted responses, one after the other; and unless it has failed or returned, what is
    missing is in the buffer, in hand and on the channel. -/
theorem output_in_order (hrun : Run (Output.step C) Always Output.init s) :
    sentBytes s.wire <+: s.accepted.flatten ∧
      (Working s.writer →
        sentBytes s.wire ++ (s.buf ++ inHand s.writer ++ s.out.flatten) = s.accepted.flatten) :=
  ⟨(Inv.of_run hrun).inOrder.sent, (Inv.of_run hrun).inOrder.rest⟩

/-- What waits for a client that does not read is bounded, although the counter is updated after
    the channel; when an answer is checked, the counter has all that waits. -/
theorem output_bounded (hrun : Run (Output.step C) Always Output.init s) :
    (queuedBytes s.out : ℤ) ≤ max C.limit 0 ∧ s.out.length ≤ C.cap ∧ s.buf.length ≤ C.size ∧
      (s.reader = .serving → (queuedBytes s.out : ℤ) ≤ s.outSize ∧
        s.outSize = queuedBytes s.out + overcounted s.writer) := by
  obtain ⟨⟨hsize, -, hlimit, hlength⟩, ⟨-, -, -, hbuffer⟩, -⟩ := Inv.of_run hrun
  refine ⟨hlimit, hlength, hbuffer, fun hr => ?_⟩
  rw [hr] at hsize
  simp only [uncounted] at hsize
  constructor <;> omega

/-- As long as nobody has closed the connection and no write has failed, the writer by itself brings
    every accepted response to the socket. -/
theorem output_delivered (hrun : Run (Output.step C) Always Output.init s)
    (hopen : s.closed = false) (hwriter : s.writer ≠ .failing) :
    ∃ s', Run (Output.step C) (fun _ a => a.Delivers) s s' ∧ s'.accepted = s.accepted ∧
      sentBytes s'.wire = s.accepted.flatten := by
  have h := Inv.of_run hrun
  obtain ⟨hclosed, hpanicked, hlast, -, hsocket⟩ := h.closedBy
  have honce : s.once = false ∧ s.hijacked = false := by
    rw [hopen] at hclosed
    simpa using hclosed.symm
  have hopen' : s.Open := by
    refine ⟨by rw [hpanicked, honce.1]; rfl, ?_⟩
    by_contra hnot
    have hsock := hsocket (by simpa using hnot)
    rw [honce.1] at hsock
    cases hsock
  have hworking : Working s.writer := by
    cases hw : s.writer with
    | failing => exact absurd hw hwriter
    | gone =>
      rw [hlast (.inr hw)] at hopen
      cases hopen
    | _ => trivial
  have hnot : s.writer ≠ .flushing true := by
    intro hw
    rw [hlast (.inl hw)] at hopen
    cases hopen
  obtain ⟨s', hdelivers, hw', hout', hacc⟩ := Delivers.all (C := C) hopen' hworking hnot
  have h' : s'.Inv C := hdelivers.invariant (fun _ _ _ h _ hstep => h.step hstep) h
  have hrest := h'.inOrder.rest (by rw [hw']; trivial)
  rw [h'.inOrder.empty hw', hw', hout', hacc] at hrest
  exact ⟨s', hdelivers, hacc, by simpa [inHand] using hrest⟩

/-- `closed` is closed a second time, which ends the process, exactly when the connection has been
    both hijacked and closed: so a hijacked one must never be closed, and one that its writer or the
    server has closed never be hijacked. -/
theorem closed_twice_iff (hrun : Run (Output.step C) Always Output.init s) :
    (s.panicked = true ↔ s.once = true ∧ s.hijacked = true) ∧
      (s.panicked = false → (s.close.panicked = true ↔ s.hijacked = true) ∧
        (s.reader = .serving → (s.closeChannel.panicked = true ↔ s.once = true))) := by
  have h := Inv.of_run hrun
  have hpanicked := h.closedBy.panicked
  refine ⟨by rw [hpanicked, Bool.and_eq_true], fun hnot => ⟨?_, fun hr => ?_⟩⟩
  · rw [h.close.closedBy.panicked, close_once, close_hijacked, Bool.true_and]
  · have hfirst : s.hijacked = false := by simpa [hr] using h.closedBy.taken
    have hclosed := h.closedBy.closed
    rw [hfirst, Bool.or_false] at hclosed
    unfold closeChannel
    rw [hclosed]
    split_ifs with honce
    · simp [honce]
    · simp [honce, hnot]

/-- When two responses do not fit the buffer together, the frame of a protocol error comes in the
    middle of the second one if the read loop fails while the writer is between its two `Write`s:
    the client sees bytes of the response, the frame, and the rest of the response. -/
theorem direct_frame_splits {C : OutputConfig} {r₁ r₂ : Bytes} (frame : Bytes) (hcap : 2 ≤ C.cap)
    (hr₁ : r₁ ≠ []) (hlimit : (r₁.length + r₂.length : ℤ) ≤ C.limit) (h₁ : r₁.length < C.size)
    (h₂ : r₂.length ≤ C.size) (hboth : C.size < r₁.length + r₂.length) :
    ∃ s, Run (Output.step C) Always Output.init s ∧ s.accepted = [r₁, r₂] ∧
      ∃ n, 0 < n ∧ n < r₂.length ∧
        s.wire.flatMap Chunk.bytes = r₁ ++ r₂.take n ++ frame ++ r₂.drop n := by
  let n := C.size - r₁.length
  let s₁ : Output := { Output.init with
    out := [r₁, r₂], outSize := r₁.length + r₂.length, accepted := [r₁, r₂] }
  let s₂ : Output := { Output.init with
    writer := .writing (r₂.drop n), wire := [⟨false, r₁ ++ r₂.take n⟩], accepted := [r₁, r₂] }
  let s₃ : Output := { Output.init with
    wire := [⟨false, r₁ ++ r₂.take n⟩, ⟨true, frame⟩, ⟨false, r₂.drop n⟩], accepted := [r₁, r₂] }
  have haccepts : exec (Output.step C) Output.init
      [.respond r₁, .send, .count, .respond r₂, .send, .count] = some s₁ := by
    have hlim₁ : ¬ C.limit < r₁.length := by omega
    have hlim₂ : ¬ C.limit < r₁.length + r₂.length := by omega
    have hcap' : 0 < C.cap ∧ 1 < C.cap := by omega
    simp [exec, Output.step, Output.act, Output.init, respond, s₁, hlim₁, hlim₂, hcap']
  -- The first response fits the buffer, the second one fills it.
  have hfills : exec (Output.step C) s₁
      [.receive, .subtract, .write none, .receive, .subtract, .write none] = some s₂ := by
    have hroom : ¬ r₂.length ≤ C.size - r₁.length := by omega
    simp [exec, Output.step, Output.act, Output.init, receive, write, put, bufRound, s₁, s₂, n,
      hroom, hr₁, h₁.le]
  have hsplits : exec (Output.step C) s₂
      [.direct frame frame.length, .write none, .drained, .write none] = some s₃ := by
    have hfit : r₂.length ≤ C.size + (C.size - r₁.length) := by omega
    have hleft : ¬ r₂.length ≤ C.size - r₁.length := by omega
    simp [exec, Output.step, Output.act, Output.init, write, put, bufRound, flushed, s₂, s₃, n,
      hfit, hleft]
  refine ⟨s₃, ((Run.exec haccepts).trans (.exec hfills)).trans (.exec hsplits), rfl, n, ?_, ?_, ?_⟩
  · exact Nat.sub_pos_of_lt h₁
  · show C.size - r₁.length < r₂.length
    omega
  · simp [s₃]

end runs

/-- A connection with small limits. -/
def smallOutput : OutputConfig := { limit := 8, cap := 2, size := 4 }

/-- The writer is in the middle of the second response when the first bytes of it are on the
    socket, and the next response waits. -/
def outputSchedule : List OutputAction :=
  [.respond [1, 2, 3], .send, .receive, .count, .respond [4, 5, 6], .subtract, .write none, .send,
    .count, .receive, .subtract, .respond [7], .write none, .send, .count]

theorem output_in_order_three : ∃ s : Output,
    Run (Output.step smallOutput) Always Output.init s ∧
    s.accepted = [[1, 2, 3], [4, 5, 6], [7]] ∧ s.wire = [⟨false, [1, 2, 3, 4]⟩] ∧
    s.writer = .writing [5, 6] ∧ [1, 2, 3, 4] ++ (s.buf ++ [5, 6] ++ s.out.flatten) =
      [1, 2, 3, 4, 5, 6, 7] := by
  obtain ⟨s, hrun, hacc, hwire, hw⟩ := Run.exists_of_exec (Output.step smallOutput) Output.init
    outputSchedule (fun s => s.accepted = [[1, 2, 3], [4, 5, 6], [7]] ∧
      s.wire = [⟨false, [1, 2, 3, 4]⟩] ∧ s.writer = .writing [5, 6]) (by decide +kernel)
  have hrest := (output_in_order hrun).2 (by rw [hw]; trivial)
  rw [hacc, hwire, hw] at hrest
  exact ⟨s, hrun, hacc, hwire, hw, hrest⟩

theorem output_bounded_three : ∃ s : Output,
    Run (Output.step smallOutput) Always Output.init s ∧ s.out = [[7]] ∧ s.reader = .serving ∧
    s.buf.length ≤ 4 ∧ s.outSize = 1 + Output.overcounted s.writer := by
  obtain ⟨s, hrun, hout, hr⟩ := Run.exists_of_exec (Output.step smallOutput) Output.init
    outputSchedule (fun s => s.out = [[7]] ∧ s.reader = .serving) (by decide +kernel)
  obtain ⟨-, -, hbuf, hcount⟩ := output_bounded hrun
  have hsize := (hcount hr).2
  rw [hout] at hsize
  exact ⟨s, hrun, hout, hr, hbuf, hsize⟩

theorem output_delivered_three : ∃ s s' : Output,
    Run (Output.step smallOutput) Always Output.init s ∧
    s.accepted = [[1, 2, 3], [4, 5, 6], [7]] ∧ s.closed = false ∧ s.writer ≠ .failing ∧
    Run (Output.step smallOutput) (fun _ a => a.Delivers) s s' ∧
    Output.sentBytes s'.wire = [1, 2, 3, 4, 5, 6, 7] := by
  obtain ⟨s, hrun, hacc, hopen, hw⟩ := Run.exists_of_exec (Output.step smallOutput) Output.init
    outputSchedule (fun s => s.accepted = [[1, 2, 3], [4, 5, 6], [7]] ∧ s.closed = false ∧
      s.writer ≠ .failing) (by decide +kernel)
  obtain ⟨s', hdelivers, -, hsent⟩ := output_delivered hrun hopen hw
  exact ⟨s, s', hrun, hacc, hopen, hw, hdelivers, by rw [hsent, hacc]; rfl⟩

/-- A write error after a hijack, and a hijack after a write error. -/
theorem closed_twice_both :
    (∃ s, Run (Output.step smallOutput) Always Output.init s ∧ s.hijacked = true ∧
      s.writer = .failing ∧ s.close.panicked = true) ∧
    ∃ s, Run (Output.step smallOutput) Always Output.init s ∧ s.once = true ∧
      s.reader = .serving ∧ s.closeChannel.panicked = true := by
  constructor
  · obtain ⟨s, hrun, hhijacked, hw, hp⟩ := Run.exists_of_exec (Output.step smallOutput) Output.init
      [.respond [1], .send, .count, .receive, .subtract, .write none, .hijack, .drained,
        .write (some 0)]
      (fun s => s.hijacked = true ∧ s.writer = .failing ∧ s.panicked = false) (by decide +kernel)
    exact ⟨s, hrun, hhijacked, hw, (((closed_twice_iff hrun).2 hp).1).mpr hhijacked⟩
  · obtain ⟨s, hrun, honce, hr, hp⟩ := Run.exists_of_exec (Output.step smallOutput) Output.init
      [.respond [1], .send, .count, .receive, .subtract, .write none, .drained, .write (some 0),
        .writerCloses]
      (fun s => s.once = true ∧ s.reader = .serving ∧ s.panicked = false) (by decide +kernel)
    exact ⟨s, hrun, honce, hr, (((closed_twice_iff hrun).2 hp).2 hr).mpr honce⟩

/-- Two responses of 40000 bytes, with the sizes of the source. -/
theorem direct_frame_splits_large :
    ∃ s, Run (Output.step { limit := 2 ^ 20 }) Always Output.init s ∧
      ∃ n, 0 < n ∧ n < 40000 ∧ s.wire.flatMap Chunk.bytes =
        List.replicate 40000 1 ++ (List.replicate 40000 2).take n ++ [255] ++
          (List.replicate 40000 2).drop n := by
  have hlength : ∀ x : UInt8, (List.replicate 40000 x).length = 40000 :=
    fun _ => List.length_replicate
  have hfirst : List.replicate 40000 (1 : UInt8) ≠ [] := by
    rw [← List.length_pos_iff, hlength]
    norm_num
  have hlimit : ((List.replicate 40000 (1 : UInt8)).length +
      (List.replicate 40000 (2 : UInt8)).length : ℤ) ≤ 2 ^ 20 := by
    rw [hlength, hlength]
    norm_num
  have hless : ∀ x : UInt8, (List.replicate 40000 x).length < 64 * 2 ^ 10 := by
    intro x
    rw [hlength]
    norm_num
  have hboth : 64 * 2 ^ 10 < (List.replicate 40000 (1 : UInt8)).length +
      (List.replicate 40000 (2 : UInt8)).length := by
    rw [hlength, hlength]
    norm_num
  obtain ⟨s, hrun, -, n, hpos, hlt, hwire⟩ := @direct_frame_splits { limit := 2 ^ 20 }
    (List.replicate 40000 1) (List.replicate 40000 2) [255] (by simp) hfirst hlimit (hless 1)
    (hless 2).le hboth
  rw [hlength] at hlt
  exact ⟨s, hrun, n, hpos, hlt, hwire⟩

end KvStore
