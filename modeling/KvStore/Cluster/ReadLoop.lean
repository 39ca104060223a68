import KvStore.Common.Memory
import KvStore.Engine.Recovery
import KvStore.Wal.Segment

/-!
# What a replica persists

The read loop of `replicateOnce` (`internal/cluster/replica.go` lines 131–190) and the
WAL goroutine of the replica, with the memory they share. `readMsg` (stream.go lines
112–146) reads every record into the same buffer as long as it fits, and the record it
returns consists of slices of that buffer; `ApplyReplicated` (commands.go lines 439–448)
copies them into the store, and queues the record with its slices for the WAL goroutine,
which reads them when it serialises the record.

* `replica_persists_messages`: as long as no buffer is read into while a queued record
  looks at it, the log holds what the messages carried.
* `replica_persists_overwritten`: otherwise it holds something else.
-/

namespace KvStore

open KvStore.Common

/-! ## Records as slices -/

/-- A `wal.Record` as `DecodeRecord` returns it. -/
structure RecordView where
  lsn : ℕ
  createdAtMs : UInt64
  type : RecordType
  flags : UInt8
  key : Slice
  value : Slice
  expireAtMs : UInt64

/-- The record that the slices hold now. -/
def RecordView.deref (v : RecordView) (m : Memory UInt8) : Record where
  lsn := v.lsn
  createdAtMs := v.createdAtMs
  type := v.type
  flags := v.flags
  key := v.key.read m
  value := v.value.read m
  expireAtMs := v.expireAtMs

/-- None of the slices is one of array `a`. -/
def RecordView.Avoids (v : RecordView) (a : ℕ) : Prop := v.key.arr ≠ a ∧ v.value.arr ≠ a

instance (v : RecordView) (a : ℕ) : Decidable (v.Avoids a) := inferInstanceAs (Decidable (_ ∧ _))

/-- `r` as it lies at the front of array `a`. -/
def Record.viewIn (r : Record) (a : ℕ) : RecordView where
  lsn := r.lsn
  createdAtMs := r.createdAtMs
  type := r.type
  flags := r.flags
  key := ⟨a, recHeaderLen + payloadHeaderLen, r.key.length⟩
  value := ⟨a, recHeaderLen + payloadHeaderLen + r.key.length, r.value.length⟩
  expireAtMs := r.expireAtMs

/-- `DecodeRecord` of the first `total` bytes of array `a` (record.go lines 158–210). -/
def decodeView (m : Memory UInt8) (a total : ℕ) : Except DecodeError RecordView :=
  match decodeRecord ((m a).take total) total with
  | .error e => .error e
  | .ok (r, _) => .ok (r.viewIn a)

/-- What the bytes of a record message carry. -/
def carried (msg : Bytes) : Option Record := (decodeRecord msg msg.length).toOption.map Prod.fst

/-- The part of `buf` that a field of a decoded payload is. -/
theorem take_drop_payload (buf : Bytes) {length off len : ℕ} (h : off + len ≤ length) :
    (((buf.drop recHeaderLen).take length).drop off).take len =
      (buf.drop (recHeaderLen + off)).take len := by
  rw [List.drop_take, List.take_take, List.drop_drop, Nat.min_eq_left (by omega)]

/-- Key and value of a decoded record are where `decodeView` says they are, and no longer than
    a record may hold. -/
theorem decodeRecord_fields {buf : Bytes} {rem n : ℕ} {r : Record}
    (h : decodeRecord buf rem = .ok (r, n)) :
    r.key = (buf.drop (recHeaderLen + payloadHeaderLen)).take r.key.length ∧
      r.value =
        (buf.drop (recHeaderLen + payloadHeaderLen + r.key.length)).take r.value.length ∧
      r.encodedLen ≤ buf.length ∧ r.key.length ≤ maxKeyLen ∧ r.value.length ≤ maxValLen := by
  unfold decodeRecord at h
  dsimp only at h
  split_ifs at h with h1 h2 h3 h4 h5
  split at h
  · cases h
  rename_i r' hp
  obtain ⟨rfl, -⟩ : r' = r ∧ _ := by simpa using h
  unfold decodePayload at hp
  dsimp only at hp
  split_ifs at hp with h6 h7 h8
  split at hp
  · cases hp
  have hlen : ((buf.drop recHeaderLen).take (field buf 4 4)).length = field buf 4 4 := by
    simp only [List.length_take, List.length_drop]
    omega
  have hsum := not_not.mp h8
  have hkey := congrArg Record.key (Except.ok.inj hp)
  have hval := congrArg Record.value (Except.ok.inj hp)
  dsimp only at hkey hval
  rw [take_drop_payload _ (by omega)] at hkey hval
  have hkl := congrArg List.length hkey
  rw [List.length_take, List.length_drop, Nat.min_eq_left (by omega)] at hkl
  have hvl := congrArg List.length hval
  rw [List.length_take, List.length_drop, Nat.min_eq_left (by omega)] at hvl
  rw [Record.encodedLen, ← hkl, ← hvl, Nat.add_assoc recHeaderLen]
  exact ⟨hkey.symm, hval.symm, by omega, by omega, by omega⟩

/-- The slices of a record that was decoded from the buffer hold that record. -/
theorem viewIn_deref {m : Memory UInt8} {a n : ℕ} {msg : Bytes} {r : Record}
    (h : (m a).take msg.length = msg) (hr : decodeRecord msg msg.length = .ok (r, n)) :
    (r.viewIn a).deref m = r := by
  obtain ⟨hkey, hval, hlen, -⟩ := decodeRecord_fields hr
  rw [Record.encodedLen] at hlen
  have hk : Slice.read ⟨a, recHeaderLen + payloadHeaderLen, r.key.length⟩ m = r.key := by
    rw [Slice.read_take (n := msg.length) (by dsimp only; omega)]
    dsimp only
    rw [h, ← hkey]
  have hv : Slice.read ⟨a, recHeaderLen + payloadHeaderLen + r.key.length, r.value.length⟩ m =
      r.value := by
    rw [Slice.read_take (n := msg.length) (by dsimp only; omega)]
    dsimp only
    rw [h, ← hval]
  rw [RecordView.deref, Record.viewIn]
  dsimp only
  rw [hk, hv]

theorem decodeView_ok {m : Memory UInt8} {a : ℕ} {msg : Bytes}
    (h : (m a).take msg.length = msg) {v : RecordView} (hv : decodeView m a msg.length = .ok v) :
    carried msg = some (v.deref m) ∧ v.key.arr = a ∧ v.value.arr = a ∧
      (v.type ≠ .segmentHdr → (v.deref m).Submittable) := by
  unfold decodeView at hv
  rw [h] at hv
  split at hv
  · cases hv
  rename_i r n hr
  obtain rfl := Except.ok.inj hv
  obtain ⟨-, -, -, hkmax, hvmax⟩ := decodeRecord_fields hr
  rw [viewIn_deref h hr]
  refine ⟨?_, rfl, rfl, fun htype => ⟨hkmax, hvmax, htype⟩⟩
  rw [carried, hr]
  rfl

/-! ## The two goroutines -/

/-- `maxStreamPayload` (stream.go line 64). -/
def maxStreamPayload : ℕ := maxRecordLen + 64

/-- The read loop, the WAL goroutine and their memory. `buf` is the array behind the buffer,
    `reading` the bytes of the record message being read and how many of them have been
    copied. `applied` is the history: what the messages that `ApplyReplicated` took carried,
    with the clock readings they were applied at. -/
structure ReadLoop where
  memory : Memory UInt8
  arrays : ℕ
  buf : Option ℕ
  reading : Option (Bytes × ℕ)
  store : Store
  nextLSN : ℕ
  queue : List RecordView
  wal : Bytes
  applied : List (Record × UInt64 × UInt64)

/-- A replica that has opened its log and not connected yet. -/
def ReadLoop.start (store : Store) (nextLSN : ℕ) : ReadLoop :=
  ⟨fun _ => [], 0, none, none, store, nextLSN, [], [], []⟩

inductive LoopAction
  | header (msg : Bytes)
  | body (n : ℕ)
  | apply (nowMs nowMono : UInt64)
  | serialise
  | disconnect

namespace ReadLoop

/-- `replicateOnce` returns; the next session starts with an empty buffer. -/
def disconnect (s : ReadLoop) : ReadLoop := { s with buf := none, reading := none }

/-- The array that `readMsg` reads a record of `total` bytes into (stream.go lines 130–133). -/
def target (s : ReadLoop) (total : ℕ) : ℕ :=
  match s.buf with
  | none => s.arrays
  | some a => if (s.memory a).length < total then s.arrays else a

/-- The memory with room for `total` bytes there. -/
def room (s : ReadLoop) (total : ℕ) : Memory UInt8 :=
  if s.target total = s.arrays then Function.update s.memory s.arrays (List.replicate total 0)
  else s.memory

/-- `readMsg` up to the copy of the header (lines 119–134). -/
def header (s : ReadLoop) (msg : Bytes) : Option ReadLoop :=
  if s.reading.isSome ∨ msg.length < recHeaderLen ∨
      msg.length ≠ recHeaderLen + field msg 4 4 then none
  else if field msg 4 4 > maxStreamPayload then some s.disconnect
  else
    let a := s.target msg.length
    some { s with
      memory := (s.room msg.length).write a 0 (msg.take recHeaderLen)
      arrays := if a = s.arrays then s.arrays + 1 else s.arrays
      buf := some a
      reading := some (msg, recHeaderLen) }

/-- The next `n` bytes of the record come in (line 135). -/
def body (s : ReadLoop) (n : ℕ) : Option ReadLoop :=
  match s.reading, s.buf with
  | some (msg, k), some a =>
    if k + n ≤ msg.length then
      some { s with
        memory := s.memory.write a k ((msg.drop k).take n)
        reading := some (msg, k + n) }
    else none
  | _, _ => none

/-- What `Submit` queues for `v`. -/
def stamped (s : ReadLoop) (v : RecordView) (nowMs : UInt64) : RecordView :=
  { v with
    lsn := s.nextLSN
    createdAtMs := if v.createdAtMs = 0 then nowMs else v.createdAtMs }

/-- The rest of `readMsg` (lines 138–143), and `ApplyReplicated` of the record. -/
def apply (s : ReadLoop) (nowMs nowMono : UInt64) : Option ReadLoop :=
  match s.reading, s.buf with
  | some (msg, k), some a =>
    if k < msg.length then none
    else
      match decodeView s.memory a msg.length with
      | .error _ => some s.disconnect
      | .ok v =>
        match s.store.applyRecord nowMs nowMono (v.deref s.memory) with
        | none => some s.disconnect
        | some store =>
          if (v.deref s.memory).Submittable then
            some { s with
              reading := none
              store := store
              nextLSN := s.nextLSN + 1
              queue := s.queue ++ [s.stamped v nowMs]
              applied := s.applied ++ (carried msg).toList.map fun r => (r, nowMs, nowMono) }
          else some { s.disconnect with store := store }
  | _, _ => none

/-- The WAL goroutine serialises the next record (writer.go lines 344–347). -/
def serialise (s : ReadLoop) : Option ReadLoop :=
  match s.queue with
  | [] => none
  | v :: queue => some { s with queue := queue, wal := s.wal ++ appendRecord (v.deref s.memory) }

def step (s : ReadLoop) : LoopAction → Option ReadLoop
  | .header msg => s.header msg
  | .body n => s.body n
  | .apply nowMs nowMono => s.apply nowMs nowMono
  | .serialise => s.serialise
  | .disconnect => some s.disconnect

end ReadLoop

/-- A message is read into an array only when no record in the queue looks at it. -/
def LoopAction.Unshared (s : ReadLoop) : LoopAction → Prop
  | .header msg => ∀ v ∈ s.queue, v.Avoids (s.target msg.length)
  | _ => True

instance (s : ReadLoop) (a : LoopAction) : Decidable (a.Unshared s) :=
  match a with
  | .header msg => inferInstanceAs (Decidable (∀ v ∈ s.queue, v.Avoids (s.target msg.length)))
  | .body _ | .apply _ _ | .serialise | .disconnect => .isTrue trivial

/-! ## What the log says -/

/-- The log holds `ws`, and with what is queued that is what the messages carried, numbered
    from `n` on. -/
structure ReadLoop.Holds (n : ℕ) (s : ReadLoop) (ws : List Record) : Prop where
  wal : s.wal = encodeRecords ws
  carries : List.Forall₂ Record.Carries (ws ++ s.queue.map (·.deref s.memory))
    (s.applied.map Prod.fst)
  lsns : (ws ++ s.queue.map (·.deref s.memory)).map Record.lsn = List.range' n s.applied.length

/-- The message being read: the part that has come in is in the buffer, and nobody else
    looks there. -/
structure ReadLoop.Reading (s : ReadLoop) (msg : Bytes) (k a : ℕ) : Prop where
  buf : s.buf = some a
  le : k ≤ msg.length
  room : msg.length ≤ (s.memory a).length
  front : (s.memory a).take k = msg.take k
  alone : ∀ v ∈ s.queue, v.Avoids a

structure ReadLoop.Inv (s₀ : Store) (n : ℕ) (s : ReadLoop) : Prop where
  buf : ∀ a, s.buf = some a → a < s.arrays
  views : ∀ v ∈ s.queue, ∀ a, s.arrays ≤ a → v.Avoids a
  reading : ∀ msg k, s.reading = some (msg, k) → ∃ a, s.Reading msg k a
  log : ∃ ws, s.Holds n ws
  nextLSN : s.nextLSN = n + s.applied.length
  memory : replayAt s₀ s.applied = some s.store

variable {s₀ : Store} {n : ℕ} {s t : ReadLoop}

/-- Slices of other arrays do not see a write. -/
theorem RecordView.deref_congr {v : RecordView} {a : ℕ} {m m' : Memory UInt8} (hv : v.Avoids a)
    (h : ∀ b, b ≠ a → m' b = m b) : v.deref m' = v.deref m := by
  rw [RecordView.deref, RecordView.deref, Slice.read_congr (h _ hv.1), Slice.read_congr (h _ hv.2)]

theorem ReadLoop.Holds.congr {a : ℕ} {ws : List Record} (h : s.Holds n ws) (hwal : t.wal = s.wal)
    (hqueue : t.queue = s.queue) (happlied : t.applied = s.applied)
    (hmem : ∀ b, b ≠ a → t.memory b = s.memory b) (halone : ∀ v ∈ s.queue, v.Avoids a) :
    t.Holds n ws := by
  have hderef : t.queue.map (·.deref t.memory) = s.queue.map (·.deref s.memory) := by
    rw [hqueue]
    exact List.map_congr_left fun v hv => RecordView.deref_congr (halone v hv) hmem
  refine ⟨hwal.trans h.wal, ?_, ?_⟩
  · rw [happlied, hderef]
    exact h.carries
  · rw [happlied, hderef]
    exact h.lsns

theorem ReadLoop.Inv.start (s₀ : Store) (n : ℕ) : (ReadLoop.start s₀ n).Inv s₀ n where
  buf := by intro a h; cases h
  views := by intro v h; cases h
  reading := by intro msg k h; cases h
  log := ⟨[], rfl, .nil, rfl⟩
  nextLSN := rfl
  memory := rfl

theorem ReadLoop.Inv.disconnect (h : s.Inv s₀ n) : s.disconnect.Inv s₀ n where
  buf := by intro a h; cases h
  views := h.views
  reading := by intro msg k h; cases h
  log := by
    obtain ⟨ws, hws⟩ := h.log
    exact ⟨ws, hws.wal, hws.carries, hws.lsns⟩
  nextLSN := h.nextLSN
  memory := h.memory

theorem ReadLoop.room_of_ne {total b : ℕ} (hb : b ≠ s.target total) :
    s.room total b = s.memory b := by
  unfold ReadLoop.room
  split_ifs with ha
  · exact Function.update_of_ne (ha ▸ hb) _ _
  · rfl

theorem ReadLoop.le_length_room (s : ReadLoop) (total : ℕ) :
    total ≤ (s.room total (s.target total)).length := by
  unfold ReadLoop.room
  split_ifs with ha
  · rw [ha, Function.update_self, List.length_replicate]
  · unfold ReadLoop.target at ha ⊢
    cases hbuf : s.buf with
    | none => exact absurd (by rw [hbuf]) ha
    | some a =>
      simp only [hbuf] at ha ⊢
      split_ifs at ha ⊢ with hlen
      · exact absurd rfl ha
      · omega

theorem ReadLoop.Inv.target_lt (h : s.Inv s₀ n) {total : ℕ} (ha : s.target total ≠ s.arrays) :
    s.target total < s.arrays := by
  unfold ReadLoop.target at ha ⊢
  cases hbuf : s.buf with
  | none => exact absurd (by rw [hbuf]) ha
  | some a =>
    simp only [hbuf] at ha ⊢
    split_ifs at ha ⊢ with hlen
    · exact absurd rfl ha
    · exact h.buf a hbuf

theorem ReadLoop.Inv.header (h : s.Inv s₀ n) {msg : Bytes}
    (hok : ∀ v ∈ s.queue, v.Avoids (s.target msg.length)) (ht : s.header msg = some t) :
    t.Inv s₀ n := by
  unfold ReadLoop.header at ht
  split_ifs at ht with hfree hbig
  · obtain rfl := Option.some.inj ht
    exact h.disconnect
  obtain rfl := Option.some.inj ht
  have hhdr : (msg.take recHeaderLen).length = recHeaderLen := by
    rw [List.length_take]
    omega
  have hroom := s.le_length_room msg.length
  -- arrays are only added, and the one read into is among them
  have harrays : s.arrays ≤ (if s.target msg.length = s.arrays then s.arrays + 1 else s.arrays) ∧
      s.target msg.length <
        (if s.target msg.length = s.arrays then s.arrays + 1 else s.arrays) := by
    split_ifs with ha
    · omega
    · exact ⟨le_refl _, h.target_lt ha⟩
  refine ⟨?_, ?_, ?_, ?_, h.nextLSN, h.memory⟩
  · rintro a ⟨⟩
    exact harrays.2
  · intro v hv a ha
    exact h.views v hv a (harrays.1.trans ha)
  · rintro msg' k ⟨⟩
    refine ⟨_, rfl, by omega, ?_, ?_, hok⟩
    · rw [Memory.length_write (by rw [hhdr]; omega)]
      exact hroom
    · have htake := Memory.take_write (m := s.room msg.length) (a := s.target msg.length)
        (msg.take recHeaderLen) (Nat.zero_le _)
      rw [hhdr, Nat.zero_add, List.take_zero, List.nil_append] at htake
      exact htake
  · obtain ⟨ws, hws⟩ := h.log
    refine ⟨ws, hws.congr rfl rfl rfl (a := s.target msg.length) (fun b hb => ?_) hok⟩
    exact (Memory.write_of_ne hb).trans (ReadLoop.room_of_ne hb)

theorem ReadLoop.Inv.body (h : s.Inv s₀ n) {m : ℕ} (ht : s.body m = some t) : t.Inv s₀ n := by
  unfold ReadLoop.body at ht
  split at ht
  · rename_i msg k a hreading hbuf
    split_ifs at ht with hm
    obtain rfl := Option.some.inj ht
    obtain ⟨a', hr⟩ := h.reading msg k hreading
    obtain rfl : a' = a := Option.some.inj (hr.buf.symm.trans hbuf)
    have hlen : ((msg.drop k).take m).length = m := by
      rw [List.length_take, List.length_drop]
      omega
    have hroom := hr.room
    refine ⟨h.buf, h.views, ?_, ?_, h.nextLSN, h.memory⟩
    · rintro msg' k' ⟨⟩
      refine ⟨a', hr.buf, hm, ?_, ?_, hr.alone⟩
      · rw [Memory.length_write (by rw [hlen]; omega)]
        exact hroom
      · have htake := Memory.take_write ((msg.drop k).take m)
          (show k ≤ (s.memory a').length by omega)
        rw [hlen, hr.front, ← List.take_add] at htake
        exact htake
    · obtain ⟨ws, hws⟩ := h.log
      exact ⟨ws, hws.congr rfl rfl rfl (fun b hb => Memory.write_of_ne hb) hr.alone⟩
  · cases ht

theorem ReadLoop.Inv.apply (h : s.Inv s₀ n) {nowMs nowMono : UInt64}
    (ht : s.apply nowMs nowMono = some t) : t.Inv s₀ n := by
  unfold ReadLoop.apply at ht
  split at ht
  · rename_i msg k a hreading hbuf
    split_ifs at ht with hk
    obtain ⟨a', hr⟩ := h.reading msg k hreading
    obtain rfl : a' = a := Option.some.inj (hr.buf.symm.trans hbuf)
    split at ht
    · obtain rfl := Option.some.inj ht
      exact h.disconnect
    rename_i v hv
    obtain rfl : k = msg.length := by
      have := hr.le
      omega
    obtain ⟨hcarried, hkey, hvalue, hsubmit⟩ :=
      decodeView_ok (hr.front.trans (List.take_length)) hv
    split at ht
    · obtain rfl := Option.some.inj ht
      exact h.disconnect
    rename_i store hstore
    split_ifs at ht with hsub
    · obtain rfl := Option.some.inj ht
      have hviews : ∀ v' ∈ s.queue ++ [s.stamped v nowMs], v' ∈ s.queue ∨
          v'.key.arr = a' ∧ v'.value.arr = a' := by
        intro v' hv'
        rcases List.mem_append.mp hv' with hv' | hv'
        · exact .inl hv'
        · rw [List.mem_singleton.mp hv']
          exact .inr ⟨hkey, hvalue⟩
      refine ⟨h.buf, ?_, fun msg k h => (by cases h), ?_, ?_, ?_⟩
      · intro v' hv' b hb
        rcases hviews v' hv' with hold | ⟨hk', hv''⟩
        · exact h.views v' hold b hb
        · have ha := h.buf a' hbuf
          have hb' : s.arrays ≤ b := hb
          exact ⟨by omega, by omega⟩
      · obtain ⟨ws, hwal, hcarries, hlsns⟩ := h.log
        rw [hcarried]
        refine ⟨ws, hwal, ?_, ?_⟩
        · simp only [Option.toList_some, List.map_cons, List.map_nil, List.map_append]
          rw [← List.append_assoc]
          exact List.rel_append hcarries (.cons rfl .nil)
        · simp only [Option.toList_some, List.map_cons, List.map_nil, List.map_append,
            List.length_append, List.length_singleton, List.range'_concat] at hlsns ⊢
          rw [← List.append_assoc, hlsns, Nat.one_mul, ← h.nextLSN]
          rfl
      · show s.nextLSN + 1 = _
        rw [hcarried, h.nextLSN]
        simp [Nat.add_assoc]
      · show replayAt s₀ (s.applied ++ _) = _
        rw [hcarried, replayAt, List.foldlM_append]
        show ((replayAt s₀ s.applied).bind _) = _
        rw [h.memory]
        show (s.store.applyRecord nowMs nowMono _).bind _ = _
        rw [hstore]
        rfl
    · -- a segment header: the store ignores it, `Submit` refuses it
      obtain rfl := Option.some.inj ht
      have htype : v.type = .segmentHdr := by
        by_contra hne
        exact hsub (hsubmit hne)
      have hsame : s.store = store := by
        have hty : (v.deref s.memory).type = .segmentHdr := htype
        simpa [Store.applyRecord, hty] using hstore
      exact hsame ▸ h.disconnect
  · cases ht

theorem ReadLoop.Inv.serialise (h : s.Inv s₀ n) (ht : s.serialise = some t) : t.Inv s₀ n := by
  unfold ReadLoop.serialise at ht
  split at ht
  · cases ht
  rename_i v queue hqueue
  obtain rfl := Option.some.inj ht
  have hsub : ∀ v' ∈ queue, v' ∈ s.queue := fun v' hv' => hqueue ▸ List.mem_cons_of_mem _ hv'
  refine ⟨h.buf, fun v' hv' => h.views v' (hsub v' hv'), ?_, ?_, h.nextLSN, h.memory⟩
  · intro msg k hk
    obtain ⟨a, hr⟩ := h.reading msg k hk
    exact ⟨a, hr.buf, hr.le, hr.room, hr.front, fun v' hv' => hr.alone v' (hsub v' hv')⟩
  · obtain ⟨ws, hwal, hcarries, hlsns⟩ := h.log
    rw [hqueue, List.map_cons, List.append_cons] at hcarries hlsns
    refine ⟨ws ++ [v.deref s.memory], ?_, hcarries, hlsns⟩
    show s.wal ++ _ = _
    rw [hwal, encodeRecords_append, encodeRecords_cons, encodeRecords_nil, List.append_nil]

theorem ReadLoop.Inv.step (h : s.Inv s₀ n) {a : LoopAction} (hok : a.Unshared s)
    (ht : s.step a = some t) : t.Inv s₀ n := by
  cases a with
  | header msg => exact h.header hok ht
  | body m => exact h.body ht
  | apply nowMs nowMono => exact h.apply ht
  | serialise => exact h.serialise ht
  | disconnect =>
    obtain rfl := Option.some.inj ht
    exact h.disconnect

/-- Records that say the same do the same to the store. -/
theorem replayAt_of_carries {ws : List Record} {rs : List (Record × UInt64 × UInt64)}
    (h : List.Forall₂ Record.Carries ws (rs.map Prod.fst)) (s : Store) :
    replayAt s (ws.zip (rs.map Prod.snd)) = replayAt s rs := by
  induction rs generalizing ws s with
  | nil =>
    cases h
    rfl
  | cons r rs ih =>
    obtain ⟨w, ws, hw, hws, rfl⟩ := List.forall₂_cons_right_iff.mp h
    show (s.applyRecord r.2.1 r.2.2 w).bind (replayAt · (ws.zip (rs.map Prod.snd))) =
      (s.applyRecord r.2.1 r.2.2 r.1).bind (replayAt · rs)
    rw [hw.applyRecord]
    congr 1
    funext s'
    exact ih hws s'

/-- Without EXPIRE records it does not matter when they are replayed. -/
theorem foldl_of_carries {ws : List Record} {rs : List (Record × UInt64 × UInt64)}
    (h : List.Forall₂ Record.Carries ws (rs.map Prod.fst)) (habs : ∀ w ∈ ws, w.Absolute)
    (now : UInt64) (m : Keyspace Bytes Bytes) :
    ws.foldl (applyWith (Record.effectAt now)) m = rs.foldl applyAt m := by
  induction rs generalizing ws m with
  | nil =>
    cases h
    rfl
  | cons r rs ih =>
    obtain ⟨w, ws, hw, hws, rfl⟩ := List.forall₂_cons_right_iff.mp h
    have hstep : applyWith (Record.effectAt now) m w = applyAt m r := by
      rw [applyAt, ← hw.apply_effectAt]
      unfold applyWith
      rw [(habs w List.mem_cons_self).effectAt_eq, (habs w List.mem_cons_self).effectAt_eq]
    rw [List.foldl_cons, List.foldl_cons, hstep]
    exact ih hws (fun w' hw' => habs w' (List.mem_cons_of_mem _ hw')) _

/-- As long as messages are read only into arrays that no queued record looks at, the log
    holds, message by message, what the messages carried, and memory is what the messages
    make of the store. Once the queue is empty, the records of the log applied at the same
    readings give the store in memory; and if none is an EXPIRE and there is no memory limit,
    recovery from them at any later time gives its contents. -/
theorem replica_persists_messages
    (hrun : Run ReadLoop.step (fun s a => a.Unshared s) (.start s₀ n) s) :
    ∃ ws, s.wal = encodeRecords ws ∧ ws.length + s.queue.length = s.applied.length ∧
      List.Forall₂ Record.Carries ws ((s.applied.take ws.length).map Prod.fst) ∧
      replayAt s₀ s.applied = some s.store ∧
      (s.queue = [] → replayAt s₀ (ws.zip (s.applied.map Prod.snd)) = some s.store ∧
        (s₀.Keyed → (∀ w ∈ ws, w.Absolute) → ∀ s₁ : Store, s₁.Keyed → s₁.contents = s₀.contents →
          ∀ minLSN < n, ∀ nowMs nowMono, ∃ s', s₁.recover nowMs nowMono [] minLSN ws = some s' ∧
            s'.contents = s.store.contents)) := by
  have hinv : s.Inv s₀ n := hrun.invariant (fun _ _ _ h hok ht => h.step hok ht) (.start s₀ n)
  obtain ⟨ws, hwal, hcarries, hlsns⟩ := hinv.log
  have hlen := hcarries.length_eq
  simp only [List.length_append, List.length_map] at hlen
  refine ⟨ws, hwal, hlen, ?_, hinv.memory, fun hqueue => ?_⟩
  · have htake := List.forall₂_take ws.length hcarries
    rw [List.take_left' rfl, ← List.map_take] at htake
    exact htake
  rw [hqueue, List.map_nil, List.append_nil] at hcarries hlsns
  refine ⟨(replayAt_of_carries hcarries s₀).trans hinv.memory, ?_⟩
  intro hs₀ habs s₁ hs₁ hcont minLSN hmin nowMs nowMono
  obtain ⟨s', hrec, -, hs'⟩ := hs₁.recover nowMs nowMono [] minLSN ws
  have hall : ws.filter (fun r => minLSN < r.lsn) = ws := by
    refine List.filter_eq_self.mpr fun w hw => ?_
    have hmem := List.mem_map_of_mem (f := Record.lsn) hw
    rw [hlsns, List.mem_range'_1] at hmem
    exact decide_eq_true (by omega)
  obtain ⟨s'', hreplay, -, hs''⟩ := hs₀.replayAt s.applied
  obtain rfl := Option.some.inj (hreplay.symm.trans hinv.memory)
  refine ⟨s', hrec, ?_⟩
  rw [hs', hall, hs'', List.foldl_nil, hcont]
  exact foldl_of_carries hcarries habs nowMs _

/-! ## Two messages of the same length -/

/-- A SET of a one-byte key to a one-byte value. -/
def tinySet (lsn : ℕ) (key value : UInt8) : Record :=
  ⟨lsn, 1, .set, 0, [key], [value], 0⟩

/-- The second message is read after the first record has been serialised. -/
theorem replica_persists_two :
    ∃ s, Run ReadLoop.step (fun s a => a.Unshared s) (.start (newStore oneShard 0) 1) s ∧
      s.queue = [] ∧ s.applied.map Prod.fst = [tinySet 1 1 2, tinySet 2 3 4] ∧
      ∃ ws, s.wal = encodeRecords ws ∧
        List.Forall₂ Record.Carries ws [tinySet 1 1 2, tinySet 2 3 4] := by
  obtain ⟨s, hrun, hqueue, happlied⟩ := Run.exists_of_guarded ReadLoop.step
    (fun s a => a.Unshared s) (.start (newStore oneShard 0) 1)
    [.header (appendRecord (tinySet 1 1 2)), .body 34, .apply 5 5, .serialise,
      .header (appendRecord (tinySet 2 3 4)), .body 34, .apply 6 6, .serialise]
    (fun s => s.queue.length = 0 ∧ s.applied.map Prod.fst = [tinySet 1 1 2, tinySet 2 3 4])
    (by decide +kernel)
  obtain ⟨ws, hwal, hlen, hcarries, -⟩ := replica_persists_messages hrun
  refine ⟨s, hrun, List.eq_nil_of_length_eq_zero hqueue, happlied, ws, hwal, ?_⟩
  rw [List.take_of_length_le (by omega), happlied] at hcarries
  exact hcarries

/-- The second message is read before that: the log has its record twice, while the store has
    both keys. -/
theorem replica_persists_overwritten :
    ∃ s, Run ReadLoop.step Always (.start (newStore oneShard 0) 1) s ∧ s.queue = [] ∧
      s.applied.map Prod.fst = [tinySet 1 1 2, tinySet 2 3 4] ∧
      s.wal = encodeRecords [tinySet 1 3 4, tinySet 2 3 4] ∧
      s.store.contents [1] = some ([2], 0) ∧ s.store.contents [3] = some ([4], 0) := by
  obtain ⟨s, hrun, hqueue, hfacts⟩ := Run.exists_of_exec ReadLoop.step
    (.start (newStore oneShard 0) 1)
    [.header (appendRecord (tinySet 1 1 2)), .body 34, .apply 5 5,
      .header (appendRecord (tinySet 2 3 4)), .body 34, .apply 6 6, .serialise, .serialise]
    (fun s => s.queue.length = 0 ∧ s.applied.map Prod.fst = [tinySet 1 1 2, tinySet 2 3 4] ∧
      s.wal = encodeRecords [tinySet 1 3 4, tinySet 2 3 4] ∧
      s.store.contents [1] = some ([2], 0) ∧ s.store.contents [3] = some ([4], 0))
    (by decide +kernel)
  exact ⟨s, hrun, List.eq_nil_of_length_eq_zero hqueue, hfacts⟩

end KvStore
