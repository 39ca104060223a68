import KvStore.Common.Bytes

/-!
# Sources of bytes

An `io.Reader` is a state together with `read`, which yields at most as many bytes as
asked for, and none only at the end of what is to come. `readFull` is `io.ReadFull`, the
loop that asks again until it has everything; `Chunks` is the plain source, which yields
what arrives piece by piece, and `buffered` is a `bufio.Reader` in front of another source.

* `Reader.readFull_spec`: whatever the pieces, the loop takes what it was asked for off
  the front.
-/

namespace KvStore.Common

variable {σ : Type}

/-- A source of bytes. -/
structure Reader (σ : Type) where
  read : σ → ℕ → Bytes × σ
  /-- Everything the source will yield. -/
  content : σ → Bytes
  length_read : ∀ s n, (read s n).1.length ≤ n
  content_read : ∀ s n, content s = (read s n).1 ++ content (read s n).2
  read_eq_nil : ∀ s n, 0 < n → (read s n).1 = [] → content s = []

/-- `io.EOF` and `io.ErrUnexpectedEOF`. -/
inductive ReadErr
  | eof
  | unexpectedEOF
  deriving DecidableEq, Repr

namespace Reader

/-- Ask until `n` bytes are there or the source has ended; every read but the last one yields a
    byte at least, so that `n` rounds are enough. -/
def readLoop (R : Reader σ) : ℕ → σ → ℕ → Bytes × σ
  | 0, s, _ => ([], s)
  | fuel + 1, s, n =>
    if n = 0 then ([], s)
    else
      let (p, s) := R.read s n
      if p = [] then ([], s)
      else
        let (q, s) := R.readLoop fuel s (n - p.length)
        (p ++ q, s)

/-- `io.ReadFull` into a buffer of length `n`. -/
def readFull (R : Reader σ) (s : σ) (n : ℕ) : Bytes × Option ReadErr × σ :=
  let (p, s) := R.readLoop n s n
  (p, if n ≤ p.length then none else if p = [] then some .eof else some .unexpectedEOF, s)

variable (R : Reader σ)

theorem readLoop_spec {fuel n : ℕ} (hn : n ≤ fuel) (s : σ) :
    (R.readLoop fuel s n).1 = (R.content s).take n ∧
      R.content (R.readLoop fuel s n).2 = (R.content s).drop n := by
  induction fuel generalizing s n with
  | zero =>
    obtain rfl : n = 0 := by omega
    exact ⟨rfl, rfl⟩
  | succ fuel ih =>
    unfold readLoop
    by_cases hzero : n = 0
    · rw [if_pos hzero, hzero]
      exact ⟨rfl, rfl⟩
    · rw [if_neg hzero]
      have hcont := R.content_read s n
      have hlen := R.length_read s n
      dsimp only
      by_cases hp : (R.read s n).1 = []
      · have hnil := R.read_eq_nil s n (Nat.pos_of_ne_zero hzero) hp
        rw [hp, hnil, List.nil_append] at hcont
        rw [if_pos hp, hnil, ← hcont]
        exact ⟨List.take_nil.symm, List.drop_nil.symm⟩
      · have hpos := List.length_pos_iff.mpr hp
        obtain ⟨h1, h2⟩ := ih (n := n - (R.read s n).1.length) (by omega) (R.read s n).2
        rw [if_neg hp, hcont, List.take_append, List.drop_append, h1, h2,
          List.take_of_length_le hlen, List.drop_eq_nil_of_le hlen]
        exact ⟨rfl, rfl⟩

/-- `io.ReadFull` takes the bytes it was asked for off the front; when there are not so many it
    takes all and reports the end, as an unexpected one after the first byte. -/
theorem readFull_spec (s : σ) (n : ℕ) :
    (R.readFull s n).1 = (R.content s).take n ∧
      (R.readFull s n).2.1 = (if n ≤ (R.content s).length then none
        else if R.content s = [] then some .eof else some .unexpectedEOF) ∧
      R.content (R.readFull s n).2.2 = (R.content s).drop n := by
  obtain ⟨h1, h2⟩ := R.readLoop_spec le_rfl (n := n) s
  refine ⟨h1, ?_, h2⟩
  show (if n ≤ (R.readLoop n s n).1.length then none
    else if (R.readLoop n s n).1 = [] then some ReadErr.eof else some .unexpectedEOF) = _
  rw [h1, List.length_take]
  by_cases hle : n ≤ (R.content s).length
  · rw [if_pos (by omega), if_pos hle]
  · rw [if_neg (by omega), if_neg hle, List.take_of_length_le (by omega)]

end Reader

/-! ## Pieces as they arrive -/

/-- The pieces that reads will yield, none of them empty. -/
abbrev Chunks := { cs : List Bytes // ∀ c ∈ cs, c ≠ [] }

namespace Chunks

/-- One read: the next piece, or as much of it as there is room for. -/
def read : (cs : List Bytes) → ℕ → Bytes × List Bytes
  | [], _ => ([], [])
  | c :: cs, n => if c.length ≤ n then (c, cs) else (c.take n, c.drop n :: cs)

variable {cs : List Bytes} {n : ℕ}

theorem read_ne_nil (h : ∀ c ∈ cs, c ≠ []) : ∀ c ∈ (read cs n).2, c ≠ [] := by
  cases cs with
  | nil => exact h
  | cons c cs =>
    rw [List.forall_mem_cons] at h
    rw [read]
    split_ifs with hle
    · exact h.2
    · refine List.forall_mem_cons.mpr ⟨?_, h.2⟩
      rw [Ne, List.drop_eq_nil_iff]
      omega

theorem length_read_le : (read cs n).1.length ≤ n := by
  cases cs with
  | nil => exact Nat.zero_le n
  | cons c cs =>
    rw [read]
    split_ifs with hle
    · exact hle
    · exact List.length_take_le n c

theorem flatten_eq_read : cs.flatten = (read cs n).1 ++ (read cs n).2.flatten := by
  cases cs with
  | nil => rfl
  | cons c cs =>
    rw [read]
    split_ifs with hle
    · rfl
    · show c ++ cs.flatten = c.take n ++ (c.drop n ++ cs.flatten)
      rw [← List.append_assoc, List.take_append_drop]

theorem flatten_eq_nil_of_read (hcs : ∀ c ∈ cs, c ≠ []) (hn : 0 < n) (h : (read cs n).1 = []) :
    cs.flatten = [] := by
  cases cs with
  | nil => rfl
  | cons c cs =>
    have hc := hcs c List.mem_cons_self
    rw [read] at h
    split_ifs at h with hle
    · exact absurd h hc
    · rcases List.take_eq_nil_iff.mp h with h | h
      · omega
      · exact absurd h hc

/-- The source that yields the pieces one after another. -/
def reader : Reader Chunks where
  read s n := ((read s.1 n).1, ⟨(read s.1 n).2, read_ne_nil s.2⟩)
  content s := s.1.flatten
  length_read _ _ := length_read_le
  content_read _ _ := flatten_eq_read
  read_eq_nil s _ := flatten_eq_nil_of_read s.2

end Chunks

/-! ## A buffer in front of a source -/

namespace Reader

/-- One `Read` of a `bufio.Reader` with a buffer of `size` bytes, of which `buf` is what it holds:
    an empty buffer is filled by one read of the source, unless the request is at least as large
    and goes to the source itself. -/
def bufferedRead (R : Reader σ) (size : ℕ) (s : Bytes × σ) (n : ℕ) : Bytes × Bytes × σ :=
  if s.1 = [] then
    if size ≤ n then
      let (p, src) := R.read s.2 n
      (p, [], src)
    else
      let (p, src) := R.read s.2 size
      (p.take n, p.drop n, src)
  else (s.1.take n, s.1.drop n, s.2)

/-- A `bufio.Reader` of `size` bytes. -/
def buffered (R : Reader σ) (size : ℕ) : Reader (Bytes × σ) where
  read s n := R.bufferedRead size s n
  content s := s.1 ++ R.content s.2
  length_read s n := by
    unfold bufferedRead
    split_ifs
    · exact R.length_read _ _
    · exact List.length_take_le _ _
    · exact List.length_take_le _ _
  content_read s n := by
    unfold bufferedRead
    split_ifs with hbuf
    · rw [hbuf, List.nil_append]
      exact R.content_read s.2 n
    · rw [hbuf, List.nil_append]
      show R.content s.2 = _ ++ (_ ++ _)
      rw [← List.append_assoc, List.take_append_drop]
      exact R.content_read s.2 size
    · show s.1 ++ R.content s.2 = _ ++ (_ ++ _)
      rw [← List.append_assoc, List.take_append_drop]
  read_eq_nil s n hn h := by
    unfold bufferedRead at h
    split_ifs at h with hbuf hsize
    · rw [hbuf, List.nil_append]
      exact R.read_eq_nil s.2 n hn h
    · rw [hbuf, List.nil_append]
      rcases List.take_eq_nil_iff.mp h with h | h
      · omega
      · exact R.read_eq_nil s.2 size (by omega) h
    · rcases List.take_eq_nil_iff.mp h with h | h
      · omega
      · exact absurd h hbuf

end Reader

end KvStore.Common
