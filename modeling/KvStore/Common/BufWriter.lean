import Mathlib

/-!
# Buffered writers

The loop of `Write` of a `bufio.Writer`, one round at a time: what does not fit the buffer goes to
the sink, through the buffer or, when that is empty, at once. A round is one call of the sink, so
that others who use the sink can come between two of them.
-/

namespace KvStore.Common

variable {α : Type}

/-- A round of `Write` of `p` to a buffer of `size` that holds `buf`: what goes to the sink and what
    is left of `p`, or `none` when `p` fits. -/
def bufRound (size : ℕ) (buf p : List α) : Option (List α × List α) :=
  if p.length ≤ size - buf.length then none
  else if buf.isEmpty then some (p, [])
  else some (buf ++ p.take (size - buf.length), p.drop (size - buf.length))

variable {size : ℕ} {buf p out rest : List α}

theorem bufRound_append (h : bufRound size buf p = some (out, rest)) : out ++ rest = buf ++ p := by
  unfold bufRound at h
  split_ifs at h with hfits hempty
  · obtain ⟨rfl, rfl⟩ : p = out ∧ [] = rest := by simpa using h
    rw [List.isEmpty_iff.mp hempty, List.append_nil, List.nil_append]
  · obtain ⟨rfl, rfl⟩ : _ = out ∧ _ = rest := by simpa using h
    rw [List.append_assoc, List.take_append_drop]

/-- Something goes to the sink, so that the rounds come to an end. -/
theorem bufRound_ne_nil (h : bufRound size buf p = some (out, rest)) : out ≠ [] := by
  unfold bufRound at h
  split_ifs at h with hfits hempty
  · obtain ⟨rfl, -⟩ : p = out ∧ [] = rest := by simpa using h
    intro hp
    simp [hp] at hfits
  · obtain ⟨rfl, -⟩ : _ = out ∧ _ = rest := by simpa using h
    intro hnil
    exact hempty (List.isEmpty_iff.mpr (List.append_eq_nil_iff.mp hnil).1)

theorem bufRound_none_iff : bufRound size buf p = none ↔ p.length ≤ size - buf.length := by
  unfold bufRound
  split_ifs with hfits hempty <;> simp [hfits]

/-- What goes through the buffer is no more than it holds. -/
theorem bufRound_length_le (h : bufRound size buf p = some (out, rest)) (hbuf : buf ≠ [])
    (hsize : buf.length ≤ size) : out.length ≤ size := by
  unfold bufRound at h
  split_ifs at h with hfits hempty
  · exact absurd (List.isEmpty_iff.mp hempty) hbuf
  · obtain ⟨rfl, -⟩ : _ = out ∧ _ = rest := by simpa using h
    simp only [List.length_append, List.length_take]
    omega

theorem bufRound_length (h : bufRound size buf p = some (out, rest)) :
    rest.length < buf.length + p.length := by
  have hlen := congrArg List.length (bufRound_append h)
  have hpos := List.length_pos_iff.mpr (bufRound_ne_nil h)
  simp only [List.length_append] at hlen
  omega

end KvStore.Common
