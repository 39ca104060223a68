import Mathlib.Data.List.Basic

/-!
# Applying updates again

A history of updates is applied to a state one after another, and a reader of the history may be
made to apply a part of it again before it goes on. `Absorbs` is what makes that harmless: applying
an update makes it irrelevant whether the same update was applied before. Overwriting the state or a
part of it is of this kind, counting is not.

* `Absorbs.foldl`: the same for a list of updates.
* `Absorbs.resume`: if the last updates of the history lead a state to the end of the history, so do
  the updates from any earlier point on.
-/

namespace KvStore.Common

variable {α σ : Type}

/-- Applying `a` makes it irrelevant whether `a` was applied before. -/
def Absorbs (act : σ → α → σ) : Prop :=
  ∀ (a : α) (as : List α) (s : σ), act (as.foldl act (act s a)) a = act (as.foldl act s) a

variable {act : σ → α → σ}

theorem Absorbs.foldl (h : Absorbs act) (bs as : List α) (s : σ) :
    bs.foldl act (as.foldl act (bs.foldl act s)) = bs.foldl act (as.foldl act s) := by
  induction bs generalizing as s with
  | nil => rfl
  | cons b bs ih =>
    -- the first `b` is absorbed by the second, across the updates in between
    have hb : act (as.foldl act (bs.foldl act (act s b))) b =
        act (as.foldl act (bs.foldl act s)) b := by
      simp only [← List.foldl_append]
      exact h b (bs ++ as) s
    have hrest := ih (as ++ [b]) s
    simp only [List.foldl_append, List.foldl_cons, List.foldl_nil] at hrest
    rw [List.foldl_cons, List.foldl_cons, List.foldl_cons, hb, hrest]

theorem Absorbs.resume (h : Absorbs act) {as bs : List α} {s s₀ : σ}
    (hs : bs.foldl act s = bs.foldl act (as.foldl act s₀)) :
    bs.foldl act (as.foldl act s) = bs.foldl act (as.foldl act s₀) := by
  have hagain : bs.foldl act (as.foldl act (bs.foldl act (as.foldl act s₀))) =
      bs.foldl act (as.foldl act s₀) := by
    simpa only [List.foldl_append, List.foldl_nil] using h.foldl (as ++ bs) [] s₀
  calc bs.foldl act (as.foldl act s)
      = bs.foldl act (as.foldl act (bs.foldl act s)) := (h.foldl bs as s).symm
    _ = bs.foldl act (as.foldl act (bs.foldl act (as.foldl act s₀))) := by rw [hs]
    _ = bs.foldl act (as.foldl act s₀) := hagain

end KvStore.Common
