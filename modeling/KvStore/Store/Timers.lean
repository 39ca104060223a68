import KvStore.Store.WheelInv

/-!
# Timers over whole runs of the wheel

Any sequence of `Add` and `Advance` (`internal/store/wheel.go` lines 76–158), with any jumps of the
clock. Two timers may have the same key and deadline, and are different objects in the code. To tell
them apart, a second run of the same calls numbers each key with the call that adds it; the wheel
does not look at keys, so the two runs are the same but for the numbers.

* `wheel_timers`: no timer is lost or duplicated, `Pending` is the number held, and a timer put down
  for tick `T` within reach comes due at `T` or `T + 1`.
-/

namespace KvStore

open KvStore.Common

/-! ## Model -/

/-- The calls of a wheel. -/
inductive WheelCall (κ : Type := Bytes)
  | add (key : κ) (expireAt : UInt64)
  | advance (nowMs : UInt64)

section

variable {κ : Type}

namespace Wheel

/-- What a call returns, and the wheel after it. -/
def call (w : Wheel κ) : WheelCall κ → List (WheelTimer κ) × Wheel κ
  | .add key expireAt => ([], w.add key expireAt)
  | .advance nowMs => w.advance nowMs

/-- The wheel after a sequence of calls. -/
def after (w : Wheel κ) (cs : List (WheelCall κ)) : Wheel κ := cs.foldl (fun w c => (w.call c).2) w

/-- The timers that a sequence of calls returns. -/
def returned : Wheel κ → List (WheelCall κ) → List (WheelTimer κ)
  | _, [] => []
  | w, c :: cs => (w.call c).1 ++ (w.call c).2.returned cs

end Wheel

/-- The timer that a call adds. -/
def WheelCall.timer : WheelCall κ → Option (WheelTimer κ)
  | .add key expireAt => some ⟨key, expireAt⟩
  | .advance _ => none

/-- The timers that a sequence of calls adds. -/
def added (cs : List (WheelCall κ)) : List (WheelTimer κ) := cs.filterMap WheelCall.timer

/-- The call, with `i` as the number of the timer it adds. -/
def WheelCall.number (i : ℕ) : WheelCall κ → WheelCall (κ × ℕ)
  | .add key expireAt => .add (key, i) expireAt
  | .advance nowMs => .advance nowMs

/-- The calls, with each timer numbered by the call that adds it. -/
def numbered (cs : List (WheelCall κ)) : List (WheelCall (κ × ℕ)) :=
  cs.mapIdx WheelCall.number

/-- The timer with another name for its key. -/
def WheelTimer.map {κ' : Type} (f : κ → κ') (t : WheelTimer κ) : WheelTimer κ' :=
  ⟨f t.key, t.expireAt⟩

/-- The wheel with other names for its keys. -/
def Wheel.map {κ' : Type} (f : κ → κ') (w : Wheel κ) : Wheel κ' where
  tickMs := w.tickMs
  epochMs := w.epochMs
  nowTick := w.nowTick
  levels := fun l b => (w.levels l b).map (WheelTimer.map f)
  pending := w.pending
  overflow := w.overflow.map (WheelTimer.map f)

/-- The call with another name for its key. -/
def WheelCall.map {κ' : Type} (f : κ → κ') : WheelCall κ → WheelCall κ'
  | .add key expireAt => .add (f key) expireAt
  | .advance nowMs => .advance nowMs

/-! ## No timer lost or duplicated -/

namespace Wheel

variable {w : Wheel κ} {c : WheelCall κ} {cs : List (WheelCall κ)}

theorem after_append (w : Wheel κ) (cs cs' : List (WheelCall κ)) :
    w.after (cs ++ cs') = (w.after cs).after cs' := List.foldl_append

theorem held_add (w : Wheel κ) (key : κ) (expireAt : UInt64) :
    (w.add key expireAt).held = w.held + {⟨key, expireAt⟩} := held_addLocked w ⟨key, expireAt⟩

theorem held_call (w : Wheel κ) (c : WheelCall κ) :
    Multiset.ofList (w.call c).1 + (w.call c).2.held =
      Multiset.ofList (added [c]) + w.held := by
  cases c with
  | add key expireAt =>
    show 0 + (w.add key expireAt).held = {⟨key, expireAt⟩} + w.held
    rw [held_add, zero_add, add_comm]
  | advance nowMs =>
    show _ = 0 + w.held
    rw [zero_add]
    exact held_advance w nowMs

theorem held_after (w : Wheel κ) (cs : List (WheelCall κ)) :
    Multiset.ofList (w.returned cs) + (w.after cs).held = Multiset.ofList (added cs) + w.held := by
  induction cs generalizing w with
  | nil => rfl
  | cons c cs ih =>
    have hcall := held_call w c
    have hrest := ih (w.call c).2
    have hadded : added (c :: cs) = added [c] ++ added cs := by
      rw [added, added, added, ← List.filterMap_append]
      rfl
    rw [returned, hadded, ← Multiset.coe_add, ← Multiset.coe_add, add_assoc]
    show _ + (_ + ((w.call c).2.after cs).held) = _
    rw [hrest, add_left_comm, hcall, add_left_comm, add_assoc]

/-- `Pending` is the number of timers held, as a 64-bit number. -/
def Counted (w : Wheel κ) : Prop := w.pending = Int64.ofNat w.held.card

theorem newWheel_held (tick epochMs : UInt64) : (newWheel tick epochMs : Wheel κ).held = 0 := by
  refine Multiset.eq_zero_of_forall_notMem fun t ht => ?_
  rcases mem_held.mp ht with ⟨l, hl, b, hb, ht⟩ | ht
  · exact List.not_mem_nil ht
  · exact List.not_mem_nil ht

theorem newWheel_counted (tick epochMs : UInt64) : (newWheel tick epochMs : Wheel κ).Counted := by
  rw [Counted, newWheel_held]
  rfl

theorem Counted.call (h : w.Counted) (c : WheelCall κ) : (w.call c).2.Counted := by
  cases c with
  | add key expireAt =>
    show w.pending + 1 = Int64.ofNat (w.add key expireAt).held.card
    rw [held_add, Multiset.card_add, Multiset.card_singleton, Int64.ofNat_add, h]
    rfl
  | advance nowMs =>
    have hcard := congrArg Multiset.card (held_advance w nowMs)
    rw [Multiset.card_add, Multiset.coe_card] at hcard
    obtain ⟨-, -, hpending⟩ := advance_frame w nowMs
    show (w.advance nowMs).2.pending = _
    rw [hpending, h, ← hcard, Int64.ofNat_add, Int64.add_comm, Int64.add_sub_cancel]
    rfl

theorem Counted.after (h : w.Counted) (cs : List (WheelCall κ)) : (w.after cs).Counted := by
  induction cs generalizing w with
  | nil => exact h
  | cons c cs ih => exact ih (h.call c)

/-! ## Ticks -/

theorem tickFor_call (w : Wheel κ) (c : WheelCall κ) (ms : UInt64) :
    (w.call c).2.tickFor ms = w.tickFor ms := by
  cases c with
  | add key expireAt => exact (sameClock_addLocked w ⟨key, expireAt⟩).tickFor ms
  | advance nowMs =>
    obtain ⟨htick, hepoch, -⟩ := advance_frame w nowMs
    exact tickFor_congr htick hepoch ms

theorem tickFor_after (w : Wheel κ) (cs : List (WheelCall κ)) (ms : UInt64) :
    (w.after cs).tickFor ms = w.tickFor ms := by
  induction cs generalizing w with
  | nil => rfl
  | cons c cs ih => exact (ih (w.call c).2).trans (tickFor_call w c ms)

section

variable {Due : WheelTimer κ → ℕ → Prop}

/-- A call keeps the invariant if the timer it adds may come due at the tick it is put down for, and
    one tick later if that is its own. -/
theorem Keeps.call (h : w.Keeps Due)
    (hadd : ∀ t ∈ c.timer, Due t (w.targetOf t) ∧
      (w.nowTick.toNat < (w.tickFor t.expireAt).toNat → Due t ((w.tickFor t.expireAt).toNat + 1)) ∧
      (w.nowTick.toNat + 256 ^ wheelLevels ≤ w.targetOf t →
        ∀ tick, (w.tickFor t.expireAt).toNat ≤ tick → Due t tick)) : (w.call c).2.Keeps Due := by
  cases c with
  | add key expireAt =>
    obtain ⟨hdue, hlate, hover⟩ := hadd ⟨key, expireAt⟩ rfl
    exact (h.addLocked hdue hlate hover).of_pending _
  | advance nowMs => exact (h.advance nowMs).1

end

theorem nowTick_le_call (w : Wheel κ) (c : WheelCall κ) :
    w.nowTick.toNat ≤ (w.call c).2.nowTick.toNat := by
  cases c with
  | add key expireAt => exact (congrArg UInt64.toNat (sameClock_addLocked w _).nowTick).ge
  | advance nowMs =>
    show _ ≤ (w.advance nowMs).2.nowTick.toNat
    rw [nowTick_advance]
    exact le_max_left _ _

theorem nowTick_le_after (w : Wheel κ) (cs : List (WheelCall κ)) :
    w.nowTick.toNat ≤ (w.after cs).nowTick.toNat := by
  induction cs generalizing w with
  | nil => exact le_rfl
  | cons c cs ih => exact (nowTick_le_call w c).trans (ih _)

theorem nowTick_take_mono (w : Wheel κ) (cs : List (WheelCall κ)) {i j : ℕ} (h : i ≤ j) :
    (w.after (cs.take i)).nowTick.toNat ≤ (w.after (cs.take j)).nowTick.toNat := by
  have hsplit : cs.take j = cs.take i ++ (cs.take j).drop i := by
    have hdrop := List.take_append_drop i (cs.take j)
    rw [List.take_take, min_eq_left h] at hdrop
    exact hdrop.symm
  rw [hsplit, after_append]
  exact nowTick_le_after _ _

theorem after_take_succ (w : Wheel κ) {j : ℕ} (h : cs[j]? = some c) :
    w.after (cs.take (j + 1)) = ((w.after (cs.take j)).call c).2 := by
  rw [List.take_add_one, h, after_append]
  rfl

/-! ## Timers told apart -/

end Wheel

/-- A timer that only the call `i` adds, and the ticks at which it may come due if that call puts it
    down for tick `T`. -/
def DueAt (t : WheelTimer κ) (T : ℕ) (t' : WheelTimer κ) (tick : ℕ) : Prop :=
  t' = t → tick = T ∨ tick = T + 1

namespace Wheel

variable {w : Wheel κ} {cs : List (WheelCall κ)} {t : WheelTimer κ} {i : ℕ}

/-- The invariant with `DueAt` holds before, at and after the call that adds the timer. -/
theorem keeps_dueAt (hw : ∀ Due, w.Keeps Due)
    (honly : ∀ j c, cs[j]? = some c → c.timer = some t → j = i)
    (hnear : (w.after (cs.take i)).targetOf t < (w.after (cs.take i)).nowTick.toNat + 2 ^ 40)
    (j : ℕ) : (w.after (cs.take j)).Keeps (DueAt t ((w.after (cs.take i)).targetOf t)) := by
  induction j with
  | zero => exact hw _
  | succ j ih =>
    rcases hc : cs[j]? with _ | c
    · rw [List.take_add_one, hc, Option.toList_none, List.append_nil]
      exact ih
    · rw [after_take_succ w hc]
      refine ih.call fun t' ht' => ?_
      by_cases htt : t' = t
      · subst htt
        obtain rfl := honly j c hc ht'
        refine ⟨fun _ => .inl rfl, fun hlt _ => .inr ?_, fun hfar => ?_⟩
        · rw [targetOf]
          omega
        · have : 256 ^ wheelLevels = 2 ^ 40 := by decide
          omega
      · exact ⟨fun h => absurd h htt, fun _ h => absurd h htt, fun _ _ _ h => absurd h htt⟩

end Wheel

theorem getElem?_numbered (cs : List (WheelCall κ)) (i : ℕ) :
    (numbered cs)[i]? = cs[i]?.map (WheelCall.number i) := List.getElem?_mapIdx

theorem take_numbered (cs : List (WheelCall κ)) (i : ℕ) :
    (numbered cs).take i = numbered (cs.take i) := by
  refine List.ext_getElem? fun j => ?_
  rw [List.getElem?_take, getElem?_numbered, getElem?_numbered, List.getElem?_take]
  split_ifs <;> rfl

/-- The number of a timer is that of the call that adds it. -/
theorem numbered_timer {cs : List (WheelCall κ)} {j : ℕ} {c : WheelCall (κ × ℕ)}
    {t : WheelTimer (κ × ℕ)} (hc : (numbered cs)[j]? = some c) (ht : c.timer = some t) :
    t.key.2 = j := by
  rw [getElem?_numbered] at hc
  obtain ⟨c', -, rfl⟩ := Option.map_eq_some_iff.mp hc
  cases c' with
  | add key expireAt =>
    cases ht
    rfl
  | advance nowMs => cases ht

/-! ## The wheel does not look at keys -/

section

variable {κ' : Type} (f : κ → κ')

namespace Wheel

theorem map_setBucket (w : Wheel κ) (l : ℕ) (b : UInt64) (B : List (WheelTimer κ)) :
    (w.setBucket l b B).map f = (w.map f).setBucket l b (B.map (WheelTimer.map f)) := by
  have hlevels : (fun l' b' => ((w.setBucket l b B).levels l' b').map (WheelTimer.map f)) =
      ((w.map f).setBucket l b (B.map (WheelTimer.map f))).levels := by
    funext l' b'
    rw [levels_setBucket, levels_setBucket]
    split_ifs <;> rfl
  rw [Wheel.map, hlevels]
  rfl

theorem map_overflow (w : Wheel κ) (ts : List (WheelTimer κ)) :
    Wheel.map f { w with overflow := w.overflow ++ ts } =
      { w.map f with overflow := (w.map f).overflow ++ ts.map (WheelTimer.map f) } := by
  rw [Wheel.map, List.map_append]
  rfl

theorem map_place (w : Wheel κ) (t : WheelTimer κ) (target delta : UInt64) (ls : List ℕ) :
    (w.place t target delta ls).map f = (w.map f).place (t.map f) target delta ls := by
  induction ls with
  | nil => exact map_overflow f w [t]
  | cons l ls ih =>
    rw [place, place]
    dsimp only
    split_ifs
    · rw [map_setBucket, List.map_append]
      rfl
    · exact ih

theorem map_addLocked (w : Wheel κ) (t : WheelTimer κ) :
    (w.addLocked t).map f = (w.map f).addLocked (t.map f) := map_place f w t _ _ _

theorem map_foldl {g : Wheel κ → WheelTimer κ → Wheel κ} {g' : Wheel κ' → WheelTimer κ' → Wheel κ'}
    (hg : ∀ w t, (g w t).map f = g' (w.map f) (t.map f)) (ts : List (WheelTimer κ)) (w : Wheel κ) :
    (ts.foldl g w).map f = (ts.map (WheelTimer.map f)).foldl g' (w.map f) := by
  induction ts generalizing w with
  | nil => rfl
  | cons t ts ih => rw [List.foldl_cons, ih, hg, List.map_cons, List.foldl_cons]

theorem map_cascade (ls : List ℕ) (w : Wheel κ) : (w.cascade ls).map f = (w.map f).cascade ls := by
  induction ls generalizing w with
  | nil => rfl
  | cons l ls ih =>
    rw [cascade, cascade]
    dsimp only
    have hnow : (w.map f).nowTick = w.nowTick := rfl
    rw [hnow]
    split_ifs
    · rfl
    · rw [ih, map_foldl f (map_addLocked f), map_setBucket]
      rfl

theorem map_tickLoop : ∀ n (w : Wheel κ) (due : List (WheelTimer κ)),
    (tickLoop n (w.map f) (due.map (WheelTimer.map f))).1 =
        (tickLoop n w due).1.map (WheelTimer.map f) ∧
      (tickLoop n (w.map f) (due.map (WheelTimer.map f))).2 = (tickLoop n w due).2.map f
  | 0, _, _ => ⟨rfl, rfl⟩
  | n + 1, w, due => by
    have hcascaded : (w.map f).cascaded = w.cascaded.map f :=
      (map_cascade f [1, 2, 3, 4] { w with nowTick := w.nowTick + 1 }).symm
    have hnow : (w.map f).nowTick = w.nowTick := rfl
    have hrest := map_tickLoop n (w.cascaded.setBucket 0 (slotOf 0 (w.nowTick + 1).toNat) [])
      (due ++ w.cascaded.levels 0 (slotOf 0 (w.nowTick + 1).toNat))
    rw [map_setBucket, List.map_append] at hrest
    rw [tickLoop_succ, tickLoop_succ, hcascaded, hnow]
    exact hrest

theorem map_sweepOne (w : Wheel κ) (t : WheelTimer κ) :
    (w.sweepOne t).map f = (w.map f).sweepOne (t.map f) := by
  rw [sweepOne, sweepOne]
  show _ = if w.tickFor t.expireAt < w.nowTick + _ then _ else _
  split_ifs
  · exact map_addLocked f w t
  · exact map_overflow f w [t]

theorem map_sweepOverflow (w : Wheel κ) : w.sweepOverflow.map f = (w.map f).sweepOverflow := by
  rw [sweepOverflow_eq, sweepOverflow_eq, map_foldl f (map_sweepOne f)]
  rfl

theorem map_advance (w : Wheel κ) (nowMs : UInt64) :
    ((w.map f).advance nowMs).1 = (w.advance nowMs).1.map (WheelTimer.map f) ∧
      ((w.map f).advance nowMs).2 = (w.advance nowMs).2.map f := by
  obtain ⟨n, hn⟩ : ∃ n, n = (w.tickFor nowMs).toNat - w.nowTick.toNat := ⟨_, rfl⟩
  obtain ⟨hdue, hwheel⟩ := map_tickLoop f n w []
  rw [List.map_nil] at hdue hwheel
  have hadvance : w.advance nowMs = ((tickLoop n w []).1, { (tickLoop n w []).2.sweepOverflow with
      pending := (tickLoop n w []).2.pending - Int64.ofNat (tickLoop n w []).1.length }) := by
    rw [hn]
    rfl
  have hadvance' : (w.map f).advance nowMs = ((tickLoop n (w.map f) []).1,
      { (tickLoop n (w.map f) []).2.sweepOverflow with
        pending := (tickLoop n (w.map f) []).2.pending -
          Int64.ofNat (tickLoop n (w.map f) []).1.length }) := by
    rw [hn]
    rfl
  rw [hadvance, hadvance', hdue, hwheel, List.length_map, ← map_sweepOverflow]
  exact ⟨rfl, rfl⟩

theorem map_call (w : Wheel κ) (c : WheelCall κ) :
    ((w.map f).call (c.map f)).1 = (w.call c).1.map (WheelTimer.map f) ∧
      ((w.map f).call (c.map f)).2 = (w.call c).2.map f := by
  cases c with
  | add key expireAt =>
    refine ⟨rfl, ?_⟩
    have hadd := map_addLocked f w ⟨key, expireAt⟩
    show { (w.map f).addLocked ⟨f key, expireAt⟩ with pending := w.pending + 1 } = _
    rw [show (⟨f key, expireAt⟩ : WheelTimer κ') = WheelTimer.map f ⟨key, expireAt⟩ from rfl, ← hadd]
    rfl
  | advance nowMs => exact map_advance f w nowMs

theorem map_after (cs : List (WheelCall κ)) (w : Wheel κ) :
    (w.map f).after (cs.map (WheelCall.map f)) = (w.after cs).map f := by
  induction cs generalizing w with
  | nil => rfl
  | cons c cs ih =>
    rw [List.map_cons]
    show ((w.map f).call (c.map f)).2.after _ = _
    rw [(map_call f w c).2, ih]
    rfl

theorem map_returned (cs : List (WheelCall κ)) (w : Wheel κ) :
    (w.map f).returned (cs.map (WheelCall.map f)) = (w.returned cs).map (WheelTimer.map f) := by
  induction cs generalizing w with
  | nil => rfl
  | cons c cs ih =>
    rw [List.map_cons, returned, returned, (map_call f w c).1, (map_call f w c).2, ih,
      List.map_append]

end Wheel

end

theorem map_numbered (cs : List (WheelCall κ)) :
    (numbered cs).map (WheelCall.map Prod.fst) = cs := by
  refine List.ext_getElem? fun i => ?_
  rw [List.getElem?_map, getElem?_numbered, Option.map_map]
  have hid : WheelCall.map Prod.fst ∘ WheelCall.number i = (id : WheelCall κ → WheelCall κ) := by
    funext c
    cases c <;> rfl
  rw [hid, Option.map_id]
  rfl

end

/-! ## Main result -/

/-- What call `j` returns of the timer that call `i` adds, in terms of the tick `T` it is put down
    for. -/
theorem numbered_timing (w : Wheel (Bytes × ℕ)) (hw : ∀ Due, w.Keeps Due) (hempty : w.held = 0)
    {cs : List WheelCall} {i : ℕ} {key : Bytes} {expireAt : UInt64}
    (hi : cs[i]? = some (.add key expireAt)) {T : ℕ}
    (hT : T = (w.after (numbered (cs.take i))).targetOf ⟨(key, i), expireAt⟩)
    (hnear : T < (w.after (numbered (cs.take i))).nowTick.toNat + 2 ^ 40) {j : ℕ} {nowMs : UInt64}
    (hj : cs[j]? = some (.advance nowMs)) :
    ((w.tickFor nowMs).toNat < T →
      ⟨(key, i), expireAt⟩ ∉ ((w.after (numbered (cs.take j))).advance nowMs).1) ∧
    (T + 1 ≤ (w.tickFor nowMs).toNat →
      ⟨(key, i), expireAt⟩ ∈ w.returned (numbered (cs.take (j + 1)))) := by
  obtain ⟨t, ht⟩ : ∃ t : WheelTimer (Bytes × ℕ), t = ⟨(key, i), expireAt⟩ := ⟨_, rfl⟩
  have hi' : (numbered cs)[i]? = some (.add (key, i) expireAt) := by
    rw [getElem?_numbered, hi]
    rfl
  have hj' : (numbered cs)[j]? = some (.advance nowMs) := by
    rw [getElem?_numbered, hj]
    rfl
  have honly : ∀ j c, (numbered cs)[j]? = some c → c.timer = some t → j = i := by
    intro j c hc hct
    rw [← numbered_timer hc hct, ht]
  rw [← ht] at hT ⊢
  rw [← take_numbered] at hT hnear
  have hkeeps := Wheel.keeps_dueAt hw honly (hT ▸ hnear)
  rw [← hT] at hkeeps
  constructor
  · intro hearly hmem
    rw [← take_numbered] at hmem
    obtain ⟨tick, hdue, hle⟩ := ((hkeeps j).advance nowMs).2 t hmem
    rw [Wheel.tickFor_after] at hle
    rcases hdue rfl with rfl | rfl <;> omega
  · intro hlate
    have hreached : T + 1 ≤ (w.after ((numbered cs).take (j + 1))).nowTick.toNat := by
      rw [Wheel.after_take_succ w hj']
      show _ ≤ ((w.after ((numbered cs).take j)).advance nowMs).2.nowTick.toNat
      rw [Wheel.nowTick_advance, Wheel.tickFor_after]
      omega
    -- before the call that adds the timer, the wheel has not come so far
    have hij : i < j + 1 := by
      by_contra hji
      have hmono := Wheel.nowTick_take_mono w (numbered cs) (not_lt.mp hji)
      have hlt := Wheel.lt_targetOf (w.after ((numbered cs).take i)) t
      omega
    have hnot : t ∉ (w.after ((numbered cs).take (j + 1))).held := by
      refine (hkeeps (j + 1)).not_held fun tick hdue => ?_
      rcases hdue rfl with rfl | rfl <;> omega
    have hadded : t ∈ added ((numbered cs).take (j + 1)) := by
      refine List.mem_filterMap.mpr ⟨.add (key, i) expireAt, ?_, by rw [ht]; rfl⟩
      refine List.mem_of_getElem? (i := i) ?_
      rw [List.getElem?_take, if_pos hij, hi']
    have hheld := Wheel.held_after w ((numbered cs).take (j + 1))
    rw [hempty, add_zero] at hheld
    have hmem : t ∈ Multiset.ofList (added ((numbered cs).take (j + 1))) := hadded
    rw [← hheld, Multiset.mem_add, Multiset.mem_coe] at hmem
    rw [← take_numbered]
    exact hmem.resolve_right hnot

/-- For every tick length and epoch and every sequence of calls: what was added is what was returned
    and what is held, and `Pending` is the number held; the run with numbered keys is the same run;
    and the timer of call `i`, added at tick `n` and put down for `T`, is returned by no `Advance`
    to a tick before `T`, and has been returned once an `Advance` goes to tick `T + 1`. -/
theorem wheel_timers (tick epochMs : UInt64) (cs : List WheelCall) :
    Multiset.ofList (added cs) =
        Multiset.ofList ((newWheel tick epochMs).returned cs) +
          ((newWheel tick epochMs).after cs).held ∧
      ((newWheel tick epochMs).after cs).pending =
        Int64.ofNat ((newWheel tick epochMs).after cs).held.card ∧
      (∀ j, ((newWheel tick epochMs).after (numbered (cs.take j))).map Prod.fst =
          (newWheel tick epochMs).after (cs.take j) ∧
        ((newWheel tick epochMs).returned (numbered (cs.take j))).map (WheelTimer.map Prod.fst) =
          (newWheel tick epochMs).returned (cs.take j)) ∧
      ∀ i key expireAt n T, cs[i]? = some (.add key expireAt) →
        n = ((newWheel tick epochMs).after (cs.take i)).nowTick.toNat →
        T = max ((newWheel tick epochMs : Wheel).tickFor expireAt).toNat (n + 1) → T - n < 2 ^ 40 →
        ∀ j nowMs, cs[j]? = some (.advance nowMs) →
          (((newWheel tick epochMs : Wheel).tickFor nowMs).toNat < T →
            ⟨(key, i), expireAt⟩ ∉
              (((newWheel tick epochMs).after (numbered (cs.take j))).advance nowMs).1) ∧
          (T + 1 ≤ ((newWheel tick epochMs : Wheel).tickFor nowMs).toNat →
            ⟨(key, i), expireAt⟩ ∈
              (newWheel tick epochMs).returned (numbered (cs.take (j + 1)))) := by
  have hmap : ∀ j, ((newWheel tick epochMs).after (numbered (cs.take j))).map Prod.fst =
      (newWheel tick epochMs).after (cs.take j) := by
    intro j
    rw [← Wheel.map_after, map_numbered]
    rfl
  refine ⟨?_, (Wheel.newWheel_counted tick epochMs).after cs, fun j => ⟨hmap j, ?_⟩, ?_⟩
  · have hheld := Wheel.held_after (newWheel tick epochMs) cs
    rw [Wheel.newWheel_held, add_zero] at hheld
    exact hheld.symm
  · rw [← Wheel.map_returned, map_numbered]
    rfl
  · intro i key expireAt n T hi hn hT hnear j nowMs hj
    have hnow : ((newWheel tick epochMs).after (numbered (cs.take i))).nowTick.toNat = n := by
      rw [hn, ← hmap i]
      rfl
    refine numbered_timing (newWheel tick epochMs) (Wheel.newWheel_keeps tick epochMs)
      (Wheel.newWheel_held tick epochMs) hi ?_ (by rw [hnow]; omega) hj
    rw [hT, Wheel.targetOf, hnow, Wheel.tickFor_after]
    rfl

/-- A timer for tick 3, added at tick 0: `Advance(2)` does not return it, and by `Advance(4)` it has
    been returned. -/
theorem wheel_timers_third_tick :
    ⟨(([1] : Bytes), 0), 3⟩ ∉
        (((newWheel 1 0).after (numbered [.add ([1] : Bytes) 3])).advance 2).1 ∧
      ⟨(([1] : Bytes), 0), 3⟩ ∈ (newWheel 1 0).returned
        (numbered [.add ([1] : Bytes) 3, .advance 2, .advance 4]) := by
  have htimer := (wheel_timers 1 0 [.add [1] 3, .advance 2, .advance 4]).2.2.2
    0 [1] 3 0 3 rfl rfl (by decide) (by decide)
  exact ⟨(htimer 1 2 rfl).1 (by decide), (htimer 2 4 rfl).2 (by decide)⟩

end KvStore
