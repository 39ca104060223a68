import KvStore.Common.Bytes

/-!
# The timing wheel

Model of `Wheel` in `internal/store/wheel.go`: five levels of 256 buckets, an
overflow list, and a current tick. The wheel only proposes timers; whether one
still refers to the key's current deadline is decided by the store. It never looks
at a timer's key, so the model is over any type of keys; the keys of the code are
byte strings.
-/

namespace KvStore

open KvStore.Common

/-- `wheelSlotBits`, `wheelSlotMask` and `wheelLevels` (lines 33–38). -/
def wheelSlotBits : UInt64 := 8

def wheelSlotMask : UInt64 := 255

def wheelLevels : ℕ := 5

/-- `wheelTimer`: a key and the deadline it was scheduled for. -/
structure WheelTimer (κ : Type := Bytes) where
  key : κ
  expireAt : UInt64
  deriving DecidableEq, Repr

/-- `Wheel` (lines 46–54). `levels l b` is bucket `b` of level `l`. -/
structure Wheel (κ : Type := Bytes) where
  tickMs : UInt64
  epochMs : UInt64
  nowTick : UInt64
  levels : ℕ → UInt64 → List (WheelTimer κ)
  pending : Int64
  overflow : List (WheelTimer κ)

section

variable {κ : Type}

/-- `NewWheel` (lines 57–63), with the tick in milliseconds. -/
def newWheel (tick epochMs : UInt64) : Wheel κ where
  tickMs := if tick = 0 then 1 else tick
  epochMs := epochMs
  nowTick := 0
  levels := fun _ _ => []
  pending := 0
  overflow := []

namespace Wheel

/-- `tickFor` (lines 68–73). -/
def tickFor (w : Wheel κ) (ms : UInt64) : UInt64 :=
  if ms ≤ w.epochMs then 0 else (ms - w.epochMs) / w.tickMs

/-- Replace one bucket. -/
def setBucket (w : Wheel κ) (level : ℕ) (slot : UInt64) (b : List (WheelTimer κ)) : Wheel κ :=
  { w with levels := Function.update w.levels level (Function.update (w.levels level) slot b) }

/-- The level search of `addLocked` (lines 93–100). -/
def place (w : Wheel κ) (t : WheelTimer κ) (target delta : UInt64) : List ℕ → Wheel κ
  | [] => { w with overflow := w.overflow ++ [t] }
  | level :: rest =>
    let shift := UInt64.ofNat level * wheelSlotBits
    if delta < 1 <<< (shift + wheelSlotBits) then
      let slot := (target >>> shift) &&& wheelSlotMask
      w.setBucket level slot (w.levels level slot ++ [t])
    else w.place t target delta rest

/-- `addLocked` (lines 84–102). A timer that is already due lands in the next bucket. -/
def addLocked (w : Wheel κ) (t : WheelTimer κ) : Wheel κ :=
  let target := w.tickFor t.expireAt
  let target := if target ≤ w.nowTick then w.nowTick + 1 else target
  w.place t target (target - w.nowTick) (List.range wheelLevels)

/-- `Add` (lines 76–82). -/
def add (w : Wheel κ) (key : κ) (expireAt : UInt64) : Wheel κ :=
  { w.addLocked ⟨key, expireAt⟩ with pending := w.pending + 1 }

/-- The cascade of one tick (lines 120–134) over the levels still to look at. It stops
    at the first level whose boundary has not been reached. -/
def cascade (w : Wheel κ) : List ℕ → Wheel κ
  | [] => w
  | level :: rest =>
    let shift := UInt64.ofNat level * wheelSlotBits
    if w.nowTick &&& (1 <<< shift - 1) ≠ 0 then w
    else
      let slot := (w.nowTick >>> shift) &&& wheelSlotMask
      let bucket := w.levels level slot
      (bucket.foldl addLocked (w.setBucket level slot [])).cascade rest

/-- The loop of `Advance` (lines 114–140) with `n` ticks to go. -/
def tickLoop : ℕ → Wheel κ → List (WheelTimer κ) → List (WheelTimer κ) × Wheel κ
  | 0, w, due => (due, w)
  | n + 1, w, due =>
    let w := { w with nowTick := w.nowTick + 1 }.cascade [1, 2, 3, 4]
    let slot := w.nowTick &&& wheelSlotMask
    tickLoop n (w.setBucket 0 slot []) (due ++ w.levels 0 slot)

/-- The overflow sweep of `Advance` (lines 143–153). -/
def sweepOverflow (w : Wheel κ) : Wheel κ :=
  w.overflow.foldl (fun w t =>
    if w.tickFor t.expireAt < w.nowTick + 1 <<< (UInt64.ofNat wheelLevels * wheelSlotBits)
    then w.addLocked t
    else { w with overflow := w.overflow ++ [t] }) { w with overflow := [] }

/-- `Advance` (lines 107–158): the timers that came due by `nowMs`. -/
def advance (w : Wheel κ) (nowMs : UInt64) : List (WheelTimer κ) × Wheel κ :=
  let (due, w) := tickLoop ((w.tickFor nowMs).toNat - w.nowTick.toNat) w []
  (due, { w.sweepOverflow with pending := w.pending - Int64.ofNat due.length })

end Wheel

end

end KvStore
