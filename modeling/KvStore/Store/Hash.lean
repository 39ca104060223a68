import KvStore.Common.Bytes

/-!
# Shard routing hash and per-shard generator

Models of `Hash64` (xxHash64, `internal/store/hash.go` lines 48–98) and of
`splitmix64` (lines 118–134). The generator is used through the stream of its
outputs: a shard holds the draws it has yet to consume, so that results about a
shard hold for every sequence of draws, and `splitmix64 seed` is the one the code
makes.
-/

namespace KvStore

open KvStore.Common

def prime1 : UInt64 := 11400714785074694791
def prime2 : UInt64 := 14029467366897019727
def prime3 : UInt64 := 1609587929392839161
def prime4 : UInt64 := 9650029242287828579
def prime5 : UInt64 := 2870177450012600261

/-- `bits.RotateLeft64`, for `0 < k < 64`. -/
def rotateLeft64 (x k : UInt64) : UInt64 := (x <<< k) ||| (x >>> (64 - k))

/-- `binary.LittleEndian.Uint64(b[i:i+8])`. -/
def readU64 (b : Bytes) (i : ℕ) : UInt64 := UInt64.ofNat (leNat ((b.drop i).take 8))

/-- `round` (lines 100–105). -/
def round (acc input : UInt64) : UInt64 := rotateLeft64 (acc + input * prime2) 31 * prime1

/-- `mergeRound` (lines 107–112). -/
def mergeRound (acc val : UInt64) : UInt64 := (acc ^^^ round 0 val) * prime1 + prime4

/-- The `for len(b) >= 32` loop (lines 57–63), `n` rounds of it. -/
def hashStripes : ℕ → Bytes → UInt64 × UInt64 × UInt64 × UInt64 →
    Bytes × UInt64 × UInt64 × UInt64 × UInt64
  | 0, b, v => (b, v)
  | n + 1, b, (v1, v2, v3, v4) =>
    hashStripes n (b.drop 32)
      (round v1 (readU64 b 0), round v2 (readU64 b 8), round v3 (readU64 b 16),
        round v4 (readU64 b 24))

/-- The `for len(b) >= 8` loop (lines 76–81), `n` rounds of it. -/
def hashWords : ℕ → Bytes → UInt64 → Bytes × UInt64
  | 0, b, h => (b, h)
  | n + 1, b, h =>
    hashWords n (b.drop 8) (rotateLeft64 (h ^^^ round 0 (readU64 b 0)) 27 * prime1 + prime4)

/-- `Hash64` (lines 48–98). -/
def hash64 (seed : UInt64) (b : Bytes) : UInt64 :=
  let n := b.length
  let (b, h) :=
    if n ≥ 32 then
      let (b, v1, v2, v3, v4) :=
        hashStripes (n / 32) b (seed + prime1 + prime2, seed + prime2, seed, seed - prime1)
      let h := rotateLeft64 v1 1 + rotateLeft64 v2 7 + rotateLeft64 v3 12 + rotateLeft64 v4 18
      (b, mergeRound (mergeRound (mergeRound (mergeRound h v1) v2) v3) v4)
    else (b, seed + prime5)
  let h := h + UInt64.ofNat n
  let (b, h) := hashWords (b.length / 8) b h
  let (b, h) :=
    if b.length ≥ 4 then
      let h := h ^^^ (UInt64.ofNat (leNat (b.take 4)) * prime1)
      (b.drop 4, rotateLeft64 h 23 * prime2 + prime3)
    else (b, h)
  let h := b.foldl (fun h c => rotateLeft64 (h ^^^ (c.toUInt64 * prime5)) 11 * prime1) h
  let h := h ^^^ (h >>> 33)
  let h := h * prime2
  let h := h ^^^ (h >>> 29)
  let h := h * prime3
  h ^^^ (h >>> 32)

/-- The draws a generator will produce, in order. -/
abbrev Draws := ℕ → UInt64

/-- The outputs of `splitmix64` from state `seed` (lines 120–126). -/
def splitmix64 (seed : UInt64) : Draws := fun i =>
  let z := seed + UInt64.ofNat (i + 1) * 0x9E3779B97F4A7C15
  let z := (z ^^^ (z >>> 30)) * 0xBF58476D1CE4E5B9
  let z := (z ^^^ (z >>> 27)) * 0x94D049BB133111EB
  z ^^^ (z >>> 31)

/-- `intn` (lines 129–134): a value in `[0, n)` and the remaining draws; no draw is
    consumed for `n ≤ 1`. -/
def intn (rng : Draws) (n : ℕ) : ℕ × Draws :=
  if n ≤ 1 then (0, rng) else ((rng 0).toNat % n, fun i => rng (i + 1))

end KvStore
