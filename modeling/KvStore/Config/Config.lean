import KvStore.Store.Store
import KvStore.Wal.Writer

/-!
# The configuration

Model of `internal/config/config.go`: the settings that `Validate` checks or that the modelled
code reads, their defaults, and `Validate`. Settings chosen by name are strings in the source, so
that one can also have a value that is none of the known ones.

* `validate_default`: the defaults are accepted.
-/

namespace KvStore

open KvStore.Common

/-- `ExpiryMode` (lines 46–50). -/
inductive ExpiryMode
  | lazy
  | sampled
  | wheel
  deriving DecidableEq, Repr

/-- `ConnMode` (lines 55–58). -/
inductive ConnMode
  | goroutine
  | pool
  deriving DecidableEq, Repr

/-- `Role` (lines 63–66). -/
inductive Role
  | primary
  | replica
  deriving DecidableEq, Repr

/-- A setting chosen by name. -/
inductive Setting (α : Type)
  | known (value : α)
  | other (text : String)
  deriving DecidableEq, Repr

/-- The text of a setting that has none of the known values. -/
def Setting.unknown? {α : Type} : Setting α → Option String
  | .known _ => none
  | .other text => some text

/-- A `float64`. -/
inductive Float64
  | finite (q : ℚ)
  | inf (negative : Bool)
  | nan
  deriving DecidableEq

/-- `x <= 0`. -/
def Float64.nonPos : Float64 → Bool
  | .finite q => q ≤ 0
  | .inf negative => negative
  | .nan => false

/-- `x > 1`. -/
def Float64.aboveOne : Float64 → Bool
  | .finite q => 1 < q
  | .inf negative => !negative
  | .nan => false

/-- `Config` (lines 71–131). -/
structure Config where
  outputBufferLimit : ℤ
  maxValueLen : ℤ
  connMode : Setting ConnMode
  workers : ℤ
  dataDir : String
  engine : Setting StoreEngine
  shards : ℤ
  fsync : Setting FsyncPolicy
  segmentSize : ℤ
  walQueueDepth : ℤ
  policy : Setting EvictPolicy
  evictSampleK : ℤ
  lowWaterRatio : Float64
  expiry : Setting ExpiryMode
  role : Setting Role
  primaryAddr : String

/-! ## Defaults -/

/-- The loop of `nextPow2` (lines 364–367), at most `fuel` rounds. -/
def nextPow2Loop (n : ℕ) : ℕ → ℕ → ℕ
  | 0, p => p
  | fuel + 1, p => if p < n then nextPow2Loop n fuel (p <<< 1) else p

/-- `nextPow2` (lines 360–369). -/
def nextPow2 (n : ℕ) : ℕ := if n < 1 then 1 else nextPow2Loop n n 1

/-- `Default` (lines 134–190) on a machine with `numCPU` processors. -/
def Config.default (numCPU : ℕ) : Config where
  outputBufferLimit := 1 <<< 20
  maxValueLen := 16 <<< 20
  connMode := .known .goroutine
  workers := numCPU * 2
  dataDir := "data"
  engine := .known .sharded
  shards := nextPow2 (2 * numCPU)
  fsync := .known .everySec
  segmentSize := 64 <<< 20
  walQueueDepth := 8192
  policy := .known .allKeysLRU
  evictSampleK := 5
  lowWaterRatio := .finite (95 / 100)
  expiry := .known .sampled
  role := .known .primary
  primaryAddr := ""

/-! ## Validation -/

/-- The errors of `Validate`. -/
inductive ConfigError
  | shards (n : ℤ)
  | engine (text : String)
  | fsync (text : String)
  | policy (text : String)
  | expiry (text : String)
  | connMode (text : String)
  | role (text : String)
  | replicaof
  | evictSampleK
  | lowWaterRatio
  | maxValueLen
  | segmentSize
  | workers
  | dataDir
  deriving DecidableEq, Repr

/-- Their texts. -/
def ConfigError.text : ConfigError → String
  | .shards n => "shards must be a power of two, got " ++ toString n
  | .engine text => "unknown engine " ++ text.quote
  | .fsync text => "unknown fsync policy " ++ text.quote
  | .policy text => "unknown max-memory-policy " ++ text.quote
  | .expiry text => "unknown expiry mode " ++ text.quote
  | .connMode text => "unknown conn-mode " ++ text.quote
  | .role text => "unknown role " ++ text.quote
  | .replicaof => "--replicaof is required when --role=replica"
  | .evictSampleK => "evict-sample-k must be >= 1"
  | .lowWaterRatio => "low-water-ratio must be in (0, 1]"
  | .maxValueLen => "max-value-len must be in (0, 16MiB]"
  | .segmentSize => "segment-size must be at least 4096"
  | .workers => "workers must be >= 1"
  | .dataDir => "data-dir must not be empty"

/-- A check that fails with `err` when `bad` holds. -/
def failIf (bad : Prop) [Decidable bad] (err : ConfigError) : Option ConfigError :=
  if bad then some err else none

/-- `Validate` (lines 204–258): the first check that fails. -/
def Config.validate (c : Config) : Option ConfigError :=
  [failIf (c.shards ≤ 0 ∨ c.shards.toNat &&& (c.shards.toNat - 1) ≠ 0) (.shards c.shards),
    c.engine.unknown?.map .engine,
    c.fsync.unknown?.map .fsync,
    c.policy.unknown?.map .policy,
    c.expiry.unknown?.map .expiry,
    c.connMode.unknown?.map .connMode,
    c.role.unknown?.map .role,
    failIf (c.role = .known .replica ∧ c.primaryAddr = "") .replicaof,
    failIf (c.evictSampleK < 1) .evictSampleK,
    failIf (c.lowWaterRatio.nonPos ∨ c.lowWaterRatio.aboveOne) .lowWaterRatio,
    failIf (c.maxValueLen ≤ 0 ∨ c.maxValueLen > 16 <<< 20) .maxValueLen,
    failIf (c.segmentSize < 4096) .segmentSize,
    failIf (c.workers < 1) .workers,
    failIf (c.dataDir = "") .dataDir].findSome? id

theorem nextPow2Loop_pow (n : ℕ) : ∀ fuel k, ∃ m, nextPow2Loop n fuel (2 ^ k) = 2 ^ m := by
  intro fuel
  induction fuel with
  | zero => exact fun k => ⟨k, rfl⟩
  | succ fuel ih =>
    intro k
    unfold nextPow2Loop
    split_ifs
    · rw [Nat.shiftLeft_eq, pow_one, ← pow_succ]
      exact ih (k + 1)
    · exact ⟨k, rfl⟩

theorem exists_nextPow2 (n : ℕ) : ∃ k, nextPow2 n = 2 ^ k := by
  unfold nextPow2
  split_ifs
  · exact ⟨0, rfl⟩
  · exact nextPow2Loop_pow n n 0

/-- The defaults are accepted on every machine. -/
theorem validate_default {numCPU : ℕ} (h : 0 < numCPU) :
    (Config.default numCPU).validate = none := by
  obtain ⟨k, hk⟩ := exists_nextPow2 (2 * numCPU)
  have hand : 2 ^ k &&& (2 ^ k - 1) = 0 := by
    rw [Nat.and_two_pow_sub_one_eq_mod, Nat.mod_self]
  have hshards : ¬ (((2 ^ k : ℕ) : ℤ) ≤ 0 ∨
      ((2 ^ k : ℕ) : ℤ).toNat &&& (((2 ^ k : ℕ) : ℤ).toNat - 1) ≠ 0) := by
    rw [Int.toNat_natCast, hand]
    have := Nat.two_pow_pos k
    omega
  have hratio : ¬ ((Float64.finite (95 / 100)).nonPos = true ∨
      (Float64.finite (95 / 100)).aboveOne = true) := by
    norm_num [Float64.nonPos, Float64.aboveOne]
  have hworkers : ¬ ((numCPU : ℤ) * 2 < 1) := by omega
  rw [Config.validate, List.findSome?_eq_none_iff]
  simp only [List.forall_mem_cons, Config.default, hk, failIf, if_neg hshards, if_neg hworkers,
    if_neg hratio, Setting.unknown?, Option.map_none, id]
  simp

end KvStore
