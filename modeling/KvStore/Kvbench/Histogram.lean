import KvStore.Common.Quantile

/-!
# The latency histogram of the benchmark

Model of `Histogram` in `cmd/kvbench/histogram.go`. A sample goes to the bucket that keeps its seven
leading bits.

* `histogram_rank_error`: however samples are split over histograms and these merged, the result is that
  of recording all of them into one; and the bucket that the scan of `Quantile` comes to at rank `t`
  is that of the sample of rank `t`, which it understates by at most a 64th.
* `histogram_wraps`: the counters are 64 bits wide, so with `2 ^ 64` samples the scan comes to no
  bucket.
-/

namespace KvStore

open KvStore.Common

namespace Kvbench

/-! ## Model -/

/-- `histSubBits` (line 38). -/
def histSubBits : UInt64 := 6

/-- `subCount`, `1 << histSubBits` (line 44). -/
def subCount : UInt64 := 64

/-- The length of `counts`, `histBuckets * sub` (line 48). -/
def countsLen : ℕ := 64 * 64

/-- `Histogram` (lines 27–35). `subBits` and `subCount` are constants of the model; `counts` has
    `countsLen` counters. -/
structure Histogram where
  counts : ℕ → UInt64
  total : UInt64
  sum : UInt64
  min : UInt64
  max : UInt64

/-- `NewHistogram` (lines 43–51). -/
def newHistogram : Histogram where
  counts := fun _ => 0
  total := 0
  sum := 0
  min := 18446744073709551615
  max := 0

/-- The loop of `leadingZeros64` (lines 235–238), for at most `fuel` rounds. -/
def leadingZerosLoop : ℕ → UInt64 → UInt64 → UInt64
  | 0, _, n => n
  | fuel + 1, x, n =>
    if x &&& ((1 : UInt64) <<< 63) = 0 then leadingZerosLoop fuel (x <<< 1) (n + 1) else n

/-- `leadingZeros64` (lines 230–240). -/
def leadingZeros64 (x : UInt64) : UInt64 := if x = 0 then 64 else leadingZerosLoop 64 x 0

/-- `index` (lines 53–66). -/
def index (v : UInt64) : ℕ :=
  if v < subCount then v.toNat
  else
    let mag := 63 - leadingZeros64 v
    let shift := mag - histSubBits
    let sub := (v >>> shift) &&& (subCount - 1)
    let idx := ((shift + 1) * subCount + sub).toNat
    if countsLen ≤ idx then countsLen - 1 else idx

/-- `value` (lines 69–76). -/
def value (idx : ℕ) : UInt64 :=
  if idx < subCount.toNat then UInt64.ofNat idx
  else
    let shift := UInt64.ofNat idx / subCount - 1
    let sub := UInt64.ofNat idx % subCount
    (subCount ||| sub) <<< shift

namespace Histogram

/-- `Record` (lines 79–93). A `time.Duration` is an `int64`. -/
def record (h : Histogram) (d : Int64) : Histogram :=
  let v := if d < 0 then 0 else d.toUInt64
  { counts := Function.update h.counts (index v) (h.counts (index v) + 1)
    total := h.total + 1
    sum := h.sum + v
    min := if v < h.min then v else h.min
    max := if v > h.max then v else h.max }

/-- `Merge` (lines 98–110). -/
def merge (h o : Histogram) : Histogram where
  counts := fun i => h.counts i + o.counts i
  total := h.total + o.total
  sum := h.sum + o.sum
  min := if o.min < h.min then o.min else h.min
  max := if o.max > h.max then o.max else h.max

/-- The scan of `Quantile` (lines 124–130) over the buckets still to look at. -/
def scanLoop (h : Histogram) (target : UInt64) : List ℕ → UInt64 → Option UInt64
  | [], _ => none
  | i :: rest, seen =>
    let seen := seen + h.counts i
    if seen ≥ target then some (value i) else h.scanLoop target rest seen

/-- The scan over all buckets. -/
def scan (h : Histogram) (target : UInt64) : Option UInt64 :=
  h.scanLoop target (List.range countsLen) 0

/-- `Quantile` (lines 116–132) from the computation of the target rank on. -/
def quantile (h : Histogram) (target : UInt64) : UInt64 :=
  if h.total = 0 then 0
  else (h.scan (if target = 0 then 1 else target)).getD h.max

end Histogram

/-- How a histogram comes about: samples are recorded into new ones, and these are merged. -/
inductive Build
  | new
  | record (b : Build) (d : Int64)
  | merge (b o : Build)

namespace Build

/-- The histogram built. -/
def histogram : Build → Histogram
  | new => newHistogram
  | record b d => b.histogram.record d
  | merge b o => b.histogram.merge o.histogram

/-- The samples recorded on the way. -/
def samples : Build → List Int64
  | new => []
  | record b d => d :: b.samples
  | merge b o => b.samples ++ o.samples

end Build

/-! ## Index and value -/

theorem and_top_eq_zero (x : UInt64) : x &&& ((1 : UInt64) <<< 63) = 0 ↔ x.toNat < 2 ^ 63 := by
  have hx := x.toNat_lt
  rw [← UInt64.toNat_inj, UInt64.toNat_and, show ((1 : UInt64) <<< 63).toNat = 2 ^ 63 from rfl,
    Nat.and_two_pow, Nat.testBit_eq_decide_div_mod_eq, UInt64.toNat_zero]
  by_cases h : x.toNat / 2 ^ 63 % 2 = 1
  · simp only [h, decide_true, Bool.toNat_true]
    omega
  · simp only [h, decide_false, Bool.toNat_false]
    omega

theorem log2_two_mul {n : ℕ} (hn : n ≠ 0) : Nat.log2 (2 * n) = Nat.log2 n + 1 := by
  rw [Nat.log2_eq_iff (by omega)]
  have hlo := Nat.log2_self_le hn
  have hhi : n < 2 ^ (Nat.log2 n + 1) := Nat.lt_log2_self
  rw [pow_succ] at hhi
  constructor
  · rw [pow_succ]
    omega
  · rw [pow_succ, pow_succ]
    omega

theorem log2_lt_64 (x : UInt64) : Nat.log2 x.toNat < 64 := by
  rcases Nat.eq_zero_or_pos x.toNat with h | h
  · rw [h]
    decide
  · exact (Nat.log2_lt (by omega)).mpr x.toNat_lt

/-- Each round doubles `x`, until its leading bit is the top one. -/
theorem leadingZerosLoop_eq (fuel : ℕ) (x n : UInt64) (hx : x.toNat ≠ 0)
    (hfuel : 64 - Nat.log2 x.toNat ≤ fuel) :
    leadingZerosLoop fuel x n = n + UInt64.ofNat (63 - Nat.log2 x.toNat) := by
  have hlog := log2_lt_64 x
  induction fuel generalizing x n with
  | zero => omega
  | succ fuel ih =>
    rw [leadingZerosLoop]
    by_cases htop : x.toNat < 2 ^ 63
    · have hdouble : (x <<< 1).toNat = 2 * x.toNat := by
        rw [UInt64.toNat_shiftLeft, show (1 : UInt64).toNat % 64 = 1 from rfl, Nat.shiftLeft_eq]
        omega
      have hlog' : Nat.log2 (x <<< 1).toNat = Nat.log2 x.toNat + 1 := by
        rw [hdouble, log2_two_mul hx]
      have hlt : Nat.log2 x.toNat < 63 := (Nat.log2_lt hx).mpr htop
      rw [if_pos ((and_top_eq_zero x).mpr htop),
        ih (x <<< 1) (n + 1) (by omega) (by omega) (log2_lt_64 _), hlog',
        show 63 - Nat.log2 x.toNat = 63 - (Nat.log2 x.toNat + 1) + 1 by omega, UInt64.ofNat_add,
        UInt64.add_assoc, UInt64.add_comm 1]
      rfl
    · have hge : 63 ≤ Nat.log2 x.toNat := (Nat.le_log2 hx).mpr (by omega)
      rw [if_neg (by rwa [and_top_eq_zero]), show 63 - Nat.log2 x.toNat = 0 by omega]
      simp

theorem leadingZeros64_eq {x : UInt64} (hx : x.toNat ≠ 0) :
    leadingZeros64 x = UInt64.ofNat (63 - Nat.log2 x.toNat) := by
  have hne : x ≠ 0 := by
    rintro rfl
    exact hx rfl
  rw [leadingZeros64, if_neg hne, leadingZerosLoop_eq 64 x 0 hx (by omega), UInt64.zero_add]

/-- `shift` in `index`. -/
theorem toNat_shift {v : UInt64} (h : 64 ≤ v.toNat) :
    (63 - leadingZeros64 v - histSubBits).toNat = scale 6 v.toNat := by
  have hlog := log2_lt_64 v
  have hlog' : 6 ≤ Nat.log2 v.toNat := le_log2 h
  rw [leadingZeros64_eq (by omega), UInt64.toNat_sub, UInt64.toNat_sub, UInt64.toNat_ofNat',
    show histSubBits.toNat = 6 from rfl, show (63 : UInt64).toNat = 63 from rfl, scale]
  omega

/-- The index is the number of the bucket: the clamp is never needed. -/
theorem index_eq (v : UInt64) : index v = logLinear 6 v.toNat := by
  unfold index
  by_cases hsmall : v < subCount
  · rw [if_pos hsmall]
    rw [UInt64.lt_iff_toNat_lt, show subCount.toNat = 64 from rfl] at hsmall
    exact (logLinear_of_lt (by omega)).symm
  · rw [if_neg hsmall]
    rw [UInt64.lt_iff_toNat_lt, show subCount.toNat = 64 from rfl] at hsmall
    have hlog := log2_lt_64 v
    have hscale : scale 6 v.toNat ≤ 57 := by
      unfold scale
      omega
    have hlo : 64 ≤ v.toNat / 2 ^ scale 6 v.toNat := le_div_scale (k := 6) (by omega)
    have hhi : v.toNat / 2 ^ scale 6 v.toNat < 128 := div_scale_lt 6 v.toNat
    have hshift := toNat_shift (v := v) (by omega)
    dsimp only
    generalize 63 - leadingZeros64 v - histSubBits = shift at hshift
    have hsub : ((v >>> shift) &&& (subCount - 1)).toNat =
        v.toNat / 2 ^ scale 6 v.toNat - 64 := by
      rw [UInt64.toNat_and, UInt64.toNat_shiftRight, hshift, Nat.mod_eq_of_lt (by omega),
        Nat.shiftRight_eq_div_pow, show (subCount - 1).toNat = 2 ^ 6 - 1 from rfl,
        Nat.and_two_pow_sub_one_eq_mod]
      omega
    have hidx : ((shift + 1) * subCount + ((v >>> shift) &&& (subCount - 1))).toNat =
        logLinear 6 v.toNat := by
      rw [UInt64.toNat_add, UInt64.toNat_mul, UInt64.toNat_add, hsub, hshift,
        show subCount.toNat = 64 from rfl, show (1 : UInt64).toNat = 1 from rfl, logLinear]
      omega
    rw [hidx, if_neg]
    unfold logLinear countsLen
    omega

theorem index_lt (v : UInt64) : index v < countsLen := by
  have hlog := log2_lt_64 v
  have hhi := div_scale_lt 6 v.toNat
  rw [index_eq, logLinear, countsLen]
  unfold scale at hhi ⊢
  omega

/-- The value of a bucket is the least of those that go there. -/
theorem toNat_value_index (v : UInt64) : (value (index v)).toNat = bucketFloor 6 v.toNat := by
  have hlt := index_lt v
  rw [countsLen] at hlt
  rw [index_eq] at hlt ⊢
  have hle := bucketFloor_le 6 v.toNat
  have hv := v.toNat_lt
  unfold value
  rw [show subCount.toNat = 64 from rfl]
  by_cases hsmall : v.toNat < 64
  · have hscale : scale 6 v.toNat = 0 := scale_eq_zero (by omega)
    rw [logLinear_of_lt (by omega), if_pos hsmall, UInt64.toNat_ofNat', bucketFloor, hscale]
    omega
  · have hdiv : logLinear 6 v.toNat / 64 = scale 6 v.toNat + 1 := logLinear_div (k := 6) (by omega)
    have hmod : logLinear 6 v.toNat % 64 = v.toNat / 2 ^ scale 6 v.toNat - 64 :=
      logLinear_mod (k := 6) (by omega)
    have hlo : 64 ≤ v.toNat / 2 ^ scale 6 v.toNat := le_div_scale (k := 6) (by omega)
    have hhi : v.toNat / 2 ^ scale 6 v.toNat < 128 := div_scale_lt 6 v.toNat
    have hlog := log2_lt_64 v
    have hscale : scale 6 v.toNat ≤ 57 := by
      unfold scale
      omega
    rw [if_neg (by omega)]
    dsimp only
    have hofNat : (UInt64.ofNat (logLinear 6 v.toNat)).toNat = logLinear 6 v.toNat := by
      rw [UInt64.toNat_ofNat']
      omega
    have hshift : (UInt64.ofNat (logLinear 6 v.toNat) / subCount - 1).toNat = scale 6 v.toNat := by
      rw [UInt64.toNat_sub, UInt64.toNat_div, hofNat, show subCount.toNat = 64 from rfl,
        show (1 : UInt64).toNat = 1 from rfl, hdiv]
      omega
    have hor : (subCount ||| UInt64.ofNat (logLinear 6 v.toNat) % subCount).toNat =
        v.toNat / 2 ^ scale 6 v.toNat := by
      have hsum : 64 + logLinear 6 v.toNat % 64 = 64 ||| logLinear 6 v.toNat % 64 :=
        Nat.two_pow_add_eq_or_of_lt (i := 6) (Nat.mod_lt _ (by decide)) 1
      rw [UInt64.toNat_or, UInt64.toNat_mod, hofNat, show subCount.toNat = 64 from rfl, ← hsum]
      omega
    rw [UInt64.toNat_shiftLeft, hshift, hor, Nat.mod_eq_of_lt (show scale 6 v.toNat < 64 by omega),
      Nat.shiftLeft_eq]
    exact Nat.mod_eq_of_lt (lt_of_le_of_lt hle hv)

/-! ## Recording and merging -/

/-- The histogram of the samples `ns`, whatever their order. -/
def ofSamples (ns : List ℕ) : Histogram where
  counts := fun i => UInt64.ofNat (ns.countP fun n => decide (logLinear 6 n = i))
  total := UInt64.ofNat ns.length
  sum := UInt64.ofNat ns.sum
  min := UInt64.ofNat (ns.foldr min (2 ^ 64 - 1))
  max := UInt64.ofNat (ns.foldr max 0)

/-- `v` in `Record`. -/
def sample (d : Int64) : ℕ := (if d < 0 then 0 else d.toUInt64).toNat

theorem sample_lt (d : Int64) : sample d < 2 ^ 64 := UInt64.toNat_lt _

theorem sample_eq {d : Int64} (h : 0 ≤ d) : (sample d : ℤ) = d.toInt := by
  have hint := Int64.le_iff_toInt_le.mp h
  rw [Int64.toInt_zero] at hint
  rw [sample, if_neg (by rw [Int64.lt_iff_toInt_lt, Int64.toInt_zero]; omega),
    Int64.toNat_toUInt64_of_le h, ← Int64.toNat_toInt]
  omega

theorem ofNat_min {n m : ℕ} (hn : n < 2 ^ 64) (hm : m < 2 ^ 64) :
    (if UInt64.ofNat n < UInt64.ofNat m then UInt64.ofNat n else UInt64.ofNat m) =
      UInt64.ofNat (min n m) := by
  have hlt : UInt64.ofNat n < UInt64.ofNat m ↔ n < m := by
    rw [UInt64.lt_iff_toNat_lt, UInt64.toNat_ofNat', UInt64.toNat_ofNat', Nat.mod_eq_of_lt hn,
      Nat.mod_eq_of_lt hm]
  rw [min_def_lt]
  simp only [hlt]
  split_ifs <;> rfl

theorem ofNat_max {n m : ℕ} (hn : n < 2 ^ 64) (hm : m < 2 ^ 64) :
    (if UInt64.ofNat n > UInt64.ofNat m then UInt64.ofNat n else UInt64.ofNat m) =
      UInt64.ofNat (max n m) := by
  have hlt : UInt64.ofNat n > UInt64.ofNat m ↔ m < n := by
    rw [gt_iff_lt, UInt64.lt_iff_toNat_lt, UInt64.toNat_ofNat', UInt64.toNat_ofNat',
      Nat.mod_eq_of_lt hn, Nat.mod_eq_of_lt hm]
  rw [max_comm, max_def_lt]
  simp only [hlt]
  split_ifs <;> rfl

theorem foldr_min_lt (ns : List ℕ) : ns.foldr min (2 ^ 64 - 1) < 2 ^ 64 := by
  induction ns with
  | nil => decide
  | cons n ns ih =>
    rw [List.foldr_cons]
    omega

theorem foldr_max_lt {ns : List ℕ} (h : ∀ n ∈ ns, n < 2 ^ 64) : ns.foldr max 0 < 2 ^ 64 := by
  induction ns with
  | nil => decide
  | cons n ns ih =>
    rw [List.forall_mem_cons] at h
    have := ih h.2
    rw [List.foldr_cons]
    omega

theorem foldr_min_append (ns ms : List ℕ) (b : ℕ) :
    (ns ++ ms).foldr min b = min (ns.foldr min b) (ms.foldr min b) := by
  have hle : ms.foldr min b ≤ b := by
    induction ms with
    | nil => exact le_rfl
    | cons m ms ih =>
      rw [List.foldr_cons]
      omega
  induction ns with
  | nil =>
    rw [List.nil_append, List.foldr_nil]
    omega
  | cons n ns ih => rw [List.cons_append, List.foldr_cons, List.foldr_cons, ih, min_assoc]

theorem foldr_max_append (ns ms : List ℕ) :
    (ns ++ ms).foldr max 0 = max (ns.foldr max 0) (ms.foldr max 0) := by
  induction ns with
  | nil => simp
  | cons n ns ih => rw [List.cons_append, List.foldr_cons, List.foldr_cons, ih, max_assoc]

theorem newHistogram_eq : newHistogram = ofSamples [] := rfl

theorem record_ofSamples {ns : List ℕ} (h : ∀ n ∈ ns, n < 2 ^ 64) (d : Int64) :
    (ofSamples ns).record d = ofSamples (sample d :: ns) := by
  obtain ⟨v, hv⟩ : ∃ v : UInt64, v = if d < 0 then 0 else d.toUInt64 := ⟨_, rfl⟩
  have hsample : v = UInt64.ofNat (sample d) := by
    rw [sample, ← hv, UInt64.ofNat_toNat]
  have hindex : index v = logLinear 6 (sample d) := by
    rw [index_eq, sample, ← hv]
  unfold Histogram.record
  rw [← hv]
  simp only [ofSamples, hindex]
  congr 1
  · funext i
    by_cases hi : i = logLinear 6 (sample d)
    · subst hi
      rw [Function.update_self, List.countP_cons_of_pos (by simp), UInt64.ofNat_add]
      rfl
    · rw [Function.update_of_ne hi, List.countP_cons_of_neg (by simpa using Ne.symm hi)]
  · rw [List.length_cons, UInt64.ofNat_add]
    rfl
  · rw [List.sum_cons, UInt64.ofNat_add, hsample, UInt64.add_comm]
  · rw [hsample]
    exact ofNat_min (sample_lt d) (foldr_min_lt ns)
  · rw [hsample]
    exact ofNat_max (sample_lt d) (foldr_max_lt h)

theorem merge_ofSamples {ns ms : List ℕ} (hn : ∀ n ∈ ns, n < 2 ^ 64) (hm : ∀ m ∈ ms, m < 2 ^ 64) :
    (ofSamples ns).merge (ofSamples ms) = ofSamples (ns ++ ms) := by
  unfold Histogram.merge
  simp only [ofSamples]
  congr 1
  · funext i
    rw [List.countP_append, UInt64.ofNat_add]
  · rw [List.length_append, UInt64.ofNat_add]
  · rw [List.sum_append, UInt64.ofNat_add]
  · rw [foldr_min_append, min_comm]
    exact ofNat_min (foldr_min_lt ms) (foldr_min_lt ns)
  · rw [foldr_max_append, max_comm]
    exact ofNat_max (foldr_max_lt hm) (foldr_max_lt hn)

theorem ofSamples_perm {ns ms : List ℕ} (h : ns.Perm ms) : ofSamples ns = ofSamples ms := by
  unfold ofSamples
  congr 1
  · funext i
    rw [h.countP_eq]
  · rw [h.length_eq]
  · rw [h.sum_eq]
  · rw [h.foldr_eq]
  · rw [h.foldr_eq]

theorem samples_lt (ds : List Int64) : ∀ n ∈ ds.map sample, n < 2 ^ 64 := by
  intro n hn
  obtain ⟨d, -, rfl⟩ := List.mem_map.mp hn
  exact sample_lt d

theorem Build.histogram_eq (b : Build) : b.histogram = ofSamples (b.samples.map sample) := by
  induction b with
  | new => rfl
  | record b d ih =>
    rw [Build.histogram, ih, record_ofSamples (samples_lt _), Build.samples, List.map_cons]
  | merge b o ihb iho =>
    rw [Build.histogram, ihb, iho, merge_ofSamples (samples_lt _) (samples_lt _), Build.samples,
      List.map_append]

theorem foldl_record (ds : List Int64) {ns : List ℕ} (h : ∀ n ∈ ns, n < 2 ^ 64) :
    ds.foldl Histogram.record (ofSamples ns) = ofSamples (ds.map sample ++ ns) := by
  induction ds generalizing ns with
  | nil => rfl
  | cons d ds ih =>
    rw [List.foldl_cons, record_ofSamples h, ih (List.forall_mem_cons.mpr ⟨sample_lt d, h⟩)]
    refine ofSamples_perm ?_
    rw [List.map_cons, List.cons_append]
    exact List.perm_middle

/-! ## The scan -/

/-- The samples before bucket `i`. -/
def below (ns : List ℕ) (i : ℕ) : ℕ := ns.countP fun n => decide (logLinear 6 n < i)

theorem below_succ (ns : List ℕ) (i : ℕ) :
    below ns (i + 1) = below ns i + ns.countP fun n => decide (logLinear 6 n = i) :=
  countP_lt_succ (logLinear 6) ns i

theorem below_mono (ns : List ℕ) {i j : ℕ} (h : i ≤ j) : below ns i ≤ below ns j := by
  refine List.countP_mono_left ?_
  intro n _ hn
  simp only [decide_eq_true_eq] at hn ⊢
  omega

theorem below_le_length (ns : List ℕ) (i : ℕ) : below ns i ≤ ns.length := List.countP_le_length

/-- The scan stops at the first bucket up to which there are `t` samples. -/
theorem scanLoop_ofSamples {ns : List ℕ} (hlen : ns.length < 2 ^ 64) {t i : ℕ} (ht : t < 2 ^ 64)
    (hbefore : below ns i < t) (hreached : t ≤ below ns (i + 1)) :
    ∀ m a, a ≤ i → i < a + m →
      (ofSamples ns).scanLoop (UInt64.ofNat t) (List.range' a m) (UInt64.ofNat (below ns a)) =
        some (value i)
  | 0, a, hlo, hhi => by omega
  | m + 1, a, hlo, hhi => by
    have hseen : UInt64.ofNat (below ns a) + (ofSamples ns).counts a =
        UInt64.ofNat (below ns (a + 1)) := by
      rw [below_succ, UInt64.ofNat_add]
      rfl
    have hcmp : UInt64.ofNat (below ns (a + 1)) ≥ UInt64.ofNat t ↔ t ≤ below ns (a + 1) := by
      have hle := below_le_length ns (a + 1)
      rw [ge_iff_le, UInt64.le_iff_toNat_le, UInt64.toNat_ofNat', UInt64.toNat_ofNat',
        Nat.mod_eq_of_lt ht, Nat.mod_eq_of_lt (by omega)]
    rw [List.range'_succ, Histogram.scanLoop, hseen]
    rcases hlo.eq_or_lt with rfl | hlt
    · rw [if_pos (hcmp.mpr hreached)]
    · have hmono := below_mono ns (show a + 1 ≤ i by omega)
      rw [if_neg (by rw [hcmp]; omega)]
      exact scanLoop_ofSamples hlen ht hbefore hreached m (a + 1) (by omega) (by omega)

/-- The scan at rank `t` comes to the bucket of the sample of that rank. -/
theorem scan_ofSamples {ns : List ℕ} (hns : ∀ n ∈ ns, n < 2 ^ 64) (hsorted : ns.Pairwise (· ≤ ·))
    (hlen : ns.length < 2 ^ 64) {t : ℕ} (ht : t < ns.length) :
    ∃ v, (ofSamples ns).scan (UInt64.ofNat (t + 1)) = some v ∧ v.toNat = bucketFloor 6 ns[t] := by
  obtain ⟨hbefore, hreached⟩ := rank_bounds (f := logLinear 6) (fun _ _ => logLinear_mono) hsorted ht
  have hx : ns[t] < 2 ^ 64 := hns _ (List.getElem_mem ht)
  have htoNat : (UInt64.ofNat ns[t]).toNat = ns[t] := by
    rw [UInt64.toNat_ofNat', Nat.mod_eq_of_lt hx]
  have hindex := index_lt (UInt64.ofNat ns[t])
  have hvalue := toNat_value_index (UInt64.ofNat ns[t])
  rw [index_eq, htoNat] at hindex hvalue
  refine ⟨value (logLinear 6 ns[t]), ?_, hvalue⟩
  rw [Histogram.scan, List.range_eq_range']
  have hzero : below ns 0 = 0 := by simp [below]
  have hscan := scanLoop_ofSamples hlen (t := t + 1) (i := logLinear 6 ns[t]) (by omega)
    (Nat.lt_succ_of_le hbefore) ?_ countsLen 0 (Nat.zero_le _) (by omega)
  · rwa [hzero] at hscan
  · refine le_trans hreached (List.countP_mono_left ?_)
    intro n _ hn
    simp only [decide_eq_true_eq] at hn ⊢
    omega

/-- Samples split over histograms in any way and merged in any order, and fewer than `2 ^ 64` of them
    where their ranks are concerned. -/
theorem histogram_rank_error (b : Build) (xs : List Int64) (hperm : xs.Perm b.samples)
    (hpos : ∀ d ∈ xs, 0 ≤ d) :
    b.histogram = xs.foldl Histogram.record newHistogram ∧
      (xs.length < 2 ^ 64 → ∀ ys : List Int64, ys.Perm xs → ys.Pairwise (· ≤ ·) →
        ∀ t, 1 ≤ t → t ≤ ys.length → ∃ x v, ys[t - 1]? = some x ∧
          b.histogram.scan (UInt64.ofNat t) = some v ∧
          (v.toNat : ℤ) ≤ x.toInt ∧ 64 * (x.toInt - v.toNat) ≤ x.toInt) := by
  have hhist : ∀ ys : List Int64, ys.Perm b.samples → b.histogram = ofSamples (ys.map sample) := by
    intro ys hys
    rw [b.histogram_eq]
    exact ofSamples_perm (hys.symm.map sample)
  constructor
  · rw [newHistogram_eq, foldl_record xs (by simp), List.append_nil]
    exact hhist xs hperm
  · intro hlen ys hys hsorted t ht htn
    have hpos' : ∀ d ∈ ys, 0 ≤ d := fun d hd => hpos d (hys.mem_iff.mp hd)
    have hsorted' : (ys.map sample).Pairwise (· ≤ ·) := by
      rw [List.pairwise_map]
      refine hsorted.imp_of_mem fun {d e} hd he hle => ?_
      have hle' := Int64.le_iff_toInt_le.mp hle
      have hd' := sample_eq (hpos' d hd)
      have he' := sample_eq (hpos' e he)
      omega
    have hlt : t - 1 < (ys.map sample).length := by
      rw [List.length_map]
      omega
    obtain ⟨v, hscan, hv⟩ := scan_ofSamples (samples_lt ys) hsorted'
      (by rw [List.length_map, hys.length_eq]; exact hlen) hlt
    rw [List.length_map] at hlt
    rw [List.getElem_map] at hv
    have hx := sample_eq (hpos' ys[t - 1] (List.getElem_mem hlt))
    have hle := bucketFloor_le 6 (sample ys[t - 1])
    have herr := bucketFloor_error 6 (sample ys[t - 1])
    refine ⟨ys[t - 1], v, List.getElem?_eq_getElem hlt, ?_, ?_, ?_⟩
    · have hrank : t - 1 + 1 = t := by omega
      rw [hrank] at hscan
      rw [hhist ys (hys.trans hperm)]
      exact hscan
    · omega
    · rw [← hv] at hle herr
      omega

/-- 1000 and 5 recorded apart and merged: rank 2 is read as 992. -/
theorem histogram_rank_error_two :
    ∃ v, ((Build.new.record 1000).merge (Build.new.record 5)).histogram.scan (UInt64.ofNat 2) = some v ∧
      (v.toNat : ℤ) ≤ 1000 ∧ 64 * (1000 - (v.toNat : ℤ)) ≤ 1000 := by
  obtain ⟨-, hrank⟩ := histogram_rank_error ((Build.new.record 1000).merge (Build.new.record 5))
    [1000, 5] (List.Perm.refl _) (by simp)
  obtain ⟨x, v, hx, hscan, hle, herr⟩ :=
    hrank (by decide) [5, 1000] (List.Perm.swap 1000 5 []) (by decide) 2 (by decide) (by decide)
  obtain rfl : 1000 = x := Option.some.inj hx
  have hint : (1000 : Int64).toInt = 1000 := by decide
  rw [hint] at hle herr
  exact ⟨v, hscan, hle, herr⟩

/-! ## Counters that wrap around -/

theorem scanLoop_of_zero {h : Histogram} (hzero : ∀ i, h.counts i = 0) {target : UInt64}
    (htarget : target ≠ 0) (is : List ℕ) : h.scanLoop target is 0 = none := by
  induction is with
  | nil => rfl
  | cons i is ih =>
    have hlt : ¬ (0 : UInt64) ≥ target := by
      rw [ge_iff_le, UInt64.le_iff_toNat_le, UInt64.toNat_zero]
      intro hle
      exact htarget (UInt64.toNat_inj.mp (by rw [UInt64.toNat_zero]; omega))
    rw [Histogram.scanLoop, hzero, UInt64.add_zero, if_neg hlt]
    exact ih

theorem scan_replicate {n : ℕ} (h : UInt64.ofNat n = 0) (d : Int64) :
    ((List.replicate n d).foldl Histogram.record newHistogram).scan 1 = none := by
  rw [newHistogram_eq, foldl_record _ (by simp), List.append_nil, List.map_replicate]
  refine scanLoop_of_zero (fun i => ?_) (by decide) _
  show UInt64.ofNat ((List.replicate n (sample d)).countP fun n => decide (logLinear 6 n = i)) = 0
  rw [List.countP_replicate]
  split_ifs
  · exact h
  · rfl

/-- After `2 ^ 64` samples in one bucket its counter is 0 again, and the scan finds no bucket for the
    first rank. -/
theorem histogram_wraps :
    ((List.replicate (2 ^ 64) (0 : Int64)).foldl Histogram.record newHistogram).scan 1 = none :=
  scan_replicate (by decide) 0

end Kvbench

end KvStore
