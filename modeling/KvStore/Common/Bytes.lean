import Mathlib

/-!
# Byte strings and fixed-width little-endian integers

`[]byte` and the `string` keys of the Go code are `Bytes`. `putLE w n` are the `w`
bytes that `binary.LittleEndian.PutUint16/32/64` writes for the low `8w` bits of
`n`, and `leNat` is the number that `binary.LittleEndian.Uint16/32/64` reads back.

* `leNat_putLE`, `putLE_leNat`: the two are inverse on `w` bytes.
* `field_zero_putLE`, `field_add`: reading one of several integers at its offset.
* `ChangedAt`: two byte strings that differ in one byte.

The Go conversions `int32(x)`, `uint32(x)` and `int64` arithmetic wrap around; they
are `int32`, `uint32` and `int64` on `ℤ`.
-/

namespace KvStore.Common

/-- `[]byte`. -/
abbrev Bytes := List UInt8

/-! ## Wrap-around conversions -/

/-- The conversion `int32(x)`. -/
def int32 (x : ℤ) : ℤ := Int.bmod x (2 ^ 32)

/-- The conversion `uint32(x)`. -/
def uint32 (x : ℤ) : ℕ := (x % 2 ^ 32).toNat

/-- The value of an `int64` sum or difference. -/
def int64 (x : ℤ) : ℤ := Int.bmod x (2 ^ 64)

theorem int32_eq {x : ℤ} (h0 : -(2 ^ 31) ≤ x) (h1 : x < 2 ^ 31) : int32 x = x :=
  Int.bmod_eq_of_le (by norm_num; omega) (by norm_num; omega)

theorem int64_eq {x : ℤ} (h0 : -(2 ^ 63) ≤ x) (h1 : x < 2 ^ 63) : int64 x = x :=
  Int.bmod_eq_of_le (by norm_num; omega) (by norm_num; omega)

theorem int64_lt (x : ℤ) : int64 x < 2 ^ 63 := by
  have hlt : Int.bmod x (2 ^ 64) < _ := Int.bmod_lt (by decide)
  norm_num at hlt
  exact hlt

/-- A sum that leaves the range at the top. -/
theorem int64_wrap {x : ℤ} (h0 : 2 ^ 63 ≤ x) (h1 : x < 2 ^ 63 + 2 ^ 64) :
    int64 x = x - 2 ^ 64 := by
  have hsame : int64 (x - 2 ^ 64) = int64 x := Int.sub_bmod_right x (2 ^ 64)
  rw [← hsame, int64_eq (by omega) (by omega)]

theorem uint32_eq {x : ℤ} (h0 : 0 ≤ x) (h1 : x < 2 ^ 32) : (uint32 x : ℤ) = x := by
  unfold uint32; omega

/-! ## Little-endian integers -/

/-- The number whose little-endian bytes are the list. -/
def leNat : Bytes → ℕ
  | [] => 0
  | b :: bs => b.toNat + 256 * leNat bs

/-- The `w` little-endian bytes of `n` modulo `256 ^ w`. -/
def putLE : ℕ → ℕ → Bytes
  | 0, _ => []
  | w + 1, n => UInt8.ofNat n :: putLE w (n / 256)

@[simp] theorem length_putLE (w n : ℕ) : (putLE w n).length = w := by
  induction w generalizing n with
  | zero => rfl
  | succ w ih => simp [putLE, ih]

theorem leNat_putLE (w n : ℕ) : leNat (putLE w n) = n % 256 ^ w := by
  induction w generalizing n with
  | zero => simp [putLE, leNat, Nat.mod_one]
  | succ w ih =>
    rw [putLE, leNat, ih, UInt8.toNat_ofNat', show (2 : ℕ) ^ 8 = 256 from rfl, pow_succ',
      Nat.mod_mul]

theorem leNat_putLE_of_lt {w n : ℕ} (h : n < 256 ^ w) : leNat (putLE w n) = n := by
  rw [leNat_putLE, Nat.mod_eq_of_lt h]

theorem leNat_lt (bs : Bytes) : leNat bs < 256 ^ bs.length := by
  induction bs with
  | nil => simp [leNat]
  | cons b bs ih =>
    have := b.toNat_lt
    rw [leNat, List.length_cons, pow_succ']
    omega

theorem putLE_leNat (bs : Bytes) : putLE bs.length (leNat bs) = bs := by
  induction bs with
  | nil => rfl
  | cons b bs ih =>
    have hb := b.toNat_lt
    rw [List.length_cons, putLE, leNat, show (b.toNat + 256 * leNat bs) / 256 = leNat bs by omega, ih]
    congr 1
    apply UInt8.toNat_inj.mp
    rw [UInt8.toNat_ofNat']
    omega

/-! ## Fields at fixed offsets -/

/-- The little-endian integer in `p[off : off+len]`. -/
def field (p : Bytes) (off len : ℕ) : ℕ := leNat ((p.drop off).take len)

/-- Reading a field that sits at the front. -/
theorem field_zero_putLE {w n : ℕ} (rest : Bytes) (h : n < 256 ^ w) :
    field (putLE w n ++ rest) 0 w = n := by
  rw [field, List.drop_zero, List.take_left' (length_putLE w n), leNat_putLE_of_lt h]

/-- Skipping what sits in front of a field. -/
theorem field_add {p : Bytes} {a o : ℕ} (rest : Bytes) (h : p.length = a) (len : ℕ) :
    field (p ++ rest) (a + o) len = field rest o len := by
  rw [field, field, ← List.drop_drop, List.drop_left' h]

theorem field_lt (p : Bytes) (off len : ℕ) : field p off len < 256 ^ len :=
  (leNat_lt _).trans_le (Nat.pow_le_pow_right (by decide) (List.length_take_le _ _))

/-- Writing back a field that was read. -/
theorem putLE_field_append {p : Bytes} (off : ℕ) {len : ℕ} (h : off + len ≤ p.length) :
    putLE len (field p off len) ++ p.drop (off + len) = p.drop off := by
  have hlen : ((p.drop off).take len).length = len := by
    rw [List.length_take_of_le]
    rw [List.length_drop]
    omega
  have hput := putLE_leNat ((p.drop off).take len)
  rw [hlen] at hput
  rw [field, hput, ← List.drop_drop, List.take_append_drop]

/-- A field that lies in the first `m` bytes. -/
theorem field_take (p : Bytes) {m off len : ℕ} (h : off + len ≤ m) :
    field (p.take m) off len = field p off len := by
  rw [field, field, List.drop_take, List.take_take, Nat.min_eq_left (by omega)]

/-- `copy(b[off:], p)` into a slice with room for it. -/
def putAt (b : Bytes) (off : ℕ) (p : Bytes) : Bytes :=
  b.take off ++ (p ++ b.drop (off + p.length))

/-- Writing over `y`, which begins at `off`. -/
theorem putAt_append {x y p : Bytes} {off : ℕ} (hx : x.length = off) (hy : y.length = p.length)
    (z : Bytes) : putAt (x ++ (y ++ z)) off p = x ++ (p ++ z) := by
  rw [putAt, List.take_left' hx, ← List.drop_drop, List.drop_left' hx, List.drop_left' hy]

/-! ## One changed byte -/

/-- `p` and `q` differ at `i`, and nowhere else. -/
def ChangedAt (p q : Bytes) (i : ℕ) : Prop :=
  ∃ a x y c, x ≠ y ∧ a.length = i ∧ p = a ++ x :: c ∧ q = a ++ y :: c

namespace ChangedAt

variable {p q : Bytes} {i n : ℕ}

theorem ne (h : ChangedAt p q i) : p ≠ q := by
  obtain ⟨a, x, y, c, hne, -, rfl, rfl⟩ := h
  intro heq
  exact hne (List.cons.inj (List.append_cancel_left heq)).1

theorem length_eq (h : ChangedAt p q i) : q.length = p.length := by
  obtain ⟨a, x, y, c, -, -, rfl, rfl⟩ := h
  simp

theorem lt_length (h : ChangedAt p q i) : i < p.length := by
  obtain ⟨a, x, y, c, -, rfl, rfl, rfl⟩ := h
  simp

theorem take_eq (h : ChangedAt p q i) (hn : n ≤ i) : q.take n = p.take n := by
  obtain ⟨a, x, y, c, -, rfl, rfl, rfl⟩ := h
  rw [List.take_append_of_le_length hn, List.take_append_of_le_length hn]

theorem drop_eq (h : ChangedAt p q i) (hn : i < n) : q.drop n = p.drop n := by
  obtain ⟨a, x, y, c, -, rfl, rfl, rfl⟩ := h
  obtain ⟨m, hm⟩ : ∃ m, n - a.length = m + 1 := ⟨n - a.length - 1, by omega⟩
  rw [List.drop_append, List.drop_append, hm, List.drop_succ_cons, List.drop_succ_cons]

theorem drop (h : ChangedAt p q i) (hn : n ≤ i) : ChangedAt (p.drop n) (q.drop n) (i - n) := by
  obtain ⟨a, x, y, c, hne, rfl, rfl, rfl⟩ := h
  exact ⟨a.drop n, x, y, c, hne, List.length_drop, List.drop_append_of_le_length hn,
    List.drop_append_of_le_length hn⟩

theorem take (h : ChangedAt p q i) (hn : i < n) : ChangedAt (p.take n) (q.take n) i := by
  obtain ⟨a, x, y, c, hne, rfl, rfl, rfl⟩ := h
  obtain ⟨m, hm⟩ : ∃ m, n - a.length = m + 1 := ⟨n - a.length - 1, by omega⟩
  refine ⟨a, x, y, c.take m, hne, rfl, ?_, ?_⟩
  · rw [List.take_append, hm, List.take_of_length_le hn.le, List.take_succ_cons]
  · rw [List.take_append, hm, List.take_of_length_le hn.le, List.take_succ_cons]

theorem field_eq (h : ChangedAt p q i) {off len : ℕ} (hi : i < off ∨ off + len ≤ i) :
    field q off len = field p off len := by
  rcases hi with hi | hi
  · rw [field, field, h.drop_eq hi]
  · rw [← field_take q hi, h.take_eq le_rfl, field_take p hi]

/-- A change behind `a`. -/
theorem split {a s : Bytes} (h : ChangedAt (a ++ s) q i) (hi : a.length ≤ i) :
    ∃ t, q = a ++ t ∧ ChangedAt s t (i - a.length) := by
  have htake := h.take_eq hi
  have hdrop := h.drop hi
  rw [List.take_left' rfl] at htake
  rw [List.drop_left' rfl] at hdrop
  refine ⟨q.drop a.length, ?_, hdrop⟩
  nth_rewrite 1 [← List.take_append_drop a.length q]
  rw [htake]

end ChangedAt

end KvStore.Common
