import KvStore.Common.Bytes

/-!
# Self-delimiting encodings

A `Codec α` is an encoder together with a reader that takes one encoded value off the
front of a byte string and leaves the rest: what is encoded is read back, whatever
follows it, and what is read is the encoding of a valid value. Integers of a fixed
width and byte strings of a known length are the atoms; `bind` puts one encoding after
another, the second depending on the value of the first, and `map` changes the type of
the values.

* `Codec.read_append`: what follows an encoding is not read.
-/

namespace KvStore.Common

/-- An encoder and the reader that undoes it. -/
structure Codec (α : Type) where
  encode : α → Bytes
  read : Bytes → Option (α × Bytes)
  /-- The values that can be encoded. -/
  Valid : α → Prop
  read_encode : ∀ {a : α} (rest : Bytes), Valid a → read (encode a ++ rest) = some (a, rest)
  of_read : ∀ {b : Bytes} {a : α} {rest : Bytes}, read b = some (a, rest) →
    Valid a ∧ b = encode a ++ rest

namespace Codec

variable {α β γ : Type}

/-! ## What every encoding has -/

theorem read_append (c : Codec α) {b : Bytes} {a : α} {rest : Bytes} (h : c.read b = some (a, rest))
    (extra : Bytes) : c.read (b ++ extra) = some (a, rest ++ extra) := by
  obtain ⟨hvalid, rfl⟩ := c.of_read h
  rw [List.append_assoc, c.read_encode _ hvalid]

/-- A byte string that is read to its end is no longer so when it is extended. -/
theorem read_append_ne (c : Codec α) {b : Bytes} {a : α} (h : c.read b = some (a, []))
    {extra : Bytes} (hextra : extra ≠ []) (a' : α) : c.read (b ++ extra) ≠ some (a', []) := by
  intro h'
  rw [c.read_append h extra] at h'
  cases h'
  exact hextra rfl

/-! ## Atoms -/

/-- Nothing. -/
def unit : Codec Unit where
  encode _ := []
  read b := some ((), b)
  Valid _ := True
  read_encode _ _ := rfl
  of_read h := by cases h; exact ⟨trivial, rfl⟩

/-- A little-endian integer of `w` bytes. -/
def word (w : ℕ) : Codec ℕ where
  encode n := putLE w n
  read b := if b.length < w then none else some (leNat (b.take w), b.drop w)
  Valid n := n < 256 ^ w
  read_encode := by
    intro n rest hn
    have hlen : (putLE w n).length = w := length_putLE w n
    rw [if_neg (by rw [List.length_append]; omega), List.take_left' hlen, List.drop_left' hlen,
      leNat_putLE_of_lt hn]
  of_read := by
    intro b a rest h
    split_ifs at h with hlen
    cases h
    have htake : (b.take w).length = w := List.length_take_of_le (by omega)
    have hlt := leNat_lt (b.take w)
    have hput := putLE_leNat (b.take w)
    rw [htake] at hlt hput
    rw [hput, List.take_append_drop]
    exact ⟨hlt, rfl⟩

/-- `n` bytes as they are. -/
def raw (n : ℕ) : Codec Bytes where
  encode b := b
  read b := if b.length < n then none else some (b.take n, b.drop n)
  Valid b := b.length = n
  read_encode := by
    intro a rest ha
    rw [if_neg (by rw [List.length_append]; omega), List.take_left' ha, List.drop_left' ha]
  of_read := by
    intro b a rest h
    split_ifs at h with hlen
    cases h
    exact ⟨List.length_take_of_le (by omega), (List.take_append_drop n b).symm⟩

/-! ## Combinations -/

/-- One encoding after another, the second one depending on the first value. -/
def bind (c : Codec α) (d : α → Codec β) : Codec (α × β) where
  encode p := c.encode p.1 ++ (d p.1).encode p.2
  read b := (c.read b).bind fun p => ((d p.1).read p.2).map fun q => ((p.1, q.1), q.2)
  Valid p := c.Valid p.1 ∧ (d p.1).Valid p.2
  read_encode := by
    rintro ⟨a, b⟩ rest ⟨ha, hb⟩
    rw [List.append_assoc, c.read_encode _ ha, Option.bind_some, (d a).read_encode _ hb]
    rfl
  of_read := by
    rintro bs ⟨a, b⟩ rest h
    obtain ⟨⟨a', mid⟩, hc, h⟩ := Option.bind_eq_some_iff.mp h
    obtain ⟨⟨b', rest'⟩, hd, heq⟩ := Option.map_eq_some_iff.mp h
    cases heq
    obtain ⟨ha, rfl⟩ := c.of_read hc
    obtain ⟨hb, hmid⟩ := (d a').of_read hd
    have hmid : mid = (d a').encode b' ++ rest' := hmid
    rw [hmid, ← List.append_assoc]
    exact ⟨⟨ha, hb⟩, rfl⟩

/-- One encoding after another. -/
def pair (c : Codec α) (d : Codec β) : Codec (α × β) := c.bind fun _ => d

/-- The values of another type that `g` takes to encodable ones and `f` takes back. -/
def map (c : Codec α) (f : α → β) (g : β → α) (hgf : ∀ a, c.Valid a → g (f a) = a) : Codec β where
  encode b := c.encode (g b)
  read b := (c.read b).map fun p => (f p.1, p.2)
  Valid b := c.Valid (g b) ∧ f (g b) = b
  read_encode := by
    rintro b rest ⟨hb, hfg⟩
    rw [c.read_encode _ hb, Option.map_some, hfg]
  of_read := by
    intro bs b rest h
    obtain ⟨⟨a, rest'⟩, hread, heq⟩ := Option.map_eq_some_iff.mp h
    cases heq
    obtain ⟨ha, rfl⟩ := c.of_read hread
    rw [hgf a ha]
    exact ⟨⟨ha, rfl⟩, rfl⟩

/-- Only the values that satisfy `p`. -/
def filter (c : Codec α) (p : α → Bool) : Codec α where
  encode := c.encode
  read b := (c.read b).filter fun q => p q.1
  Valid a := c.Valid a ∧ p a = true
  read_encode := by
    rintro a rest ⟨ha, hp⟩
    rw [c.read_encode _ ha]
    exact Option.filter_some_pos hp
  of_read := by
    intro b a rest h
    obtain ⟨hread, hp⟩ := Option.filter_eq_some_iff.mp h
    obtain ⟨ha, hb⟩ := c.of_read hread
    exact ⟨⟨ha, hp⟩, hb⟩

/-! ## Machine integers and counted byte strings -/

def u8 : Codec UInt8 := (word 1).map UInt8.ofNat UInt8.toNat fun _ h => UInt8.toNat_ofNat_of_lt' h

def u16 : Codec UInt16 :=
  (word 2).map UInt16.ofNat UInt16.toNat fun _ h => UInt16.toNat_ofNat_of_lt' h

def u32 : Codec UInt32 :=
  (word 4).map UInt32.ofNat UInt32.toNat fun _ h => UInt32.toNat_ofNat_of_lt' h

def u64 : Codec UInt64 :=
  (word 8).map UInt64.ofNat UInt64.toNat fun _ h => UInt64.toNat_ofNat_of_lt' h

theorem u16_valid (n : UInt16) : u16.Valid n := ⟨n.toNat_lt, UInt16.ofNat_toNat⟩

theorem u32_valid (n : UInt32) : u32.Valid n := ⟨n.toNat_lt, UInt32.ofNat_toNat⟩

theorem u64_valid (n : UInt64) : u64.Valid n := ⟨n.toNat_lt, UInt64.ofNat_toNat⟩

/-- A byte string after its length, which `c` encodes. -/
def counted (c : Codec ℕ) : Codec Bytes :=
  (c.bind fun n => raw n).map Prod.snd (fun b => (b.length, b)) fun p hp => by
    have hlen : p.2.length = p.1 := hp.2
    rw [hlen]

theorem counted_valid (c : Codec ℕ) (b : Bytes) : (counted c).Valid b ↔ c.Valid b.length :=
  ⟨fun h => h.1.1, fun h => ⟨⟨h, rfl⟩, rfl⟩⟩

end Codec

end KvStore.Common
