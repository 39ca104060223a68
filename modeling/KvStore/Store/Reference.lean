import KvStore.Store.Store

/-!
# The reference store

Model of `internal/store/reference.go`: one map, and expired keys deleted when they
are looked at. Its contents are a keyspace again, and each operation is described by
what it returns and by what it leaves visible.
-/

namespace KvStore

open KvStore.Common

/-- `refEntry` (lines 22–25). -/
structure RefEntry where
  value : Bytes
  expireAt : UInt64
  deriving DecidableEq, Repr

/-- `Reference` (lines 16–20). -/
structure Reference where
  data : AList (fun _ : Bytes => RefEntry)

/-- `NewReference` (lines 28–33). -/
def newReference : Reference := ⟨∅⟩

namespace Reference

/-- `live` (lines 35–45). -/
def live (r : Reference) (k : Bytes) (nowMs : UInt64) : Option RefEntry × Reference :=
  match r.data.lookup k with
  | none => (none, r)
  | some e =>
    if e.expireAt ≠ 0 ∧ e.expireAt ≤ nowMs then (none, ⟨r.data.erase k⟩) else (some e, r)

/-- `Get` (lines 48–57). -/
def get (r : Reference) (key : Bytes) (now : UInt64) : Option Bytes × Reference :=
  let (e, r) := r.live key now
  (e.map RefEntry.value, r)

/-- `Set` (lines 60–64). -/
def set (r : Reference) (key value : Bytes) (expireAt : UInt64) : Reference :=
  ⟨r.data.insert key ⟨value, expireAt⟩⟩

/-- `Delete` (lines 67–75). -/
def delete (r : Reference) (key : Bytes) (now : UInt64) : Bool × Reference :=
  let (e, r) := r.live key now
  (e.isSome, ⟨r.data.erase key⟩)

/-- `Exists` (lines 78–84). -/
def exists_ (r : Reference) (key : Bytes) (now : UInt64) : Bool × Reference :=
  let (e, r) := r.live key now
  (e.isSome, r)

/-- `Expire` (lines 87–99). -/
def expire (r : Reference) (key : Bytes) (expireAt now : UInt64) : Bool × Reference :=
  match r.live key now with
  | (none, r) => (false, r)
  | (some e, r) => (true, ⟨r.data.insert key { e with expireAt := expireAt }⟩)

/-- `TTL` (lines 102–118). -/
def ttl (r : Reference) (key : Bytes) (now : UInt64) : Option ℤ × Reference :=
  let (e, r) := r.live key now
  (e.map fun e => ttlMillis e.expireAt now, r)

/-- The loop of `Keys` (lines 144–148) over the keys still to visit. -/
def keysLoop (now : UInt64) : List Bytes → Reference → List Bytes × Reference
  | [], r => ([], r)
  | k :: rest, r =>
    let (e, r) := r.live k now
    let (out, r) := keysLoop now rest r
    (if e.isSome then k :: out else out, r)

/-- `Keys` (lines 139–150). -/
def keys (r : Reference) (now : UInt64) : List Bytes × Reference := keysLoop now r.data.keys r

/-- The value and the deadline stored under each key. -/
def contents (r : Reference) : Keyspace Bytes Bytes :=
  fun k => (r.data.lookup k).map fun e => (e.value, e.expireAt)

end Reference

variable {r : Reference} {key : Bytes}

/-! ## What the operations return and leave visible -/

/-- `live` returns what is visible and deletes the key when it is dead. -/
theorem live_spec (r : Reference) (key : Bytes) (now : UInt64) :
    ((r.live key now).1.map fun e => (e.value, e.expireAt)) = liveAt now (r.contents key) ∧
      (r.live key now).2.contents =
        if deadAt now (r.contents key) = true then r.contents.delete key else r.contents := by
  unfold Reference.live
  rcases hk : r.data.lookup key with _ | e
  · have hnone : r.contents key = none := by rw [Reference.contents, hk]; rfl
    rw [hnone]
    exact ⟨rfl, rfl⟩
  · have hsome : r.contents key = some (e.value, e.expireAt) := by
      rw [Reference.contents, hk]; rfl
    rw [hsome, liveAt_some, deadAt_some]
    dsimp only
    by_cases hx : e.expireAt ≠ 0 ∧ e.expireAt ≤ now
    · have hexp : expiredAt e.expireAt now = true := by simpa [expiredAt] using hx
      rw [if_pos hx, if_pos hexp, if_pos hexp]
      refine ⟨rfl, ?_⟩
      funext k
      by_cases hkey : k = key
      · subst hkey; simp [Reference.contents]
      · rw [Keyspace.delete_of_ne _ hkey]
        simp [Reference.contents, AList.lookup_erase_ne hkey]
    · have hexp : ¬ expiredAt e.expireAt now = true := by simpa [expiredAt] using hx
      rw [if_neg hx, if_neg hexp, if_neg hexp]
      exact ⟨rfl, rfl⟩

/-- Looking at a key changes nothing a reader at that time or later can see. -/
theorem live_visible (r : Reference) (key : Bytes) {now now' : UInt64} (h : now ≤ now')
    (k : Bytes) : liveAt now' ((r.live key now).2.contents k) = liveAt now' (r.contents k) := by
  rw [(live_spec r key now).2]
  split_ifs with hdead
  · by_cases hk : k = key
    · subst hk
      rw [Keyspace.delete_self]
      have hnone : liveAt now (r.contents k) = liveAt now none := liveAt_of_dead hdead
      exact (liveAt_congr_later h hnone).symm
    · rw [Keyspace.delete_of_ne _ hk]
  · rfl

theorem live_isSome (r : Reference) (key : Bytes) (now : UInt64) :
    (r.live key now).1.isSome = (liveAt now (r.contents key)).isSome := by
  rw [← (live_spec r key now).1, Option.isSome_map]

theorem contents_insert (r : Reference) (key : Bytes) (e : RefEntry) :
    Reference.contents ⟨r.data.insert key e⟩ = r.contents.set key e.value e.expireAt := by
  funext k
  by_cases hk : k = key
  · subst hk; simp [Reference.contents]
  · rw [Keyspace.set_of_ne _ hk]
    simp [Reference.contents, AList.lookup_insert_ne hk]

theorem contents_erase (r : Reference) (key : Bytes) :
    Reference.contents ⟨r.data.erase key⟩ = r.contents.delete key := by
  funext k
  by_cases hk : k = key
  · subst hk; simp [Reference.contents]
  · rw [Keyspace.delete_of_ne _ hk]
    simp [Reference.contents, AList.lookup_erase_ne hk]

/-! ## The operations -/

theorem reference_delete (r : Reference) (key : Bytes) (now : UInt64) :
    (r.delete key now).1 = (liveAt now (r.contents key)).isSome ∧
      (r.delete key now).2.contents = r.contents.delete key := by
  refine ⟨live_isSome r key now, ?_⟩
  show Reference.contents ⟨(r.live key now).2.data.erase key⟩ = _
  rw [contents_erase, (live_spec r key now).2]
  split_ifs
  · exact Function.update_idem _ _ _
  · rfl

theorem reference_expire (r : Reference) (key : Bytes) (expireAt now : UInt64) :
    (r.expire key expireAt now).1 = (liveAt now (r.contents key)).isSome ∧
      (r.expire key expireAt now).2.contents =
        if deadAt now (r.contents key) = true then r.contents.delete key
        else r.contents.expire key expireAt := by
  obtain ⟨hres, hcont⟩ := live_spec r key now
  unfold Reference.expire
  rcases hlive : r.live key now with ⟨_ | e, r'⟩ <;> rw [hlive] at hres hcont <;> dsimp only at *
  · rw [Option.map_none] at hres
    rw [← hres, hcont]
    refine ⟨rfl, ?_⟩
    split_ifs with hdead
    · rfl
    · rw [liveAt_of_not_dead hdead] at hres
      rw [Keyspace.expire, ← hres, Option.map_none, hres, Function.update_eq_self]
  · rw [Option.map_some] at hres
    obtain ⟨hsome, hexp⟩ := liveAt_eq_some.mp hres.symm
    rw [hsome, deadAt_some, hexp, if_neg (by decide)] at hcont ⊢
    refine ⟨by rw [← hsome, ← hres]; rfl, ?_⟩
    rw [contents_insert, hcont, Keyspace.expire, hsome]
    rfl

/-- `Keys` lists every visible key once. -/
theorem reference_keysLoop (now : UInt64) :
    ∀ (l : List Bytes) (r : Reference),
      (Reference.keysLoop now l r).1 = l.filter fun k => (liveAt now (r.contents k)).isSome := by
  intro l
  induction l with
  | nil => intro r; rfl
  | cons k l ih =>
    intro r
    have hrest : (Reference.keysLoop now l (r.live k now).2).1 =
        l.filter fun k => (liveAt now (r.contents k)).isSome := by
      rw [ih]
      exact List.filter_congr fun k' _ => by rw [live_visible r k (UInt64.le_refl now) k']
    rw [Reference.keysLoop]
    dsimp only
    rw [hrest, live_isSome, List.filter_cons]

theorem reference_keys (r : Reference) (now : UInt64) :
    (r.keys now).1.Nodup ∧ ∀ k, k ∈ (r.keys now).1 ↔ (liveAt now (r.contents k)).isSome := by
  unfold Reference.keys
  rw [reference_keysLoop]
  refine ⟨r.data.nodupKeys.filter _, fun k => ?_⟩
  rw [List.mem_filter, and_iff_right_iff_imp]
  intro hk
  have hc : r.contents k ≠ none := by
    intro hc
    rw [hc] at hk
    cases hk
  have hlook : (r.data.lookup k).isSome := by
    rcases hl : r.data.lookup k with _ | e
    · exact absurd (by rw [Reference.contents, hl]; rfl) hc
    · rfl
  exact AList.lookup_isSome.mp hlook

end KvStore
