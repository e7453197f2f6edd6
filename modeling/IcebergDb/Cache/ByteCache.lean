import IcebergDb.Foundation.ByteRange
import Mathlib.Algebra.BigOperators.Group.List.Basic
import Mathlib.Algebra.GroupWithZero.Nat
import Mathlib.Data.Set.Function

/-!
# The byte cache

`byte_cache/mod.rs`: the three stores behind `ByteCacheStore` and the lookups they share.

* `PathByteCache` — the chunks of one object, searched in order for a superset of the wanted range;
* `MemoryByteCache` — chunks per `(path, fingerprint)`, evicted by whole objects;
* `FsByteCache` — one file per key on disk, besides the same in-memory index;
* `ByteCacheStore` — the three of them, with `getRange`, `getFullObject` and `put`.

A chunk also records who stored it.  No function looks at that field; it is there so that a lookup can
say whose bytes it returns.

Everything later files need is in three facts about a property `P` of stored entries.  If all entries
have it (`Holds P`), then so do they after a `put` of an entry that has it (`Holds.put`), and a lookup
answers from an entry that has it (`Holds.of_getRange`, `Holds.of_zeroChunk`).
-/

namespace IcebergDb.Cache

open IcebergDb.ByteRange

/-- `Bytes`. -/
abbrev Bytes := List UInt8

/-- `ByteCacheKey`. -/
structure ByteCacheKey where
  path : String
  range : Range
  credFingerprint : ℕ
deriving DecidableEq

/-- `slice_cached_range`, with offsets cast to a `usize` of `w` bits. -/
def sliceCachedRange (w : ℕ) (cached : Range) (data : Bytes) (want : Range) : Option Bytes :=
  if cached.start ≤ want.start ∧ want.stop ≤ cached.stop then
    let start := (want.start - cached.start) % 2 ^ w
    let len := (want.stop - want.start) % 2 ^ w
    if (start + len) % 2 ^ w ≤ data.length then
      some ((⟨start, (start + len) % 2 ^ w⟩ : Range).slice data)
    else none
  else none

/-- `PathCredKey`. -/
abbrev PathCredKey := String × ℕ

section

variable {ω : Type}

/-- `CachedChunk`, with the one who stored it. -/
structure CachedChunk (ω : Type) where
  range : Range
  data : Bytes
  owner : ω

/-- `PathByteCache`. -/
structure PathByteCache (ω : Type) where
  chunks : List (CachedChunk ω)

/-- What a lookup returns: the bytes, and whose they are. -/
abbrev Hit (ω : Type) := Bytes × ω

namespace PathByteCache

/-- `find_range`: the first chunk the wanted range can be cut from. -/
def findRange (w : ℕ) (c : PathByteCache ω) (want : Range) : Option (Hit ω) :=
  c.chunks.findSome? fun chunk =>
    (sliceCachedRange w chunk.range chunk.data want).map fun bytes => (bytes, chunk.owner)

/-- `max_by_key` on the range end: the last of the widest chunks. -/
def widest : List (CachedChunk ω) → Option (CachedChunk ω)
  | [] => none
  | c :: cs =>
      match widest cs with
      | some d => if d.range.stop < c.range.stop then some c else some d
      | none => some c

/-- `find_full_object`: the widest chunk that starts at 0. -/
def findFullObject (c : PathByteCache ω) : Option (Hit ω) :=
  (widest (c.chunks.filter fun chunk => chunk.range.start == 0)).map fun chunk =>
    (chunk.data, chunk.owner)

/-- The first chunk filed under `range`, replaced; `none` if there is no such chunk. -/
def replaceChunk (range : Range) (data : Bytes) (owner : ω) :
    List (CachedChunk ω) → Option (List (CachedChunk ω) × ℕ)
  | [] => none
  | c :: cs =>
      if c.range = range then some (⟨c.range, data, owner⟩ :: cs, c.data.length)
      else (replaceChunk range data owner cs).map fun r => (c :: r.1, r.2)

/-- `insert`: the new chunks, and the length of the data that was replaced. -/
def insert (c : PathByteCache ω) (range : Range) (data : Bytes) (owner : ω) :
    PathByteCache ω × Option ℕ :=
  if data.isEmpty then (c, none)
  else match replaceChunk range data owner c.chunks with
    | some (chunks, replaced) => (⟨chunks⟩, some replaced)
    | none => (⟨c.chunks ++ [⟨range, data, owner⟩]⟩, none)

/-- `bytes_used`. -/
def bytesUsed (c : PathByteCache ω) : ℕ := (c.chunks.map fun chunk => chunk.data.length).sum

end PathByteCache

/-- `HashMap<PathCredKey, PathByteCache>`, listed in some order. -/
abbrev ByPath (ω : Type) := List (PathCredKey × PathByteCache ω)

namespace ByPath

/-- `get`. -/
def get (m : ByPath ω) (k : PathCredKey) : Option (PathByteCache ω) := m.lookup k

/-- `entry(k).or_default()` followed by an update of the entry. -/
def update (k : PathCredKey) (f : PathByteCache ω → PathByteCache ω) : ByPath ω → ByPath ω
  | [] => [(k, f ⟨[]⟩)]
  | (k', c) :: m => if k' = k then (k', f c) :: m else (k', c) :: update k f m

/-- The chunk is filed under the entry of its object. -/
def insertChunk (m : ByPath ω) (key : ByteCacheKey) (data : Bytes) (owner : ω) : ByPath ω :=
  m.update (key.path, key.credFingerprint) fun c => (c.insert key.range data owner).1

/-- The bytes of all entries. -/
def bytesUsed (m : ByPath ω) : ℕ := (m.map fun e => e.2.bytesUsed).sum

end ByPath

/-- `MemoryByteCache`. -/
structure MemoryByteCache (ω : Type) where
  byPath : ByPath ω
  bytesUsed : ℕ
  maxBytes : ℕ

/-- The loop of `evict_if_needed`: entries go one by one, `victim` naming the next key of the map. -/
def evictLoop (victim : List PathCredKey → ℕ) (incoming maxBytes : ℕ) :
    ℕ → ℕ → ByPath ω → ℕ × ByPath ω
  | 0, used, m => (used, m)
  | fuel + 1, used, m =>
      if used + incoming ≤ maxBytes then (used, m)
      else
        let i := victim (m.map Prod.fst) % m.length
        match m[i]? with
        | none => (used, m)
        | some e => evictLoop victim incoming maxBytes fuel (used - e.2.bytesUsed) (m.eraseIdx i)

/-- `evict_if_needed`: the loop runs at most once per entry. -/
def MemoryByteCache.evictIfNeeded (c : MemoryByteCache ω) (victim : List PathCredKey → ℕ)
    (incoming : ℕ) : MemoryByteCache ω :=
  let r := evictLoop victim incoming c.maxBytes c.byPath.length c.bytesUsed c.byPath
  { c with bytesUsed := r.1, byPath := r.2 }

/-- `MemoryByteCache::put`. -/
def MemoryByteCache.put (c : MemoryByteCache ω) (victim : List PathCredKey → ℕ)
    (key : ByteCacheKey) (data : Bytes) (owner : ω) : MemoryByteCache ω :=
  if data.isEmpty then c
  else
    let c := c.evictIfNeeded victim data.length
    let byPath := c.byPath.insertChunk key data owner
    { c with byPath := byPath, bytesUsed := byPath.bytesUsed }

/-- `FsByteCache`: the `.bin` files by name, and the index. -/
structure FsByteCache (ω : Type) where
  disk : String → Option (Hit ω)
  byPath : ByPath ω

/-- `FsByteCache::put`; the file system may refuse the write or the rename. -/
def FsByteCache.put (fileName : ByteCacheKey → String) (c : FsByteCache ω) (diskOk : Bool)
    (key : ByteCacheKey) (data : Bytes) (owner : ω) : FsByteCache ω :=
  if data.isEmpty then c
  else
    { disk := if diskOk then Function.update c.disk (fileName key) (some (data, owner)) else c.disk
      byPath := c.byPath.insertChunk key data owner }

/-- The implementations of `ByteCacheStore`. -/
inductive ByteCacheStore (ω : Type) where
  | noop
  | memory (c : MemoryByteCache ω)
  | fs (c : FsByteCache ω)

/-- What the environment decides during a `put`: the next key of the hash map at each eviction, and
whether the file system cooperates. -/
structure PutChoice where
  victim : List PathCredKey → ℕ
  diskOk : Bool

namespace ByteCacheStore

variable (fileName : ByteCacheKey → String) (w : ℕ)

/-- `get`. -/
def get (s : ByteCacheStore ω) (key : ByteCacheKey) : Option (Hit ω) :=
  match s with
  | noop => none
  | memory c => (c.byPath.get (key.path, key.credFingerprint)).bind fun p => p.findRange w key.range
  | fs c => c.disk (fileName key)

/-- `get_range`. -/
def getRange (s : ByteCacheStore ω) (path : String) (range : Range) (credFingerprint : ℕ) :
    Option (Hit ω) :=
  match s with
  | fs c =>
      (s.get fileName w ⟨path, range, credFingerprint⟩).or
        ((c.byPath.get (path, credFingerprint)).bind fun p => p.findRange w range)
  | s => s.get fileName w ⟨path, range, credFingerprint⟩

/-- `get_full_object`. -/
def getFullObject (s : ByteCacheStore ω) (path : String) (credFingerprint : ℕ) : Option (Hit ω) :=
  match s with
  | noop => none
  | memory c => (c.byPath.get (path, credFingerprint)).bind PathByteCache.findFullObject
  | fs c => (c.byPath.get (path, credFingerprint)).bind PathByteCache.findFullObject

/-- `put`. -/
def put (s : ByteCacheStore ω) (choice : PutChoice) (key : ByteCacheKey) (data : Bytes) (owner : ω) :
    ByteCacheStore ω :=
  match s with
  | noop => noop
  | memory c => memory (c.put choice.victim key data owner)
  | fs c => fs (c.put fileName choice.diskOk key data owner)

end ByteCacheStore

/-! ### Entries of the index -/

/-- Every chunk of the index has the property. -/
def ByPath.Holds (P : ByteCacheKey → Bytes → ω → Prop) (m : ByPath ω) : Prop :=
  ∀ e ∈ m, ∀ chunk ∈ e.2.chunks, P ⟨e.1.1, chunk.range, e.1.2⟩ chunk.data chunk.owner

variable {P : ByteCacheKey → Bytes → ω → Prop}

theorem PathByteCache.mem_replaceChunk {range : Range} {data : Bytes} {owner : ω}
    {cs : List (CachedChunk ω)} {r : List (CachedChunk ω) × ℕ}
    (h : replaceChunk range data owner cs = some r) {chunk : CachedChunk ω} (hmem : chunk ∈ r.1) :
    chunk ∈ cs ∨ chunk = ⟨range, data, owner⟩ := by
  induction cs generalizing r with
  | nil => cases h
  | cons c cs ih =>
      rw [replaceChunk] at h
      split at h
      · rename_i hrange
        subst hrange
        obtain rfl := Option.some.inj h
        rcases List.mem_cons.mp hmem with rfl | hmem
        · exact .inr rfl
        · exact .inl (List.mem_cons_of_mem c hmem)
      · obtain ⟨r', hr', rfl⟩ := Option.map_eq_some_iff.mp h
        rcases List.mem_cons.mp hmem with rfl | hmem
        · exact .inl List.mem_cons_self
        · exact (ih hr' hmem).imp_left (List.mem_cons_of_mem c)

/-- After an insertion every chunk is an old one or the new one. -/
theorem PathByteCache.mem_insert {c : PathByteCache ω} {range : Range} {data : Bytes} {owner : ω}
    {chunk : CachedChunk ω} (hmem : chunk ∈ (c.insert range data owner).1.chunks) :
    chunk ∈ c.chunks ∨ chunk = ⟨range, data, owner⟩ := by
  unfold PathByteCache.insert at hmem
  split at hmem
  · exact .inl hmem
  · split at hmem
    · rename_i chunks replaced hreplace
      exact mem_replaceChunk hreplace hmem
    · rcases List.mem_append.mp hmem with hmem | hmem
      · exact .inl hmem
      · exact .inr (List.mem_singleton.mp hmem)

theorem ByPath.mem_update {k : PathCredKey} {f : PathByteCache ω → PathByteCache ω} {m : ByPath ω}
    {e : PathCredKey × PathByteCache ω} (hmem : e ∈ m.update k f) :
    e ∈ m ∨ e = (k, f ⟨[]⟩) ∨ ∃ c, (k, c) ∈ m ∧ e = (k, f c) := by
  induction m with
  | nil => exact .inr (.inl (List.mem_singleton.mp hmem))
  | cons a m ih =>
      obtain ⟨k', c⟩ := a
      rw [ByPath.update] at hmem
      split at hmem
      · rename_i hk
        subst hk
        rcases List.mem_cons.mp hmem with rfl | hmem
        · exact .inr (.inr ⟨c, List.mem_cons_self, rfl⟩)
        · exact .inl (List.mem_cons_of_mem _ hmem)
      · rcases List.mem_cons.mp hmem with rfl | hmem
        · exact .inl List.mem_cons_self
        · rcases ih hmem with h | h | ⟨c', hc', rfl⟩
          · exact .inl (List.mem_cons_of_mem _ h)
          · exact .inr (.inl h)
          · exact .inr (.inr ⟨c', List.mem_cons_of_mem _ hc', rfl⟩)

/-- Filing a chunk that has the property. -/
theorem ByPath.Holds.insertChunk {m : ByPath ω} (h : m.Holds P) {key : ByteCacheKey} {data : Bytes}
    {owner : ω} (hnew : P key data owner) : (m.insertChunk key data owner).Holds P := by
  intro e he chunk hchunk
  rcases ByPath.mem_update he with he | rfl | ⟨c, hc, rfl⟩
  · exact h e he chunk hchunk
  · rcases PathByteCache.mem_insert hchunk with hchunk | rfl
    · exact absurd hchunk List.not_mem_nil
    · exact hnew
  · rcases PathByteCache.mem_insert hchunk with hchunk | rfl
    · exact h _ hc chunk hchunk
    · exact hnew

/-- Eviction only removes entries. -/
theorem evictLoop_sublist (victim : List PathCredKey → ℕ) (incoming maxBytes fuel used : ℕ)
    (m : ByPath ω) : (evictLoop victim incoming maxBytes fuel used m).2.Sublist m := by
  induction fuel generalizing used m with
  | zero => exact .refl m
  | succ fuel ih =>
      simp only [evictLoop]
      split
      · exact .refl m
      · split
        · exact .refl m
        · exact (ih _ _).trans (List.eraseIdx_sublist m _)

/-! ### Entries of a store -/

/-- Every entry of the store has the property: the chunks of the index, and the files of the keys in
use. -/
def ByteCacheStore.Holds (fileName : ByteCacheKey → String) (K : Set ByteCacheKey)
    (P : ByteCacheKey → Bytes → ω → Prop) : ByteCacheStore ω → Prop
  | noop => True
  | memory c => c.byPath.Holds P
  | fs c => c.byPath.Holds P ∧
      ∀ key ∈ K, ∀ hit, c.disk (fileName key) = some hit → P key hit.1 hit.2

/-- A weaker property is kept. -/
theorem ByteCacheStore.Holds.mono {Q : ByteCacheKey → Bytes → ω → Prop}
    {fileName : ByteCacheKey → String} {K : Set ByteCacheKey} {s : ByteCacheStore ω}
    (h : s.Holds fileName K P) (hPQ : ∀ key data owner, P key data owner → Q key data owner) :
    s.Holds fileName K Q := by
  cases s with
  | noop => trivial
  | memory c => exact fun e he chunk hchunk => hPQ _ _ _ (h e he chunk hchunk)
  | fs c =>
      exact ⟨fun e he chunk hchunk => hPQ _ _ _ (h.1 e he chunk hchunk),
        fun key hkey hit hhit => hPQ _ _ _ (h.2 key hkey hit hhit)⟩

/-- Two properties of the entries are combined entry by entry. -/
theorem ByteCacheStore.Holds.combine {Q R : ByteCacheKey → Bytes → ω → Prop}
    {fileName : ByteCacheKey → String} {K : Set ByteCacheKey} {s : ByteCacheStore ω}
    (hP : s.Holds fileName K P) (hQ : s.Holds fileName K Q)
    (hR : ∀ key data owner, P key data owner → Q key data owner → R key data owner) :
    s.Holds fileName K R := by
  cases s with
  | noop => trivial
  | memory c => exact fun e he chunk hchunk => hR _ _ _ (hP e he chunk hchunk) (hQ e he chunk hchunk)
  | fs c =>
      exact ⟨fun e he chunk hchunk => hR _ _ _ (hP.1 e he chunk hchunk) (hQ.1 e he chunk hchunk),
        fun key hkey hit hhit => hR _ _ _ (hP.2 key hkey hit hhit) (hQ.2 key hkey hit hhit)⟩

/-- **A put keeps the property** if the new entry has it. -/
theorem ByteCacheStore.Holds.put {fileName : ByteCacheKey → String} {K : Set ByteCacheKey}
    (hinj : Set.InjOn fileName K) {s : ByteCacheStore ω} (h : s.Holds fileName K P)
    (choice : PutChoice) {key : ByteCacheKey} (hkey : key ∈ K) {data : Bytes} {owner : ω}
    (hnew : P key data owner) : (s.put fileName choice key data owner).Holds fileName K P := by
  cases s with
  | noop => trivial
  | memory c =>
      show (c.put choice.victim key data owner).byPath.Holds P
      unfold MemoryByteCache.put
      split
      · exact h
      · refine ByPath.Holds.insertChunk ?_ hnew
        intro e he
        exact h e ((evictLoop_sublist _ _ _ _ _ _).subset he)
  | fs c =>
      show (ByteCacheStore.fs (c.put fileName choice.diskOk key data owner)).Holds fileName K P
      unfold FsByteCache.put
      split
      · exact h
      · refine ⟨h.1.insertChunk hnew, ?_⟩
        intro key' hkey' hit hhit
        simp only at hhit
        by_cases hsame : fileName key' = fileName key
        · -- a file of this name is the file of this key
          obtain rfl := hinj hkey' hkey hsame
          cases hok : choice.diskOk with
          | false =>
              rw [hok] at hhit
              exact h.2 key' hkey' hit hhit
          | true =>
              rw [hok, if_pos rfl, Function.update_self] at hhit
              obtain rfl := Option.some.inj hhit
              exact hnew
        · refine h.2 key' hkey' hit ?_
          split at hhit
          · rwa [Function.update_of_ne hsame] at hhit
          · exact hhit

theorem ByPath.mem_of_get {m : ByPath ω} {k : PathCredKey} {c : PathByteCache ω}
    (h : m.get k = some c) : (k, c) ∈ m := by
  obtain ⟨l₁, l₂, rfl, -⟩ := List.lookup_eq_some_iff.mp h
  exact List.mem_append_right l₁ List.mem_cons_self

theorem PathByteCache.of_findRange {w : ℕ} {c : PathByteCache ω} {want : Range} {hit : Hit ω}
    (h : c.findRange w want = some hit) :
    ∃ chunk ∈ c.chunks, sliceCachedRange w chunk.range chunk.data want = some hit.1 ∧
      chunk.owner = hit.2 := by
  obtain ⟨chunk, hmem, hcut⟩ := List.exists_of_findSome?_eq_some h
  obtain ⟨bytes, hbytes, rfl⟩ := Option.map_eq_some_iff.mp hcut
  exact ⟨chunk, hmem, hbytes, rfl⟩

/-- A lookup in the index answers from a chunk filed under the object. -/
theorem ByPath.Holds.of_findRange {m : ByPath ω} (h : m.Holds P) {w : ℕ} {path : String}
    {fp : ℕ} {want : Range} {hit : Hit ω}
    (hhit : ((m.get (path, fp)).bind fun p => p.findRange w want) = some hit) :
    ∃ range data, P ⟨path, range, fp⟩ data hit.2 ∧ sliceCachedRange w range data want = some hit.1 := by
  obtain ⟨c, hc, hfind⟩ := Option.bind_eq_some_iff.mp hhit
  obtain ⟨chunk, hmem, hcut, howner⟩ := PathByteCache.of_findRange hfind
  refine ⟨chunk.range, chunk.data, ?_, hcut⟩
  rw [← howner]
  exact h _ (ByPath.mem_of_get hc) chunk hmem

/-- **A range lookup answers from an entry that has the property**: the file of the very key, or a
chunk that the range is cut from. -/
theorem ByteCacheStore.Holds.of_getRange {fileName : ByteCacheKey → String} {K : Set ByteCacheKey}
    {s : ByteCacheStore ω} (h : s.Holds fileName K P) {w : ℕ} {path : String} {range : Range} {fp : ℕ}
    (hkey : (⟨path, range, fp⟩ : ByteCacheKey) ∈ K) {hit : Hit ω}
    (hhit : s.getRange fileName w path range fp = some hit) :
    P ⟨path, range, fp⟩ hit.1 hit.2 ∨
      ∃ r data, P ⟨path, r, fp⟩ data hit.2 ∧ sliceCachedRange w r data range = some hit.1 := by
  cases s with
  | noop => cases hhit
  | memory c => exact .inr (ByPath.Holds.of_findRange h hhit)
  | fs c =>
      rcases Option.or_eq_some_iff.mp hhit with hdisk | ⟨-, hindex⟩
      · exact .inl (h.2 _ hkey hit hdisk)
      · exact .inr (h.1.of_findRange hindex)

/-! ### Whole objects -/

theorem PathByteCache.widest_eq_none {cs : List (CachedChunk ω)} (h : widest cs = none) : cs = [] := by
  cases cs with
  | nil => rfl
  | cons c cs =>
      rw [widest] at h
      split at h
      · split at h <;> cases h
      · cases h

/-- The widest chunk is one of the chunks, and none is wider. -/
theorem PathByteCache.of_widest {cs : List (CachedChunk ω)} {c : CachedChunk ω}
    (h : widest cs = some c) : c ∈ cs ∧ ∀ d ∈ cs, d.range.stop ≤ c.range.stop := by
  induction cs generalizing c with
  | nil => cases h
  | cons a cs ih =>
      rw [widest] at h
      split at h
      · rename_i d hd
        obtain ⟨hmem, hmax⟩ := ih hd
        split at h
        · rename_i hlt
          obtain rfl := Option.some.inj h
          refine ⟨List.mem_cons_self, ?_⟩
          intro b hb
          rcases List.mem_cons.mp hb with rfl | hb
          · exact le_rfl
          · exact (hmax b hb).trans hlt.le
        · rename_i hle
          obtain rfl := Option.some.inj h
          refine ⟨List.mem_cons_of_mem a hmem, ?_⟩
          intro b hb
          rcases List.mem_cons.mp hb with rfl | hb
          · exact Nat.not_lt.mp hle
          · exact hmax b hb
      · rename_i hnone
        obtain rfl := Option.some.inj h
        obtain rfl := widest_eq_none hnone
        refine ⟨List.mem_cons_self, ?_⟩
        intro b hb
        rw [List.mem_singleton.mp hb]

/-- The widest zero-start chunk filed under an object: the chunk `get_full_object` answers with. -/
def ByteCacheStore.zeroChunk (s : ByteCacheStore ω) (path : String) (fp : ℕ) :
    Option (CachedChunk ω) :=
  let ofIndex (m : ByPath ω) := (m.get (path, fp)).bind fun c =>
    PathByteCache.widest (c.chunks.filter fun chunk => chunk.range.start == 0)
  match s with
  | noop => none
  | memory c => ofIndex c.byPath
  | fs c => ofIndex c.byPath

theorem ByteCacheStore.getFullObject_eq (s : ByteCacheStore ω) (path : String) (fp : ℕ) :
    s.getFullObject path fp = (s.zeroChunk path fp).map fun c => (c.data, c.owner) := by
  have hindex : ∀ m : ByPath ω, (m.get (path, fp)).bind PathByteCache.findFullObject =
      ((m.get (path, fp)).bind fun c => PathByteCache.widest
        (c.chunks.filter fun chunk => chunk.range.start == 0)).map fun c => (c.data, c.owner) := by
    intro m
    cases m.get (path, fp) <;> rfl
  cases s with
  | noop => rfl
  | memory c => exact hindex c.byPath
  | fs c => exact hindex c.byPath

/-- Where no chunk starts at 0, a range from 0 is answered by the file of its key or not at all. -/
theorem ByteCacheStore.Holds.of_getRange_zero {fileName : ByteCacheKey → String}
    {K : Set ByteCacheKey} {s : ByteCacheStore ω} (h : s.Holds fileName K P) {w : ℕ} {path : String}
    {stop fp : ℕ} (hkey : (⟨path, ⟨0, stop⟩, fp⟩ : ByteCacheKey) ∈ K)
    (hzero : s.zeroChunk path fp = none) {hit : Hit ω}
    (hhit : s.getRange fileName w path ⟨0, stop⟩ fp = some hit) :
    P ⟨path, ⟨0, stop⟩, fp⟩ hit.1 hit.2 := by
  have hindex : ∀ m : ByPath ω, ((m.get (path, fp)).bind fun c => PathByteCache.widest
      (c.chunks.filter fun chunk => chunk.range.start == 0)) = none →
      ((m.get (path, fp)).bind fun p => p.findRange w ⟨0, stop⟩) ≠ some hit := by
    intro m hnone hfind
    obtain ⟨c, hc, hfind⟩ := Option.bind_eq_some_iff.mp hfind
    rw [hc, Option.bind_some] at hnone
    obtain ⟨chunk, hmem, hcut, -⟩ := PathByteCache.of_findRange hfind
    have hstart : chunk.range.start = 0 := by
      unfold sliceCachedRange at hcut
      split at hcut
      · rename_i hin
        exact Nat.le_zero.mp hin.1
      · cases hcut
    have hfilter : chunk ∈ c.chunks.filter fun chunk => chunk.range.start == 0 :=
      List.mem_filter.mpr ⟨hmem, by rw [hstart]; rfl⟩
    rw [PathByteCache.widest_eq_none hnone] at hfilter
    exact List.not_mem_nil hfilter
  cases s with
  | noop => cases hhit
  | memory c => exact absurd hhit (hindex c.byPath hzero)
  | fs c =>
      rcases Option.or_eq_some_iff.mp hhit with hdisk | ⟨-, hfind⟩
      · exact h.2 _ hkey hit hdisk
      · exact absurd hfind (hindex c.byPath hzero)

/-- **A whole-object lookup answers from an entry that has the property.** -/
theorem ByteCacheStore.Holds.of_zeroChunk {fileName : ByteCacheKey → String} {K : Set ByteCacheKey}
    {s : ByteCacheStore ω} (h : s.Holds fileName K P) {path : String} {fp : ℕ} {c : CachedChunk ω}
    (hc : s.zeroChunk path fp = some c) :
    c.range.start = 0 ∧ P ⟨path, c.range, fp⟩ c.data c.owner := by
  have hindex : ∀ m : ByPath ω, m.Holds P → ((m.get (path, fp)).bind fun c =>
      PathByteCache.widest (c.chunks.filter fun chunk => chunk.range.start == 0)) = some c →
      c.range.start = 0 ∧ P ⟨path, c.range, fp⟩ c.data c.owner := by
    intro m hm hwide
    obtain ⟨p, hp, hwide⟩ := Option.bind_eq_some_iff.mp hwide
    obtain ⟨hmem, hzero⟩ := List.mem_filter.mp (PathByteCache.of_widest hwide).1
    exact ⟨eq_of_beq hzero, hm _ (ByPath.mem_of_get hp) c hmem⟩
  cases s with
  | noop => cases hc
  | memory m => exact hindex m.byPath h hc
  | fs m => exact hindex m.byPath h.1 hc

end

end IcebergDb.Cache
