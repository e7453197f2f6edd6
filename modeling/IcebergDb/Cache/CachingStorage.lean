import IcebergDb.Cache.ByteCache
import Mathlib.Logic.Relation

/-!
# Reading through the cache

`caching_storage.rs`: `CachingStorage::read` for whole objects and `CachingFileRead::read` for ranges,
over a storage of immutable objects.

* `Faithful` — every entry of the cache is the part of its object that its range selects.  It holds of
  every cache that reads have built (`faithful_of_reachable`), whatever is evicted, refused by the file
  system or cancelled;
* ranged reads are transparent because of it;
* whole reads are so exactly when no chunk of the object starts at 0, or the widest one reaches its end.
-/

namespace IcebergDb.Cache

open IcebergDb.ByteRange

/-- The errors of a read: the cancelled query, or an error of the storage below. -/
inductive StorageError where
  | unexpected (message : String)
  | inner
deriving DecidableEq

/-- What the environment decides during a read: the cancel flag, whether each inner call succeeds, and
the choices of a `put`. -/
structure IoChoice where
  cancelled : Bool
  metadataOk : Bool
  readerOk : Bool
  readOk : Bool
  put : PutChoice

/-- The bytes returned, and whose chunk they came from if the cache had them. -/
structure ReadResult (ω : Type) where
  bytes : Bytes
  hitOf : Option ω

/-- `CachingStorage`, and with it the `CachingFileRead`s it hands out.  The cache itself is shared and
passed along; `owner` is how the storage signs what it stores. -/
structure CachingStorage (ω : Type) where
  credFp : ℕ
  owner : ω

section

variable {ω : Type} (fileName : ByteCacheKey → String) (w : ℕ) (objects : String → Option Bytes)

/-- `inner.metadata(path)`: the size of the object. -/
def innerMetadata (path : String) (ok : Bool) : Except StorageError ℕ :=
  match ok, objects path with
  | true, some data => .ok data.length
  | _, _ => .error .inner

/-- `inner.read(path)`: the whole object. -/
def innerRead (path : String) (ok : Bool) : Except StorageError Bytes :=
  match ok, objects path with
  | true, some data => .ok data
  | _, _ => .error .inner

/-- The inner reader's `read(range)`: the bytes of the range, truncated at the end of the object. -/
def innerReadRange (path : String) (range : Range) (ok : Bool) : Except StorageError Bytes :=
  match ok, objects path with
  | true, some data => .ok (range.slice data)
  | _, _ => .error .inner

/-- The data of a successful fetch is stored unless it is empty. -/
def storeFetched (storage : CachingStorage ω) (cache : ByteCacheStore ω) (choice : PutChoice)
    (key : ByteCacheKey) (data : Bytes) : ByteCacheStore ω :=
  if data.isEmpty then cache else cache.put fileName choice key data storage.owner

/-- `CachingStorage::read`. -/
def CachingStorage.read (storage : CachingStorage ω) (cache : ByteCacheStore ω) (path : String)
    (io : IoChoice) : Except StorageError (ReadResult ω) × ByteCacheStore ω :=
  if io.cancelled then (.error (.unexpected "query cancelled"), cache)
  else match cache.getFullObject path storage.credFp with
    | some hit => (.ok ⟨hit.1, some hit.2⟩, cache)
    | none =>
      match innerMetadata objects path io.metadataOk with
      | .error e => (.error e, cache)
      | .ok size =>
        if size = 0 then ((innerRead objects path io.readOk).map fun data => ⟨data, none⟩, cache)
        else match cache.getRange fileName w path ⟨0, size⟩ storage.credFp with
          | some hit => (.ok ⟨hit.1, some hit.2⟩, cache)
          | none =>
            match innerRead objects path io.readOk with
            | .error e => (.error e, cache)
            | .ok data => (.ok ⟨data, none⟩,
                storeFetched fileName storage cache io.put ⟨path, ⟨0, size⟩, storage.credFp⟩ data)

/-- `CachingStorage::reader` followed by `CachingFileRead::read`. -/
def CachingStorage.readRange (storage : CachingStorage ω) (cache : ByteCacheStore ω) (path : String)
    (range : Range) (io : IoChoice) : Except StorageError (ReadResult ω) × ByteCacheStore ω :=
  if !io.readerOk then (.error .inner, cache)
  else if io.cancelled then (.error (.unexpected "query cancelled"), cache)
  else match cache.getRange fileName w path range storage.credFp with
    | some hit => (.ok ⟨hit.1, some hit.2⟩, cache)
    | none =>
      match innerReadRange objects path range io.readOk with
      | .error e => (.error e, cache)
      | .ok data => (.ok ⟨data, none⟩,
          storeFetched fileName storage cache io.put ⟨path, range, storage.credFp⟩ data)

/-- The operations of a run. -/
inductive ReadOp where
  | read (path : String)
  | readRange (path : String) (range : Range)

/-- One operation. -/
def CachingStorage.exec (storage : CachingStorage ω) (cache : ByteCacheStore ω) (io : IoChoice) :
    ReadOp → Except StorageError (ReadResult ω) × ByteCacheStore ω
  | .read path => storage.read fileName w objects cache path io
  | .readRange path range => storage.readRange fileName w objects cache path range io

end

section

variable {ω : Type} {fileName : ByteCacheKey → String} {w : ℕ} {objects : String → Option Bytes}

theorem innerMetadata_ok {path : String} {ok : Bool} {size : ℕ}
    (h : innerMetadata objects path ok = .ok size) :
    ∃ data, objects path = some data ∧ size = data.length := by
  unfold innerMetadata at h
  split at h
  · rename_i data hdata
    exact ⟨data, hdata, (Except.ok.inj h).symm⟩
  · cases h

theorem innerRead_ok {path : String} {ok : Bool} {data : Bytes}
    (h : innerRead objects path ok = .ok data) : objects path = some data := by
  unfold innerRead at h
  split at h
  · rename_i hdata
    rw [← Except.ok.inj h]
    exact hdata
  · cases h

theorem innerReadRange_ok {path : String} {range : Range} {ok : Bool} {data : Bytes}
    (h : innerReadRange objects path range ok = .ok data) :
    ∃ obj, objects path = some obj ∧ data = range.slice obj := by
  unfold innerReadRange at h
  split at h
  · rename_i obj hobj
    exact ⟨obj, hobj, (Except.ok.inj h).symm⟩
  · cases h

/-! ### What an operation can do -/

/-- What an entry of the cache should be: the part of its object that its range selects. -/
def Faithful (objects : String → Option Bytes) (key : ByteCacheKey) (data : Bytes) (_ : ω) : Prop :=
  ∃ obj, objects key.path = some obj ∧ data = key.range.slice obj

/-- The keys of the operation are in use. -/
def Uses (objects : String → Option Bytes) (fp : ℕ) (K : Set ByteCacheKey) : ReadOp → Prop
  | .read path => ∀ obj, objects path = some obj →
      (⟨path, ⟨0, obj.length⟩, fp⟩ : ByteCacheKey) ∈ K
  | .readRange path range => (⟨path, range, fp⟩ : ByteCacheKey) ∈ K

theorem storeFetched_cases (storage : CachingStorage ω) (cache : ByteCacheStore ω)
    (choice : PutChoice) (key : ByteCacheKey) (data : Bytes) :
    storeFetched fileName storage cache choice key data = cache ∨
      storeFetched fileName storage cache choice key data =
        cache.put fileName choice key data storage.owner := by
  unfold storeFetched
  split
  · exact .inl rfl
  · exact .inr rfl

/-- **The cache after an operation** is the cache before it, or has one more entry: of a key in use,
signed by the storage, with the bytes of the object. -/
theorem exec_cache (storage : CachingStorage ω) (cache : ByteCacheStore ω) (io : IoChoice)
    {op : ReadOp} {K : Set ByteCacheKey} (huse : Uses objects storage.credFp K op) :
    (storage.exec fileName w objects cache io op).2 = cache ∨
      ∃ key data, key ∈ K ∧ key.credFingerprint = storage.credFp ∧
        Faithful objects key data storage.owner ∧
        (storage.exec fileName w objects cache io op).2 =
          cache.put fileName io.put key data storage.owner := by
  cases op with
  | read path =>
      simp only [CachingStorage.exec, CachingStorage.read]
      split
      · exact .inl rfl
      split
      · exact .inl rfl
      split
      · exact .inl rfl
      rename_i size hsize
      obtain ⟨obj, hobj, rfl⟩ := innerMetadata_ok hsize
      split
      · exact .inl rfl
      split
      · exact .inl rfl
      split
      · exact .inl rfl
      rename_i data hdata
      have hfull : data = (⟨0, obj.length⟩ : Range).slice obj := by
        rw [innerRead_ok hdata] at hobj
        rw [slice_full, Option.some.inj hobj]
      rcases storeFetched_cases storage cache io.put ⟨path, ⟨0, obj.length⟩, storage.credFp⟩ data
        with h | h
      · exact .inl h
      · exact .inr ⟨_, data, huse obj hobj, rfl, ⟨obj, hobj, hfull⟩, h⟩
  | readRange path range =>
      simp only [CachingStorage.exec, CachingStorage.readRange]
      split
      · exact .inl rfl
      split
      · exact .inl rfl
      split
      · exact .inl rfl
      split
      · exact .inl rfl
      rename_i data hdata
      rcases storeFetched_cases storage cache io.put ⟨path, range, storage.credFp⟩ data with h | h
      · exact .inl h
      · exact .inr ⟨_, data, huse, rfl, innerReadRange_ok hdata, h⟩

/-- **A successful whole read** answers with the widest zero-start chunk if there is one; otherwise
with the object, or with what the cache has for its full range. -/
theorem read_ok {storage : CachingStorage ω} {cache : ByteCacheStore ω} {path : String}
    {io : IoChoice} {r : ReadResult ω}
    (h : (storage.read fileName w objects cache path io).1 = .ok r) :
    (∃ c, cache.zeroChunk path storage.credFp = some c ∧ r = ⟨c.data, some c.owner⟩) ∨
      (cache.zeroChunk path storage.credFp = none ∧ ∃ obj, objects path = some obj ∧
        (r = ⟨obj, none⟩ ∨ ∃ hit,
          cache.getRange fileName w path ⟨0, obj.length⟩ storage.credFp = some hit ∧
            r = ⟨hit.1, some hit.2⟩)) := by
  unfold CachingStorage.read at h
  split at h
  · cases h
  split at h
  · rename_i hit hhit
    rw [ByteCacheStore.getFullObject_eq] at hhit
    obtain ⟨c, hc, rfl⟩ := Option.map_eq_some_iff.mp hhit
    exact .inl ⟨c, hc, (Except.ok.inj h).symm⟩
  rename_i hnone
  rw [ByteCacheStore.getFullObject_eq] at hnone
  refine .inr ⟨Option.map_eq_none_iff.mp hnone, ?_⟩
  split at h
  · cases h
  rename_i size hsize
  obtain ⟨obj, hobj, rfl⟩ := innerMetadata_ok hsize
  refine ⟨obj, hobj, ?_⟩
  split at h
  · -- an empty object is read without the cache
    cases hread : innerRead objects path io.readOk with
    | error e => rw [hread] at h; cases h
    | ok data =>
        rw [hread] at h
        rw [innerRead_ok hread] at hobj
        rw [← Option.some.inj hobj]
        exact .inl (Except.ok.inj h).symm
  split at h
  · rename_i hit hhit
    exact .inr ⟨hit, hhit, (Except.ok.inj h).symm⟩
  split at h
  · cases h
  rename_i data hdata
  rw [innerRead_ok hdata] at hobj
  rw [← Option.some.inj hobj]
  exact .inl (Except.ok.inj h).symm

/-- **A successful ranged read** answers with what the cache has for the range, or with the bytes of
the object. -/
theorem readRange_ok {storage : CachingStorage ω} {cache : ByteCacheStore ω} {path : String}
    {range : Range} {io : IoChoice} {r : ReadResult ω}
    (h : (storage.readRange fileName w objects cache path range io).1 = .ok r) :
    (∃ hit, cache.getRange fileName w path range storage.credFp = some hit ∧
      r = ⟨hit.1, some hit.2⟩) ∨
      ∃ obj, objects path = some obj ∧ r = ⟨range.slice obj, none⟩ := by
  unfold CachingStorage.readRange at h
  split at h
  · cases h
  split at h
  · cases h
  split at h
  · rename_i hit hhit
    exact .inl ⟨hit, hhit, (Except.ok.inj h).symm⟩
  split at h
  · cases h
  rename_i data hdata
  obtain ⟨obj, hobj, rfl⟩ := innerReadRange_ok hdata
  exact .inr ⟨obj, hobj, (Except.ok.inj h).symm⟩

/-- **A hit comes from an entry** that is filed under the storage's fingerprint. -/
theorem exec_hit {P : ByteCacheKey → Bytes → ω → Prop} {K : Set ByteCacheKey}
    {storage : CachingStorage ω} {cache : ByteCacheStore ω} (hholds : cache.Holds fileName K P)
    {io : IoChoice} {op : ReadOp} (huse : Uses objects storage.credFp K op) {r : ReadResult ω}
    (h : (storage.exec fileName w objects cache io op).1 = .ok r) {owner : ω}
    (hhit : r.hitOf = some owner) :
    ∃ key data, key.credFingerprint = storage.credFp ∧ P key data owner := by
  -- both lookups of a range answer from an entry under the fingerprint
  have hrange : ∀ {path range hit}, (⟨path, range, storage.credFp⟩ : ByteCacheKey) ∈ K →
      cache.getRange fileName w path range storage.credFp = some hit →
      ∃ key data, key.credFingerprint = storage.credFp ∧ P key data hit.2 := by
    intro path range hit hkey hget
    rcases hholds.of_getRange hkey hget with hP | ⟨cached, data, hP, -⟩
    · exact ⟨_, _, rfl, hP⟩
    · exact ⟨_, data, rfl, hP⟩
  cases op with
  | read path =>
      rcases read_ok h with ⟨c, hc, rfl⟩ | ⟨-, obj, hobj, rfl | ⟨hit, hget, rfl⟩⟩
      · obtain rfl := Option.some.inj hhit
        exact ⟨_, _, rfl, (hholds.of_zeroChunk hc).2⟩
      · cases hhit
      · obtain rfl := Option.some.inj hhit
        exact hrange (huse obj hobj) hget
  | readRange path range =>
      rcases readRange_ok h with ⟨hit, hget, rfl⟩ | ⟨obj, -, rfl⟩
      · obtain rfl := Option.some.inj hhit
        exact hrange huse hget
      · cases hhit

/-! ### The caches that reads build -/

/-- A cache that nothing has been stored in. -/
inductive Fresh : ByteCacheStore ω → Prop
  | noop : Fresh .noop
  | memory (maxBytes : ℕ) : Fresh (.memory ⟨[], 0, maxBytes⟩)
  | fs : Fresh (.fs ⟨fun _ => none, []⟩)

variable (fileName w objects) in
/-- One operation of a run whose keys are in `K`. -/
def CacheStep (storage : CachingStorage ω) (K : Set ByteCacheKey)
    (cache cache' : ByteCacheStore ω) : Prop :=
  ∃ op io, Uses objects storage.credFp K op ∧
    cache' = (storage.exec fileName w objects cache io op).2

variable (fileName w objects) in
/-- A cache that some sequence of operations has built. -/
def ReachableCache (storage : CachingStorage ω) (K : Set ByteCacheKey) (cache : ByteCacheStore ω) :
    Prop :=
  ∃ fresh, Fresh fresh ∧ Relation.ReflTransGen (CacheStep fileName w objects storage K) fresh cache

theorem holds_of_fresh {P : ByteCacheKey → Bytes → ω → Prop} {K : Set ByteCacheKey}
    {cache : ByteCacheStore ω} (h : Fresh cache) : cache.Holds fileName K P := by
  cases h with
  | noop => trivial
  | memory maxBytes => exact fun e he => absurd he List.not_mem_nil
  | fs =>
      refine ⟨fun e he => absurd he List.not_mem_nil, ?_⟩
      intro key hkey hit hhit
      cases hhit

/-- **Reads build faithful caches.** -/
theorem faithful_of_reachable {storage : CachingStorage ω} {K : Set ByteCacheKey}
    (hinj : Set.InjOn fileName K) {cache : ByteCacheStore ω}
    (h : ReachableCache fileName w objects storage K cache) :
    cache.Holds fileName K (Faithful objects) := by
  obtain ⟨fresh, hfresh, hrun⟩ := h
  induction hrun with
  | refl => exact holds_of_fresh hfresh
  | tail _ hstep ih =>
      obtain ⟨op, io, huse, rfl⟩ := hstep
      rcases exec_cache storage _ io huse with hsame | ⟨key, data, hkey, -, hdata, hput⟩
      · rw [hsame]
        exact ih
      · rw [hput]
        exact ih.put hinj io.put hkey hdata

/-! ### Ranged reads -/

/-- **A range cut from a faithful chunk is the range of the object**, as long as its end fits a
`usize`. -/
theorem sliceCachedRange_slice {obj : Bytes} {cached want : Range} (hle : want.start ≤ want.stop)
    (hfits : want.stop < 2 ^ w) {bytes : Bytes}
    (h : sliceCachedRange w cached (cached.slice obj) want = some bytes) :
    bytes = want.slice obj := by
  unfold sliceCachedRange at h
  split at h
  · rename_i hin
    obtain ⟨hstart, hstop⟩ := hin
    have hs : (want.start - cached.start) % 2 ^ w = want.start - cached.start :=
      Nat.mod_eq_of_lt (by omega)
    have hl : (want.stop - want.start) % 2 ^ w = want.stop - want.start :=
      Nat.mod_eq_of_lt (by omega)
    have hsum : (want.start - cached.start + (want.stop - want.start)) % 2 ^ w =
        want.start - cached.start + (want.stop - want.start) := Nat.mod_eq_of_lt (by omega)
    simp only [hs, hl, hsum] at h
    split at h
    · rw [← Option.some.inj h]
      exact slice_slice obj hstart hstop hle
    · cases h
  · cases h

/-- Over a faithful cache, a ranged read that succeeds returns the range of the object. -/
theorem readRange_of_faithful {storage : CachingStorage ω} {K : Set ByteCacheKey}
    {cache : ByteCacheStore ω} (hholds : cache.Holds fileName K (Faithful objects)) {path : String}
    {range : Range} (huse : Uses objects storage.credFp K (.readRange path range))
    (hle : range.start ≤ range.stop) (hfits : range.stop < 2 ^ w) {io : IoChoice} {r : ReadResult ω}
    (h : (storage.readRange fileName w objects cache path range io).1 = .ok r) :
    ∃ obj, objects path = some obj ∧ r.bytes = range.slice obj := by
  rcases readRange_ok h with ⟨hit, hhit, rfl⟩ | ⟨obj, hobj, rfl⟩
  · rcases hholds.of_getRange huse hhit with hexact | ⟨cached, data, ⟨obj, hobj, hdata⟩, hcut⟩
    · exact hexact
    · subst hdata
      exact ⟨obj, hobj, sliceCachedRange_slice hle hfits hcut⟩
  · exact ⟨obj, hobj, rfl⟩

/-- **Ranged reads are transparent.**  Whatever has been read before through the storage, a successful
read of a range returns what the storage below returns. -/
theorem readRange_transparent {storage : CachingStorage ω} {K : Set ByteCacheKey}
    (hinj : Set.InjOn fileName K) {cache : ByteCacheStore ω}
    (hcache : ReachableCache fileName w objects storage K cache) {path : String} {range : Range}
    (huse : Uses objects storage.credFp K (.readRange path range)) (hle : range.start ≤ range.stop)
    (hfits : range.stop < 2 ^ w) {io : IoChoice} {r : ReadResult ω}
    (h : (storage.readRange fileName w objects cache path range io).1 = .ok r) :
    innerReadRange objects path range true = .ok r.bytes := by
  have hholds := faithful_of_reachable hinj hcache
  obtain ⟨obj, hobj, hbytes⟩ := readRange_of_faithful hholds huse hle hfits h
  simp only [innerReadRange, hobj, hbytes]

end

/-! ### A small object -/

/-- One object, `p`, of four bytes. -/
def fourBytes : String → Option Bytes := fun path => if path = "p" then some [1, 2, 3, 4] else none

/-- Names for the files of `p`. -/
def rangeName (key : ByteCacheKey) : String :=
  toString key.range.start ++ "-" ++ toString key.range.stop

/-- Nothing fails and the oldest entry is evicted first. -/
def smoothIo : IoChoice := ⟨false, true, true, true, ⟨fun _ => 0, true⟩⟩

/-- A storage of fingerprint 7. -/
def storage7 : CachingStorage Unit := ⟨7, ()⟩

/-- The keys of the reads below. -/
def fourBytesKeys : Set ByteCacheKey := {⟨"p", ⟨0, 4⟩, 7⟩, ⟨"p", ⟨1, 3⟩, 7⟩, ⟨"p", ⟨0, 2⟩, 7⟩}

/-- The memory cache after one ranged read of `p`. -/
def afterRange (range : Range) : ByteCacheStore Unit :=
  (storage7.exec rangeName 64 fourBytes (.memory ⟨[], 0, 100⟩) smoothIo (.readRange "p" range)).2

theorem rangeName_injOn : Set.InjOn rangeName fourBytesKeys := by
  rintro a (rfl | rfl | rfl) b (rfl | rfl | rfl) h <;> first | rfl | exact absurd h (by decide)

theorem reachable_afterRange {range : Range} (h : (⟨"p", range, 7⟩ : ByteCacheKey) ∈ fourBytesKeys) :
    ReachableCache rangeName 64 fourBytes storage7 fourBytesKeys (afterRange range) :=
  ⟨.memory ⟨[], 0, 100⟩, .memory 100, .single ⟨.readRange "p" range, smoothIo, h, rfl⟩⟩

theorem uses_read_p : Uses fourBytes 7 fourBytesKeys (.read "p") := by
  intro obj hobj
  cases hobj
  exact .inl rfl

/-- Bytes 1 and 2 of `p`, cut from the cached chunk `0 ..< 4`. -/
theorem readRange_transparent_subset :
    (storage7.readRange rangeName 64 fourBytes (afterRange ⟨0, 4⟩) "p" ⟨1, 3⟩ smoothIo).1 =
        .ok ⟨[2, 3], some ()⟩ ∧
      innerReadRange fourBytes "p" ⟨1, 3⟩ true = .ok [2, 3] := by
  have hread : (storage7.readRange rangeName 64 fourBytes (afterRange ⟨0, 4⟩) "p" ⟨1, 3⟩ smoothIo).1 =
      .ok ⟨[2, 3], some ()⟩ := rfl
  exact ⟨hread, readRange_transparent rangeName_injOn (reachable_afterRange (.inl rfl))
    (.inr (.inl rfl)) (by decide) (by decide) hread⟩

/-! ### Whole reads -/

section

variable {ω : Type} {fileName : ByteCacheKey → String} {w : ℕ} {objects : String → Option Bytes}

/-- No chunk of the object starts at 0, or the widest one reaches the end of the object. -/
def FullChunk (objects : String → Option Bytes) (cache : ByteCacheStore ω) (path : String) (fp : ℕ) :
    Prop :=
  ∀ c, cache.zeroChunk path fp = some c → ∀ obj, objects path = some obj →
    obj.length ≤ c.range.stop

/-- Over a faithful cache, a whole read that succeeds returns the object exactly when no zero-start chunk
falls short. -/
theorem read_of_faithful {storage : CachingStorage ω} {K : Set ByteCacheKey}
    {cache : ByteCacheStore ω} (hholds : cache.Holds fileName K (Faithful objects)) {path : String}
    (huse : Uses objects storage.credFp K (.read path)) {io : IoChoice} {r : ReadResult ω}
    (h : (storage.read fileName w objects cache path io).1 = .ok r) :
    objects path = some r.bytes ↔ FullChunk objects cache path storage.credFp := by
  rcases read_ok h with ⟨c, hc, rfl⟩ | ⟨hnone, obj, hobj, hr⟩
  · -- the answer is the part of the object that the chunk's range selects
    obtain ⟨hzero, obj, hobj, hdata⟩ := hholds.of_zeroChunk hc
    have hslice : c.data = (⟨0, c.range.stop⟩ : Range).slice obj := by
      rw [hdata, ← hzero]
    have hiff : c.data = obj ↔ obj.length ≤ c.range.stop := by
      rw [hslice]
      exact slice_eq_self_iff obj c.range.stop
    constructor
    · intro hbytes c' hc' obj' hobj'
      rw [hc] at hc'
      obtain rfl := Option.some.inj hc'
      rw [hobj'] at hobj hbytes
      obtain rfl := Option.some.inj hobj
      exact hiff.mp (Option.some.inj hbytes).symm
    · intro hfull
      show objects path = some c.data
      rw [hiff.mpr (hfull c hc obj hobj)]
      exact hobj
  · have hfull : FullChunk objects cache path storage.credFp := by
      intro c hc
      rw [hnone] at hc
      cases hc
    refine iff_of_true ?_ hfull
    rcases hr with rfl | ⟨hit, hhit, rfl⟩
    · exact hobj
    · obtain ⟨obj', hobj', hdata⟩ := hholds.of_getRange_zero (huse obj hobj) hnone hhit
      show objects path = some hit.1
      rw [hdata]
      rw [hobj] at hobj'
      rw [← Option.some.inj hobj', slice_full]
      exact hobj

/-- **Whole reads** return the object exactly when the cache has no zero-start chunk of it that falls
short. -/
theorem read_transparent_iff {storage : CachingStorage ω} {K : Set ByteCacheKey}
    (hinj : Set.InjOn fileName K) {cache : ByteCacheStore ω}
    (hcache : ReachableCache fileName w objects storage K cache) {path : String}
    (huse : Uses objects storage.credFp K (.read path)) {io : IoChoice} {r : ReadResult ω}
    (h : (storage.read fileName w objects cache path io).1 = .ok r) :
    objects path = some r.bytes ↔ FullChunk objects cache path storage.credFp :=
  read_of_faithful (faithful_of_reachable hinj hcache) huse h

end

/-- After a read of `0 ..< 4` a whole read of `p` returns the object. -/
theorem read_transparent_afterRange_full :
    (storage7.read rangeName 64 fourBytes (afterRange ⟨0, 4⟩) "p" smoothIo).1 =
        .ok ⟨[1, 2, 3, 4], some ()⟩ ∧
      (fourBytes "p" = some [1, 2, 3, 4] ↔ FullChunk fourBytes (afterRange ⟨0, 4⟩) "p" 7) := by
  have hread : (storage7.read rangeName 64 fourBytes (afterRange ⟨0, 4⟩) "p" smoothIo).1 =
      .ok ⟨[1, 2, 3, 4], some ()⟩ := rfl
  exact ⟨hread, read_transparent_iff rangeName_injOn (reachable_afterRange (.inl rfl)) uses_read_p
    hread⟩

/-- After a read of `0 ..< 2` a whole read of `p` returns two of its four bytes. -/
theorem exists_truncated_read :
    ReachableCache rangeName 64 fourBytes storage7 fourBytesKeys (afterRange ⟨0, 2⟩) ∧
      (storage7.read rangeName 64 fourBytes (afterRange ⟨0, 2⟩) "p" smoothIo).1 =
        .ok ⟨[1, 2], some ()⟩ ∧
      fourBytes "p" ≠ some [1, 2] :=
  ⟨reachable_afterRange (.inr (.inr rfl)), rfl, by decide⟩

end IcebergDb.Cache
