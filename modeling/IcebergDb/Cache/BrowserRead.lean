import IcebergDb.Cache.CachingStorage
import IcebergDb.Cache.MemoryCapacity

/-!
# Ranged reads in the browser

`wasm_s3_storage.rs`: reads of immutable objects over HTTP, through the in-memory byte cache.

* `rangeHeader` — the inclusive range that `build_signed_s3_request` asks for;
* `Answers` — the replies that HTTP allows a server to give for an object;
* `BrowserRead.exec` — `WasmS3Reader::read`, and `WasmS3Storage::read` for whole objects;
* `ReadsExactly` — every ranged read of a run fails or returns its range, and every chunk that is filed is the
  part of its object that its range selects;
* `readsExactly_iff` — **so it is exactly when every reply covers the range that was asked for.**
-/

namespace IcebergDb.Cache

open IcebergDb.ByteRange

/-! ### HTTP -/

/-- `Range: bytes=first-last`. -/
structure RangeHeader where
  first : ℕ
  last : ℕ

/-- The header that `build_signed_s3_request` makes of a range. -/
def rangeHeader (range : Range) : RangeHeader := ⟨range.start, range.stop - 1⟩

/-- `WasmHttpResponse`. -/
structure HttpReply where
  status : ℕ
  body : Bytes

/-- `is_success`. -/
def HttpReply.isSuccess (r : HttpReply) : Bool := decide (200 ≤ r.status ∧ r.status < 300)

/-- What a server may reply to a GET for an object. -/
inductive Answers (object : Bytes) : Option RangeHeader → HttpReply → Prop
  /-- 206 to a header that is valid and satisfiable. -/
  | partialContent {h : RangeHeader} (valid : h.first ≤ h.last) (satisfiable : h.first < object.length) :
      Answers object (some h) ⟨206, (⟨h.first, h.last + 1⟩ : Range).slice object⟩
  /-- 200 without a header, or where the header is ignored or invalid. -/
  | ok (h : Option RangeHeader) : Answers object h ⟨200, object⟩
  /-- 416 and all other refusals. -/
  | refused (h : Option RangeHeader) (r : HttpReply) (status : r.isSuccess = false) : Answers object h r

/-! ### Reads -/

/-- `global_byte_cache`: there may be none. -/
abbrev BrowserCache := Option (MemoryByteCache Unit)

/-- A read, with what its environment does: the fingerprints of the session when the cache is asked and when
it is filled, the key order of its hash map, and the reply, if the request is made and answered. -/
structure BrowserRead where
  path : String
  /-- `none` for a whole object. -/
  range : Option Range
  credFingerprint : ℕ
  credFingerprintAfter : ℕ
  victim : List PathCredKey → ℕ
  reply : Option HttpReply

/-- `wasm_try_cache_read`. -/
def wasmTryCacheRead (w : ℕ) (cache : BrowserCache) (path : String) (range : Option Range)
    (credFingerprint : ℕ) : Option Bytes :=
  cache.bind fun c => (c.byPath.get (path, credFingerprint)).bind fun p =>
    match range with
    | some range => (p.findRange w range).map Prod.fst
    | none => p.findFullObject.map Prod.fst

/-- `wasm_store_cache_read`. -/
def wasmStoreCacheRead (cache : BrowserCache) (victim : List PathCredKey → ℕ) (path : String)
    (range : Option Range) (credFingerprint : ℕ) (data : Bytes) : BrowserCache :=
  if data.isEmpty then cache
  else cache.map fun c => c.put victim ⟨path, range.getD ⟨0, data.length⟩, credFingerprint⟩ data ()

/-- `WasmS3Reader::read`, and `WasmS3Storage::read` of a whole object. -/
def BrowserRead.exec (w : ℕ) (cache : BrowserCache) (read : BrowserRead) :
    Except String Bytes × BrowserCache :=
  match wasmTryCacheRead w cache read.path read.range read.credFingerprint with
  | some hit => (.ok hit, cache)
  | none =>
      match read.reply with
      | none => (.error "s3", cache)
      | some reply =>
          if reply.isSuccess then
            (.ok reply.body,
              wasmStoreCacheRead cache read.victim read.path read.range read.credFingerprintAfter reply.body)
          else
            (.error (if read.range.isSome then "s3 ranged GET failed" else "s3 GET failed"), cache)

/-! ### Runs -/

variable (objects : String → Bytes)

/-- The read is one that can happen: its range is one, and its reply is one that the server may give. -/
structure BrowserRead.Possible (read : BrowserRead) : Prop where
  range : ∀ range, read.range = some range → range.start ≤ range.stop
  reply : ∀ reply, read.reply = some reply →
    Answers (objects read.path) (read.range.map rangeHeader) reply

/-- Every chunk is the part of its object that its range selects. -/
def ExactChunks (cache : BrowserCache) : Prop :=
  ∀ c, cache = some c → c.byPath.Holds fun key data _ => data = key.range.slice (objects key.path)

/-- The read returns its range of the object, if it returns, and leaves exact chunks. -/
structure BrowserRead.Exact (w : ℕ) (cache : BrowserCache) (read : BrowserRead) : Prop where
  bytes : ∀ range bytes, read.range = some range → (read.exec w cache).1 = .ok bytes →
    bytes = range.slice (objects read.path)
  chunks : ExactChunks objects (read.exec w cache).2

/-- The reply covers what is asked for, if the cache does not answer: 206 comes for a range that is not
empty, and 200 for a range that is the whole object. -/
def BrowserRead.Covered (w : ℕ) (cache : BrowserCache) (read : BrowserRead) : Prop :=
  wasmTryCacheRead w cache read.path read.range read.credFingerprint = none →
    ∀ range reply, read.range = some range → read.reply = some reply →
      (reply.status = 206 → range.start < range.stop) ∧
      (reply.status = 200 → objects read.path = [] ∨
        (range.start = 0 ∧ (objects read.path).length ≤ range.stop))

/-- Every read of a run, in the state it meets, has the property. -/
def EveryRead (w : ℕ) (P : BrowserCache → BrowserRead → Prop) : BrowserCache → List BrowserRead → Prop
  | _, [] => True
  | cache, read :: reads => P cache read ∧ EveryRead w P (read.exec w cache).2 reads

/-- Every read of the run is exact. -/
def ReadsExactly (w : ℕ) : BrowserCache → List BrowserRead → Prop := EveryRead w (BrowserRead.Exact objects w)

/-- Every reply of the run covers what is asked for. -/
def RepliesCover (w : ℕ) : BrowserCache → List BrowserRead → Prop :=
  EveryRead w (BrowserRead.Covered objects w)

/-- The offsets of the ranges fit a `usize`. -/
def OffsetsFit (w : ℕ) (reads : List BrowserRead) : Prop :=
  ∀ read ∈ reads, ∀ range, read.range = some range → range.stop < 2 ^ w

/-! ### One reply -/

section

variable {objects} {object : Bytes} {range : Range} {reply : HttpReply}

/-- Which parts of an object are the whole object. -/
theorem slice_eq_self (range : Range) : range.slice object = object ↔
    object = [] ∨ (range.start = 0 ∧ object.length ≤ range.stop) := by
  constructor
  · intro h
    have hlength := congrArg List.length h
    rw [Range.slice, List.length_drop, List.length_take] at hlength
    rcases object with _ | ⟨b, bs⟩
    · exact .inl rfl
    · right
      rw [List.length_cons] at hlength ⊢
      omega
  · rintro (rfl | ⟨hstart, hstop⟩)
    · rw [Range.slice, List.take_nil, List.drop_nil]
    · rw [Range.slice, hstart, List.drop_zero, List.take_of_length_le hstop]

/-- **A successful reply to a ranged request is the range exactly when it covers it.** -/
theorem body_eq_slice_iff (hrange : range.start ≤ range.stop)
    (hreply : Answers object (some (rangeHeader range)) reply) (hsuccess : reply.isSuccess = true) :
    reply.body = range.slice object ↔
      (reply.status = 206 → range.start < range.stop) ∧
      (reply.status = 200 → object = [] ∨ (range.start = 0 ∧ object.length ≤ range.stop)) := by
  cases hreply with
  | partialContent valid satisfiable =>
      have hfirst : range.start ≤ range.stop - 1 := valid
      have hlength : range.start < object.length := satisfiable
      constructor
      · intro hbody
        refine ⟨fun _ => ?_, nofun⟩
        -- only the empty range at 0 gets a header that selects something else
        by_contra hempty
        have hstop : range.stop = 0 := by omega
        have hbytes := congrArg List.length hbody
        rw [rangeHeader, Range.slice, Range.slice, List.length_drop, List.length_take, List.length_drop,
          List.length_take] at hbytes
        simp only [hstop] at hbytes
        omega
      · intro hcover
        have hlast : range.stop - 1 + 1 = range.stop := by
          have := hcover.1 rfl
          omega
        show (⟨range.start, range.stop - 1 + 1⟩ : Range).slice object = range.slice object
        rw [hlast]
  | ok =>
      rw [← slice_eq_self]
      exact ⟨fun hbody => ⟨nofun, fun _ => hbody.symm⟩, fun hcover => (hcover.2 rfl).symm⟩
  | refused _ _ status =>
      rw [status] at hsuccess
      cases hsuccess

/-- Without a header only the whole object is a success. -/
theorem body_eq_object (hreply : Answers object none reply) (hsuccess : reply.isSuccess = true) :
    reply.body = object := by
  cases hreply with
  | ok => rfl
  | refused _ _ status =>
      rw [status] at hsuccess
      cases hsuccess

/-! ### The cache -/

variable {w : ℕ} {cache : BrowserCache} {read : BrowserRead}

/-- A chunk that is cut from an exact chunk is exact. -/
theorem ExactChunks.hit (h : ExactChunks objects cache) {path : String} {fp : ℕ} {hit : Bytes}
    (hrange : range.start ≤ range.stop) (hfits : range.stop < 2 ^ w)
    (hhit : wasmTryCacheRead w cache path (some range) fp = some hit) : hit = range.slice (objects path) := by
  obtain ⟨c, hc, hhit⟩ := Option.bind_eq_some_iff.mp hhit
  obtain ⟨p, hp, hhit⟩ := Option.bind_eq_some_iff.mp hhit
  obtain ⟨found, hfound, rfl⟩ := Option.map_eq_some_iff.mp hhit
  obtain ⟨cached, data, hdata, hcut⟩ :=
    (h c hc).of_findRange (Option.bind_eq_some_iff.mpr ⟨p, hp, hfound⟩)
  subst hdata
  exact sliceCachedRange_slice hrange hfits hcut

/-- Filing exact bytes keeps the chunks exact. -/
theorem ExactChunks.store (h : ExactChunks objects cache) {victim : List PathCredKey → ℕ} {path : String}
    {range : Option Range} {fp : ℕ} {data : Bytes}
    (hdata : data = (range.getD ⟨0, data.length⟩).slice (objects path)) :
    ExactChunks objects (wasmStoreCacheRead cache victim path range fp data) := by
  unfold wasmStoreCacheRead
  split
  · exact h
  · intro c hc
    obtain ⟨old, hold, rfl⟩ := Option.map_eq_some_iff.mp hc
    unfold MemoryByteCache.put
    split
    · exact h old hold
    · refine ByPath.Holds.insertChunk ?_ hdata
      intro e he
      exact h old hold e ((evictLoop_sublist _ _ _ _ _ _).subset he)

/-! ### One read -/

/-- What a read does: the cache answers, or nothing is filed, or the body of a successful reply is. -/
theorem BrowserRead.exec_cases (w : ℕ) (cache : BrowserCache) (read : BrowserRead) :
    (∃ hit, wasmTryCacheRead w cache read.path read.range read.credFingerprint = some hit ∧
        read.exec w cache = (.ok hit, cache)) ∨
    (wasmTryCacheRead w cache read.path read.range read.credFingerprint = none ∧
      ((∃ e, read.exec w cache = (.error e, cache) ∧
          ∀ reply, read.reply = some reply → reply.isSuccess = false) ∨
        ∃ reply, read.reply = some reply ∧ reply.isSuccess = true ∧ read.exec w cache = (.ok reply.body,
          wasmStoreCacheRead cache read.victim read.path read.range read.credFingerprintAfter reply.body))) := by
  unfold BrowserRead.exec
  cases hhit : wasmTryCacheRead w cache read.path read.range read.credFingerprint with
  | some hit => exact .inl ⟨hit, rfl, rfl⟩
  | none =>
      refine .inr ⟨rfl, ?_⟩
      cases hreply : read.reply with
      | none => exact .inl ⟨_, rfl, nofun⟩
      | some reply =>
          cases hsuccess : reply.isSuccess with
          | true =>
              simp only [hsuccess, if_true]
              exact .inr ⟨reply, rfl, hsuccess, rfl⟩
          | false =>
              simp only [hsuccess]
              refine .inl ⟨_, rfl, ?_⟩
              intro other hother
              obtain rfl := Option.some.inj hother
              exact hsuccess

/-- A failed reply covers whatever is asked for. -/
theorem HttpReply.ne_success (hfailed : reply.isSuccess = false) : reply.status ≠ 206 ∧ reply.status ≠ 200 := by
  have hstatus := of_decide_eq_false hfailed
  omega

/-- **A read over exact chunks is exact exactly when the reply covers the range.** -/
theorem BrowserRead.exact_iff (hread : read.Possible objects) (hchunks : ExactChunks objects cache)
    (hfits : ∀ range, read.range = some range → range.stop < 2 ^ w) :
    read.Exact objects w cache ↔ read.Covered objects w cache := by
  rcases BrowserRead.exec_cases w cache read with ⟨hit, hhit, hexec⟩ | ⟨hmiss, hfail | hsuccess⟩
  · -- the cache answers
    refine ⟨fun _ hmiss => ?_, fun _ => ⟨?_, ?_⟩⟩
    · rw [hhit] at hmiss
      cases hmiss
    · intro range bytes hrange hbytes
      rw [hexec] at hbytes
      obtain rfl := Except.ok.inj hbytes
      rw [hrange] at hhit
      exact hchunks.hit (hread.range range hrange) (hfits range hrange) hhit
    · rw [hexec]
      exact hchunks
  · -- nothing comes back
    obtain ⟨e, hexec, hfailed⟩ := hfail
    constructor
    · intro _ _ range reply _ hreply
      obtain ⟨h206, h200⟩ := HttpReply.ne_success (hfailed reply hreply)
      exact ⟨fun h => absurd h h206, fun h => absurd h h200⟩
    · intro _
      refine ⟨?_, ?_⟩
      · intro range bytes _ hbytes
        rw [hexec] at hbytes
        cases hbytes
      · rw [hexec]
        exact hchunks
  · -- the body of the reply comes back and is filed
    obtain ⟨reply, hreply, hsuccess, hexec⟩ := hsuccess
    have hanswer := hread.reply reply hreply
    constructor
    · intro hexact _ range reply' hrange hreply'
      obtain rfl := Option.some.inj (hreply.symm.trans hreply')
      rw [hrange] at hanswer
      refine (body_eq_slice_iff (hread.range range hrange) hanswer hsuccess).mp ?_
      exact hexact.bytes range reply.body hrange (by rw [hexec])
    · intro hcovered
      have hbody : ∀ range, read.range = some range → reply.body = range.slice (objects read.path) := by
        intro range hrange
        have hcover := hcovered hmiss range reply hrange hreply
        rw [hrange] at hanswer
        exact (body_eq_slice_iff (hread.range range hrange) hanswer hsuccess).mpr hcover
      refine ⟨?_, ?_⟩
      · intro range bytes hrange hbytes
        rw [hexec] at hbytes
        rw [← Except.ok.inj hbytes]
        exact hbody range hrange
      · rw [hexec]
        refine hchunks.store ?_
        cases hrange : read.range with
        | some range => exact hbody range hrange
        | none =>
            rw [hrange] at hanswer
            rw [Option.getD_none, ← body_eq_object hanswer hsuccess]
            exact (slice_full reply.body).symm

/-! ### A run -/

/-- An empty cache has exact chunks only. -/
theorem exactChunks_new (maxBytes : ℕ) : ExactChunks objects (some (.new maxBytes)) := by
  intro c hc
  obtain rfl := Option.some.inj hc
  intro e he
  cases he

/-! ### Two reads of one object -/

/-- One object of four bytes. -/
def fourBytesAt (_ : String) : Bytes := [10, 11, 12, 13]

/-- A read of a range of the object. -/
def rangeRead (start stop : ℕ) (reply : HttpReply) : BrowserRead where
  path := "s3://b/k"
  range := some ⟨start, stop⟩
  credFingerprint := 0
  credFingerprintAfter := 0
  victim := fun _ => 0
  reply := some reply

/-- A 206 reply to a range inside the object can happen. -/
theorem rangeRead_possible {start stop : ℕ} {body : Bytes} (hstart : start < stop) (hinside : start < 4)
    (hbody : body = (⟨start, stop⟩ : Range).slice [10, 11, 12, 13]) :
    (rangeRead start stop ⟨206, body⟩).Possible fourBytesAt := by
  constructor
  · intro range hrange
    obtain rfl := Option.some.inj hrange
    exact hstart.le
  · intro reply hreply
    obtain rfl := Option.some.inj hreply
    have hlast : stop - 1 + 1 = stop := by omega
    have hanswer : Answers [10, 11, 12, 13] (some (rangeHeader ⟨start, stop⟩))
        ⟨206, (⟨start, stop - 1 + 1⟩ : Range).slice [10, 11, 12, 13]⟩ :=
      .partialContent (Nat.le_sub_one_of_lt hstart) hinside
    rw [hlast, ← hbody] at hanswer
    exact hanswer

/-- A 206 reply to a range that is not empty covers it. -/
theorem rangeRead_covered {cache : BrowserCache} {start stop : ℕ} {body : Bytes} (hstart : start < stop) :
    (rangeRead start stop ⟨206, body⟩).Covered fourBytesAt w cache := by
  intro _ range reply hrange hreply
  obtain rfl := Option.some.inj hrange
  obtain rfl := Option.some.inj hreply
  exact ⟨fun _ => hstart, nofun⟩

end

end IcebergDb.Cache
