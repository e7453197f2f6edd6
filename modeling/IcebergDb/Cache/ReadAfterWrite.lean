import IcebergDb.Cache.CachingStorage

/-!
# Reading what has been written

`caching_storage.rs`: `write`, `writer`, `delete` and `delete_prefix` go to the storage below and leave
the cache as it is.

* `WriteOp` — the four mutations, and the objects they leave behind;
* `StorageRun` — the objects, the cache and the mutations completed so far, as one `CachingStorage` is
  used for reads and mutations in any order;
* a mutation keeps the cache faithful when every chunk it meets is still a part of the new object
  (`Agrees`), and then every later read returns what the storage below does (`readsInner_of_run`).
-/

namespace IcebergDb.Cache

open IcebergDb.ByteRange

/-! ### Mutations -/

/-- The mutating operations of `Storage`.  A writer is taken with the buffers it is handed before it is
closed. -/
inductive WriteOp where
  | write (path : String) (bs : Bytes)
  | writer (path : String) (buffers : List Bytes)
  | delete (path : String)
  | deletePrefix (path : String)

section

variable {ω : Type} (fileName : ByteCacheKey → String) (w : ℕ) (covers : String → String → Bool)

/-- The paths an operation is about; `covers` is the prefix rule of the storage below. -/
def WriteOp.affects : WriteOp → String → Bool
  | .write path _, p => p == path
  | .writer path _, p => p == path
  | .delete path, p => p == path
  | .deletePrefix path, p => covers path p

/-- What an affected path holds afterwards. -/
def WriteOp.content : WriteOp → Option Bytes
  | .write _ bs => some bs
  | .writer _ buffers => some buffers.flatten
  | .delete _ => none
  | .deletePrefix _ => none

/-- The objects of the storage below after an operation. -/
def WriteOp.apply (op : WriteOp) (objects : String → Option Bytes) : String → Option Bytes :=
  fun path => if op.affects covers path then op.content else objects path

/-- How a mutation ends.  One that fails may have happened all the same. -/
inductive WriteOutcome where
  | completed
  | failedAfter
  | failedBefore

/-- `CachingStorage::write`, `writer` with `close`, `delete` and `delete_prefix`: the objects and the cache
they leave.  All four delegate to the storage below. -/
def CachingStorage.mutate (_ : CachingStorage ω) (objects : String → Option Bytes)
    (cache : ByteCacheStore ω) (op : WriteOp) : WriteOutcome → (String → Option Bytes) × ByteCacheStore ω
  | .failedBefore => (objects, cache)
  | _ => (op.apply covers objects, cache)

/-! ### Runs -/

/-- One `CachingStorage` in use: the objects below it, its cache and the mutations that have completed. -/
structure StorageRun (ω : Type) where
  objects : String → Option Bytes
  cache : ByteCacheStore ω
  completed : List WriteOp

/-- The operations on the storage. -/
inductive StorageEvent where
  | read (op : ReadOp) (io : IoChoice)
  | mutate (op : WriteOp) (outcome : WriteOutcome)

/-- The path of a read. -/
def ReadOp.path : ReadOp → String
  | .read path => path
  | .readRange path _ => path

/-- The state after an operation. -/
def StorageRun.next (storage : CachingStorage ω) (s : StorageRun ω) : StorageEvent → StorageRun ω
  | .read op io => { s with cache := (storage.exec fileName w s.objects s.cache io op).2 }
  | .mutate op outcome =>
      let (objects, cache) := storage.mutate covers s.objects s.cache op outcome
      match outcome with
      | .completed => ⟨objects, cache, op :: s.completed⟩
      | _ => ⟨objects, cache, s.completed⟩

/-- What the storage below answers to a read. -/
def innerExec (objects : String → Option Bytes) : ReadOp → Except StorageError Bytes
  | .read path => innerRead objects path true
  | .readRange path range => innerReadRange objects path range true

/-- Nothing goes wrong during the read. -/
def IoChoice.Smooth (io : IoChoice) : Prop :=
  io.cancelled = false ∧ io.metadataOk = true ∧ io.readerOk = true ∧ io.readOk = true

/-- A mutation of the path has completed. -/
def StorageRun.Mutated (s : StorageRun ω) (path : String) : Prop :=
  ∃ op ∈ s.completed, op.affects covers path = true

/-- **Read after write.**  A read of a path that has been mutated returns what the storage below returns:
its bytes if it succeeds, and the very same answer if nothing goes wrong on the way. -/
def ReadsInner (storage : CachingStorage ω) (s : StorageRun ω) : StorageEvent → Prop
  | .read op io => s.Mutated covers op.path →
      let answer := (storage.exec fileName w s.objects s.cache io op).1.map ReadResult.bytes
      (∀ bytes, answer = .ok bytes → innerExec s.objects op = .ok bytes) ∧
        (io.Smooth → answer = innerExec s.objects op)
  | .mutate _ _ => True

/-- A read the storage can be asked for: its key is in use and its range is a range of `usize` offsets. -/
def Issued (storage : CachingStorage ω) (K : Set ByteCacheKey) (s : StorageRun ω) : StorageEvent → Prop
  | .read (.read path) _ => Uses s.objects storage.credFp K (.read path)
  | .read (.readRange path range) _ => Uses s.objects storage.credFp K (.readRange path range) ∧
      range.start ≤ range.stop ∧ range.stop < 2 ^ w
  | .mutate _ _ => True

/-- The condition on an operation and the state before it.  A mutation that happens finds no chunk of an
affected path in the cache, or only chunks that the new object has too.  A whole read of a mutated path
finds no chunk from offset 0 that stops short of the end. -/
def Agrees (storage : CachingStorage ω) (K : Set ByteCacheKey) (s : StorageRun ω) : StorageEvent → Prop
  | .read (.read path) _ =>
      s.Mutated covers path → FullChunk s.objects s.cache path storage.credFp
  | .read (.readRange _ _) _ => True
  | .mutate _ .failedBefore => True
  | .mutate op _ => s.cache.Holds fileName K fun key data _ => op.affects covers key.path = true →
      ∃ obj, op.content = some obj ∧ data = key.range.slice obj

/-- One step of a run: an operation that is issued and meets the condition. -/
def AgreeingStep (storage : CachingStorage ω) (K : Set ByteCacheKey) (s s' : StorageRun ω) : Prop :=
  ∃ e, Issued w storage K s e ∧ Agrees fileName covers storage K s e ∧
    s' = s.next fileName w covers storage e

end

section

variable {ω : Type} {fileName : ByteCacheKey → String} {w : ℕ} {covers : String → String → Bool}
  {storage : CachingStorage ω} {K : Set ByteCacheKey}

/-! ### What keeps the cache faithful -/

/-- After a mutation a chunk of an affected path must be a part of the new content; the others are parts
of the objects they were parts of. -/
theorem faithful_apply {objects : String → Option Bytes} {cache : ByteCacheStore ω} {op : WriteOp}
    (hholds : cache.Holds fileName K (Faithful objects))
    (hagrees : cache.Holds fileName K fun key data _ => op.affects covers key.path = true →
      ∃ obj, op.content = some obj ∧ data = key.range.slice obj) :
    cache.Holds fileName K (Faithful (op.apply covers objects)) := by
  refine hholds.combine hagrees ?_
  intro key data owner hold hnew
  unfold Faithful WriteOp.apply
  by_cases haffects : op.affects covers key.path = true
  · obtain ⟨obj, hobj, hdata⟩ := hnew haffects
    exact ⟨obj, by rw [if_pos haffects, hobj], hdata⟩
  · obtain ⟨obj, hobj, hdata⟩ := hold
    exact ⟨obj, by rw [if_neg haffects, hobj], hdata⟩

/-- Every issued read has its key in use. -/
theorem Issued.uses {s : StorageRun ω} {op : ReadOp} {io : IoChoice}
    (h : Issued w storage K s (.read op io)) : Uses s.objects storage.credFp K op := by
  cases op with
  | read path => exact h
  | readRange path range => exact h.1

/-- **One step keeps the cache faithful** to the objects as they are now. -/
theorem faithful_next (hinj : Set.InjOn fileName K) {s : StorageRun ω} {e : StorageEvent}
    (hissued : Issued w storage K s e) (hagrees : Agrees fileName covers storage K s e)
    (hholds : s.cache.Holds fileName K (Faithful s.objects)) :
    (s.next fileName w covers storage e).cache.Holds fileName K
      (Faithful (s.next fileName w covers storage e).objects) := by
  cases e with
  | read op io =>
      show ((storage.exec fileName w s.objects s.cache io op).2).Holds fileName K (Faithful s.objects)
      rcases exec_cache storage s.cache io hissued.uses with hsame | ⟨key, data, hkey, -, hdata, hput⟩
      · rw [hsame]
        exact hholds
      · rw [hput]
        exact hholds.put hinj io.put hkey hdata
  | mutate op outcome =>
      cases outcome with
      | completed => exact faithful_apply hholds hagrees
      | failedAfter => exact faithful_apply hholds hagrees
      | failedBefore => exact hholds

/-- **Along a run** the cache is faithful to the current objects. -/
theorem faithful_of_run (hinj : Set.InjOn fileName K) {s₀ s : StorageRun ω} (hfresh : Fresh s₀.cache)
    (hrun : Relation.ReflTransGen (AgreeingStep fileName w covers storage K) s₀ s) :
    s.cache.Holds fileName K (Faithful s.objects) := by
  induction hrun with
  | refl => exact holds_of_fresh hfresh
  | tail _ hstep ih =>
      obtain ⟨e, hissued, hagrees, rfl⟩ := hstep
      exact faithful_next hinj hissued hagrees ih

/-! ### What a read answers over a faithful cache -/

/-- Nothing is cached of a path that has no object. -/
theorem zeroChunk_eq_none {objects : String → Option Bytes} {cache : ByteCacheStore ω}
    (hholds : cache.Holds fileName K (Faithful objects)) {path : String} {fp : ℕ}
    (hnone : objects path = none) : cache.zeroChunk path fp = none := by
  cases hc : cache.zeroChunk path fp with
  | none => rfl
  | some c =>
      obtain ⟨-, obj, hobj, -⟩ := hholds.of_zeroChunk hc
      rw [hnone] at hobj
      cases hobj

theorem getRange_eq_none {objects : String → Option Bytes} {cache : ByteCacheStore ω}
    (hholds : cache.Holds fileName K (Faithful objects)) {path : String} {range : Range} {fp : ℕ}
    (hkey : (⟨path, range, fp⟩ : ByteCacheKey) ∈ K) (hnone : objects path = none) :
    cache.getRange fileName w path range fp = none := by
  cases hhit : cache.getRange fileName w path range fp with
  | none => rfl
  | some hit =>
      rcases hholds.of_getRange hkey hhit with ⟨obj, hobj, -⟩ | ⟨r, data, ⟨obj, hobj, -⟩, -⟩
      · rw [hnone] at hobj
        cases hobj
      · rw [hnone] at hobj
        cases hobj

/-- A read that nothing disturbs fails only where there is no object, with the error of the storage
below. -/
theorem exec_smooth {objects : String → Option Bytes} {cache : ByteCacheStore ω}
    (hholds : cache.Holds fileName K (Faithful objects)) {op : ReadOp} {io : IoChoice}
    (huse : Uses objects storage.credFp K op) (hsmooth : io.Smooth) :
    (∃ r, (storage.exec fileName w objects cache io op).1 = .ok r) ∨
      (objects op.path = none ∧ (storage.exec fileName w objects cache io op).1 = .error .inner) := by
  obtain ⟨hcancel, hmeta, hreader, hread⟩ := hsmooth
  cases op with
  | read path =>
      cases hobj : objects path with
      | none =>
          refine .inr ⟨hobj, ?_⟩
          have hfull : cache.getFullObject path storage.credFp = none := by
            rw [ByteCacheStore.getFullObject_eq, zeroChunk_eq_none hholds hobj]
            rfl
          simp [CachingStorage.exec, CachingStorage.read, hcancel, hfull, innerMetadata, hobj]
      | some obj =>
          left
          simp only [CachingStorage.exec, CachingStorage.read, hcancel, hmeta, hread, innerMetadata,
            innerRead, hobj]
          split
          · rename_i h
            cases h
          split
          · exact ⟨_, rfl⟩
          split
          · exact ⟨_, rfl⟩
          split
          · exact ⟨_, rfl⟩
          · exact ⟨_, rfl⟩
  | readRange path range =>
      cases hobj : objects path with
      | none =>
          refine .inr ⟨hobj, ?_⟩
          have hmiss := getRange_eq_none (w := w) hholds huse hobj
          simp [CachingStorage.exec, CachingStorage.readRange, hreader, hcancel, hmiss, innerReadRange,
            hobj]
      | some obj =>
          left
          simp only [CachingStorage.exec, CachingStorage.readRange, hreader, hcancel, hread,
            innerReadRange, hobj]
          split
          · rename_i h
            cases h
          split
          · rename_i h
            cases h
          split
          · exact ⟨_, rfl⟩
          · exact ⟨_, rfl⟩

/-- The storage below answers with its error where there is no object. -/
theorem innerExec_none {objects : String → Option Bytes} {op : ReadOp} (h : objects op.path = none) :
    innerExec objects op = .error .inner := by
  cases op with
  | read path =>
      show innerRead objects path true = _
      simp only [innerRead, show objects path = none from h]
  | readRange path range =>
      show innerReadRange objects path range true = _
      simp only [innerReadRange, show objects path = none from h]

/-- A read that succeeds, of a path that has been mutated, has the bytes of the storage below. -/
theorem exec_ok_inner {s : StorageRun ω} (hholds : s.cache.Holds fileName K (Faithful s.objects))
    {op : ReadOp} {io : IoChoice} (hissued : Issued w storage K s (.read op io))
    (hagrees : Agrees fileName covers storage K s (.read op io)) (hmutated : s.Mutated covers op.path)
    {r : ReadResult ω} (h : (storage.exec fileName w s.objects s.cache io op).1 = .ok r) :
    innerExec s.objects op = .ok r.bytes := by
  cases op with
  | read path =>
      have hobj := (read_of_faithful hholds hissued h).mpr (hagrees hmutated)
      show innerRead s.objects path true = _
      simp only [innerRead, hobj]
  | readRange path range =>
      obtain ⟨huse, hle, hfits⟩ := hissued
      obtain ⟨obj, hobj, hbytes⟩ := readRange_of_faithful hholds huse hle hfits h
      show innerReadRange s.objects path range true = _
      simp only [innerReadRange, hobj, hbytes]

/-- **Read after write, along every run.**  If each mutation so far left no stale chunk in the cache, a
read of a mutated path returns what the storage below returns. -/
theorem readsInner_of_run (hinj : Set.InjOn fileName K) {s₀ s : StorageRun ω} (hfresh : Fresh s₀.cache)
    (hrun : Relation.ReflTransGen (AgreeingStep fileName w covers storage K) s₀ s) {e : StorageEvent}
    (hissued : Issued w storage K s e) (hagrees : Agrees fileName covers storage K s e) :
    ReadsInner fileName w covers storage s e := by
  have hholds := faithful_of_run hinj hfresh hrun
  cases e with
  | mutate op outcome => trivial
  | read op io =>
      intro hmutated
      have hok : ∀ bytes, (storage.exec fileName w s.objects s.cache io op).1.map ReadResult.bytes =
          .ok bytes → innerExec s.objects op = .ok bytes := by
        intro bytes hbytes
        cases hexec : (storage.exec fileName w s.objects s.cache io op).1 with
        | error err =>
            rw [hexec] at hbytes
            cases hbytes
        | ok r =>
            rw [hexec] at hbytes
            rw [← Except.ok.inj hbytes]
            exact exec_ok_inner hholds hissued hagrees hmutated hexec
      refine ⟨hok, fun hsmooth => ?_⟩
      rcases exec_smooth (w := w) hholds hissued.uses hsmooth with ⟨r, hr⟩ | ⟨hnone, herr⟩
      · rw [hr]
        refine (hok r.bytes ?_).symm
        rw [hr]
        rfl
      · rw [herr, innerExec_none hnone]
        rfl

end

/-! ### Rewriting a small object -/

/-- `delete_prefix` by string prefix. -/
def startsWith (pre path : String) : Bool := pre.toList.isPrefixOf path.toList

/-- The object `p` of four bytes, below an empty memory cache. -/
def fourBytesRun : StorageRun Unit := ⟨fourBytes, .memory ⟨[], 0, 100⟩, []⟩

/-- The run after `p` has been overwritten with two bytes. -/
def rewritten (s : StorageRun Unit) : StorageRun Unit :=
  s.next rangeName 64 startsWith storage7 (.mutate (.write "p" [5, 6]) .completed)

/-- Nothing of `p` was cached when it was overwritten: a read returns the new bytes. -/
theorem readsInner_rewritten :
    (rewritten fourBytesRun).Mutated startsWith "p" ∧
      innerExec (rewritten fourBytesRun).objects (.readRange "p" ⟨0, 2⟩) = .ok [5, 6] ∧
      ReadsInner rangeName 64 startsWith storage7 (rewritten fourBytesRun)
        (.read (.readRange "p" ⟨0, 2⟩) smoothIo) := by
  have hempty : fourBytesRun.cache.Holds rangeName fourBytesKeys fun key data _ =>
      (WriteOp.write "p" [5, 6]).affects startsWith key.path = true →
      ∃ obj, (WriteOp.write "p" [5, 6]).content = some obj ∧ data = key.range.slice obj :=
    holds_of_fresh (.memory 100)
  have hstep : AgreeingStep rangeName 64 startsWith storage7 fourBytesKeys fourBytesRun
      (rewritten fourBytesRun) :=
    ⟨.mutate (.write "p" [5, 6]) .completed, trivial, hempty, rfl⟩
  refine ⟨⟨_, List.mem_cons_self, by decide⟩, rfl, ?_⟩
  exact readsInner_of_run rangeName_injOn (.memory 100) (.single hstep)
    ⟨.inr (.inr rfl), by decide, by decide⟩ trivial

/-- `p` is read, overwritten and read again: the second read returns the bytes of the first, and after a
deletion it would too. -/
theorem exists_stale_read :
    let s := fourBytesRun.next rangeName 64 startsWith storage7 (.read (.read "p") smoothIo)
    let deleted := s.next rangeName 64 startsWith storage7 (.mutate (.delete "p") .completed)
    (rewritten s).objects "p" = some [5, 6] ∧
      (storage7.exec rangeName 64 (rewritten s).objects (rewritten s).cache smoothIo (.read "p")).1 =
        .ok ⟨[1, 2, 3, 4], some ()⟩ ∧
      ¬ ReadsInner rangeName 64 startsWith storage7 (rewritten s) (.read (.read "p") smoothIo) ∧
      deleted.objects "p" = none ∧
      (storage7.exec rangeName 64 deleted.objects deleted.cache smoothIo (.read "p")).1 =
        .ok ⟨[1, 2, 3, 4], some ()⟩ := by
  refine ⟨rfl, rfl, ?_, rfl, rfl⟩
  intro hinner
  have hbytes := (hinner ⟨_, List.mem_cons_self, by decide⟩).1 [1, 2, 3, 4] rfl
  exact absurd (Except.ok.inj hbytes) (by decide)

end IcebergDb.Cache
