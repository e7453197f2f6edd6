import IcebergDb.Cache.ByteCache
import Mathlib.Logic.Relation
import Mathlib.Logic.Function.Basic

/-!
# Concurrent writers of the on-disk cache

`FsByteCache::put` as the file system sees it: create or truncate the `.tmp` file, write the data in
pieces through the open handle, rename `.tmp` to `.bin`; and `FsByteCache::get` as one read of the
`.bin` file.  Any number of threads or processes do this over one root.

* `FsState` — directory, file contents by inode, and the puts in progress;
* `FsState.step` — one file-system call of one writer, or its death;
* `AllComplete` — every `.bin` file of a key holds the data of a completed put of that key;
* `allComplete_of_exclusive` — so it is in every run in which a put creates its `.tmp` file only while
  no other put of the key is in progress.

All writers of a key share one `.tmp` name, hence one inode, and nothing in the code keeps them apart.
-/

namespace IcebergDb.Cache

/-- The names of the files of one key. -/
inductive FileName where
  | tmp (name : String)
  | bin (name : String)
deriving DecidableEq

/-- A put in progress: its data, the inode it has open, and how much it has written. -/
structure Writer where
  key : ByteCacheKey
  data : Bytes
  handle : ℕ
  offset : ℕ

/-- The file system under the root, the puts in progress, and the puts that have completed. -/
structure FsState where
  dir : FileName → Option ℕ
  content : ℕ → Bytes
  nextInode : ℕ
  writers : ℕ → Option Writer
  completed : List (ByteCacheKey × Bytes)

/-- An empty root. -/
def FsState.init : FsState where
  dir := fun _ => none
  content := fun _ => []
  nextInode := 0
  writers := fun _ => none
  completed := []

/-- The file-system calls of put `id`. -/
inductive FsEvent where
  | create (id : ℕ) (key : ByteCacheKey) (data : Bytes)
  | write (id count : ℕ)
  | rename (id : ℕ)
  | abandon (id : ℕ)

/-- A write at an offset; a gap before it reads as zeros. -/
def overwrite (c : Bytes) (offset : ℕ) (piece : Bytes) : Bytes :=
  (c ++ List.replicate (offset - c.length) 0).take offset ++ piece ++ c.drop (offset + piece.length)

section

variable (fileName : ByteCacheKey → String)

/-- `File::create` on the `.tmp` path: an existing file is truncated, otherwise a new one is made. -/
def FsState.create (s : FsState) (id : ℕ) (key : ByteCacheKey) (data : Bytes) : FsState :=
  match s.dir (.tmp (fileName key)) with
  | some i =>
      { s with
        content := Function.update s.content i []
        writers := Function.update s.writers id (some ⟨key, data, i, 0⟩) }
  | none =>
      { s with
        dir := Function.update s.dir (.tmp (fileName key)) (some s.nextInode)
        content := Function.update s.content s.nextInode []
        nextInode := s.nextInode + 1
        writers := Function.update s.writers id (some ⟨key, data, s.nextInode, 0⟩) }

/-- One `write` call: the next `count` bytes, at the writer's own position. -/
def FsState.write (s : FsState) (id : ℕ) (wr : Writer) (count : ℕ) : FsState :=
  let piece := (wr.data.drop wr.offset).take count
  { s with
    content := Function.update s.content wr.handle
      (overwrite (s.content wr.handle) wr.offset piece)
    writers := Function.update s.writers id (some { wr with offset := wr.offset + piece.length }) }

/-- `rename(tmp, bin)` by name, which ends the put; it fails when the `.tmp` file is gone. -/
def FsState.rename (s : FsState) (id : ℕ) (wr : Writer) : FsState :=
  { s with
    dir := match s.dir (.tmp (fileName wr.key)) with
      | some i => Function.update (Function.update s.dir (.bin (fileName wr.key)) (some i))
          (.tmp (fileName wr.key)) none
      | none => s.dir
    writers := Function.update s.writers id none
    completed := (wr.key, wr.data) :: s.completed }

/-- One step.  An empty `put` returns at once, a rename comes after the last byte, and a writer may
fail or die at any moment. -/
def FsState.step (s : FsState) : FsEvent → Option FsState
  | .create id key data =>
      if data.isEmpty ∨ (s.writers id).isSome then none else some (s.create fileName id key data)
  | .write id count => (s.writers id).map fun wr => s.write id wr count
  | .rename id =>
      match s.writers id with
      | some wr => if wr.offset = wr.data.length then some (s.rename fileName id wr) else none
      | none => none
  | .abandon id => some { s with writers := Function.update s.writers id none }

/-- `FsByteCache::get`. -/
def FsState.get (s : FsState) (key : ByteCacheKey) : Option Bytes :=
  (s.dir (.bin (fileName key))).map s.content

/-- A put creates its `.tmp` file only while no other put of the key is in progress. -/
def Exclusive (s : FsState) : FsEvent → Prop
  | .create _ key _ => ∀ id wr, s.writers id = some wr → wr.key ≠ key
  | _ => True

/-- The keys of the event are in use. -/
def FsEvent.uses (K : Set ByteCacheKey) : FsEvent → Prop
  | .create _ key _ => key ∈ K
  | _ => True

/-- One step of a run over the keys `K`. -/
def FsStep (K : Set ByteCacheKey) (s s' : FsState) : Prop :=
  ∃ e : FsEvent, e.uses K ∧ s.step fileName e = some s'

/-- One step of a run that meets the condition. -/
def ExclusiveStep (K : Set ByteCacheKey) (s s' : FsState) : Prop :=
  ∃ e : FsEvent, e.uses K ∧ Exclusive s e ∧ s.step fileName e = some s'

/-- Every `get` returns nothing or the data of a completed put of its key. -/
def AllComplete (K : Set ByteCacheKey) (s : FsState) : Prop :=
  ∀ key ∈ K, ∀ data, s.get fileName key = some data → (key, data) ∈ s.completed

/-! ### The invariant of exclusive runs -/

/-- Each put in progress has its `.tmp` file to itself, with the bytes it has written; the `.bin`
files are finished. -/
structure FsInv (K : Set ByteCacheKey) (s : FsState) : Prop where
  inUse : ∀ id wr, s.writers id = some wr → wr.key ∈ K
  alone : ∀ id id' wr wr', s.writers id = some wr → s.writers id' = some wr' →
    wr.key = wr'.key → id = id'
  within : ∀ id wr, s.writers id = some wr → wr.offset ≤ wr.data.length
  linked : ∀ id wr, s.writers id = some wr → s.dir (.tmp (fileName wr.key)) = some wr.handle
  written : ∀ id wr, s.writers id = some wr → s.content wr.handle = wr.data.take wr.offset
  allocated : ∀ name i, s.dir name = some i → i < s.nextInode
  oneName : ∀ name name' i, s.dir name = some i → s.dir name' = some i → name = name'
  finished : ∀ key ∈ K, ∀ i, s.dir (.bin (fileName key)) = some i →
    (key, s.content i) ∈ s.completed

end

section

variable {fileName : ByteCacheKey → String} {K : Set ByteCacheKey}

theorem fsInv_init : FsInv fileName K .init where
  inUse _ _ h := by cases h
  alone _ _ _ _ h := by cases h
  within _ _ h := by cases h
  linked _ _ h := by cases h
  written _ _ h := by cases h
  allocated _ _ h := by cases h
  oneName _ _ _ h := by cases h
  finished _ _ _ h := by cases h

/-- The invariant is all that a `get` needs. -/
theorem FsInv.allComplete {s : FsState} (h : FsInv fileName K s) : AllComplete fileName K s := by
  intro key hkey data hget
  obtain ⟨i, hi, rfl⟩ := Option.map_eq_some_iff.mp hget
  exact h.finished key hkey i hi

/-- Writing to the end of what is there appends. -/
theorem overwrite_take (data : Bytes) {offset : ℕ} (h : offset ≤ data.length) (count : ℕ) :
    overwrite (data.take offset) offset ((data.drop offset).take count) =
      data.take (offset + ((data.drop offset).take count).length) := by
  have hlen : (data.take offset).length = offset := by
    rw [List.length_take]
    omega
  have hpad : (data.take offset ++ List.replicate (offset - (data.take offset).length) 0).take offset =
      data.take offset := by
    rw [hlen, Nat.sub_self, List.replicate_zero, List.append_nil, List.take_of_length_le hlen.le]
  have hrest : (data.take offset).drop (offset + ((data.drop offset).take count).length) = [] := by
    rw [List.drop_eq_nil_iff, hlen]
    omega
  rw [overwrite, hpad, hrest, List.append_nil, List.take_add]
  congr 1
  rw [List.take_eq_take_min]
  congr 1
  rw [List.length_take]
  omega

/-- A put of another key has another inode open. -/
theorem FsInv.handle_ne {s : FsState} (h : FsInv fileName K s) (hinj : Set.InjOn fileName K)
    {id : ℕ} {wr : Writer} (hwr : s.writers id = some wr) {key : ByteCacheKey} (hkey : key ∈ K)
    (hne : wr.key ≠ key) {i : ℕ} (hi : s.dir (.tmp (fileName key)) = some i) : wr.handle ≠ i := by
  intro heq
  subst heq
  have hname := h.oneName _ _ _ (h.linked id wr hwr) hi
  exact hne (hinj (h.inUse id wr hwr) hkey (FileName.tmp.inj hname))

/-- Reading an updated table. -/
theorem update_eq_some {α β : Type} [DecidableEq α] {f : α → Option β} {a b : α} {v : Option β}
    {y : β} (h : Function.update f a v b = some y) :
    (b = a ∧ v = some y) ∨ (b ≠ a ∧ f b = some y) := by
  by_cases hb : b = a
  · subst hb
    rw [Function.update_self] at h
    exact .inl ⟨rfl, h⟩
  · rw [Function.update_of_ne hb] at h
    exact .inr ⟨hb, h⟩

/-- What holds of the new entry and of the others holds of every entry of an updated table. -/
theorem forall_update {α β : Type} [DecidableEq α] {f : α → Option β} {a : α} {v : β}
    {P : α → β → Prop} (hv : P a v) (hf : ∀ b y, b ≠ a → f b = some y → P b y) :
    ∀ b y, Function.update f a (some v) b = some y → P b y := by
  intro b y h
  rcases update_eq_some h with ⟨rfl, hnew⟩ | ⟨hb, hold⟩
  · rw [← Option.some.inj hnew]
    exact hv
  · exact hf b y hb hold

/-- Ending a put without a rename. -/
theorem FsInv.abandon {s : FsState} (h : FsInv fileName K s) (id : ℕ) :
    FsInv fileName K { s with writers := Function.update s.writers id none } := by
  have hold : ∀ {id' wr}, Function.update s.writers id none id' = some wr →
      s.writers id' = some wr := by
    intro id' wr hwr
    rcases update_eq_some hwr with ⟨-, hwr⟩ | ⟨-, hwr⟩
    · cases hwr
    · exact hwr
  exact
    { inUse := fun id' wr hwr => h.inUse id' wr (hold hwr)
      alone := fun id₁ id₂ wr wr' h₁ h₂ => h.alone id₁ id₂ wr wr' (hold h₁) (hold h₂)
      within := fun id' wr hwr => h.within id' wr (hold hwr)
      linked := fun id' wr hwr => h.linked id' wr (hold hwr)
      written := fun id' wr hwr => h.written id' wr (hold hwr)
      allocated := h.allocated
      oneName := h.oneName
      finished := h.finished }

/-- A new put: the shape of the state after `create`, whichever inode `i` it got.  The directory has
grown by at most the `.tmp` name of the key, and no other put and no `.bin` file uses `i`. -/
theorem FsInv.start {s : FsState} (h : FsInv fileName K s) {id i : ℕ} {key : ByteCacheKey}
    {data : Bytes} (hkey : key ∈ K) (hexcl : ∀ id wr, s.writers id = some wr → wr.key ≠ key)
    {dir : FileName → Option ℕ} {nextInode : ℕ}
    (hi : dir (.tmp (fileName key)) = some i)
    (hdir : ∀ name j, dir name = some j → s.dir name = some j ∨ (name = .tmp (fileName key) ∧ j = i))
    (hkeep : ∀ name j, s.dir name = some j → dir name = some j)
    (halloc : ∀ name j, dir name = some j → j < nextInode)
    (hone : ∀ name name' j, dir name = some j → dir name' = some j → name = name')
    (hother : ∀ id wr, s.writers id = some wr → wr.handle ≠ i) :
    FsInv fileName K
      { s with
        dir := dir
        content := Function.update s.content i []
        nextInode := nextInode
        writers := Function.update s.writers id (some ⟨key, data, i, 0⟩) } := by
  constructor
  · exact forall_update hkey fun id' wr _ hwr => h.inUse id' wr hwr
  · intro id₁ id₂ wr wr' h₁ h₂ heq
    rcases update_eq_some h₁ with ⟨rfl, e₁⟩ | ⟨-, e₁⟩ <;>
      rcases update_eq_some h₂ with ⟨rfl, e₂⟩ | ⟨-, e₂⟩
    · rfl
    · obtain rfl := Option.some.inj e₁
      exact absurd heq.symm (hexcl id₂ wr' e₂)
    · obtain rfl := Option.some.inj e₂
      exact absurd heq (hexcl id₁ wr e₁)
    · exact h.alone id₁ id₂ wr wr' e₁ e₂ heq
  · exact forall_update (Nat.zero_le _) fun id' wr _ hwr => h.within id' wr hwr
  · exact forall_update hi fun id' wr _ hwr => hkeep _ _ (h.linked id' wr hwr)
  · refine forall_update (Function.update_self ..) ?_
    intro id' wr _ hwr
    show Function.update s.content i [] wr.handle = _
    rw [Function.update_of_ne (hother id' wr hwr)]
    exact h.written id' wr hwr
  · exact halloc
  · exact hone
  · intro key' hkey' j hj
    rcases hdir _ j hj with hold | ⟨hname, -⟩
    · have hne : j ≠ i := by
        rintro rfl
        cases hone _ _ _ hj hi
      show (key', Function.update s.content i [] j) ∈ s.completed
      rw [Function.update_of_ne hne]
      exact h.finished key' hkey' j hold
    · cases hname

/-- **Creating the `.tmp` file**, with no other put of the key in progress. -/
theorem FsInv.create {s : FsState} (h : FsInv fileName K s) (hinj : Set.InjOn fileName K) {id : ℕ}
    {key : ByteCacheKey} {data : Bytes} (hkey : key ∈ K)
    (hexcl : ∀ id wr, s.writers id = some wr → wr.key ≠ key) :
    FsInv fileName K (s.create fileName id key data) := by
  unfold FsState.create
  split
  · -- the file is there, left behind by a writer that failed
    rename_i i hi
    refine h.start hkey hexcl hi ?_ (fun _ _ hj => hj) h.allocated h.oneName ?_
    · intro name j hj
      exact .inl hj
    · intro id' wr hwr
      exact h.handle_ne hinj hwr hkey (hexcl id' wr hwr) hi
  · rename_i hnone
    refine h.start hkey hexcl (Function.update_self ..) ?_ ?_ ?_ ?_ ?_
    · intro name j hj
      rcases update_eq_some hj with ⟨rfl, e⟩ | ⟨-, e⟩
      · exact .inr ⟨rfl, (Option.some.inj e).symm⟩
      · exact .inl e
    · intro name j hj
      have hne : name ≠ .tmp (fileName key) := by
        rintro rfl
        rw [hnone] at hj
        cases hj
      rw [Function.update_of_ne hne]
      exact hj
    · intro name j hj
      rcases update_eq_some hj with ⟨-, hj⟩ | ⟨-, hj⟩
      · rw [← Option.some.inj hj]
        exact Nat.lt_succ_self _
      · exact Nat.lt_succ_of_lt (h.allocated name j hj)
    · intro name name' j hj hj'
      rcases update_eq_some hj with ⟨rfl, e⟩ | ⟨-, e⟩ <;>
        rcases update_eq_some hj' with ⟨rfl, e'⟩ | ⟨-, e'⟩
      · rfl
      · obtain rfl := Option.some.inj e
        exact absurd (h.allocated _ _ e') (Nat.lt_irrefl _)
      · obtain rfl := Option.some.inj e'
        exact absurd (h.allocated _ _ e) (Nat.lt_irrefl _)
      · exact h.oneName name name' j e e'
    · intro id' wr hwr
      exact (h.allocated _ _ (h.linked id' wr hwr)).ne

/-- **Writing a piece.** -/
theorem FsInv.write {s : FsState} (h : FsInv fileName K s) (hinj : Set.InjOn fileName K) {id : ℕ}
    {wr : Writer} (hwr : s.writers id = some wr) (count : ℕ) :
    FsInv fileName K (s.write id wr count) := by
  have hlink := h.linked id wr hwr
  have hother : ∀ {id' wr'}, id' ≠ id → s.writers id' = some wr' → wr'.handle ≠ wr.handle := by
    intro id' wr' hid hwr'
    refine h.handle_ne hinj hwr' (h.inUse id wr hwr) ?_ hlink
    intro hkey
    exact hid (h.alone id' id wr' wr hwr' hwr hkey)
  constructor
  · exact forall_update (h.inUse id wr hwr) fun id' wr' _ hwr' => h.inUse id' wr' hwr'
  · intro id₁ id₂ wr₁ wr₂ h₁ h₂ heq
    rcases update_eq_some h₁ with ⟨rfl, e₁⟩ | ⟨-, e₁⟩ <;>
      rcases update_eq_some h₂ with ⟨rfl, e₂⟩ | ⟨-, e₂⟩
    · rfl
    · obtain rfl := Option.some.inj e₁
      exact h.alone _ _ wr wr₂ hwr e₂ heq
    · obtain rfl := Option.some.inj e₂
      exact h.alone _ _ wr₁ wr e₁ hwr heq
    · exact h.alone id₁ id₂ wr₁ wr₂ e₁ e₂ heq
  · refine forall_update ?_ fun id' wr' _ hwr' => h.within id' wr' hwr'
    have hle := h.within id wr hwr
    simp only [List.length_take, List.length_drop]
    omega
  · exact forall_update hlink fun id' wr' _ hwr' => h.linked id' wr' hwr'
  · refine forall_update ?_ ?_
    · show Function.update s.content wr.handle _ wr.handle = _
      rw [Function.update_self, h.written id wr hwr]
      exact overwrite_take wr.data (h.within id wr hwr) count
    · intro id' wr' hid hwr'
      show Function.update s.content wr.handle _ wr'.handle = _
      rw [Function.update_of_ne (hother hid hwr')]
      exact h.written id' wr' hwr'
  · exact h.allocated
  · exact h.oneName
  · intro key hkey i hi
    have hne : i ≠ wr.handle := by
      rintro rfl
      cases h.oneName _ _ _ hi hlink
    show (key, Function.update s.content wr.handle _ i) ∈ s.completed
    rw [Function.update_of_ne hne]
    exact h.finished key hkey i hi

/-- **Renaming `.tmp` to `.bin`** once everything is written. -/
theorem FsInv.rename {s : FsState} (h : FsInv fileName K s) (hinj : Set.InjOn fileName K) {id : ℕ}
    {wr : Writer} (hwr : s.writers id = some wr) (hdone : wr.offset = wr.data.length) :
    FsInv fileName K (s.rename fileName id wr) := by
  have hlink := h.linked id wr hwr
  have hdata : s.content wr.handle = wr.data := by
    rw [h.written id wr hwr, hdone, List.take_length]
  have hold : ∀ {id' wr'}, Function.update s.writers id none id' = some wr' →
      id' ≠ id ∧ s.writers id' = some wr' := by
    intro id' wr' hwr'
    rcases update_eq_some hwr' with ⟨-, hwr'⟩ | ⟨hid, hwr'⟩
    · cases hwr'
    · exact ⟨hid, hwr'⟩
  -- the new directory: `.bin` has the inode, `.tmp` is gone, the rest is as before
  have hdir : ∀ {name j}, (s.rename fileName id wr).dir name = some j →
      (name = .bin (fileName wr.key) ∧ j = wr.handle) ∨
        (name ≠ .tmp (fileName wr.key) ∧ name ≠ .bin (fileName wr.key) ∧ s.dir name = some j) := by
    intro name j hj
    simp only [FsState.rename, hlink] at hj
    rcases update_eq_some hj with ⟨-, hj⟩ | ⟨htmp, hj⟩
    · cases hj
    · rcases update_eq_some hj with ⟨hbin, hj⟩ | ⟨hbin, hj⟩
      · exact .inl ⟨hbin, (Option.some.inj hj).symm⟩
      · exact .inr ⟨htmp, hbin, hj⟩
  constructor
  · exact fun id' wr' hwr' => h.inUse id' wr' (hold hwr').2
  · exact fun id₁ id₂ wr₁ wr₂ h₁ h₂ => h.alone id₁ id₂ wr₁ wr₂ (hold h₁).2 (hold h₂).2
  · exact fun id' wr' hwr' => h.within id' wr' (hold hwr').2
  · intro id' wr' hwr'
    obtain ⟨hid, hwr'⟩ := hold hwr'
    have hkey : wr'.key ≠ wr.key := fun heq => hid (h.alone id' id wr' wr hwr' hwr heq)
    have hname : FileName.tmp (fileName wr'.key) ≠ .tmp (fileName wr.key) := by
      intro heq
      exact hkey (hinj (h.inUse id' wr' hwr') (h.inUse id wr hwr) (FileName.tmp.inj heq))
    simp only [FsState.rename, hlink]
    rw [Function.update_of_ne hname, Function.update_of_ne (by rintro ⟨⟩)]
    exact h.linked id' wr' hwr'
  · exact fun id' wr' hwr' => h.written id' wr' (hold hwr').2
  · intro name j hj
    rcases hdir hj with ⟨-, rfl⟩ | ⟨-, -, hj⟩
    · exact h.allocated _ _ hlink
    · exact h.allocated name j hj
  · intro name name' j hj hj'
    rcases hdir hj with ⟨rfl, rfl⟩ | ⟨htmp, -, hj⟩ <;>
      rcases hdir hj' with ⟨rfl, hjw⟩ | ⟨htmp', -, hj'⟩
    · rfl
    · exact absurd (h.oneName _ _ _ hj' hlink) htmp'
    · subst hjw
      exact absurd (h.oneName _ _ _ hj hlink) htmp
    · exact h.oneName name name' j hj hj'
  · intro key hkey i hi
    show (key, s.content i) ∈ (wr.key, wr.data) :: s.completed
    rcases hdir hi with ⟨hname, rfl⟩ | ⟨-, -, hi⟩
    · obtain rfl := hinj hkey (h.inUse id wr hwr) (FileName.bin.inj hname)
      rw [hdata]
      exact List.mem_cons_self
    · exact List.mem_cons_of_mem _ (h.finished key hkey i hi)

/-- Every step of an exclusive run keeps the invariant. -/
theorem FsInv.step {s s' : FsState} (h : FsInv fileName K s) (hinj : Set.InjOn fileName K)
    {e : FsEvent} (huse : e.uses K) (hexcl : Exclusive s e) (hs : s.step fileName e = some s') :
    FsInv fileName K s' := by
  cases e with
  | create id key data =>
      simp only [FsState.step] at hs
      split at hs
      · cases hs
      · obtain rfl := Option.some.inj hs
        exact h.create hinj huse hexcl
  | write id count =>
      obtain ⟨wr, hwr, rfl⟩ := Option.map_eq_some_iff.mp hs
      exact h.write hinj hwr count
  | rename id =>
      simp only [FsState.step] at hs
      split at hs
      · rename_i wr hwr
        split at hs
        · rename_i hdone
          obtain rfl := Option.some.inj hs
          exact h.rename hinj hwr hdone
        · cases hs
      · cases hs
  | abandon id =>
      obtain rfl := Option.some.inj hs
      exact h.abandon id

/-- **Atomic puts.**  In every run in which a put creates its `.tmp` file only while no other put of
the key is in progress, every `get` returns nothing or the data of one completed put of its key. -/
theorem allComplete_of_exclusive (hinj : Set.InjOn fileName K) {s : FsState}
    (hrun : Relation.ReflTransGen (ExclusiveStep fileName K) .init s) :
    AllComplete fileName K s := by
  have hinv : FsInv fileName K s := by
    induction hrun with
    | refl => exact fsInv_init
    | tail _ hstep ih =>
        obtain ⟨e, huse, hexcl, hs⟩ := hstep
        exact ih.step hinj huse hexcl hs
  exact hinv.allComplete

end

/-- The key of a manifest of two bytes. -/
def manifestKey : ByteCacheKey := ⟨"s3://bucket/manifest.avro", ⟨0, 2⟩, 7⟩

/-- The file name of the only key in use. -/
def manifestName (_ : ByteCacheKey) : String := "00000000000000a7"

/-- A put on its own: the file holds its data. -/
theorem allComplete_single_put :
    ∃ s : FsState, AllComplete manifestName {manifestKey} s ∧
      s.get manifestName manifestKey = some [1, 2] := by
  obtain ⟨s, hrun, hget⟩ :
      ∃ s : FsState, Relation.ReflTransGen (ExclusiveStep manifestName {manifestKey}) .init s ∧
        s.get manifestName manifestKey = some [1, 2] := by
    refine ⟨_, .head ⟨.create 0 manifestKey [1, 2], rfl, ?_, rfl⟩ <|
      .head ⟨.write 0 1, trivial, trivial, rfl⟩ <| .head ⟨.write 0 1, trivial, trivial, rfl⟩ <|
      .head ⟨.rename 0, trivial, trivial, rfl⟩ .refl, by decide⟩
    intro id wr hwr
    cases hwr
  exact ⟨s, allComplete_of_exclusive (Set.injOn_singleton _ _) hrun, hget⟩

/-- Two puts of one key: the second truncates the file that the first is about to rename, and a `get`
returns no bytes at all. -/
theorem exists_torn_get :
    ∃ s : FsState, Relation.ReflTransGen (FsStep manifestName {manifestKey}) .init s ∧
      ¬ AllComplete manifestName {manifestKey} s := by
  obtain ⟨s, hrun, hget, hdone⟩ :
      ∃ s : FsState, Relation.ReflTransGen (FsStep manifestName {manifestKey}) .init s ∧
        s.get manifestName manifestKey = some [] ∧ s.completed = [(manifestKey, [1, 2])] :=
    ⟨_, .head ⟨.create 0 manifestKey [1, 2], rfl, rfl⟩ <| .head ⟨.write 0 2, trivial, rfl⟩ <|
      .head ⟨.create 1 manifestKey [1, 2], rfl, rfl⟩ <| .head ⟨.rename 0, trivial, rfl⟩ .refl,
      by decide, rfl⟩
  refine ⟨s, hrun, ?_⟩
  intro hall
  have hmem := hall manifestKey rfl [] hget
  rw [hdone] at hmem
  exact absurd hmem (by decide)

end IcebergDb.Cache
