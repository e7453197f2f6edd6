import IcebergDb.Delete.DeleteFilter
import IcebergDb.Delete.PositionalDeletes
import Mathlib.Data.List.AList
import Mathlib.Tactic.Tauto

/-!
# Loading positional delete files

Any number of load futures parse positional delete files, merge what they find into the shared delete
vectors, file by file and path by path, and tell each other when a file is complete.

* `parsePositionalDeletes` — the vectors of one delete file, and `deletes_parsePositionalDeletes`, what they
  hold;
* `upsertDeleteVector` — a vector joins the shared ones;
* `Step` — a step of a future; the futures interleave;
* `State.Inv` — a file that is marked as loaded is in the vectors as a whole, and nothing else is;
* `rows_of_done` — **when its delete files are done, a scan task reads no row that they name, and it leaves
  out only rows that some delete file names**, whatever the interleaving was.
-/

namespace IcebergDb.Delete.PosDel

open IcebergDb.RunLength

/-! ### One delete file -/

/-- A column of a record batch, as far as the two downcasts tell columns apart. -/
inductive Column where
  | utf8 (values : List (Option String))
  | int64 (values : List (Option ℤ))
  | other

/-- How a load fails: the stream yields an error, a column index is out of range, or the data is refused. -/
inductive LoadError where
  | stream
  | outOfRange
  | dataInvalid (message : String)
deriving DecidableEq

/-- The columns of a record batch. -/
abbrev Batch := List Column

/-- `ArrowRecordBatchStream`. -/
abbrev BatchStream := List (Except LoadError Batch)

/-- `HashMap<String, DeleteVector>`. -/
abbrev Vectors := AList fun _ : String => DeleteVector

/-- `pos as u64` on an `i64`. -/
def asU64 (pos : ℤ) : ℕ := (pos % 2 ^ 64).toNat

/-- `result.entry(file_path).or_default().insert(pos as u64)`. -/
def insertRow (m : Vectors) (path : String) (pos : ℤ) : Vectors :=
  m.insert path (((m.lookup path).getD DeleteVector.empty).insert (asU64 pos)).2

/-- The loop over the rows of a batch. -/
def parseRows : List (Option String × Option ℤ) → Vectors → Except LoadError Vectors
  | [], m => .ok m
  | (some path, some pos) :: rows, m => parseRows rows (insertRow m path pos)
  | _ :: _, _ => .error (.dataInvalid "null values in delete file")

/-- One batch. -/
def parseBatch (b : Batch) (m : Vectors) : Except LoadError Vectors :=
  match (b[0]? : Option Column) with
  | none => .error .outOfRange
  | some (.utf8 paths) =>
      match (b[1]? : Option Column) with
      | none => .error .outOfRange
      | some (.int64 positions) => parseRows (paths.zip positions) m
      | some _ => .error (.dataInvalid "Could not downcast positions array to Int64Array")
  | some _ => .error (.dataInvalid "Could not downcast file paths array to StringArray")

/-- The loop over the batches. -/
def parseStream : BatchStream → Vectors → Except LoadError Vectors
  | [], m => .ok m
  | .error e :: _, _ => .error e
  | .ok b :: stream, m => (parseBatch b m).bind (parseStream stream)

/-- `parse_positional_deletes_record_batch_stream`. -/
def parsePositionalDeletes (stream : BatchStream) : Except LoadError Vectors := parseStream stream ∅

/-- The vectors have the position of the file set. -/
def Deletes (m : Vectors) (path : String) (p : ℕ) : Prop := ∃ v ∈ m.lookup path, p ∈ v.positions

/-- A batch has a row with the path and the position. -/
def BatchNames (b : Batch) (path : String) (p : ℕ) : Prop :=
  ∃ paths positions pos, (b[0]? : Option Column) = some (.utf8 paths) ∧
    (b[1]? : Option Column) = some (.int64 positions) ∧
    (some path, some pos) ∈ paths.zip positions ∧ asU64 pos = p

/-- **A delete file names a row.** -/
def Names (stream : BatchStream) (path : String) (p : ℕ) : Prop := ∃ b, .ok b ∈ stream ∧ BatchNames b path p

section

variable {m m' : Vectors} {path q : String} {p : ℕ} {stream : BatchStream}

theorem deletes_insert {v : DeleteVector} :
    Deletes (m.insert path v) q p ↔ q = path ∧ p ∈ v.positions ∨ q ≠ path ∧ Deletes m q p := by
  by_cases hq : q = path
  · subst hq
    simp [Deletes, AList.lookup_insert]
  · simp [Deletes, AList.lookup_insert_ne hq, hq]

theorem deletes_insertRow {pos : ℤ} :
    Deletes (insertRow m path pos) q p ↔ q = path ∧ p = asU64 pos ∨ Deletes m q p := by
  rw [insertRow, deletes_insert, DeleteVector.mem_insert]
  by_cases hq : q = path
  · subst hq
    cases hlookup : m.lookup q with
    | none => simp [Deletes, hlookup, DeleteVector.empty]
    | some v => simp [Deletes, hlookup]
  · simp [hq]

theorem deletes_parseRows {rows : List (Option String × Option ℤ)} (h : parseRows rows m = .ok m') :
    Deletes m' q p ↔ (∃ pos, (some q, some pos) ∈ rows ∧ asU64 pos = p) ∨ Deletes m q p := by
  induction rows generalizing m with
  | nil =>
      obtain rfl : m = m' := Except.ok.inj h
      simp
  | cons row rows ih =>
      rcases row with ⟨_ | path, _ | pos⟩
      · cases h
      · cases h
      · cases h
      · have hrest := ih (m := insertRow m path pos) h
        rw [hrest, deletes_insertRow]
        constructor
        · rintro (⟨pos', hmem, hp⟩ | ⟨rfl, rfl⟩ | hm)
          · exact .inl ⟨pos', List.mem_cons_of_mem _ hmem, hp⟩
          · exact .inl ⟨pos, List.mem_cons_self, rfl⟩
          · exact .inr hm
        · rintro (⟨pos', hmem, hp⟩ | hm)
          · rcases List.mem_cons.mp hmem with heq | hmem
            · obtain ⟨rfl, rfl⟩ : q = path ∧ pos' = pos := by simpa using heq
              exact .inr (.inl ⟨rfl, hp.symm⟩)
            · exact .inl ⟨pos', hmem, hp⟩
          · exact .inr (.inr hm)

theorem deletes_parseBatch {b : Batch} (h : parseBatch b m = .ok m') :
    Deletes m' q p ↔ BatchNames b q p ∨ Deletes m q p := by
  unfold parseBatch at h
  split at h
  · cases h
  · rename_i paths hpaths
    split at h
    · cases h
    · rename_i positions hpositions
      rw [deletes_parseRows h]
      refine or_congr_left ?_
      constructor
      · rintro ⟨pos, hmem, hp⟩
        exact ⟨paths, positions, pos, hpaths, hpositions, hmem, hp⟩
      · rintro ⟨paths', positions', pos, hpaths', hpositions', hmem, hp⟩
        rw [hpaths] at hpaths'
        rw [hpositions] at hpositions'
        cases hpaths'
        cases hpositions'
        exact ⟨pos, hmem, hp⟩
    · cases h
  · cases h

theorem deletes_parseStream (h : parseStream stream m = .ok m') :
    Deletes m' q p ↔ Names stream q p ∨ Deletes m q p := by
  induction stream generalizing m with
  | nil =>
      obtain rfl : m = m' := Except.ok.inj h
      simp [Names]
  | cons item stream ih =>
      cases item with
      | error e => cases h
      | ok b =>
          unfold parseStream at h
          cases hb : parseBatch b m with
          | error e =>
              rw [hb] at h
              cases h
          | ok m₁ =>
              rw [hb] at h
              rw [ih h, deletes_parseBatch hb]
              have hcons : Names (.ok b :: stream) q p ↔ BatchNames b q p ∨ Names stream q p := by
                simp [Names, or_and_right, exists_or]
              rw [hcons]
              tauto

/-- **What parsing a delete file yields**: its vectors have exactly the positions set that it names. -/
theorem deletes_parsePositionalDeletes (h : parsePositionalDeletes stream = .ok m') :
    Deletes m' q p ↔ Names stream q p := by
  rw [deletes_parseStream h]
  simp [Deletes]

end

/-! ### The shared vectors -/

/-- `upsert_delete_vector`. -/
def upsertDeleteVector (m : Vectors) (path : String) (v : DeleteVector) : Vectors :=
  match m.lookup path with
  | none => m.insert path v
  | some entry => m.insert path (entry.bitOrAssign v)

theorem deletes_upsertDeleteVector {m : Vectors} {path q : String} {v : DeleteVector} {p : ℕ} :
    Deletes (upsertDeleteVector m path v) q p ↔ q = path ∧ p ∈ v.positions ∨ Deletes m q p := by
  unfold upsertDeleteVector
  split
  · rename_i hlookup
    rw [deletes_insert]
    by_cases hq : q = path
    · subst hq
      simp [Deletes, hlookup]
    · simp [hq]
  · rename_i entry hlookup
    rw [deletes_insert, DeleteVector.mem_bitOrAssign]
    by_cases hq : q = path
    · subst hq
      simp [Deletes, hlookup]
    · simp [hq]

/-! ### The futures -/

/-- Where a load future stands.  `pending` is what it still has to merge, in the order of the hash map. -/
inductive Phase where
  | idle
  | loading
  | parsed (pending : List (Sigma fun _ : String => DeleteVector))
  | waiting (notifier : ℕ)
  | done
  | failed

/-- The delete filter with its vectors, the notifiers that have fired, and the futures. -/
structure State (π : Type) where
  filter : DeleteFilter String π
  vectors : Vectors
  fired : List ℕ
  phase : ℕ → Phase

variable {π : Type}

/-- An empty filter, before any future has run. -/
def State.init : State π where
  filter := ⟨fun _ => none, 0⟩
  vectors := ∅
  fired := []
  phase := fun _ => .idle

/-- Future `a` goes on to `p`. -/
def State.goto (s : State π) (a : ℕ) (p : Phase) : State π :=
  { s with phase := Function.update s.phase a p }

section

variable (file : ℕ → String) (content : String → BatchStream)

/-- A step of future `a`, which has the delete file `file a`.  A waiting future goes on at some time after
its notifier has fired; that only those wake up which were registered by then is left open. -/
inductive Step (s : State π) : State π → Prop where
  | load (a : ℕ) (F : DeleteFilter String π) (h : s.phase a = .idle)
      (hstart : s.filter.tryStartPosDelLoad (file a) = (.load, F)) :
      Step s (State.goto { s with filter := F } a .loading)
  | alreadyLoaded (a : ℕ) (F : DeleteFilter String π) (h : s.phase a = .idle)
      (hstart : s.filter.tryStartPosDelLoad (file a) = (.alreadyLoaded, F)) :
      Step s (State.goto { s with filter := F } a .done)
  | waitFor (a n : ℕ) (F : DeleteFilter String π) (h : s.phase a = .idle)
      (hstart : s.filter.tryStartPosDelLoad (file a) = (.waitFor n, F)) :
      Step s (State.goto { s with filter := F } a (.waiting n))
  | parse (a : ℕ) (m : Vectors) (h : s.phase a = .loading)
      (hparse : parsePositionalDeletes (content (file a)) = .ok m) :
      Step s (s.goto a (.parsed m.entries))
  /-- An error, or the future is dropped because another one of its stream failed. -/
  | fail (a : ℕ) (h : s.phase a ≠ .idle) (hdone : s.phase a ≠ .done) : Step s (s.goto a .failed)
  | upsert (a : ℕ) (before after : List (Sigma fun _ : String => DeleteVector)) (path : String)
      (v : DeleteVector) (h : s.phase a = .parsed (before ++ ⟨path, v⟩ :: after)) :
      Step s (State.goto { s with vectors := upsertDeleteVector s.vectors path v } a
        (.parsed (before ++ after)))
  | finish (a : ℕ) (h : s.phase a = .parsed []) :
      Step s (State.goto { s with
        filter := (s.filter.finishPosDelLoad (file a)).2
        fired := (s.filter.finishPosDelLoad (file a)).1.toList ++ s.fired } a .done)
  | wake (a n : ℕ) (h : s.phase a = .waiting n) (hfired : n ∈ s.fired) : Step s (s.goto a .done)

/-- What every run keeps. -/
structure State.Inv (s : State π) : Prop where
  /-- A file that is marked as loaded has all its rows in the vectors. -/
  loaded : ∀ path v, s.filter.entry ⟨.position, path⟩ = some (.loaded v) →
    ∀ q p, Names (content path) q p → Deletes s.vectors q p
  /-- A file that is being merged has its rows in the vectors or in what is pending. -/
  parsed : ∀ a pending, s.phase a = .parsed pending → ∀ q p, Names (content (file a)) q p →
    Deletes s.vectors q p ∨ ∃ e ∈ pending, e.1 = q ∧ p ∈ e.2.positions
  pending : ∀ a pending, s.phase a = .parsed pending → ∀ e ∈ pending, ∀ p ∈ e.2.positions,
    Names (content (file a)) e.1 p
  /-- The vectors hold nothing else. -/
  origin : ∀ q p, Deletes s.vectors q p → ∃ a, s.phase a ≠ .idle ∧ Names (content (file a)) q p
  done : ∀ a, s.phase a = .done → ∃ v, s.filter.entry ⟨.position, file a⟩ = some (.loaded v)
  waiting : ∀ a n, s.phase a = .waiting n →
    (∃ v, s.filter.entry ⟨.position, file a⟩ = some (.loaded v)) ∨
      s.filter.entry ⟨.position, file a⟩ = some (.loading n)
  alone : ∀ k k' n, s.filter.entry k = some (.loading n) → s.filter.entry k' = some (.loading n) → k = k'
  entryLt : ∀ k n, s.filter.entry k = some (.loading n) → n < s.filter.fresh
  firedLt : ∀ n ∈ s.fired, n < s.filter.fresh
  quiet : ∀ k n, s.filter.entry k = some (.loading n) → n ∉ s.fired

variable {file content} {s t : State π} {a : ℕ} {p : Phase}

theorem State.inv_init : (State.init : State π).Inv file content where
  loaded := by intro path v h; cases h
  parsed := by intro a pending h; cases h
  pending := by intro a pending h; cases h
  origin := by rintro q p ⟨v, hv, hp⟩; cases hv
  done := by intro a h; cases h
  waiting := by intro a n h; cases h
  alone := by intro k k' n h; cases h
  entryLt := by intro k n h; cases h
  firedLt := by intro n h; cases h
  quiet := by intro k n h; cases h

/-- In a new phase a future needs what the phase promises; the others are where they were. -/
theorem State.Inv.goto (h : s.Inv file content) (hidle : p ≠ .idle)
    (hparsed : ∀ pending, p = .parsed pending →
      (∀ q r, Names (content (file a)) q r →
        Deletes s.vectors q r ∨ ∃ e ∈ pending, e.1 = q ∧ r ∈ e.2.positions) ∧
      ∀ e ∈ pending, ∀ r ∈ e.2.positions, Names (content (file a)) e.1 r)
    (hdone : p = .done → ∃ v, s.filter.entry ⟨.position, file a⟩ = some (.loaded v))
    (hwaiting : ∀ n, p = .waiting n → (∃ v, s.filter.entry ⟨.position, file a⟩ = some (.loaded v)) ∨
      s.filter.entry ⟨.position, file a⟩ = some (.loading n)) :
    (s.goto a p).Inv file content := by
  have hself : (s.goto a p).phase a = p := by simp [State.goto]
  have hother : ∀ b, b ≠ a → (s.goto a p).phase b = s.phase b := fun b hb => by simp [State.goto, hb]
  refine ⟨h.loaded, ?_, ?_, ?_, ?_, ?_, h.alone, h.entryLt, h.firedLt, h.quiet⟩
  · intro b pending hb
    by_cases hba : b = a
    · subst hba
      exact (hparsed pending (hself.symm.trans hb)).1
    · exact h.parsed b pending ((hother b hba).symm.trans hb)
  · intro b pending hb
    by_cases hba : b = a
    · subst hba
      exact (hparsed pending (hself.symm.trans hb)).2
    · exact h.pending b pending ((hother b hba).symm.trans hb)
  · intro q r hr
    obtain ⟨b, hb, hnames⟩ := h.origin q r hr
    refine ⟨b, ?_, hnames⟩
    by_cases hba : b = a
    · subst hba
      rwa [hself]
    · rwa [hother b hba]
  · intro b hb
    by_cases hba : b = a
    · subst hba
      exact hdone (hself.symm.trans hb)
    · exact h.done b ((hother b hba).symm.trans hb)
  · intro b n hb
    by_cases hba : b = a
    · subst hba
      exact hwaiting n (hself.symm.trans hb)
    · exact h.waiting b n ((hother b hba).symm.trans hb)

/-- A file is marked as loading. -/
theorem State.Inv.markLoading (h : s.Inv file content) {path : String}
    (hentry : s.filter.entry ⟨.position, path⟩ = none) :
    State.Inv file content { s with filter := s.filter.markLoading ⟨.position, path⟩ } := by
  have hloaded : ∀ k v, (s.filter.markLoading ⟨.position, path⟩).entry k = some (.loaded v) ↔
      s.filter.entry k = some (.loaded v) := by
    intro k v
    by_cases hk : k = ⟨.position, path⟩
    · subst hk
      rw [hentry]
      simp [DeleteFilter.markLoading]
    · rw [DeleteFilter.markLoading_of_ne s.filter hk]
  have hloading : ∀ k n, (s.filter.markLoading ⟨.position, path⟩).entry k = some (.loading n) ↔
      k = ⟨.position, path⟩ ∧ n = s.filter.fresh ∨ s.filter.entry k = some (.loading n) := by
    intro k n
    by_cases hk : k = ⟨.position, path⟩
    · subst hk
      rw [hentry]
      simp [DeleteFilter.markLoading, eq_comm]
    · rw [DeleteFilter.markLoading_of_ne s.filter hk]
      simp [hk]
  refine ⟨fun q v hq => h.loaded q v ((hloaded _ v).mp hq), h.parsed, h.pending, h.origin, ?_, ?_, ?_, ?_,
    ?_, ?_⟩
  · intro b hb
    obtain ⟨v, hv⟩ := h.done b hb
    exact ⟨v, (hloaded _ v).mpr hv⟩
  · intro b n hb
    rcases h.waiting b n hb with ⟨v, hv⟩ | hn
    · exact .inl ⟨v, (hloaded _ v).mpr hv⟩
    · exact .inr ((hloading _ n).mpr (.inr hn))
  · intro k k' n hk hk'
    rcases (hloading k n).mp hk with ⟨rfl, rfl⟩ | hk
    · rcases (hloading k' s.filter.fresh).mp hk' with ⟨rfl, -⟩ | hk'
      · rfl
      · exact absurd (h.entryLt k' _ hk') (lt_irrefl _)
    · rcases (hloading k' n).mp hk' with ⟨rfl, rfl⟩ | hk'
      · exact absurd (h.entryLt k _ hk) (lt_irrefl _)
      · exact h.alone k k' n hk hk'
  · intro k n hk
    show n < s.filter.fresh + 1
    rcases (hloading k n).mp hk with ⟨-, rfl⟩ | hk
    · omega
    · exact (h.entryLt k n hk).trans (Nat.lt_succ_self _)
  · intro n hn
    exact (h.firedLt n hn).trans (Nat.lt_succ_self _)
  · intro k n hk hn
    rcases (hloading k n).mp hk with ⟨-, rfl⟩ | hk
    · exact absurd (h.firedLt _ hn) (lt_irrefl _)
    · exact h.quiet k n hk hn

/-- A file is marked as loaded when all its rows are in the vectors. -/
theorem State.Inv.finish (h : s.Inv file content) {path : String}
    (hnames : ∀ q r, Names (content path) q r → Deletes s.vectors q r) :
    State.Inv file content { s with
      filter := (s.filter.finishPosDelLoad path).2
      fired := (s.filter.finishPosDelLoad path).1.toList ++ s.fired } := by
  have hself : (s.filter.finishPosDelLoad path).2.entry ⟨.position, path⟩ = some (.loaded none) :=
    Function.update_self _ _ _
  have hother : ∀ k, k ≠ ⟨.position, path⟩ →
      (s.filter.finishPosDelLoad path).2.entry k = s.filter.entry k :=
    fun k hk => Function.update_of_ne hk _ _
  have hloading : ∀ k n, (s.filter.finishPosDelLoad path).2.entry k = some (.loading n) →
      k ≠ ⟨.position, path⟩ ∧ s.filter.entry k = some (.loading n) := by
    intro k n hk
    by_cases hkey : k = ⟨.position, path⟩
    · rw [hkey, hself] at hk
      cases hk
    · exact ⟨hkey, (hother k hkey).symm.trans hk⟩
  have hfired : ∀ n ∈ (s.filter.finishPosDelLoad path).1.toList ++ s.fired,
      s.filter.entry ⟨.position, path⟩ = some (.loading n) ∨ n ∈ s.fired := by
    intro n hn
    rcases List.mem_append.mp hn with hn | hn
    · left
      unfold DeleteFilter.finishPosDelLoad at hn
      split at hn
      · rename_i notifier hentry
        obtain rfl : n = notifier := by simpa using hn
        exact hentry
      · simp at hn
    · exact .inr hn
  refine ⟨?_, h.parsed, h.pending, h.origin, ?_, ?_, ?_, ?_, ?_, ?_⟩
  · intro q v hq
    by_cases hkey : q = path
    · subst hkey
      exact hnames
    · exact h.loaded q v ((hother _ (by simpa using hkey)).symm.trans hq)
  · intro b hb
    by_cases hkey : file b = path
    · exact ⟨none, by rw [hkey]; exact hself⟩
    · obtain ⟨v, hv⟩ := h.done b hb
      exact ⟨v, (hother _ (by simpa using hkey)).trans hv⟩
  · intro b n hb
    by_cases hkey : file b = path
    · exact .inl ⟨none, by rw [hkey]; exact hself⟩
    · rw [show (s.filter.finishPosDelLoad path).2.entry ⟨.position, file b⟩ = _ from
        hother _ (by simpa using hkey)]
      exact h.waiting b n hb
  · intro k k' n hk hk'
    exact h.alone k k' n (hloading k n hk).2 (hloading k' n hk').2
  · intro k n hk
    exact h.entryLt k n (hloading k n hk).2
  · intro n hn
    rcases hfired n hn with hn | hn
    · exact h.entryLt _ n hn
    · exact h.firedLt n hn
  · intro k n hk hn
    obtain ⟨hne, hk⟩ := hloading k n hk
    rcases hfired n hn with hn | hn
    · exact hne (h.alone k _ n hk hn)
    · exact h.quiet k n hk hn

/-- A pending vector is merged. -/
theorem State.Inv.upsert (h : s.Inv file content) {path : String} {v : DeleteVector} (ha : s.phase a ≠ .idle)
    (hv : ∀ r ∈ v.positions, Names (content (file a)) path r) :
    State.Inv file content { s with vectors := upsertDeleteVector s.vectors path v } := by
  have hkeep : ∀ q r, Deletes s.vectors q r → Deletes (upsertDeleteVector s.vectors path v) q r :=
    fun q r hr => deletes_upsertDeleteVector.mpr (.inr hr)
  refine ⟨?_, ?_, h.pending, ?_, h.done, h.waiting, h.alone, h.entryLt, h.firedLt, h.quiet⟩
  · exact fun q u hq r p hr => hkeep r p (h.loaded q u hq r p hr)
  · exact fun b pending hb q r hr => (h.parsed b pending hb q r hr).imp_left (hkeep q r)
  · intro q r hr
    rcases deletes_upsertDeleteVector.mp hr with ⟨rfl, hmem⟩ | hold
    · exact ⟨a, ha, hv r hmem⟩
    · exact h.origin q r hold

/-- What looking a file up in the filter tells. -/
theorem tryStartPosDelLoad_cases {F F' : DeleteFilter String π} {path : String} {act : PosDelLoadAction}
    (h : F.tryStartPosDelLoad path = (act, F')) :
    (act = .load ∧ F.entry ⟨.position, path⟩ = none ∧ F' = F.markLoading ⟨.position, path⟩) ∨
      (act = .alreadyLoaded ∧ (∃ v, F.entry ⟨.position, path⟩ = some (.loaded v)) ∧ F' = F) ∨
      ∃ n, act = .waitFor n ∧ F.entry ⟨.position, path⟩ = some (.loading n) ∧ F' = F := by
  unfold DeleteFilter.tryStartPosDelLoad at h
  split at h
  · rename_i v hentry
    obtain ⟨rfl, rfl⟩ := Prod.mk.inj h
    exact .inr (.inl ⟨rfl, ⟨v, hentry⟩, rfl⟩)
  · rename_i n hentry
    obtain ⟨rfl, rfl⟩ := Prod.mk.inj h
    exact .inr (.inr ⟨n, rfl, hentry, rfl⟩)
  · rename_i hentry
    obtain ⟨rfl, rfl⟩ := Prod.mk.inj h
    exact .inl ⟨rfl, hentry, rfl⟩

/-- **Every step keeps the invariant.** -/
theorem State.Inv.step (h : s.Inv file content) (hstep : Step file content s t) : t.Inv file content := by
  cases hstep with
  | load a F ha hstart =>
      rcases tryStartPosDelLoad_cases hstart with ⟨-, hentry, rfl⟩ | ⟨hact, -⟩ | ⟨n, hact, -⟩
      · exact (h.markLoading hentry).goto (by simp) (by simp) (by simp) (by simp)
      · cases hact
      · cases hact
  | alreadyLoaded a F ha hstart =>
      rcases tryStartPosDelLoad_cases hstart with ⟨hact, -⟩ | ⟨-, hentry, rfl⟩ | ⟨n, hact, -⟩
      · cases hact
      · exact h.goto (by simp) (by simp) (fun _ => hentry) (by simp)
      · cases hact
  | waitFor a n F ha hstart =>
      rcases tryStartPosDelLoad_cases hstart with ⟨hact, -⟩ | ⟨hact, -⟩ | ⟨m, hact, hentry, rfl⟩
      · cases hact
      · cases hact
      · cases hact
        refine h.goto (by simp) (by simp) (by simp) ?_
        intro m hm
        cases hm
        exact .inr hentry
  | parse a m ha hparse =>
      refine h.goto (by simp) ?_ (by simp) (by simp)
      intro pending hpending
      cases hpending
      constructor
      · intro q r hr
        obtain ⟨v, hv, hmem⟩ := (deletes_parsePositionalDeletes hparse).mpr hr
        exact .inr ⟨⟨q, v⟩, AList.mem_lookup_iff.mp hv, rfl, hmem⟩
      · intro e he r hr
        exact (deletes_parsePositionalDeletes hparse).mp ⟨e.2, AList.mem_lookup_iff.mpr he, hr⟩
  | fail a ha hdone => exact h.goto (by simp) (by simp) (by simp) (by simp)
  | upsert a before after path v ha =>
      have hv := h.pending a _ ha ⟨path, v⟩ (by simp)
      refine (h.upsert (by rw [ha]; simp) hv).goto (by simp) ?_ (by simp) (by simp)
      intro pending hpending
      cases hpending
      constructor
      · intro q r hr
        rcases h.parsed a _ ha q r hr with hold | ⟨e, he, rfl, hmem⟩
        · exact .inl (deletes_upsertDeleteVector.mpr (.inr hold))
        · rcases List.mem_append.mp he with he | he
          · exact .inr ⟨e, List.mem_append_left after he, rfl, hmem⟩
          · rcases List.mem_cons.mp he with rfl | he
            · exact .inl (deletes_upsertDeleteVector.mpr (.inl ⟨rfl, hmem⟩))
            · exact .inr ⟨e, List.mem_append_right before he, rfl, hmem⟩
      · intro e he
        refine h.pending a _ ha e ?_
        rcases List.mem_append.mp he with he | he
        · exact List.mem_append_left _ he
        · exact List.mem_append_right before (List.mem_cons_of_mem _ he)
  | finish a ha =>
      have hnames : ∀ q r, Names (content (file a)) q r → Deletes s.vectors q r := by
        intro q r hr
        exact (h.parsed a [] ha q r hr).resolve_right (by simp)
      exact (h.finish hnames).goto (by simp) (by simp) (fun _ => ⟨none, Function.update_self _ _ _⟩) (by simp)
  | wake a n ha hfired =>
      refine h.goto (by simp) (by simp) (fun _ => ?_) (by simp)
      exact (h.waiting a n ha).resolve_right fun hn => h.quiet _ n hn hfired

/-- ... and so every run. -/
theorem State.inv_of_run (h : Relation.ReflTransGen (Step file content) State.init s) :
    s.Inv file content := by
  induction h with
  | refl => exact State.inv_init
  | tail _ hstep ih => exact ih.step hstep

/-! ### What a scan task reads -/

/-- The rows that `process_file_scan_task` takes with the delete vector it has found for its data file. -/
def readRows (groups : List ℕ) (selected : Option (List ℕ)) (vector : Option DeleteVector) :
    Option (List ℕ) :=
  match vector with
  | none => some (selectedRows groups selected)
  | some v => (buildDeletesRowSelection groups selected v).map fun sel =>
      mask (expand sel) (selectedRows groups selected)

theorem readRows_eq (m : Vectors) (path : String) (groups : List ℕ) (selected : Option (List ℕ))
    (hsorted : ∀ wanted ∈ selected, wanted.Pairwise (· < ·))
    (hsmall : selected = none ∨ groups.sum < 2 ^ 32) :
    ∃ keeps : ℕ → Bool, readRows groups selected (m.lookup path) =
        some ((selectedRows groups selected).filter keeps) ∧
      ∀ p, keeps p = true ↔ ¬ Deletes m path p := by
  cases hlookup : m.lookup path with
  | none =>
      refine ⟨fun _ => true, ?_, ?_⟩
      · rw [List.filter_true]
        rfl
      · simp [Deletes, hlookup]
  | some v =>
      obtain ⟨sel, hsel, hexpand⟩ := expand_buildDeletesRowSelection v groups selected hsorted hsmall
      refine ⟨v.keeps, ?_, ?_⟩
      · rw [readRows, hsel, Option.map_some, hexpand, mask_map]
      · intro p
        rw [DeleteVector.keeps_eq_true]
        simp [Deletes, hlookup]

/-- **The rows a scan task reads.**  In every run, once its delete files are done: a row that one of them
names is not read, a row that is left out is named by a delete file that was started, and the rows come in
the order of the selected row groups. -/
theorem rows_of_done (hrun : Relation.ReflTransGen (Step file content) State.init s) (deletes : List ℕ)
    (hdone : ∀ a ∈ deletes, s.phase a = .done) (path : String) (groups : List ℕ)
    (selected : Option (List ℕ)) (hsorted : ∀ wanted ∈ selected, wanted.Pairwise (· < ·))
    (hsmall : selected = none ∨ groups.sum < 2 ^ 32) :
    ∃ keeps : ℕ → Bool, readRows groups selected (s.vectors.lookup path) =
        some ((selectedRows groups selected).filter keeps) ∧
      (∀ p, keeps p = true → ∀ a ∈ deletes, ¬ Names (content (file a)) path p) ∧
      ∀ p, keeps p = false → ∃ a, s.phase a ≠ .idle ∧ Names (content (file a)) path p := by
  have hinv := State.inv_of_run hrun
  obtain ⟨keeps, hrows, hkeeps⟩ := readRows_eq s.vectors path groups selected hsorted hsmall
  refine ⟨keeps, hrows, ?_, ?_⟩
  · intro p hp a ha hnames
    obtain ⟨v, hv⟩ := hinv.done a (hdone a ha)
    exact (hkeeps p).mp hp (hinv.loaded (file a) v hv path p hnames)
  · intro p hp
    have hdeleted : Deletes s.vectors path p := by
      by_contra hno
      rw [(hkeeps p).mpr hno] at hp
      cases hp
    exact hinv.origin path p hdeleted

end

/-- One future loads a file that names the row `1` of `a.parquet`. -/
def oneDelete : BatchStream := [.ok [.utf8 [some "a.parquet"], .int64 [some 1]]]

theorem rows_of_done_oneDelete : ∃ s : State Empty,
    Relation.ReflTransGen (Step (fun _ => "d.parquet") fun _ => oneDelete) State.init s ∧
      (∀ a ∈ [0], s.phase a = .done) ∧
      ∃ keeps : ℕ → Bool, readRows [2, 3] (some [1]) (s.vectors.lookup "a.parquet") =
          some ((selectedRows [2, 3] (some [1])).filter keeps) ∧
        (∀ p, keeps p = true → ∀ a ∈ [0], ¬ Names oneDelete "a.parquet" p) ∧
        ∀ p, keeps p = false → ∃ a, s.phase a ≠ .idle ∧ Names oneDelete "a.parquet" p := by
  have hload : Relation.ReflTransGen (Step (fun _ => "d.parquet") fun _ => oneDelete)
      (State.init : State Empty) _ := .single (.load 0 _ rfl rfl)
  have hparse := hload.tail (.parse 0 _ rfl rfl)
  have hupsert := hparse.tail (.upsert 0 [] [] "a.parquet" _ rfl)
  have hrun := hupsert.tail (.finish 0 rfl)
  have hzero : ∀ a ∈ [0], a = 0 := fun a ha => List.mem_singleton.mp ha
  refine ⟨_, hrun, fun a ha => ?_, rows_of_done hrun [0] (fun a ha => ?_) "a.parquet" [2, 3] (some [1])
    (fun wanted hwanted => ?_) (.inr (by decide))⟩
  · rw [hzero a ha]
    rfl
  · rw [hzero a ha]
    rfl
  · obtain rfl : [1] = wanted := by simpa using hwanted
    exact List.pairwise_singleton _ 1

end IcebergDb.Delete.PosDel
