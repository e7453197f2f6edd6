import IcebergDb.Cache.ByteCache
import Mathlib.Algebra.Order.BigOperators.Group.List

/-!
# The capacity of the in-memory byte cache

`MemoryByteCache::put` with the `usize` sums it really adds: a sum that does not fit its width stops the
run.

* `putChecked` — `put` with checked sums and a counted eviction loop; where it succeeds it is `put`;
* `Sound` — the counter is the sum of the stored lengths, no object has two chunks of one range, and the
  sum is within the capacity;
* `evictLoopChecked_spec` — the loop ends after at most one turn per entry, and has then made room or
  emptied the map;
* `puts_sound_iff` — **every state of a run is sound exactly when every chunk fits the capacity** and
  the sum of what is stored and what comes fits a `usize`.
-/

namespace IcebergDb.Cache

open IcebergDb.ByteRange

variable {ω : Type}

/-- One call of `put`, with the keys that the hash map yields while it evicts. -/
structure PutOp (ω : Type) where
  victim : List PathCredKey → ℕ
  key : ByteCacheKey
  data : Bytes
  owner : ω

/-- `MemoryByteCache::new`. -/
def MemoryByteCache.new (maxBytes : ℕ) : MemoryByteCache ω where
  byPath := []
  bytesUsed := 0
  maxBytes := maxBytes

/-- The loop of `evict_if_needed` with sums of `w` bits; `none` if a sum overflows, or if the loop goes on
after `turns` turns. -/
def evictLoopChecked (w : ℕ) (victim : List PathCredKey → ℕ) (incoming maxBytes : ℕ) :
    ℕ → ℕ → ByPath ω → Option (ℕ × ByPath ω)
  | turns, used, m =>
      if 2 ^ w ≤ used + incoming then none
      else if used + incoming ≤ maxBytes then some (used, m)
      else
        let i := victim (m.map Prod.fst) % m.length
        match turns, m[i]? with
        | _, none => some (used, m)
        | 0, some _ => none
        | turns + 1, some e =>
            if 2 ^ w ≤ e.2.bytesUsed then none
            else evictLoopChecked w victim incoming maxBytes turns (used - e.2.bytesUsed) (m.eraseIdx i)

/-- `MemoryByteCache::put`; `none` if a sum overflows or the eviction loop does not end. -/
def MemoryByteCache.putChecked (w : ℕ) (c : MemoryByteCache ω) (op : PutOp ω) :
    Option (MemoryByteCache ω) :=
  if op.data.isEmpty then some c
  else
    (evictLoopChecked w op.victim op.data.length c.maxBytes c.byPath.length c.bytesUsed c.byPath).bind
      fun r =>
        let byPath := r.2.insertChunk op.key op.data op.owner
        if 2 ^ w ≤ byPath.bytesUsed then none
        else some { c with byPath := byPath, bytesUsed := byPath.bytesUsed }

/-- No object has two chunks of one range. -/
def ByPath.DistinctRanges (m : ByPath ω) : Prop :=
  ∀ e ∈ m, (e.2.chunks.map CachedChunk.range).Nodup

/-- The counter is right, the ranges are distinct and the capacity is kept. -/
structure MemoryByteCache.Sound (c : MemoryByteCache ω) : Prop where
  accounted : c.bytesUsed = c.byPath.bytesUsed
  distinct : c.byPath.DistinctRanges
  capacity : c.byPath.bytesUsed ≤ c.maxBytes

/-- Every call of the run returns, and leaves a state with the property. -/
def Puts (w : ℕ) (P : MemoryByteCache ω → Prop) : MemoryByteCache ω → List (PutOp ω) → Prop
  | _, [] => True
  | c, op :: ops => ∃ c', c.putChecked w op = some c' ∧ P c' ∧ Puts w P c' ops

/-- The chunk fits the capacity, and a `usize` can hold what is stored and the chunk together. -/
def PutOp.Fits (w : ℕ) (c : MemoryByteCache ω) (op : PutOp ω) : Prop :=
  op.data ≠ [] → op.data.length ≤ c.maxBytes ∧ c.bytesUsed + op.data.length < 2 ^ w

/-- Every chunk of the run fits the state it is put into. -/
def FitsAll (w : ℕ) : MemoryByteCache ω → List (PutOp ω) → Prop
  | _, [] => True
  | c, op :: ops => op.Fits w c ∧ FitsAll w (c.put op.victim op.key op.data op.owner) ops

/-! ### Eviction -/

theorem ByPath.bytesUsed_eraseIdx {m : ByPath ω} {i : ℕ} {e : PathCredKey × PathByteCache ω}
    (h : m[i]? = some e) : (ByPath.bytesUsed (m.eraseIdx i)) + e.2.bytesUsed = m.bytesUsed := by
  induction m generalizing i with
  | nil => cases h
  | cons a m ih =>
      cases i with
      | zero =>
          obtain rfl := Option.some.inj h
          exact Nat.add_comm _ _
      | succ i =>
          have hrest := ih (i := i) h
          simp only [ByPath.bytesUsed, List.eraseIdx_cons_succ, List.map_cons, List.sum_cons] at hrest ⊢
          omega

/-- Where the checked loop ends, the loop of the source does the same. -/
theorem evictLoop_eq_of_checked {w : ℕ} {victim : List PathCredKey → ℕ} {incoming maxBytes : ℕ}
    {turns : ℕ} {used : ℕ} {m : ByPath ω} {r : ℕ × ByPath ω}
    (h : evictLoopChecked w victim incoming maxBytes turns used m = some r) :
    evictLoop victim incoming maxBytes turns used m = r := by
  induction turns generalizing used m with
  | zero =>
      unfold evictLoopChecked at h
      split at h
      · cases h
      split at h
      · exact Option.some.inj h
      · simp only at h
        split at h
        · exact Option.some.inj h
        · cases h
        · rename_i heq _
          cases heq
  | succ turns ih =>
      unfold evictLoopChecked at h
      unfold evictLoop
      split at h
      · cases h
      split at h
      · rename_i hfits
        rw [if_pos hfits]
        exact Option.some.inj h
      · rename_i hfull
        rw [if_neg hfull]
        simp only at h ⊢
        split at h
        · rename_i hnone
          rw [hnone]
          exact Option.some.inj h
        · rename_i heq _
          cases heq
        · rename_i turns' e heq hsome
          obtain rfl := Nat.succ.inj heq
          split at h
          · cases h
          · rw [hsome]
            exact ih h

/-- **The loop ends**, after at most one turn per entry: there is room, or nothing is left. -/
theorem evictLoopChecked_spec {w : ℕ} (victim : List PathCredKey → ℕ) {incoming : ℕ} (maxBytes : ℕ)
    {turns : ℕ} {m : ByPath ω} (hturns : m.length ≤ turns) (hfits : m.bytesUsed + incoming < 2 ^ w) :
    ∃ m', evictLoopChecked w victim incoming maxBytes turns m.bytesUsed m = some (m'.bytesUsed, m') ∧
      m'.Sublist m ∧ m'.bytesUsed ≤ m.bytesUsed ∧ (m'.bytesUsed + incoming ≤ maxBytes ∨ m' = []) := by
  induction turns generalizing m with
  | zero =>
      obtain rfl := List.length_eq_zero_iff.mp (Nat.le_zero.mp hturns)
      refine ⟨[], ?_, .refl [], le_rfl, .inr rfl⟩
      unfold evictLoopChecked
      rw [if_neg (Nat.not_le.mpr hfits)]
      split <;> rfl
  | succ turns ih =>
      unfold evictLoopChecked
      rw [if_neg (Nat.not_le.mpr hfits)]
      by_cases hroom : m.bytesUsed + incoming ≤ maxBytes
      · exact ⟨m, if_pos hroom, .refl m, le_rfl, .inl hroom⟩
      rw [if_neg hroom]
      simp only
      cases he : m[victim (m.map Prod.fst) % m.length]? with
      | none =>
          have hnil : m = [] := by
            rw [List.getElem?_eq_none_iff] at he
            by_contra hne
            exact Nat.not_lt.mpr he (Nat.mod_lt _ (List.length_pos_of_ne_nil hne))
          exact ⟨m, rfl, .refl m, le_rfl, .inr hnil⟩
      | some e =>
          have hlt := (List.getElem?_eq_some_iff.mp he).1
          have hsum := ByPath.bytesUsed_eraseIdx he
          have hlen := List.length_eraseIdx_of_lt hlt
          have hentry : ¬ 2 ^ w ≤ e.2.bytesUsed := by omega
          have hused : m.bytesUsed - e.2.bytesUsed =
              ByPath.bytesUsed (m.eraseIdx (victim (m.map Prod.fst) % m.length)) := by omega
          obtain ⟨m', hloop, hsub, hle, hend⟩ :=
            ih (m := m.eraseIdx (victim (m.map Prod.fst) % m.length)) (by omega) (by omega)
          refine ⟨m', ?_, hsub.trans (List.eraseIdx_sublist m _), by omega, hend⟩
          simp only [if_neg hentry, hused]
          exact hloop

/-! ### Insertion -/

/-- Replacing a chunk changes the sum by the difference and leaves the ranges. -/
theorem PathByteCache.replaceChunk_spec {range : Range} {data : Bytes} {owner : ω}
    {cs : List (CachedChunk ω)} {r : List (CachedChunk ω) × ℕ}
    (h : replaceChunk range data owner cs = some r) :
    r.1.map CachedChunk.range = cs.map CachedChunk.range ∧
      r.2 ≤ (cs.map fun c => c.data.length).sum ∧
      (r.1.map fun c => c.data.length).sum + r.2 = (cs.map fun c => c.data.length).sum + data.length := by
  induction cs generalizing r with
  | nil => cases h
  | cons c cs ih =>
      rw [replaceChunk] at h
      split at h
      · obtain rfl := Option.some.inj h
        refine ⟨rfl, ?_, ?_⟩ <;> simp only [List.map_cons, List.sum_cons] <;> omega
      · obtain ⟨r', hr', rfl⟩ := Option.map_eq_some_iff.mp h
        obtain ⟨hranges, hle, hsum⟩ := ih hr'
        simp only [List.map_cons, List.sum_cons, hranges, true_and]
        omega

theorem PathByteCache.replaceChunk_eq_none {range : Range} {data : Bytes} {owner : ω}
    {cs : List (CachedChunk ω)} (h : replaceChunk range data owner cs = none) :
    range ∉ cs.map CachedChunk.range := by
  induction cs with
  | nil => exact List.not_mem_nil
  | cons c cs ih =>
      rw [replaceChunk] at h
      split at h
      · cases h
      · rename_i hne
        rw [List.map_cons, List.mem_cons, not_or]
        exact ⟨fun heq => hne heq.symm, ih (Option.map_eq_none_iff.mp h)⟩

/-- The sum grows by at most the new data, and is at least that much. -/
theorem PathByteCache.bytesUsed_insert (c : PathByteCache ω) (range : Range) (data : Bytes) (owner : ω) :
    (c.insert range data owner).1.bytesUsed ≤ c.bytesUsed + data.length ∧
      data.length ≤ (c.insert range data owner).1.bytesUsed := by
  unfold PathByteCache.insert
  split
  · rename_i hempty
    rw [List.isEmpty_iff.mp hempty]
    exact ⟨le_rfl, Nat.zero_le _⟩
  · split
    · rename_i chunks replaced hreplace
      obtain ⟨-, hle, hsum⟩ := replaceChunk_spec hreplace
      simp only [PathByteCache.bytesUsed] at hsum hle ⊢
      omega
    · simp only [PathByteCache.bytesUsed, List.map_append, List.sum_append, List.map_cons, List.map_nil,
        List.sum_cons, List.sum_nil]
      omega

theorem PathByteCache.nodup_insert {c : PathByteCache ω} (h : (c.chunks.map CachedChunk.range).Nodup)
    (range : Range) (data : Bytes) (owner : ω) :
    ((c.insert range data owner).1.chunks.map CachedChunk.range).Nodup := by
  unfold PathByteCache.insert
  split
  · exact h
  · split
    · rename_i chunks replaced hreplace
      rw [(replaceChunk_spec hreplace).1]
      exact h
    · rename_i hnone
      rw [List.map_append, List.map_singleton]
      refine List.nodup_append.mpr ⟨h, List.pairwise_singleton _ _, ?_⟩
      rintro r hr r' hr' rfl
      rw [List.mem_singleton.mp hr'] at hr
      exact replaceChunk_eq_none hnone hr

/-- An update changes one entry, or a new one. -/
theorem ByPath.bytesUsed_update (k : PathCredKey) (f : PathByteCache ω → PathByteCache ω)
    (m : ByPath ω) : ∃ c, c.bytesUsed ≤ m.bytesUsed ∧
      (m.update k f).bytesUsed + c.bytesUsed = m.bytesUsed + (f c).bytesUsed := by
  induction m with
  | nil => exact ⟨⟨[]⟩, le_rfl, by simp [ByPath.update, ByPath.bytesUsed, PathByteCache.bytesUsed]⟩
  | cons a m ih =>
      obtain ⟨k', c⟩ := a
      rw [ByPath.update]
      split
      · refine ⟨c, ?_, ?_⟩ <;> simp only [ByPath.bytesUsed, List.map_cons, List.sum_cons] <;> omega
      · obtain ⟨c', hle, hsum⟩ := ih
        refine ⟨c', ?_, ?_⟩ <;> simp only [ByPath.bytesUsed, List.map_cons, List.sum_cons] at hle hsum ⊢ <;>
          omega

theorem ByPath.bytesUsed_insertChunk (m : ByPath ω) (key : ByteCacheKey) (data : Bytes) (owner : ω) :
    (m.insertChunk key data owner).bytesUsed ≤ m.bytesUsed + data.length ∧
      data.length ≤ (m.insertChunk key data owner).bytesUsed := by
  obtain ⟨c, hle, hsum⟩ := ByPath.bytesUsed_update (key.path, key.credFingerprint)
    (fun c => (c.insert key.range data owner).1) m
  obtain ⟨hupper, hlower⟩ := c.bytesUsed_insert key.range data owner
  unfold ByPath.insertChunk
  omega

theorem ByPath.DistinctRanges.insertChunk {m : ByPath ω} (h : m.DistinctRanges) (key : ByteCacheKey)
    (data : Bytes) (owner : ω) : (m.insertChunk key data owner).DistinctRanges := by
  intro e he
  rcases ByPath.mem_update he with he | rfl | ⟨c, hc, rfl⟩
  · exact h e he
  · exact PathByteCache.nodup_insert (c := ⟨[]⟩) List.nodup_nil _ _ _
  · exact PathByteCache.nodup_insert (h _ hc) _ _ _

/-! ### One put and all puts -/

theorem MemoryByteCache.put_eq_of_checked {w : ℕ} {c c' : MemoryByteCache ω} {op : PutOp ω}
    (h : c.putChecked w op = some c') : c.put op.victim op.key op.data op.owner = c' := by
  unfold MemoryByteCache.putChecked at h
  unfold MemoryByteCache.put
  split at h
  · rename_i hempty
    rw [if_pos hempty]
    exact Option.some.inj h
  · rename_i hne
    rw [if_neg hne]
    obtain ⟨r, hr, h⟩ := Option.bind_eq_some_iff.mp h
    simp only at h
    split at h
    · cases h
    · simp only [MemoryByteCache.evictIfNeeded, evictLoop_eq_of_checked hr]
      exact Option.some.inj h

/-- **One put**: a sound cache stays sound exactly when the chunk fits. -/
theorem MemoryByteCache.Sound.put_iff {w : ℕ} {c : MemoryByteCache ω} (h : c.Sound) (op : PutOp ω) :
    (∃ c', c.putChecked w op = some c' ∧ c'.Sound) ↔ op.Fits w c := by
  by_cases hne : op.data = []
  · have hput : c.putChecked w op = some c := by
      unfold MemoryByteCache.putChecked
      rw [hne]
      rfl
    exact ⟨fun _ hdata => absurd hne hdata, fun _ => ⟨c, hput, h⟩⟩
  have hempty : ¬ op.data.isEmpty = true := fun he => hne (List.isEmpty_iff.mp he)
  constructor
  · rintro ⟨c', hput, hsound⟩ -
    unfold MemoryByteCache.putChecked at hput
    rw [if_neg hempty] at hput
    obtain ⟨r, hr, hput⟩ := Option.bind_eq_some_iff.mp hput
    simp only at hput
    split at hput
    · cases hput
    obtain rfl := Option.some.inj hput
    have hlower := (r.2.bytesUsed_insertChunk op.key op.data op.owner).2
    refine ⟨hlower.trans hsound.capacity, ?_⟩
    unfold evictLoopChecked at hr
    split at hr
    · cases hr
    · rename_i hlt
      exact Nat.not_le.mp hlt
  · intro hfits
    obtain ⟨hlen, hsum⟩ := hfits hne
    rw [h.accounted] at hsum
    obtain ⟨m', hloop, hsub, hle, hend⟩ :=
      evictLoopChecked_spec op.victim c.maxBytes le_rfl hsum
    rw [← h.accounted] at hloop
    obtain ⟨hupper, -⟩ := m'.bytesUsed_insertChunk op.key op.data op.owner
    have hroom : (m'.insertChunk op.key op.data op.owner).bytesUsed ≤ c.maxBytes := by
      rcases hend with hend | rfl
      · exact hupper.trans hend
      · have hzero : ByPath.bytesUsed ([] : ByPath ω) = 0 := rfl
        omega
    have hword : ¬ 2 ^ w ≤ (m'.insertChunk op.key op.data op.owner).bytesUsed := by omega
    have hdistinct : m'.DistinctRanges := fun e he => h.distinct e (hsub.subset he)
    refine ⟨⟨m'.insertChunk op.key op.data op.owner,
      (m'.insertChunk op.key op.data op.owner).bytesUsed, c.maxBytes⟩, ?_,
      ⟨rfl, hdistinct.insertChunk op.key op.data op.owner, hroom⟩⟩
    unfold MemoryByteCache.putChecked
    rw [if_neg hempty, hloop, Option.bind_some]
    exact if_neg hword

theorem MemoryByteCache.sound_new (maxBytes : ℕ) : (MemoryByteCache.new maxBytes : MemoryByteCache ω).Sound where
  accounted := rfl
  distinct _ he := absurd he List.not_mem_nil
  capacity := Nat.zero_le _

/-- From a sound cache on, a run stays sound exactly when every chunk fits. -/
theorem MemoryByteCache.Sound.puts_iff {w : ℕ} (ops : List (PutOp ω)) :
    ∀ {c : MemoryByteCache ω}, c.Sound → (Puts w MemoryByteCache.Sound c ops ↔ FitsAll w c ops) := by
  induction ops with
  | nil => exact fun _ => Iff.rfl
  | cons op ops ih =>
      intro c h
      constructor
      · rintro ⟨c', hput, hsound, hrest⟩
        rw [FitsAll, put_eq_of_checked hput]
        exact ⟨(h.put_iff op).mp ⟨c', hput, hsound⟩, (ih hsound).mp hrest⟩
      · rintro ⟨hfits, hrest⟩
        obtain ⟨c', hput, hsound⟩ := (h.put_iff op).mpr hfits
        rw [put_eq_of_checked hput] at hrest
        exact ⟨c', hput, hsound, (ih hsound).mpr hrest⟩

/-- **The run of a cache from its creation**: every put returns and leaves the counter equal to the sum of
the stored lengths, distinct ranges and a sum within the capacity, exactly when every chunk fits. -/
theorem puts_sound_iff (w maxBytes : ℕ) (ops : List (PutOp ω)) :
    Puts w MemoryByteCache.Sound (MemoryByteCache.new maxBytes) ops ↔
      FitsAll w (MemoryByteCache.new maxBytes) ops :=
  (MemoryByteCache.sound_new maxBytes).puts_iff ops

/-- Up to half the range of a `usize`, only the lengths of the chunks matter. -/
theorem MemoryByteCache.Sound.fitsAll_iff {w : ℕ} (ops : List (PutOp ω)) :
    ∀ {c : MemoryByteCache ω}, c.Sound → 2 * c.maxBytes < 2 ^ w →
      (FitsAll w c ops ↔ ∀ op ∈ ops, op.data.length ≤ c.maxBytes) := by
  induction ops with
  | nil => exact fun _ _ => ⟨fun _ _ hop => absurd hop List.not_mem_nil, fun _ => trivial⟩
  | cons op ops ih =>
      intro c h hhalf
      have hfits : op.Fits w c ↔ op.data.length ≤ c.maxBytes := by
        constructor
        · intro hop
          by_cases hne : op.data = []
          · rw [hne]
            exact Nat.zero_le _
          · exact (hop hne).1
        · intro hlen _
          have hcap := h.capacity
          rw [← h.accounted] at hcap
          exact ⟨hlen, by omega⟩
      rw [FitsAll, List.forall_mem_cons, hfits]
      refine and_congr_right fun hlen => ?_
      obtain ⟨c', hput, hsound⟩ := (h.put_iff op).mpr (hfits.mpr hlen)
      have hmax : (c.put op.victim op.key op.data op.owner).maxBytes = c.maxBytes := by
        unfold MemoryByteCache.put
        split <;> rfl
      rw [put_eq_of_checked hput] at hmax ⊢
      rw [← hmax] at hhalf ⊢
      exact ih hsound hhalf

/-- Two bytes put into a cache of one. -/
def oversizedPut : PutOp Unit where
  victim := fun _ => 0
  key := ⟨"s3://b/k", ⟨0, 2⟩, 0⟩
  data := [1, 2]
  owner := ()

/-- A chunk that is longer than the capacity is stored all the same. -/
theorem putChecked_oversized :
    ((MemoryByteCache.new 1).putChecked 64 oversizedPut).map (·.byPath.bytesUsed) = some 2 ∧
      ¬ Puts 64 MemoryByteCache.Sound (MemoryByteCache.new 1) [oversizedPut] := by
  refine ⟨by decide, ?_⟩
  rintro ⟨c', hput, hsound, -⟩
  obtain rfl := MemoryByteCache.put_eq_of_checked hput
  exact absurd hsound.capacity (by decide)

end IcebergDb.Cache
