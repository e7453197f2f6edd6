import IcebergDb.Foundation.Text
import IcebergDb.Cache.CachingStorage

/-!
# One cache for many catalogs

The process-global cells of `byte_cache/mod.rs` and the places that use them: `open_rest` stores the
fingerprint of the catalog it opens, `wrap_storage` takes whatever fingerprint is stored at that moment,
and reads through the storages share one cache.

* `credFingerprint` — the hash of the listed property values, without their keys and without the
  missing ones;
* `Process` — the global cells, the catalogs opened so far and the storages built for them;
* `Isolated` — a hit was stored by a catalog with the same listed properties;
* `isolated_of_conditions` — so it is in every run in which a storage is built while the cell still
  holds its own catalog's fingerprint, and catalogs with different listed properties feed different
  values to the hash.
-/

namespace IcebergDb.Cache

open IcebergDb.Text

/-- A property map. -/
abbrev Props := String → Option String

/-- The properties that `cred_fingerprint` lists, in order. -/
def fingerprintKeys : List String :=
  ["uri", "warehouse", "prefix", "s3.endpoint", "client.region", "s3.path-style-access", "s3.region",
    "s3.bucket"]

/-- What the hasher is fed: the values that are there and not empty. -/
def fingerprintInput (props : Props) : List String :=
  fingerprintKeys.filterMap fun k => (props k).filter (· ≠ "")

/-- Where the process runs: native or in the browser, and the variable `IDB_BYTE_CACHE`. -/
structure Platform where
  native : Bool
  byteCacheEnv : Option String

/-- `byte_cache_enabled_from_env`. -/
def byteCacheEnabledFromEnv (platform : Platform) : Bool :=
  match platform.byteCacheEnv with
  | some "0" | some "false" | some "FALSE" | some "off" => false
  | _ => true

/-- `byte_cache_enabled_from_props`. -/
def byteCacheEnabledFromProps (platform : Platform) (props : Props) : Bool :=
  match props "idb.byte-cache" with
  | some v =>
      let v := trim v
      !(v == "0" || eqIgnoreAsciiCase v "false" || eqIgnoreAsciiCase v "off")
  | none => byteCacheEnabledFromEnv platform

/-- `max_cache_bytes_from_props` in the browser, where a `usize` has 32 bits. -/
def maxCacheBytesFromProps (props : Props) : ℕ :=
  match (props "idb.byte-cache-max-mib").bind fun s => parseUnsigned 32 (trim s) with
  | some mib => min (mib * (1024 * 1024)) (2 ^ 32 - 1)
  | none => 1024 * 1024 * 1024

/-- `open_byte_cache`.  The directory of a native cache starts out empty. -/
def openByteCache (platform : Platform) (props : Props) : ByteCacheStore ℕ :=
  if !byteCacheEnabledFromProps platform props then .noop
  else if platform.native then .fs ⟨fun _ => none, []⟩
  else .memory ⟨[], 0, maxCacheBytesFromProps props⟩

theorem fresh_openByteCache (platform : Platform) (props : Props) :
    Fresh (openByteCache platform props) := by
  unfold openByteCache
  split
  · exact .noop
  · split
    · exact .fs
    · exact .memory _

/-- The properties `open_rest` goes on with: a non-empty `uri` is required, and a default schema is
filled in.  The entries for `uri` and `warehouse` keep the values they have. -/
def restProps (props : Props) (defaultSchema : Option String) : Option Props :=
  match (props "uri").filter (· ≠ "") with
  | none => none
  | some uri => some fun k =>
      if k = "uri" then some uri
      else if k = "default-schema" then (props k).or defaultSchema
      else props k

/-- The global cells, the catalogs opened so far and the storages built.  A storage is signed with the
position of its catalog. -/
structure Process where
  globalByteCache : Option (ByteCacheStore ℕ)
  globalCredFingerprint : ℕ
  catalogs : List Props
  storages : List (CachingStorage ℕ)

/-- The start of the process. -/
def Process.init : Process := ⟨none, 0, [], []⟩

/-- What happens in the process.  `valid` is the verdict of `validate_rest_props` and `loaded` that of
everything `open_rest` does after it has installed the cache. -/
inductive ProcessEvent where
  | openRest (props : Props) (defaultSchema : Option String) (valid loaded : Bool)
  | wrapStorage (catalog : ℕ)
  | read (storage : ℕ) (op : ReadOp) (io : IoChoice)

section

variable (hash : List String → ℕ) (platform : Platform) (fileName : ByteCacheKey → String) (w : ℕ)
  (objects : ℕ → String → Option Bytes)

/-- `cred_fingerprint`. -/
def credFingerprint (props : Props) : ℕ := hash (fingerprintInput props)

/-- `install_global_byte_cache`: the fingerprint is overwritten, the cache is set once. -/
def Process.install (p : Process) (store : ByteCacheStore ℕ) (props : Props) : Process :=
  { p with
    globalCredFingerprint := credFingerprint hash props
    globalByteCache := p.globalByteCache.or (some store) }

/-- `open_rest`. -/
def Process.openRest (p : Process) (props : Props) (defaultSchema : Option String)
    (valid loaded : Bool) : Process :=
  if !valid then p
  else match restProps props defaultSchema with
    | none => p
    | some props =>
        let p := p.install hash (openByteCache platform props) props
        if loaded then { p with catalogs := p.catalogs ++ [props] } else p

/-- One event; `none` if it cannot happen.  A storage is built for an open catalog, and then a global
cache is installed. -/
def Process.step (p : Process) : ProcessEvent → Option Process
  | .openRest props defaultSchema valid loaded =>
      some (p.openRest hash platform props defaultSchema valid loaded)
  | .wrapStorage catalog =>
      if catalog < p.catalogs.length ∧ p.globalByteCache.isSome then
        some { p with storages := p.storages ++ [⟨p.globalCredFingerprint, catalog⟩] }
      else none
  | .read storage op io =>
      match p.storages[storage]?, p.globalByteCache with
      | some st, some cache => some { p with
          globalByteCache := some (st.exec fileName w (objects st.owner) cache io op).2 }
      | _, _ => none

/-- The keys of a read are in use. -/
def EventUses (K : Set ByteCacheKey) (p : Process) : ProcessEvent → Prop
  | .read storage op _ => ∀ st, p.storages[storage]? = some st →
      Uses (objects st.owner) st.credFp K op
  | _ => True

/-- Two catalogs have the same values for every listed property. -/
def SameListed (A B : Props) : Prop := ∀ k ∈ fingerprintKeys, A k = B k

/-- A hit returned through a storage was stored by a catalog with the same listed properties. -/
def Isolated (K : Set ByteCacheKey) (p : Process) : Prop :=
  ∀ (i : ℕ) (st : CachingStorage ℕ) (cache : ByteCacheStore ℕ) (op : ReadOp) (io : IoChoice)
    (r : ReadResult ℕ) (owner : ℕ), p.storages[i]? = some st → p.globalByteCache = some cache →
    Uses (objects st.owner) st.credFp K op →
    (st.exec fileName w (objects st.owner) cache io op).1 = .ok r → r.hitOf = some owner →
    ∃ A B, p.catalogs[st.owner]? = some A ∧ p.catalogs[owner]? = some B ∧ SameListed A B

/-- The condition on an event.  A catalog that is opened differs from the ones before it in the values
it feeds to the hash, unless the listed properties are the same; and a storage is built while the
global cell holds the fingerprint of its catalog. -/
def MeetsIsolation (p : Process) : ProcessEvent → Prop
  | .openRest props defaultSchema _ _ => ∀ A, restProps props defaultSchema = some A →
      ∀ B ∈ p.catalogs, fingerprintInput B = fingerprintInput A → SameListed B A
  | .wrapStorage catalog => ∀ A, p.catalogs[catalog]? = some A →
      p.globalCredFingerprint = credFingerprint hash A
  | .read _ _ _ => True

/-- The hasher is fed a value sequence from `V`. -/
def Feeds (V : Set (List String)) : ProcessEvent → Prop
  | .openRest props defaultSchema _ _ => ∀ A, restProps props defaultSchema = some A →
      fingerprintInput A ∈ V
  | _ => True

/-- One step of a run. -/
def ProcessStep (V : Set (List String)) (K : Set ByteCacheKey) (p p' : Process) : Prop :=
  ∃ e, Feeds V e ∧ EventUses objects K p e ∧
    p.step hash platform fileName w objects e = some p'

/-- One step of a run that meets the condition. -/
def IsolatedStep (V : Set (List String)) (K : Set ByteCacheKey) (p p' : Process) : Prop :=
  ∃ e, Feeds V e ∧ EventUses objects K p e ∧ MeetsIsolation hash p e ∧
    p.step hash platform fileName w objects e = some p'

/-! ### The invariant -/

/-- The entry was stored under the fingerprint of its owner's catalog. -/
def SignedEntry (catalogs : List Props) (key : ByteCacheKey) (_ : Bytes) (owner : ℕ) : Prop :=
  ∃ B, catalogs[owner]? = some B ∧ key.credFingerprint = credFingerprint hash B

/-- Storages carry the fingerprint of their catalog, entries that of their owner's. -/
structure IsolationInv (V : Set (List String)) (K : Set ByteCacheKey) (p : Process) : Prop where
  fed : ∀ A ∈ p.catalogs, fingerprintInput A ∈ V
  apart : ∀ A ∈ p.catalogs, ∀ B ∈ p.catalogs, fingerprintInput A = fingerprintInput B →
    SameListed A B
  carries : ∀ st ∈ p.storages, ∃ A, p.catalogs[st.owner]? = some A ∧
    st.credFp = credFingerprint hash A
  entries : ∀ cache, p.globalByteCache = some cache →
    cache.Holds fileName K (SignedEntry hash p.catalogs)

end

section

variable {hash : List String → ℕ} {platform : Platform} {fileName : ByteCacheKey → String} {w : ℕ}
  {objects : ℕ → String → Option Bytes} {V : Set (List String)} {K : Set ByteCacheKey}

theorem isolationInv_init : IsolationInv hash fileName V K .init where
  fed _ h := absurd h List.not_mem_nil
  apart _ h := absurd h List.not_mem_nil
  carries _ h := absurd h List.not_mem_nil
  entries _ h := by cases h

theorem getElem?_append_of_some {α : Type} {l : List α} {i : ℕ} {a : α} (h : l[i]? = some a)
    (l' : List α) : (l ++ l')[i]? = some a := by
  obtain ⟨hi, -⟩ := List.getElem?_eq_some_iff.mp h
  rw [List.getElem?_append_left hi]
  exact h

/-- Installing a cache keeps the invariant: the first one is empty, later ones are dropped. -/
theorem IsolationInv.install {p : Process} (h : IsolationInv hash fileName V K p)
    {store : ByteCacheStore ℕ} (hfresh : Fresh store) (props : Props) :
    IsolationInv hash fileName V K (p.install hash store props) where
  fed := h.fed
  apart := h.apart
  carries := h.carries
  entries cache hcache := by
    rcases Option.or_eq_some_iff.mp hcache with hold | ⟨-, hnew⟩
    · exact h.entries cache hold
    · obtain rfl := Option.some.inj hnew
      exact holds_of_fresh hfresh

/-- Adding a catalog that is apart from the others. -/
theorem IsolationInv.addCatalog {p : Process} (h : IsolationInv hash fileName V K p) {A : Props}
    (hfed : fingerprintInput A ∈ V)
    (hapart : ∀ B ∈ p.catalogs, fingerprintInput B = fingerprintInput A → SameListed B A) :
    IsolationInv hash fileName V K { p with catalogs := p.catalogs ++ [A] } := by
  constructor
  · intro B hB
    rcases List.mem_append.mp hB with hB | hB
    · exact h.fed B hB
    · rw [List.mem_singleton.mp hB]
      exact hfed
  · intro B hB C hC heq
    rcases List.mem_append.mp hB with hB' | hB' <;> rcases List.mem_append.mp hC with hC' | hC'
    · exact h.apart B hB' C hC' heq
    · obtain rfl := List.mem_singleton.mp hC'
      exact hapart B hB' heq
    · obtain rfl := List.mem_singleton.mp hB'
      exact fun k hk => (hapart C hC' heq.symm k hk).symm
    · rw [List.mem_singleton.mp hB', List.mem_singleton.mp hC']
      exact fun k _ => rfl
  · intro st hst
    obtain ⟨B, hB, hfp⟩ := h.carries st hst
    exact ⟨B, getElem?_append_of_some hB _, hfp⟩
  · intro cache hcache
    refine (h.entries cache hcache).mono ?_
    rintro key data owner ⟨B, hB, hfp⟩
    exact ⟨B, getElem?_append_of_some hB _, hfp⟩

/-- **Opening a catalog** that is apart from the others; it may fail before or after the cache is
installed. -/
theorem IsolationInv.openRest {p : Process} (h : IsolationInv hash fileName V K p) {props : Props}
    {defaultSchema : Option String} {valid loaded : Bool}
    (hfed : Feeds V (.openRest props defaultSchema valid loaded))
    (hcond : MeetsIsolation hash p (.openRest props defaultSchema valid loaded)) :
    IsolationInv hash fileName V K (p.openRest hash platform props defaultSchema valid loaded) := by
  unfold Process.openRest
  split
  · exact h
  · split
    · exact h
    · rename_i A hA
      have hinst := h.install (fresh_openByteCache platform A) A
      split
      · exact hinst.addCatalog (hfed A hA) (hcond A hA)
      · exact hinst

/-- **Building a storage** while the global cell holds the fingerprint of its catalog. -/
theorem IsolationInv.wrapStorage {p : Process} (h : IsolationInv hash fileName V K p) {catalog : ℕ}
    {A : Props} (hA : p.catalogs[catalog]? = some A)
    (hfp : p.globalCredFingerprint = credFingerprint hash A) :
    IsolationInv hash fileName V K
      { p with storages := p.storages ++ [⟨p.globalCredFingerprint, catalog⟩] } := by
  refine ⟨h.fed, h.apart, ?_, h.entries⟩
  intro st hst
  rcases List.mem_append.mp hst with hst | hst
  · exact h.carries st hst
  · rw [List.mem_singleton.mp hst]
    exact ⟨A, hA, hfp⟩

/-- **Reading through a storage**: what it stores is signed by its catalog. -/
theorem IsolationInv.read {p : Process} (h : IsolationInv hash fileName V K p)
    (hfile : Set.InjOn fileName K) {st : CachingStorage ℕ} (hst : st ∈ p.storages)
    {cache : ByteCacheStore ℕ} (hcache : p.globalByteCache = some cache) {op : ReadOp} {io : IoChoice}
    (huse : Uses (objects st.owner) st.credFp K op) :
    IsolationInv hash fileName V K
      { p with globalByteCache := some (st.exec fileName w (objects st.owner) cache io op).2 } := by
  refine ⟨h.fed, h.apart, h.carries, ?_⟩
  intro cache' hcache'
  obtain rfl := Option.some.inj hcache'
  have hold := h.entries cache hcache
  obtain ⟨A, hA, hfp⟩ := h.carries st hst
  rcases exec_cache st cache io huse with hsame | ⟨key, data, hkey, hkfp, -, hput⟩
  · rw [hsame]
    exact hold
  · rw [hput]
    refine hold.put hfile io.put hkey ⟨A, hA, ?_⟩
    rw [hkfp, hfp]

/-- Every step that meets the condition keeps the invariant. -/
theorem IsolationInv.step {p p' : Process} (h : IsolationInv hash fileName V K p)
    (hfile : Set.InjOn fileName K) {e : ProcessEvent} (hfed : Feeds V e)
    (huse : EventUses objects K p e) (hcond : MeetsIsolation hash p e)
    (hs : p.step hash platform fileName w objects e = some p') :
    IsolationInv hash fileName V K p' := by
  cases e with
  | openRest props defaultSchema valid loaded =>
      obtain rfl := Option.some.inj hs
      exact h.openRest hfed hcond
  | wrapStorage catalog =>
      simp only [Process.step] at hs
      split at hs
      · rename_i hopen
        obtain rfl := Option.some.inj hs
        have hget := List.getElem?_eq_getElem hopen.1
        exact h.wrapStorage hget (hcond _ hget)
      · cases hs
  | read storage op io =>
      simp only [Process.step] at hs
      split at hs
      · rename_i st cache hst hcache
        obtain rfl := Option.some.inj hs
        exact h.read hfile (List.mem_of_getElem? hst) hcache (huse st hst)
      · cases hs

/-- **The invariant isolates the catalogs**: equal fingerprints mean equal listed properties. -/
theorem IsolationInv.isolated {p : Process} (h : IsolationInv hash fileName V K p)
    (hhash : Set.InjOn hash V) : Isolated fileName w objects K p := by
  intro i st cache op io r owner hst hcache huse hr hhit
  obtain ⟨A, hA, hfp⟩ := h.carries st (List.mem_of_getElem? hst)
  obtain ⟨key, data, hkfp, B, hB, hkB⟩ := exec_hit (h.entries cache hcache) huse hr hhit
  have hAmem := List.mem_of_getElem? hA
  have hBmem := List.mem_of_getElem? hB
  have hprint : credFingerprint hash A = credFingerprint hash B := by
    rw [← hfp, ← hkfp, hkB]
  exact ⟨A, B, hA, hB,
    h.apart A hAmem B hBmem (hhash (h.fed A hAmem) (h.fed B hBmem) hprint)⟩

/-- **Catalog isolation.**  In every run whose events meet the condition, a hit returned to a read was
stored by a read of a catalog with the same listed properties. -/
theorem isolated_of_conditions (hhash : Set.InjOn hash V) (hfile : Set.InjOn fileName K) {p : Process}
    (hrun : Relation.ReflTransGen (IsolatedStep hash platform fileName w objects V K) .init p) :
    Isolated fileName w objects K p := by
  have hinv : IsolationInv hash fileName V K p := by
    induction hrun with
    | refl => exact isolationInv_init
    | tail _ hstep ih =>
        obtain ⟨e, hfed, huse, hcond, hs⟩ := hstep
        exact ih.step hfile hfed huse hcond hs
  exact hinv.isolated hhash

end

/-! ### Two warehouses with a common path -/

/-- The properties of a catalog at `uri`. -/
def propsAt (uri : String) : Props := fun k =>
  if k = "uri" then some uri else if k = "token" then some "t" else none

/-- A native process with caching on. -/
def nativePlatform : Platform := ⟨true, none⟩

/-- The object `p`, in every warehouse. -/
def commonObject : ℕ → String → Option Bytes := fun _ path => if path = "p" then some [1, 2] else none

/-- A hash of the two value sequences below. -/
def uriHash (values : List String) : ℕ :=
  if values = ["http://a"] then 1 else if values = ["http://b"] then 2 else 0

/-- The value sequences of the two catalogs. -/
def twoUris : Set (List String) := {["http://a"], ["http://b"]}

/-- File names by fingerprint. -/
def printName (key : ByteCacheKey) : String := toString key.credFingerprint

/-- The keys of `p`. -/
def commonKeys : Set ByteCacheKey := {⟨"p", ⟨0, 2⟩, 1⟩, ⟨"p", ⟨0, 2⟩, 2⟩}

theorem uriHash_injOn : Set.InjOn uriHash twoUris := by
  rintro a (rfl | rfl) b (rfl | rfl) h <;> first | rfl | exact absurd h (by decide)

theorem printName_injOn : Set.InjOn printName commonKeys := by
  rintro a (rfl | rfl) b (rfl | rfl) h <;> first | rfl | exact absurd h (by decide)

/-- One catalog: what it stored comes back to it. -/
theorem isolated_one_catalog :
    ∃ p : Process, Isolated printName 64 commonObject commonKeys p ∧
      p.storages = [⟨1, 0⟩] ∧ ∃ cache, p.globalByteCache = some cache ∧
        ((⟨1, 0⟩ : CachingStorage ℕ).exec printName 64 (commonObject 0) cache smoothIo
          (.readRange "p" ⟨0, 2⟩)).1 = .ok ⟨[1, 2], some 0⟩ := by
  obtain ⟨p, hrun, hrest⟩ :
      ∃ p : Process, Relation.ReflTransGen
          (IsolatedStep uriHash nativePlatform printName 64 commonObject twoUris commonKeys) .init p ∧
        p.storages = [⟨1, 0⟩] ∧ ∃ cache, p.globalByteCache = some cache ∧
          ((⟨1, 0⟩ : CachingStorage ℕ).exec printName 64 (commonObject 0) cache smoothIo
            (.readRange "p" ⟨0, 2⟩)).1 = .ok ⟨[1, 2], some 0⟩ := by
    refine ⟨_, .head ⟨.openRest (propsAt "http://a") none true true, ?_, trivial, ?_, rfl⟩ <|
      .head ⟨.wrapStorage 0, trivial, trivial, ?_, rfl⟩ <|
      .head ⟨.read 0 (.readRange "p" ⟨0, 2⟩) smoothIo, trivial, ?_, trivial, rfl⟩ .refl,
      rfl, _, rfl, rfl⟩
    · intro A hA
      obtain rfl := Option.some.inj hA
      exact .inl rfl
    · intro A _ B hB
      exact absurd hB List.not_mem_nil
    · intro A hA
      obtain rfl := Option.some.inj hA
      rfl
    · intro st hst
      obtain rfl := Option.some.inj hst
      exact .inl rfl
  exact ⟨p, isolated_of_conditions uriHash_injOn printName_injOn hrun, hrest⟩

/-- Two catalogs are opened before the storage of the first is built; it carries the fingerprint of
the second and gets the second's bytes. -/
theorem exists_cross_catalog_hit :
    Set.InjOn uriHash twoUris ∧ Set.InjOn printName commonKeys ∧
      ∃ p : Process, Relation.ReflTransGen
          (ProcessStep uriHash nativePlatform printName 64 commonObject twoUris commonKeys) .init p ∧
        ¬ Isolated printName 64 commonObject commonKeys p := by
  obtain ⟨p, hrun, hst, ⟨cache, hcache, hread⟩, hA, hB⟩ :
      ∃ p : Process, Relation.ReflTransGen
          (ProcessStep uriHash nativePlatform printName 64 commonObject twoUris commonKeys) .init p ∧
        p.storages[0]? = some ⟨2, 0⟩ ∧ (∃ cache, p.globalByteCache = some cache ∧
          ((⟨2, 0⟩ : CachingStorage ℕ).exec printName 64 (commonObject 0) cache smoothIo
            (.readRange "p" ⟨0, 2⟩)).1 = .ok ⟨[1, 2], some 1⟩) ∧
        (p.catalogs[0]?.bind fun A => A "uri") = some "http://a" ∧
        (p.catalogs[1]?.bind fun B => B "uri") = some "http://b" := by
    refine ⟨_, .head ⟨.openRest (propsAt "http://a") none true true, ?_, trivial, rfl⟩ <|
      .head ⟨.openRest (propsAt "http://b") none true true, ?_, trivial, rfl⟩ <|
      .head ⟨.wrapStorage 0, trivial, trivial, rfl⟩ <|
      .head ⟨.wrapStorage 1, trivial, trivial, rfl⟩ <|
      .head ⟨.read 1 (.readRange "p" ⟨0, 2⟩) smoothIo, trivial, ?_, rfl⟩ .refl,
      rfl, ⟨_, rfl, rfl⟩, rfl, rfl⟩
    · intro A hA
      obtain rfl := Option.some.inj hA
      exact .inl rfl
    · intro A hA
      obtain rfl := Option.some.inj hA
      exact .inr rfl
    · intro st hst
      obtain rfl := Option.some.inj hst
      exact .inr rfl
  refine ⟨uriHash_injOn, printName_injOn, p, hrun, ?_⟩
  intro hiso
  have huse : Uses (commonObject 0) 2 commonKeys (.readRange "p" ⟨0, 2⟩) := .inr rfl
  obtain ⟨A, B, hA', hB', hsame⟩ := hiso 0 _ cache _ _ _ 1 hst hcache huse hread rfl
  rw [hA', Option.bind_some] at hA
  rw [hB', Option.bind_some] at hB
  have huri := hsame "uri" (by decide)
  rw [hA, hB] at huri
  exact absurd huri (by decide)

end IcebergDb.Cache
