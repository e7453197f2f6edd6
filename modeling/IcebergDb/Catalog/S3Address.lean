import IcebergDb.Foundation.Url

/-!
# The address of an S3 object

`wasm_s3_storage.rs`: how the location of an object becomes the URL that the browser asks for.

* `parseLocation`, `objectUrl` — `parse_location` and `object_url`;
* `Faithful` — the URL is at the host of the configuration, and its path stands for the key behind the base path;
* `KeyKept` — the key is one that two readings of it leave alone;
* `faithful_iff` — **the URL is faithful exactly for such keys, and never for virtual hosts at an endpoint**, and
  two objects of one configuration with such keys have different URLs.
-/

namespace IcebergDb.Catalog

open Percent Url Utf8

/-! ### The source -/

/-- `S3Props`, as far as addresses depend on them. -/
structure S3Props where
  endpoint : Option (List Char)
  region : List Char
  pathStyle : Bool

/-- `ObjectRef`. -/
structure ObjectRef where
  bucket : List Char
  key : List Char

/-- The errors of `parse_location` and `object_url`. -/
inductive S3Error
  | invalidUrl (path : List Char)
  | scheme (scheme : String)
  | missingBucket (path : List Char)
  | missingKey (path : List Char)
  | invalidEndpoint (endpoint : List Char)
  | invalidBucketHost
  | url

/-- `parse_location`. -/
def parseLocation (H : HostParser) (configuredScheme : String) (path : List Char) : Except S3Error ObjectRef :=
  match parse H path with
  | none => .error (.invalidUrl path)
  | some url =>
      if url.scheme ≠ "s3" ∧ url.scheme ≠ "s3a" ∧ url.scheme ≠ configuredScheme then .error (.scheme url.scheme)
      else
        match url.hostText with
        | none => .error (.missingBucket path)
        | some bucket =>
            let key := url.pathText.dropWhile (· = '/')
            if key.isEmpty then .error (.missingKey path) else .ok ⟨bucket, key⟩

/-- The host of Amazon for a region, which has no name of its own for the first region. -/
def amazonHost (region : List Char) : List Char :=
  if region = "us-east-1".toList then "s3.amazonaws.com".toList
  else "s3.".toList ++ region ++ ".amazonaws.com".toList

/-- `object_url`. -/
def objectUrl (H : HostParser) (cfg : S3Props) (obj : ObjectRef) : Except S3Error Url :=
  match cfg.endpoint with
  | some endpoint =>
      match parse H endpoint with
      | none => .error (.invalidEndpoint endpoint)
      | some base =>
          if cfg.pathStyle then
            .ok (base.setPath (base.pathText.rdropWhile (· = '/') ++ '/' :: (obj.bucket ++ '/' :: obj.key)))
          else
            match base.setHost H obj.bucket with
            | none => .error .invalidBucketHost
            | some base => .ok (base.setPath ('/' :: obj.key))
  | none =>
      let text :=
        if cfg.pathStyle then
          "https://".toList ++ (amazonHost cfg.region ++ '/' :: (obj.bucket ++ '/' :: obj.key))
        else "https://".toList ++ ((obj.bucket ++ '.' :: amazonHost cfg.region) ++ '/' :: obj.key)
      match parse H text with
      | none => .error .url
      | some url => .ok url

/-! ### The addresses that are meant -/

/-- A lower-case letter, a digit, a hyphen or a period. -/
def isBucketChar (c : Char) : Bool := c.isLower || c.isDigit || c = '-' || c = '.'

/-- The rules for names of buckets. -/
structure ValidBucket (bucket : List Char) : Prop where
  length : 3 ≤ bucket.length ∧ bucket.length ≤ 63
  chars : ∀ c ∈ bucket, isBucketChar c = true
  ends : ∀ c, bucket.head? = some c ∨ bucket.getLast? = some c → c ≠ '-' ∧ c ≠ '.'
  periods : ¬ ['.', '.'] <:+: bucket
  notAddress : ¬ ((bucket.splitOn '.').length = 4 ∧ ∀ c ∈ bucket, c.isDigit = true ∨ c = '.')

/-- `s3://bucket/key`. -/
def location (bucket key : List Char) : List Char := "s3://".toList ++ (bucket ++ '/' :: key)

/-- The host that is configured, if it is one. -/
def configuredHost (H : HostParser) (cfg : S3Props) : Option (List Char) :=
  match cfg.endpoint with
  | some endpoint => (parse H endpoint).bind hostText
  | none => some (amazonHost cfg.region)

/-- The host of a bucket. -/
def bucketHost (cfg : S3Props) (bucket host : List Char) : List Char :=
  if cfg.pathStyle then host else bucket ++ '.' :: host

/-- The base path of the endpoint, without the slashes at its end. -/
def basePath (H : HostParser) (cfg : S3Props) : List UInt8 :=
  match cfg.endpoint.bind (parse H) with
  | some base => percentDecode (base.pathText.rdropWhile (· = '/'))
  | none => []

/-- The path of an object. -/
def objectPath (H : HostParser) (cfg : S3Props) (bucket key : List Char) : List UInt8 :=
  if cfg.pathStyle then basePath H cfg ++ bytes ('/' :: (bucket ++ '/' :: key)) else bytes ('/' :: key)

/-- The URL that the browser asks for. -/
def requestUrl (H : HostParser) (configuredScheme : String) (cfg : S3Props) (bucket key : List Char) :
    Except S3Error Url := do
  let obj ← parseLocation H configuredScheme (location bucket key)
  objectUrl H cfg obj

/-- The URL of the object has the host and the path that are meant. -/
def Faithful (H : HostParser) (configuredScheme : String) (cfg : S3Props) (bucket key : List Char) : Prop :=
  ∃ url host, requestUrl H configuredScheme cfg bucket key = .ok url ∧ configuredHost H cfg = some host ∧
    url.hostText = some (bucketHost cfg bucket host) ∧ percentDecode url.pathText = objectPath H cfg bucket key

/-- Reading the key as part of a location, and again as part of a URL of the kind, leaves it alone. -/
structure KeyKept (k : Kind) (key : List Char) : Prop where
  noTriplet : NoTriplet key
  noDots : ∀ seg ∈ key.splitOnP (isSeparator .other), isDot seg = false
  start : key.head? ≠ some '/'
  stop : ∀ c ∈ key.getLast?, isC0OrSpace c = false
  chars : ∀ c ∈ key, isTabOrNewline c = false ∧ c ≠ '?' ∧ c ≠ '#'
  backslash : k.isSpecial = true → '\\' ∉ key

/-- The configuration has a host for the bucket, and its URLs keep the key. -/
def Addressable (H : HostParser) (cfg : S3Props) (bucket key : List Char) : Prop :=
  match cfg.endpoint with
  | some endpoint => cfg.pathStyle = true ∧
      ∃ base host, parse H endpoint = some base ∧ base.hostText = some host ∧ KeyKept base.kind key
  | none => H.special (bucketHost cfg bucket (amazonHost cfg.region)) =
      some (bucketHost cfg bucket (amazonHost cfg.region)) ∧ KeyKept .special key

/-! ### The key is read twice -/

/-- What is left of a key that is cleaned, and cut before the fragment and the query. -/
def keyRest (key : List Char) : List Char := (cutAt '?' (cutAt '#' (cleanEnd key)).1).1

/-- The key that `parse_location` reads. -/
def readKey (key : List Char) : List Char := (joinPath (pathState .other (keyRest key))).dropWhile (· = '/')

section

variable {k : Kind} {key : List Char} {path : List Segment}

theorem bytes_slash (key : List Char) : bytes ('/' :: key) = 0x2F :: bytes key := rfl

/-- Slashes at the front are bytes that are lost. -/
theorem length_dropWhile_slash (cs : List Char) :
    (percentDecode (cs.dropWhile (· = '/'))).length ≤ (percentDecode cs).length ∧
    ((percentDecode (cs.dropWhile (· = '/'))).length = (percentDecode cs).length → cs.head? ≠ some '/') := by
  induction cs with
  | nil => exact ⟨le_rfl, nofun⟩
  | cons c cs ih =>
      by_cases hc : c = '/'
      · subst hc
        rw [List.dropWhile_cons_of_pos (by decide), percentDecode_cons_of_ne (by decide)]
        have hle := ih.1
        have hbyte : (String.utf8EncodeChar '/' ++ percentDecode cs).length = (percentDecode cs).length + 1 := rfl
        rw [hbyte]
        exact ⟨by omega, fun heq => by omega⟩
      · rw [List.dropWhile_cons_of_neg (by simpa using hc)]
        exact ⟨le_rfl, fun _ => by simpa using hc⟩

/-- A text that does not begin with a slash does not when it is encoded. -/
theorem dropWhile_percentEncode (h : key.head? ≠ some '/') :
    (percentEncode pathSet key).dropWhile (· = '/') = percentEncode pathSet key := by
  cases hencode : percentEncode pathSet key with
  | nil => rfl
  | cons c cs =>
      refine List.dropWhile_cons_of_neg ?_
      rw [decide_eq_true_eq]
      rintro rfl
      obtain ⟨rest, rfl, -⟩ := percentEncode_eq_cons hencode (by decide)
      exact h rfl

/-- A key without dot segments is read as its segments. -/
theorem joinPath_pathState (hdots : ∀ seg ∈ key.splitOnP (isSeparator .other), isDot seg = false) :
    joinPath (pathState .other key) = '/' :: percentEncode pathSet key := by
  have hpath : pathState .other key = (key.splitOnP (isSeparator .other)).map (percentEncode pathSet) :=
    foldPath_of_noDots hdots nofun
  rw [hpath, ← splitOnP_percentEncode, joinPath_splitOnP]

/-- **A key that is kept is read with its characters encoded.** -/
theorem KeyKept.readKey (h : KeyKept k key) : readKey key = percentEncode pathSet key := by
  have hclean : cleanEnd key = key := cleanEnd_eq_self_iff.mpr ⟨fun c hc => (h.chars c hc).1, h.stop⟩
  have hhash : '#' ∉ key := fun hc => (h.chars _ hc).2.2 rfl
  have hquestion : '?' ∉ key := fun hc => (h.chars _ hc).2.1 rfl
  have hrest : keyRest key = key := by
    rw [keyRest, hclean, cutAt_eq_self hhash, cutAt_eq_self hquestion]
  rw [Catalog.readKey, hrest, joinPath_pathState h.noDots, List.dropWhile_cons_of_pos (by decide),
    dropWhile_percentEncode h.start]

/-- Backslashes are kept by the encoding. -/
theorem mem_percentEncode_backslash (h : '\\' ∈ key) : '\\' ∈ percentEncode pathSet key :=
  List.mem_flatMap.mpr ⟨'\\', h, by decide⟩

/-- **What is read of a key that is kept stands for the key.** -/
theorem KeyKept.decodedPath (h : KeyKept k key) (hdrive : k = .file → path ≠ []) :
    decodedPath (foldPath k path ((Catalog.readKey key).splitOnP (isSeparator k))) =
      decodedPath path ++ bytes ('/' :: key) := by
  have hbackslash : k.isSpecial = true → '\\' ∉ percentEncode pathSet key := by
    intro hk hmem
    rcases mem_percentEncode hmem with ⟨hkey, -⟩ | heq | hhex
    · exact h.backslash hk hkey
    · exact absurd heq (by decide)
    · exact absurd hhex (by decide)
  have hdots : ∀ seg ∈ (percentEncode pathSet key).splitOnP (isSeparator k), isDot seg = false := by
    intro seg hseg
    rw [splitOnP_of_notMem hbackslash, splitOnP_percentEncode] at hseg
    obtain ⟨raw, hraw, rfl⟩ := List.mem_map.mp hseg
    rw [isDot_percentEncode pathSet_leavesTriplets]
    exact h.noDots raw hraw
  rw [h.readKey, foldPath_of_noDots hdots fun hk hnil => absurd hnil (hdrive hk), decodedPath_append,
    decodedPath_map_percentEncode, (decodedPath_splitOnP_iff k _).mpr hbackslash,
    percentDecode_percentEncode pathSet_leavesTriplets, percentDecode_of_noTriplet h.noTriplet, bytes_slash]

/-- What is left of a key is part of it, and all of it only if nothing is cleaned or cut off. -/
theorem keyRest_sublist (key : List Char) : (keyRest key).Sublist key :=
  ((cutAt_fst_sublist '?' _).trans (cutAt_fst_sublist '#' _)).trans (cleanEnd_sublist key)

theorem of_keyRest_eq (h : keyRest key = key) : cleanEnd key = key ∧ '#' ∉ key ∧ '?' ∉ key := by
  have hlength := congrArg List.length h
  have hquery := (cutAt_fst_sublist '?' (cutAt '#' (cleanEnd key)).1).length_le
  have hfragment := (cutAt_fst_sublist '#' (cleanEnd key)).length_le
  have hclean : cleanEnd key = key := (cleanEnd_sublist key).eq_of_length_le (by rw [← hlength]; exact hquery.trans hfragment)
  have hcut : (cutAt '#' (cleanEnd key)).1 = cleanEnd key := by
    refine (cutAt_fst_sublist '#' (cleanEnd key)).eq_of_length_le ?_
    rw [congrArg List.length hclean, ← hlength]
    exact hquery
  refine ⟨hclean, ?_, ?_⟩
  · rw [← hclean]
    exact notMem_of_cutAt_fst_eq hcut
  · rw [keyRest, hcut, hclean] at h
    exact notMem_of_cutAt_fst_eq h

/-- **What is read of a key stands for fewer bytes, unless the key is kept.** -/
theorem length_readKey (hread : readKey key ≠ []) :
    (percentDecode (readKey key)).length ≤ (bytes key).length ∧
      ((percentDecode (readKey key)).length = (bytes key).length → KeyKept .other key) := by
  obtain ⟨hbytes, hbytesEq⟩ := length_bytes_sublist (keyRest_sublist key)
  have htriplets := length_percentDecode_le (keyRest key)
  -- the segments of what is left
  obtain ⟨hfold, hfoldEq⟩ := length_foldPath .other ((keyRest key).splitOnP (isSeparator .other)) []
  rw [length_decodedPath_splitOnP, decodedPath_nil, List.length_nil, Nat.zero_add] at hfold hfoldEq
  have hpath : (decodedPath (pathState .other (keyRest key))).length ≤ (percentDecode (keyRest key)).length + 1 :=
    hfold
  -- the text of the path, which begins with a slash
  obtain ⟨tail, htail⟩ : ∃ tail, joinPath (pathState .other (keyRest key)) = '/' :: tail := by
    cases hsegs : pathState .other (keyRest key) with
    | nil =>
        rw [readKey, hsegs] at hread
        exact absurd rfl hread
    | cons seg segs => exact ⟨_, rfl⟩
  have hjoin := congrArg List.length (percentDecode_joinPath (pathState .other (keyRest key)))
  have htailLength : (percentDecode ('/' :: tail)).length = (percentDecode tail).length + 1 := by
    rw [percentDecode_cons_of_ne (by decide)]
    rfl
  rw [htail, htailLength] at hjoin
  obtain ⟨hslash, hslashEq⟩ := length_dropWhile_slash tail
  have hreadTail : readKey key = tail.dropWhile (· = '/') := by
    rw [readKey, htail, List.dropWhile_cons_of_pos (by decide)]
  rw [← hreadTail] at hslash hslashEq
  refine ⟨by omega, fun hlength => ?_⟩
  -- nothing is lost anywhere
  have hrest : keyRest key = key := hbytesEq (by omega)
  obtain ⟨hclean, hhash, hquestion⟩ := of_keyRest_eq hrest
  obtain ⟨htabs, hstop⟩ := cleanEnd_eq_self_iff.mp hclean
  rw [hrest] at hfoldEq hpath htriplets htail hjoin
  have hnoDots : ∀ seg ∈ key.splitOnP (isSeparator .other), isDot seg = false := by
    refine hfoldEq ?_
    show (decodedPath (pathState .other key)).length = _
    omega
  refine ⟨length_percentDecode_eq_iff.mp (by omega), hnoDots, ?_, hstop, ?_, nofun⟩
  · intro hhead
    obtain ⟨others, rfl⟩ : ∃ others, key = '/' :: others := by
      cases key with
      | nil => cases hhead
      | cons c cs => exact ⟨cs, congrArg (· :: cs) (Option.some.inj hhead)⟩
    rw [joinPath_pathState hnoDots, percentEncode_cons_of_false (by decide)] at htail
    refine hslashEq (by omega) ?_
    rw [← (List.cons.inj htail).2]
    rfl
  · intro c hc
    refine ⟨htabs c hc, ?_, ?_⟩
    · rintro rfl
      exact hquestion hc
    · rintro rfl
      exact hhash hc

/-- **Only a key that is kept is read twice as something that stands for it.** -/
theorem keyKept_of_decodedPath (hread : readKey key ≠ []) (hdrive : k = .file → path ≠ [])
    (hdecoded : decodedPath (foldPath k path ((readKey key).splitOnP (isSeparator k))) =
      decodedPath path ++ bytes ('/' :: key)) : KeyKept k key := by
  obtain ⟨hfirst, hfirstEq⟩ := length_readKey hread
  obtain ⟨hagain, hagainEq⟩ := length_foldPath k ((readKey key).splitOnP (isSeparator k)) path
  rw [length_decodedPath_splitOnP, hdecoded, List.length_append, bytes_slash, List.length_cons] at hagain hagainEq
  have hkept : KeyKept .other key := hfirstEq (by omega)
  have hdots := hagainEq (by omega)
  refine ⟨hkept.noTriplet, hkept.noDots, hkept.start, hkept.stop, hkept.chars, fun hk hmem => ?_⟩
  -- a backslash would be a slash in the end
  rw [foldPath_of_noDots hdots fun hk' hnil => absurd hnil (hdrive hk'), decodedPath_append,
    decodedPath_map_percentEncode, bytes_slash, hkept.readKey] at hdecoded
  have hsplit := List.append_cancel_left hdecoded
  rw [← percentDecode_of_noTriplet hkept.noTriplet, ← percentDecode_percentEncode pathSet_leavesTriplets] at hsplit
  exact (decodedPath_splitOnP_iff k _).mp hsplit hk (mem_percentEncode_backslash hmem)

/-! ### The location -/

variable {H : HostParser} {configuredScheme : String} {cfg : S3Props} {bucket : List Char}

/-- What the characters of a bucket are not. -/
theorem of_isBucketChar {c : Char} (h : isBucketChar c = true) (k : Kind) :
    forbiddenHost c = false ∧ pathSet c = false ∧ c ≠ '%' ∧ isSeparator k c = false := by
  have hascii : c.toNat < 128 := by
    by_contra hle
    have hlower : c.isLower = false := by
      rw [Bool.eq_false_iff]
      intro hl
      have hbounds : (decide (c.val ≥ 'a'.val) && decide (c.val ≤ 'z'.val)) = true := hl
      rw [Bool.and_eq_true, decide_eq_true_eq, decide_eq_true_eq] at hbounds
      have hz : c.toNat ≤ 122 := UInt32.le_iff_toNat_le.mp hbounds.2
      omega
    have hdigit : c.isDigit = false := by
      rw [Bool.eq_false_iff]
      intro hd
      rw [Char.isDigit, Bool.and_eq_true, decide_eq_true_eq, decide_eq_true_eq] at hd
      have hnine : c.toNat ≤ 57 := UInt32.le_iff_toNat_le.mp hd.2
      omega
    rw [isBucketChar, hlower, hdigit, Bool.or_eq_true, Bool.or_eq_true, decide_eq_true_eq, decide_eq_true_eq] at h
    rcases h with (h | rfl) | rfl
    · exact absurd h (by decide)
    · exact hle (by decide)
    · exact hle (by decide)
  have hall : ∀ n < 128, isBucketChar (Char.ofNat n) = true → forbiddenHost (Char.ofNat n) = false ∧
      pathSet (Char.ofNat n) = false ∧ Char.ofNat n ≠ '%' := by decide
  rw [← Char.ofNat_toNat c] at h ⊢
  obtain ⟨hhost, hset, hpercent⟩ := hall c.toNat hascii h
  exact ⟨hhost, hset, hpercent, (of_forbiddenHost hhost k).1⟩

theorem ValidBucket.ne_nil (h : ValidBucket bucket) : bucket ≠ [] := by
  rintro rfl
  exact absurd h.length.1 (by decide)

/-- A bucket stands for itself. -/
theorem ValidBucket.percentDecode (h : ValidBucket bucket) : percentDecode bucket = bytes bucket :=
  percentDecode_of_noTriplet (noTriplet_of_notMem fun hmem => (of_isBucketChar (h.chars _ hmem) .other).2.2.1 rfl)

/-- A bucket behind a normalized path. -/
theorem ValidBucket.normalized (h : ValidBucket bucket) (hpath : Normalized k path) :
    Normalized k (path ++ [bucket]) := by
  have hdot : isDot bucket = false := by
    have hlength : 3 ≤ (Percent.percentDecode bucket).length := by
      rw [h.percentDecode]
      exact h.length.1.trans (length_le_length_bytes bucket)
    rw [isDot, isSingleDot, isDoubleDot, Bool.or_eq_false_iff, beq_eq_false_iff_ne, beq_eq_false_iff_ne]
    constructor
    · intro heq
      rw [heq] at hlength
      exact absurd hlength (by decide)
    · intro heq
      rw [heq] at hlength
      exact absurd hlength (by decide)
  refine ⟨fun seg hseg => ?_, fun hk seg hseg hdrive => ?_⟩
  · rcases List.mem_append.mp hseg with hseg | hseg
    · exact hpath.segments seg hseg
    · obtain rfl := List.mem_singleton.mp hseg
      refine ⟨hdot, fun c hc => ?_⟩
      obtain ⟨-, hset, -, hsep⟩ := of_isBucketChar (h.chars c hc) k
      exact ⟨hset, hsep⟩
  · cases path with
    | nil =>
        -- a bucket is longer than a drive letter
        obtain rfl := Option.some.inj hseg
        have hlong := h.length.1
        unfold isDriveLetter at hdrive
        split at hdrive
        · rw [List.length_cons, List.length_cons, List.length_nil] at hlong
          omega
        · cases hdrive
    | cons first rest => exact hpath.drive hk seg hseg hdrive

/-- A bucket is parsed as it is, as the host of a location. -/
theorem ValidBucket.parse (h : ValidBucket bucket) : H.parse .other bucket = some bucket := by
  have hforbidden : bucket.any forbiddenHost = false := by
    rw [List.any_eq_false]
    intro c hc
    rw [(of_isBucketChar (h.chars c hc) .other).1]
    decide
  have hbracket : bucket.head? ≠ some '[' := by
    intro hhead
    exact absurd (h.chars '[' (List.mem_of_mem_head? hhead)) (by decide)
  have hself : percentEncode c0Set bucket = bucket := by
    refine percentEncode_eq_self fun c hc => ?_
    have hset := (of_isBucketChar (h.chars c hc) .other).2.1
    rw [pathSet, querySet, Bool.or_eq_false_iff, Bool.or_eq_false_iff] at hset
    exact hset.1.1
  rw [HostParser.parse, if_neg (by simpa using h.ne_nil), if_neg (by decide), if_neg hbracket, hforbidden, hself]
  rfl

/-- **The location of an object gives its bucket, and its key as it is read.** -/
theorem parseLocation_location (h : ValidBucket bucket) (key : List Char) :
    parseLocation H configuredScheme (location bucket key) =
      if (readKey key).isEmpty then .error (.missingKey (location bucket key))
      else .ok ⟨bucket, readKey key⟩ := by
  have hscheme : String.ofList (['s', '3'].map Char.toLower) = "s3" := by decide
  have hparse := parse_authority (H := H) (by decide) (Text.forall_mem_of_all (by decide)) hscheme (by decide) h.ne_nil
    (fun c hc => (of_isBucketChar (h.chars c hc) .other).1) key
  have hkind : kindOf "s3" = .other := by decide
  rw [hkind, h.parse, Option.map_some] at hparse
  obtain ⟨url, hurl, hscheme, hhost, hpath⟩ : ∃ url, parse H (location bucket key) = some url ∧
      url.scheme = "s3" ∧ url.hostText = some bucket ∧ url.pathText = joinPath (pathState .other (keyRest key)) := by
    refine ⟨_, hparse, rfl, ?_, rfl⟩
    exact Option.filter_eq_some_iff.mpr ⟨rfl, decide_eq_true h.ne_nil⟩
  unfold parseLocation
  rw [hurl]
  simp only [hscheme, hhost, hpath]
  rfl

/-- A request has the URL of what is read. -/
theorem requestUrl_eq_ok_iff (h : ValidBucket bucket) {url : Url} :
    requestUrl H configuredScheme cfg bucket key = .ok url ↔
      readKey key ≠ [] ∧ objectUrl H cfg ⟨bucket, readKey key⟩ = .ok url := by
  have hrequest : requestUrl H configuredScheme cfg bucket key =
      (parseLocation H configuredScheme (location bucket key)).bind (objectUrl H cfg) := rfl
  rw [hrequest, parseLocation_location h]
  cases hread : readKey key with
  | nil =>
      constructor
      · intro heq
        cases heq
      · intro hne
        exact absurd rfl hne.1
  | cons c cs => exact ⟨fun heq => ⟨List.cons_ne_nil c cs, heq⟩, fun heq => heq.2⟩

/-! ### The request -/

/-- What is read of a key is encoded. -/
theorem of_mem_readKey {c : Char} (h : c ∈ readKey key) : c = '/' ∨ pathSet c = false := by
  have hmem := (List.dropWhile_sublist _).subset h
  obtain ⟨seg, hseg, hc⟩ := List.mem_flatMap.mp hmem
  rcases List.mem_cons.mp hc with rfl | hc
  · exact .inl rfl
  · exact .inr (((normalized_pathState .other _).segments seg hseg).2 c hc).1

/-- What is encoded is neither cleaned nor cut. -/
theorem of_encoded {c : Char} (h : c = '/' ∨ pathSet c = false) :
    isC0OrSpace c = false ∧ isTabOrNewline c = false ∧ c ≠ '?' ∧ c ≠ '#' := by
  rcases h with rfl | h
  · decide
  · exact of_pathSet_eq_false h

theorem keyRest_eq_self {cs : List Char} (h : ∀ c ∈ cs, c = '/' ∨ pathSet c = false) : keyRest cs = cs := by
  have hclean : cleanEnd cs = cs := cleanEnd_eq_self_iff.mpr
    ⟨fun c hc => (of_encoded (h c hc)).2.1, fun c hc => (of_encoded (h c (List.mem_of_mem_getLast? hc))).1⟩
  rw [keyRest, hclean, cutAt_eq_self fun hc => (of_encoded (h _ hc)).2.2.2 rfl,
    cutAt_eq_self fun hc => (of_encoded (h _ hc)).2.2.1 rfl]

/-- A bucket and a slash are one segment. -/
theorem ValidBucket.splitOnP (h : ValidBucket bucket) (k : Kind) (cs : List Char) :
    (bucket ++ '/' :: cs).splitOnP (isSeparator k) = bucket :: cs.splitOnP (isSeparator k) :=
  List.splitOnP_append_cons_of_forall_mem (fun c hc => (of_isBucketChar (h.chars c hc) k).2.2.2) '/'
    (isSeparator_slash k) cs

/-- The hosts of Amazon are no addresses in brackets. -/
theorem exists_bucketHost (h : ValidBucket bucket) (cfg : S3Props) :
    ∃ c cs, bucketHost cfg bucket (amazonHost cfg.region) = c :: cs ∧ c ≠ '[' := by
  unfold bucketHost
  split
  · unfold amazonHost
    split
    · exact ⟨'s', _, rfl, by decide⟩
    · exact ⟨'s', _, rfl, by decide⟩
  · obtain ⟨c, cs, rfl⟩ := List.exists_cons_of_ne_nil h.ne_nil
    refine ⟨c, _, rfl, ?_⟩
    rintro rfl
    exact absurd (h.chars '[' List.mem_cons_self) (by decide)

/-- The host of a bucket at Amazon. -/
abbrev amazonBucketHost (cfg : S3Props) (bucket : List Char) : List Char :=
  bucketHost cfg bucket (amazonHost cfg.region)

/-- The segments before the key at Amazon. -/
def amazonPath (cfg : S3Props) (bucket : List Char) : List Segment := if cfg.pathStyle then [bucket] else []

/-- **At Amazon, the key is read again behind the host**, if that is a host. -/
theorem objectUrl_amazon (hH : H.Standard) (hbucket : ValidBucket bucket) (hcfg : cfg.endpoint = none)
    (hspecial : H.special (amazonBucketHost cfg bucket) = some (amazonBucketHost cfg bucket)) :
    ∃ url, objectUrl H cfg ⟨bucket, readKey key⟩ = .ok url ∧
      url.hostText = some (amazonBucketHost cfg bucket) ∧
      url.path = .segments
        (foldPath .special (amazonPath cfg bucket) ((readKey key).splitOnP (isSeparator .special))) := by
  have hkind : kindOf "https" = .special := by decide
  obtain ⟨c, cs, hhead, hbracket⟩ := exists_bucketHost hbucket cfg
  have hne : amazonBucketHost cfg bucket ≠ [] := by
    rw [amazonBucketHost, hhead]
    exact List.cons_ne_nil c cs
  have hplain : ∀ c ∈ amazonBucketHost cfg bucket, forbiddenHost c = false := by
    refine (hH.forbidden hspecial).resolve_left ?_
    rw [amazonBucketHost, hhead]
    exact fun heq => hbracket (Option.some.inj heq)
  have hhost : H.parse (kindOf "https") (amazonBucketHost cfg bucket) = some (amazonBucketHost cfg bucket) := by
    rw [hkind, HostParser.parse, if_neg (by simpa using hne), if_pos (by decide), hspecial]
  -- what is written behind the host is read as it is
  have hurl : ∀ rest, (∀ c ∈ rest, c = '/' ∨ pathSet c = false) → ∃ url,
      parse H ("https://".toList ++ (amazonBucketHost cfg bucket ++ '/' :: rest)) = some url ∧
      url.hostText = some (amazonBucketHost cfg bucket) ∧ url.path = .segments (pathState .special rest) := by
    intro rest hrest
    have hscheme : String.ofList (['h', 't', 't', 'p', 's'].map Char.toLower) = "https" := by decide
    have hparse := parse_authority (H := H) (by decide) (Text.forall_mem_of_all (by decide)) hscheme (by decide) hne
      hplain rest
    rw [hhost, Option.map_some, hkind] at hparse
    refine ⟨_, hparse, Option.filter_eq_some_iff.mpr ⟨rfl, decide_eq_true hne⟩, ?_⟩
    show Path.segments (pathState .special (keyRest rest)) = _
    rw [keyRest_eq_self hrest]
  have hkey : ∀ c ∈ readKey key, c = '/' ∨ pathSet c = false := fun c hc => of_mem_readKey hc
  cases hstyle : cfg.pathStyle with
  | true =>
      have hrest : ∀ c ∈ bucket ++ '/' :: readKey key, c = '/' ∨ pathSet c = false := by
        intro c hc
        rcases List.mem_append.mp hc with hc | hc
        · exact .inr (of_isBucketChar (hbucket.chars c hc) .other).2.1
        · rcases List.mem_cons.mp hc with rfl | hc
          · exact .inl rfl
          · exact hkey c hc
      obtain ⟨url, hparse, hhostText, hpath⟩ := hurl _ hrest
      have htext : amazonBucketHost cfg bucket = amazonHost cfg.region := by
        rw [amazonBucketHost, bucketHost, hstyle]
        rfl
      refine ⟨url, ?_, hhostText, ?_⟩
      · unfold objectUrl
        rw [htext] at hparse
        simp only [hcfg, hstyle, if_true, hparse]
      · rw [hpath, pathState, hbucket.splitOnP, amazonPath, hstyle, if_pos rfl]
        exact congrArg Path.segments ((hbucket.normalized normalized_nil).foldPath_append _)
  | false =>
      obtain ⟨url, hparse, hhostText, hpath⟩ := hurl _ hkey
      have htext : amazonBucketHost cfg bucket = bucket ++ '.' :: amazonHost cfg.region := by
        rw [amazonBucketHost, bucketHost, hstyle]
        rfl
      refine ⟨url, ?_, hhostText, ?_⟩
      · unfold objectUrl
        rw [htext] at hparse
        simp only [hcfg, hstyle, Bool.false_eq_true, if_false, hparse]
      · rw [hpath, pathState, amazonPath, hstyle]
        rfl

/-- A host that comes back is a host. -/
theorem special_of_objectUrl (hH : H.Standard) (hcfg : cfg.endpoint = none) {obj : ObjectRef} {url : Url}
    {host : List Char} (hurl : objectUrl H cfg obj = .ok url) (hhost : url.hostText = some host) :
    H.special host = some host := by
  obtain ⟨rest, hparse⟩ : ∃ rest, parse H (['h', 't', 't', 'p', 's'] ++ ':' :: rest) = some url := by
    unfold objectUrl at hurl
    rw [hcfg] at hurl
    simp only at hurl
    split at hurl
    · cases hurl
    · rename_i url' hparse
      obtain rfl := Except.ok.inj hurl
      split at hparse
      · exact ⟨_, hparse⟩
      · exact ⟨_, hparse⟩
  have hscheme : url.scheme = "https" :=
    scheme_of_parse (by decide) (Text.forall_mem_of_all (by decide)) (by decide) (by decide) hparse
  have hspecial : url.kind.isSpecial = true := by
    rw [kind, hscheme]
    decide
  obtain ⟨cs, hcs⟩ := ((wellFormed_of_parse hparse).host host hhost).2 hspecial
  exact hH.idempotent hcs

/-- **At an endpoint with path style, the key is read again behind the base path and the bucket.** -/
theorem objectUrl_endpoint (hbucket : ValidBucket bucket) {endpoint : List Char} (hcfg : cfg.endpoint = some endpoint)
    (hstyle : cfg.pathStyle = true) {base : Url} (hbase : parse H endpoint = some base) {host : List Char}
    (hhost : base.hostText = some host) :
    ∃ url path, objectUrl H cfg ⟨bucket, readKey key⟩ = .ok url ∧ url.hostText = some host ∧ path ≠ [] ∧
      decodedPath path = basePath H cfg ++ bytes ('/' :: bucket) ∧
      url.path = .segments (foldPath base.kind path ((readKey key).splitOnP (isSeparator base.kind))) := by
  have hwell := wellFormed_of_parse hbase
  obtain ⟨segs, hsegs⟩ := (hwell.host host hhost).1
  have hnormal := hwell.path segs hsegs
  -- the base path, without the empty segments at its end
  have hfront : Normalized base.kind (segs.rdropWhile List.isEmpty) :=
    hnormal.front (List.rdropWhile_prefix _ segs)
  have htext : base.pathText.rdropWhile (· = '/') = joinPath (segs.rdropWhile List.isEmpty) := by
    rw [pathText, hsegs]
    refine rdropWhile_joinPath fun seg hseg hmem => ?_
    exact (isSeparator_eq_false_iff.mp ((hnormal.segments seg hseg).2 _ hmem).2).1 rfl
  have hencoded : ∀ c ∈ joinPath (segs.rdropWhile List.isEmpty) ++ '/' :: (bucket ++ '/' :: readKey key),
      c = '/' ∨ pathSet c = false := by
    intro c hc
    simp only [List.mem_append, List.mem_cons] at hc
    rcases hc with hc | hc | hc | hc | hc
    · obtain ⟨seg, hseg, hc⟩ := List.mem_flatMap.mp hc
      rcases List.mem_cons.mp hc with rfl | hc
      · exact .inl rfl
      · exact .inr ((hfront.segments seg hseg).2 c hc).1
    · exact .inl hc
    · exact .inr (of_isBucketChar (hbucket.chars c hc) .other).2.1
    · exact .inl hc
    · exact of_mem_readKey hc
  have hfilter : (joinPath (segs.rdropWhile List.isEmpty) ++ '/' :: (bucket ++ '/' :: readKey key)).filter
      (!isTabOrNewline ·) = joinPath (segs.rdropWhile List.isEmpty) ++ '/' :: (bucket ++ '/' :: readKey key) :=
    filter_eq_self_of_noTabs fun c hc => (of_encoded (hencoded c hc)).2.1
  refine ⟨base.setPath (base.pathText.rdropWhile (· = '/') ++ '/' :: (bucket ++ '/' :: readKey key)),
    segs.rdropWhile List.isEmpty ++ [bucket], ?_, ?_, by simp, ?_, ?_⟩
  · unfold objectUrl
    simp only [hcfg, hbase, hstyle, if_true]
  · rw [← hhost, setPath, hsegs]
    rfl
  · rw [decodedPath_append, decodedPath_cons, decodedPath_nil, List.append_nil, hbucket.percentDecode, basePath,
      hcfg, Option.bind_some, hbase]
    simp only [htext, percentDecode_joinPath]
    rfl
  · have hpath := pathStart_joinPath (fun seg hseg c hc => ((hfront.segments seg hseg).2 c hc).2)
      (bucket ++ '/' :: readKey key)
    have hassoc : segs.rdropWhile List.isEmpty ++ bucket :: (readKey key).splitOnP (isSeparator base.kind) =
        (segs.rdropWhile List.isEmpty ++ [bucket]) ++ (readKey key).splitOnP (isSeparator base.kind) := by simp
    rw [hbucket.splitOnP, hassoc, (hbucket.normalized hfront).foldPath_append] at hpath
    rw [htext, setPath, hsegs]
    simp only [hfilter]
    rw [if_neg (by simp), ← hpath]

/-! ### Faithful addresses -/

/-- The path of a URL in which the key is read behind some segments stands for the key exactly if it is kept. -/
theorem percentDecode_pathText_iff (hkey : key ≠ []) (hdrive : k = .file → path ≠ []) {url : Url}
    (hpath : url.path = .segments (foldPath k path ((readKey key).splitOnP (isSeparator k)))) :
    readKey key ≠ [] ∧ percentDecode url.pathText = decodedPath path ++ bytes ('/' :: key) ↔ KeyKept k key := by
  rw [pathText, hpath]
  show _ ∧ percentDecode (joinPath _) = _ ↔ _
  rw [percentDecode_joinPath]
  constructor
  · intro h
    exact keyKept_of_decodedPath h.1 hdrive h.2
  · intro h
    refine ⟨?_, h.decodedPath hdrive⟩
    rw [h.readKey]
    obtain ⟨c, cs, rfl⟩ := List.exists_cons_of_ne_nil hkey
    rw [percentEncode_cons, encodeChar]
    split
    · obtain ⟨b, bs, hb⟩ := List.exists_cons_of_ne_nil (@String.utf8EncodeChar_ne_nil c)
      rw [hb]
      exact List.cons_ne_nil _ _
    · exact List.cons_ne_nil _ _

/-- **At an endpoint with path style, the URL is faithful exactly for the keys that are kept.** -/
theorem faithful_endpoint_iff (hbucket : ValidBucket bucket) (hkey : key ≠ []) {endpoint : List Char}
    (hcfg : cfg.endpoint = some endpoint) (hstyle : cfg.pathStyle = true) :
    Faithful H configuredScheme cfg bucket key ↔
      ∃ base host, parse H endpoint = some base ∧ base.hostText = some host ∧ KeyKept base.kind key := by
  have hexpected : ∀ path, decodedPath path = basePath H cfg ++ bytes ('/' :: bucket) →
      objectPath H cfg bucket key = decodedPath path ++ bytes ('/' :: key) := by
    intro path hpath
    rw [objectPath, hstyle, if_pos rfl, hpath, bytes_slash, bytes_slash, bytes_append, List.append_assoc]
    rfl
  have hhosts : ∀ host, bucketHost cfg bucket host = host := by
    intro host
    rw [bucketHost, hstyle]
    rfl
  constructor
  · rintro ⟨url, host, hrequest, hconfigured, -, hdecoded⟩
    rw [configuredHost, hcfg] at hconfigured
    obtain ⟨base, hbase, hhost⟩ := Option.bind_eq_some_iff.mp hconfigured
    obtain ⟨hread, hurl⟩ := (requestUrl_eq_ok_iff hbucket).mp hrequest
    obtain ⟨url', path, hurl', -, hne, hpath, hread'⟩ := objectUrl_endpoint hbucket hcfg hstyle hbase hhost
    obtain rfl := Except.ok.inj (hurl.symm.trans hurl')
    rw [hexpected path hpath] at hdecoded
    exact ⟨base, host, hbase, hhost, (percentDecode_pathText_iff hkey (fun _ => hne) hread').mp ⟨hread, hdecoded⟩⟩
  · rintro ⟨base, host, hbase, hhost, hkept⟩
    obtain ⟨url, path, hurl, hhostText, hne, hpath, hread⟩ := objectUrl_endpoint hbucket hcfg hstyle hbase hhost
    obtain ⟨hkeyRead, hdecoded⟩ := (percentDecode_pathText_iff hkey (fun _ => hne) hread).mpr hkept
    refine ⟨url, host, (requestUrl_eq_ok_iff hbucket).mpr ⟨hkeyRead, hurl⟩, ?_, ?_, ?_⟩
    · rw [configuredHost, hcfg]
      exact Option.bind_eq_some_iff.mpr ⟨base, hbase, hhost⟩
    · rw [hhostText, hhosts]
    · rw [hdecoded, hexpected path hpath]

/-- **At Amazon, the URL is faithful exactly for hosts that are hosts and keys that are kept.** -/
theorem faithful_amazon_iff (hH : H.Standard) (hbucket : ValidBucket bucket) (hkey : key ≠ [])
    (hcfg : cfg.endpoint = none) :
    Faithful H configuredScheme cfg bucket key ↔
      H.special (amazonBucketHost cfg bucket) = some (amazonBucketHost cfg bucket) ∧ KeyKept .special key := by
  have hnoFile : Kind.special = .file → amazonPath cfg bucket ≠ [] := fun h => absurd h (by decide)
  have hexpected : objectPath H cfg bucket key = decodedPath (amazonPath cfg bucket) ++ bytes ('/' :: key) := by
    unfold objectPath amazonPath
    split
    · rw [basePath, hcfg, decodedPath_cons, decodedPath_nil, hbucket.percentDecode, bytes_slash, bytes_append,
        List.append_nil]
      rfl
    · rfl
  constructor
  · rintro ⟨url, host, hrequest, hconfigured, hhost, hdecoded⟩
    obtain ⟨hread, hurl⟩ := (requestUrl_eq_ok_iff hbucket).mp hrequest
    obtain rfl : amazonHost cfg.region = host := by
      rw [configuredHost, hcfg] at hconfigured
      exact Option.some.inj hconfigured
    have hspecial := special_of_objectUrl hH hcfg hurl hhost
    obtain ⟨url', hurl', -, hpath⟩ := objectUrl_amazon hH hbucket hcfg hspecial
    obtain rfl := Except.ok.inj (hurl.symm.trans hurl')
    rw [hexpected] at hdecoded
    exact ⟨hspecial, (percentDecode_pathText_iff hkey hnoFile hpath).mp ⟨hread, hdecoded⟩⟩
  · rintro ⟨hspecial, hkept⟩
    obtain ⟨url, hurl, hhost, hpath⟩ := objectUrl_amazon hH hbucket hcfg hspecial
    obtain ⟨hread, hdecoded⟩ := (percentDecode_pathText_iff hkey hnoFile hpath).mpr hkept
    refine ⟨url, amazonHost cfg.region, (requestUrl_eq_ok_iff hbucket).mpr ⟨hread, hurl⟩, ?_, hhost, ?_⟩
    · rw [configuredHost, hcfg]
    · rw [hdecoded, hexpected]

/-- No host of a special URL is a bucket before another such host. -/
theorem special_bucket_ne (hH : H.Standard) (hbucket : ValidBucket bucket) {host cs : List Char}
    (hhost : H.special cs = some host) : H.special bucket ≠ some (bucket ++ '.' :: host) := by
  intro hspecial
  rcases hH.name hbucket.chars hspecial with heq | hnumber
  · have hlength := congrArg List.length heq
    rw [List.length_append, List.length_cons] at hlength
    omega
  · -- both would be addresses of four numbers
    have hlabels : (bucket ++ '.' :: host).splitOn '.' = bucket.splitOn '.' ++ host.splitOn '.' :=
      List.splitOn_append_cons_self bucket host
    have hnumberHost : endsInNumber host = true := by
      rw [endsInNumber, hlabels, List.getLast?_append_of_ne_nil _ (List.splitOn_ne_nil '.' host)] at hnumber
      exact hnumber
    have hfour := hH.address hspecial hnumber
    rw [hlabels, List.length_append, hH.address hhost hnumberHost] at hfour
    have hpos := List.length_pos_of_ne_nil (List.splitOn_ne_nil '.' bucket)
    omega

/-- **At an endpoint with virtual hosts, no URL is faithful**: the bucket takes the place of the host. -/
theorem not_faithful_virtual (hH : H.Standard) (hbucket : ValidBucket bucket) {endpoint : List Char}
    (hcfg : cfg.endpoint = some endpoint) (hstyle : cfg.pathStyle = false) :
    ¬ Faithful H configuredScheme cfg bucket key := by
  rintro ⟨url, host, hrequest, hconfigured, hhost, -⟩
  obtain ⟨-, hurl⟩ := (requestUrl_eq_ok_iff hbucket).mp hrequest
  rw [configuredHost, hcfg] at hconfigured
  obtain ⟨base, hbase, hbaseHost⟩ := Option.bind_eq_some_iff.mp hconfigured
  -- the host is what the bucket is parsed to
  have hparsed : H.parse base.kind bucket = some (bucket ++ '.' :: host) := by
    unfold objectUrl at hurl
    simp only [hcfg, hbase, hstyle, Bool.false_eq_true, if_false] at hurl
    split at hurl
    · cases hurl
    · rename_i withHost hset
      obtain rfl := Except.ok.inj hurl
      rw [bucketHost, hstyle, hostText_setPath] at hhost
      exact parse_of_setHost hbucket.ne_nil (fun c hc => (of_isBucketChar (hbucket.chars c hc) .other).1) hset hhost
  cases hkind : base.kind.isSpecial with
  | false =>
      have hother : base.kind = .other := by
        cases hk : base.kind with
        | other => rfl
        | special => rw [hk] at hkind; cases hkind
        | file => rw [hk] at hkind; cases hkind
      rw [hother, hbucket.parse] at hparsed
      have hlength := congrArg List.length (Option.some.inj hparsed)
      rw [List.length_append, List.length_cons] at hlength
      omega
  | true =>
      obtain ⟨cs, hcs⟩ := ((wellFormed_of_parse hbase).host host hbaseHost).2 hkind
      rw [HostParser.parse, if_neg (by simpa using hbucket.ne_nil), if_pos hkind] at hparsed
      exact special_bucket_ne hH hbucket hcs hparsed

/-- Two objects of one configuration have different URLs, if these are faithful. -/
theorem Faithful.injective {bucket' key' : List Char} (hbucket : ValidBucket bucket) (hbucket' : ValidBucket bucket')
    (h : Faithful H configuredScheme cfg bucket key) (h' : Faithful H configuredScheme cfg bucket' key')
    (hurl : requestUrl H configuredScheme cfg bucket key = requestUrl H configuredScheme cfg bucket' key') :
    bucket = bucket' ∧ key = key' := by
  obtain ⟨url, host, hrequest, hconfigured, hhost, hpath⟩ := h
  obtain ⟨url', host', hrequest', hconfigured', hhost', hpath'⟩ := h'
  obtain rfl := Except.ok.inj (hrequest.symm.trans (hurl.trans hrequest'))
  obtain rfl := Option.some.inj (hconfigured.symm.trans hconfigured')
  rw [hhost] at hhost'
  have hhosts := Option.some.inj hhost'
  have hpaths := hpath.symm.trans hpath'
  unfold bucketHost at hhosts
  unfold objectPath at hpaths
  cases hstyle : cfg.pathStyle with
  | true =>
      -- the bucket is the first segment behind the base path
      rw [hstyle, if_pos rfl, if_pos rfl] at hpaths
      have htexts := bytes_injective (List.append_cancel_left hpaths)
      have hsplit := congrArg (List.splitOnP (isSeparator .other)) (List.cons.inj htexts).2
      rw [hbucket.splitOnP, hbucket'.splitOnP] at hsplit
      obtain ⟨rfl, -⟩ := List.cons.inj hsplit
      exact ⟨rfl, (List.cons.inj (List.append_cancel_left (List.cons.inj htexts).2)).2⟩
  | false =>
      -- the bucket is the first part of the host
      rw [hstyle, if_neg (by decide), if_neg (by decide)] at hhosts hpaths
      have hkeys := (List.cons.inj (bytes_injective hpaths)).2
      have hlength := congrArg List.length hhosts
      rw [List.length_append, List.length_append] at hlength
      exact ⟨(List.append_inj hhosts (by omega)).1, hkeys⟩

end

/-- **The URL of an object is faithful exactly if the configuration has a host for its bucket and keeps its
key**; and objects with such keys have different URLs. -/
theorem faithful_iff {H : HostParser} (hH : H.Standard) (configuredScheme : String) (cfg : S3Props)
    {bucket key : List Char} (hbucket : ValidBucket bucket) (hkey : key ≠ []) :
    (Faithful H configuredScheme cfg bucket key ↔ Addressable H cfg bucket key) ∧
    ∀ bucket' key', ValidBucket bucket' → key' ≠ [] → Addressable H cfg bucket key →
      Addressable H cfg bucket' key' →
      requestUrl H configuredScheme cfg bucket key = requestUrl H configuredScheme cfg bucket' key' →
      bucket = bucket' ∧ key = key' := by
  have hiff : ∀ bucket key, ValidBucket bucket → key ≠ [] →
      (Faithful H configuredScheme cfg bucket key ↔ Addressable H cfg bucket key) := by
    intro bucket key hbucket hkey
    unfold Addressable
    split
    · rename_i endpoint hcfg
      cases hstyle : cfg.pathStyle with
      | true =>
          rw [faithful_endpoint_iff hbucket hkey hcfg hstyle]
          exact ⟨fun h => ⟨rfl, h⟩, fun h => h.2⟩
      | false =>
          refine ⟨fun h => absurd h (not_faithful_virtual hH hbucket hcfg hstyle), fun h => ?_⟩
          cases h.1
    · rename_i hcfg
      exact faithful_amazon_iff hH hbucket hkey hcfg
  refine ⟨hiff bucket key hbucket hkey, fun bucket' key' hbucket' hkey' h h' hurl => ?_⟩
  exact Faithful.injective hbucket hbucket' ((hiff bucket key hbucket hkey).mpr h)
    ((hiff bucket' key' hbucket' hkey').mpr h') hurl

/-! ### Two keys -/

/-- A host parser for names of lower-case letters, digits, hyphens and periods that are no addresses. -/
def nameParser : HostParser where
  special cs := if !cs.isEmpty && cs.all isBucketChar && !endsInNumber cs then some cs else none
  ipv6 _ := none

theorem nameParser_special {cs host : List Char} (h : nameParser.special cs = some host) :
    host = cs ∧ (∀ c ∈ cs, isBucketChar c = true) ∧ endsInNumber cs = false := by
  unfold nameParser at h
  simp only at h
  split at h
  · rename_i hname
    rw [Bool.and_eq_true, Bool.and_eq_true, List.all_eq_true, Bool.not_eq_true' (endsInNumber cs)] at hname
    exact ⟨(Option.some.inj h).symm, hname.1.2, hname.2⟩
  · cases h

theorem nameParser_standard : nameParser.Standard where
  idempotent := by
    intro cs host h
    obtain ⟨rfl, -⟩ := nameParser_special h
    exact h
  forbidden := by
    intro cs host h
    obtain ⟨rfl, hchars, -⟩ := nameParser_special h
    exact .inr fun c hc => (of_isBucketChar (hchars c hc) .other).1
  address := by
    intro cs host h hnumber
    obtain ⟨rfl, -, hname⟩ := nameParser_special h
    rw [hname] at hnumber
    cases hnumber
  name := by
    intro cs host _ h
    exact .inl (nameParser_special h).1

/-- A region of Amazon, with virtual hosts. -/
def regionProps : S3Props := ⟨none, "eu-central-1".toList, false⟩

theorem validBucket_lake : ValidBucket "lake".toList where
  length := by decide
  chars := Text.forall_mem_of_all (by decide)
  ends := by
    intro c h
    rcases h with h | h
    · obtain rfl := Option.some.inj h
      decide
    · obtain rfl := Option.some.inj h
      decide
  periods := by decide
  notAddress := by decide

/-- A key with a space is encoded, and stands for itself. -/
theorem faithful_space : Faithful nameParser "s3" regionProps "lake".toList "db/day=1 May/f.parquet".toList := by
  refine (faithful_iff nameParser_standard "s3" regionProps validBucket_lake
    (by decide : "db/day=1 May/f.parquet".toList ≠ [])).1.mpr ⟨by decide, ?_⟩
  exact ⟨by decide, by decide, by decide, Text.forall_mem_getLast_of_all (by decide),
    Text.forall_mem_of_all (by decide), by decide⟩

/-- A key with a literal `%20` has the URL of the key with a space; and at an endpoint with virtual hosts the
bucket takes the place of the host. -/
theorem not_faithful_triplet :
    ¬ Faithful nameParser "s3" regionProps "lake".toList "db/day=1%20May/f.parquet".toList ∧
      (requestUrl nameParser "s3" regionProps "lake".toList "db/day=1%20May/f.parquet".toList).toOption =
        (requestUrl nameParser "s3" regionProps "lake".toList "db/day=1 May/f.parquet".toList).toOption ∧
      ((requestUrl nameParser "s3" ⟨some "https://minio.example:9000".toList, [], false⟩ "lake".toList
        "f.parquet".toList).toOption.bind hostText) = some "lake".toList := by
  refine ⟨fun h => ?_, by decide +kernel, by decide⟩
  have hkept := ((faithful_amazon_iff nameParser_standard validBucket_lake (by decide) rfl).mp h).2
  exact absurd hkept.noTriplet (by decide)

end IcebergDb.Catalog
