import IcebergDb.Catalog.RestAuth
import IcebergDb.Catalog.S3Address
import IcebergDb.Foundation.Uppercase
import IcebergDb.Foundation.UrlExtend

/-!
# The endpoints of a REST catalog

`table_endpoint` and `tables_list_endpoint` write the namespace and the name of a table, upper-cased, into a URL as
they are.

* `tablesListEndpoint`, `catalogRoot` — the source, and what both endpoints begin with (`tableEndpoint_eq`,
  `tablesListEndpoint_eq`);
* `FaithfulEndpoint` — both endpoints are below the same database, and their segments give the identifier back;
* `PlainIdentifier` — an identifier that is left alone by upper-casing and by reading the URL;
* `faithfulEndpoint_iff` — **the endpoint is faithful exactly for such identifiers, below a database without query
  and fragment**, and two such tables have different URLs.
-/

namespace IcebergDb.Catalog

open Text Percent Url Utf8

/-! ### The source -/

/-- `tables_list_endpoint`. -/
def tablesListEndpoint (env : HttpEnv) (uri : String) (namespaceParts : List String) (props : Props) : String :=
  let base := trimEndMatches '/' uri
  let ns := env.toUppercase ("\x1f".intercalate namespaceParts)
  let db := ((props.get "warehouse").or (props.get "prefix")).filter
    fun w => w ≠ "" && !contains "://" w
  match isSnowflakeHorizonUri uri, db, props.getNonempty "prefix" with
  | true, some db, _ => base ++ "/v1/" ++ env.toUppercase db ++ "/namespaces/" ++ ns ++ "/tables"
  | _, _, some pre => base ++ "/v1/" ++ trimMatches '/' pre ++ "/namespaces/" ++ ns ++ "/tables"
  | _, _, none => base ++ "/v1/namespaces/" ++ ns ++ "/tables"

/-- The part of both endpoints that names the catalog and the database. -/
def catalogRoot (env : HttpEnv) (uri : String) (props : Props) : String :=
  let base := trimEndMatches '/' uri
  let db := ((props.get "warehouse").or (props.get "prefix")).filter
    fun w => w ≠ "" && !contains "://" w
  match isSnowflakeHorizonUri uri, db, props.getNonempty "prefix" with
  | true, some db, _ => base ++ "/v1/" ++ env.toUppercase db
  | _, _, some pre => base ++ "/v1/" ++ trimMatches '/' pre
  | _, _, none => base ++ "/v1"

section

variable (env : HttpEnv) (uri : String) (props : Props)

theorem namespaces_eq : "/v1/namespaces/" = "/v1" ++ "/namespaces/" := by decide

/-- Both endpoints begin with the same database. -/
theorem tablesListEndpoint_eq (namespaceParts : List String) :
    tablesListEndpoint env uri namespaceParts props =
      catalogRoot env uri props ++ "/namespaces/" ++ env.toUppercase ("\x1f".intercalate namespaceParts) ++
        "/tables" := by
  unfold tablesListEndpoint catalogRoot
  simp only
  split
  · rfl
  · rfl
  · rw [namespaces_eq, ← String.append_assoc]

theorem tableEndpoint_eq (table : TableIdent) :
    tableEndpoint env uri table props =
      catalogRoot env uri props ++ "/namespaces/" ++ env.toUppercase ("\x1f".intercalate table.namespaceParts) ++
        "/tables/" ++ env.toUppercase table.name := by
  unfold tableEndpoint catalogRoot
  simp only
  generalize ((props.get "warehouse").or (props.get "prefix")).filter _ = db
  generalize isSnowflakeHorizonUri uri = horizon
  cases props.getNonempty "prefix" with
  | none =>
      cases horizon with
      | false => simp only [namespaces_eq, ← String.append_assoc]
      | true =>
          cases db with
          | none => simp only [namespaces_eq, ← String.append_assoc]
          | some db => simp only
  | some pre =>
      cases horizon with
      | false => simp only
      | true =>
          cases db with
          | none => simp only
          | some db => simp only

end

/-! ### Identifiers that are given back -/

/-- `to_url_string`. -/
def namespaceText (parts : List String) : String := "\x1f".intercalate parts

/-- The namespace of a text. -/
def splitNamespace (s : String) : List String := (s.toList.splitOn '\x1f').map String.ofList

/-- How identifiers are compared: up to upper-casing at Snowflake Horizon. -/
def compareKey (env : HttpEnv) (uri s : String) : String :=
  if isSnowflakeHorizonUri uri then env.toUppercase s else s

/-- The tables have the same identifier. -/
structure SameIdentifier (env : HttpEnv) (uri : String) (a b : TableIdent) : Prop where
  namespaceParts : a.namespaceParts.map (compareKey env uri) = b.namespaceParts.map (compareKey env uri)
  name : compareKey env uri a.name = compareKey env uri b.name

/-- The path of a URL. -/
def endpointPath (H : HostParser) (text : String) : Option (List Segment) :=
  (parse H text.toList).bind fun u =>
    match u.path with
    | .segments path => some path
    | .text _ => none

/-- The segments after `namespaces` and `tables` give back the identifier, and both endpoints are in the same
database. -/
def FaithfulEndpoint (env : HttpEnv) (H : HostParser) (uri : String) (props : Props) (table : TableIdent) : Prop :=
  ∃ root ns name,
    endpointPath H (catalogRoot env uri props ++ "/namespaces") = some (root ++ ["namespaces".toList]) ∧
    endpointPath H (tablesListEndpoint env uri table.namespaceParts props) =
      some (root ++ ["namespaces".toList, ns, "tables".toList]) ∧
    endpointPath H (tableEndpoint env uri table props) =
      some (root ++ ["namespaces".toList, ns, "tables".toList, name]) ∧
    ∃ nsText nameText : String, percentDecode ns = bytes nsText.toList ∧
      percentDecode name = bytes nameText.toList ∧
      SameIdentifier env uri ⟨splitNamespace nsText, nameText⟩ table

/-- Upper-casing, and reading the URL, leave the identifier alone. -/
structure PlainIdentifier (env : HttpEnv) (uri : String) (k : Kind) (table : TableIdent) : Prop where
  ns : PlainSegment k (env.toUppercase (namespaceText table.namespaceParts)).toList
  name : PlainSegment k (env.toUppercase table.name).toList
  stop : ∀ c ∈ (env.toUppercase table.name).toList.getLast?, isC0OrSpace c = false
  nonempty : table.namespaceParts ≠ []
  parts : ∀ part ∈ table.namespaceParts, '\x1f' ∉ part.toList
  upper : isSnowflakeHorizonUri uri = false →
    env.toUppercase table.name = table.name ∧ ∀ part ∈ table.namespaceParts, env.toUppercase part = part

/-- The database is a path of a URL without query and fragment, and the identifier is plain there. -/
def Locatable (env : HttpEnv) (H : HostParser) (uri : String) (props : Props) (table : TableIdent) : Prop :=
  ∃ u root, parse H (catalogRoot env uri props ++ "/namespaces").toList = some u ∧
    u.path = .segments (root ++ ["namespaces".toList]) ∧ u.query = none ∧ u.fragment = none ∧
    PlainIdentifier env uri u.kind table

/-! ### Below the database -/

section

variable {env : HttpEnv} {H : HostParser} {uri : String} {props : Props} {table : TableIdent} {u : Url}
  {k : Kind} {root : List Segment}

theorem endpointPath_eq_some_iff {text : String} {path : List Segment} :
    endpointPath H text = some path ↔ ∃ u, parse H text.toList = some u ∧ u.path = .segments path := by
  unfold endpointPath
  rw [Option.bind_eq_some_iff]
  refine exists_congr fun u => and_congr_right fun _ => ?_
  cases u.path with
  | segments path' =>
      constructor
      · intro h
        rw [Option.some.inj h]
      · intro h
        rw [Path.segments.inj h]
  | text cs =>
      constructor
      · intro h
        cases h
      · intro h
        cases h

/-- What stands behind `/namespaces` in an endpoint. -/
def listRest (env : HttpEnv) (table : TableIdent) : List Char :=
  (env.toUppercase (namespaceText table.namespaceParts)).toList ++ '/' :: "tables".toList

def tableRest (env : HttpEnv) (table : TableIdent) : List Char :=
  (env.toUppercase (namespaceText table.namespaceParts)).toList ++
    '/' :: ("tables".toList ++ '/' :: (env.toUppercase table.name).toList)

/-- Both endpoints go on behind `/namespaces`. -/
theorem exists_endpoints (env : HttpEnv) (uri : String) (props : Props) (table : TableIdent) :
    ∃ pre, (catalogRoot env uri props ++ "/namespaces").toList = pre ++ ['s'] ∧
      (tablesListEndpoint env uri table.namespaceParts props).toList = pre ++ 's' :: '/' :: listRest env table ∧
      (tableEndpoint env uri table props).toList = pre ++ 's' :: '/' :: tableRest env table := by
  have hnamespaces : "/namespaces".toList = "/namespace".toList ++ ['s'] := by decide
  have hslash : "/namespaces/".toList = "/namespace".toList ++ ['s', '/'] := by decide
  have htables : "/tables".toList = '/' :: "tables".toList := by decide
  have htablesSlash : "/tables/".toList = '/' :: ("tables".toList ++ ['/']) := by decide
  refine ⟨(catalogRoot env uri props).toList ++ "/namespace".toList, ?_, ?_, ?_⟩
  · rw [String.toList_append, hnamespaces, List.append_assoc]
  · rw [tablesListEndpoint_eq, String.toList_append, String.toList_append, String.toList_append, hslash, htables]
    simp only [listRest, namespaceText, List.append_assoc, List.cons_append, List.nil_append]
  · rw [tableEndpoint_eq, String.toList_append, String.toList_append, String.toList_append, String.toList_append,
      hslash, htablesSlash]
    simp only [tableRest, namespaceText, List.append_assoc, List.cons_append, List.nil_append]

theorem plainSegment_tables (k : Kind) : PlainSegment k "tables".toList := by
  cases k with
  | special => exact ⟨by decide, by decide, forall_mem_of_all (by decide)⟩
  | file => exact ⟨by decide, by decide, forall_mem_of_all (by decide)⟩
  | other => exact ⟨by decide, by decide, forall_mem_of_all (by decide)⟩

theorem pathRest_tables (k : Kind) : (pathRest "tables".toList).splitOnP (isSeparator k) = ["tables".toList] :=
  (plainSegment_tables k).chars.splitOnP

/-- The segments of the endpoints. -/
theorem splitOnP_listRest (h : PlainChars k (env.toUppercase (namespaceText table.namespaceParts)).toList) :
    (pathRest (listRest env table)).splitOnP (isSeparator k) =
      [(env.toUppercase (namespaceText table.namespaceParts)).toList, "tables".toList] := by
  rw [listRest, h.splitOnP_append, pathRest_tables]

theorem splitOnP_tableRest (h : PlainChars k (env.toUppercase (namespaceText table.namespaceParts)).toList) :
    (pathRest (tableRest env table)).splitOnP (isSeparator k) =
      (env.toUppercase (namespaceText table.namespaceParts)).toList :: "tables".toList ::
        (pathRest (env.toUppercase table.name).toList).splitOnP (isSeparator k) := by
  rw [tableRest, h.splitOnP_append, (plainSegment_tables k).chars.splitOnP_append]

/-! ### Plain identifiers are given back -/

theorem percentEncode_tables : percentEncode pathSet "tables".toList = "tables".toList := by decide

/-- Behind a segment, plain segments are put as they are encoded. -/
theorem foldPath_plain {path segs : List Segment} (hpath : path ≠ []) (hdots : ∀ seg ∈ segs, isDot seg = false) :
    foldPath k path segs = path ++ segs.map (percentEncode pathSet) :=
  foldPath_of_noDots hdots fun _ hnil => absurd hnil hpath

/-- The namespace is a text that gives back its parts. -/
theorem splitNamespace_intercalate {parts : List String} (hne : parts ≠ [])
    (hparts : ∀ part ∈ parts, '\x1f' ∉ part.toList) : splitNamespace (namespaceText parts) = parts := by
  have hlists : ∀ l ∈ parts.map String.toList, '\x1f' ∉ l := by
    intro l hl
    obtain ⟨part, hpart, rfl⟩ := List.mem_map.mp hl
    exact hparts part hpart
  unfold splitNamespace namespaceText
  rw [String.toList_intercalate]
  show (List.splitOn '\x1f' (['\x1f'].intercalate (parts.map String.toList))).map String.ofList = parts
  rw [List.splitOn_intercalate '\x1f' hlists (by simpa using hne), List.map_map]
  conv_rhs => rw [← List.map_id parts]
  exact List.map_congr_left fun part _ => String.ofList_toList

theorem namespaceText_splitNamespace (s : String) : namespaceText (splitNamespace s) = s := by
  have hlists : (splitNamespace s).map String.toList = s.toList.splitOn '\x1f' := by
    unfold splitNamespace
    rw [List.map_map]
    conv_rhs => rw [← List.map_id (s.toList.splitOn '\x1f')]
    exact List.map_congr_left fun l _ => String.toList_ofList
  unfold namespaceText
  rw [← String.toList_inj, String.toList_intercalate, hlists]
  exact List.intercalate_splitOn '\x1f'

/-- Namespaces are upper-cased part by part. -/
theorem toUppercase_namespaceText (henv : Uppercase env.toUppercase) (parts : List String) :
    env.toUppercase (namespaceText parts) = namespaceText (parts.map env.toUppercase) :=
  henv.intercalate (x := '\x1f') (by decide) (by decide) parts

/-- An identifier is compared with its upper-casing as with itself, if it is plain. -/
theorem compareKey_toUppercase (henv : Uppercase env.toUppercase) {s : String}
    (hs : isSnowflakeHorizonUri uri = false → env.toUppercase s = s) :
    compareKey env uri (env.toUppercase s) = compareKey env uri s := by
  unfold compareKey
  cases hhorizon : isSnowflakeHorizonUri uri with
  | true => exact henv.idempotent s
  | false => exact hs hhorizon

/-- **A plain identifier is the one that its upper-cased text gives back.** -/
theorem PlainIdentifier.same (henv : Uppercase env.toUppercase) (h : PlainIdentifier env uri k table) :
    SameIdentifier env uri
      ⟨splitNamespace (env.toUppercase (namespaceText table.namespaceParts)), env.toUppercase table.name⟩ table where
  namespaceParts := by
    have hparts : ∀ part ∈ table.namespaceParts.map env.toUppercase, '\x1f' ∉ part.toList := by
      intro part hpart
      obtain ⟨raw, hraw, rfl⟩ := List.mem_map.mp hpart
      rw [(henv.sameSigns raw).mem_iff (by decide) (by decide)]
      exact h.parts raw hraw
    show (splitNamespace (env.toUppercase (namespaceText table.namespaceParts))).map (compareKey env uri) = _
    rw [toUppercase_namespaceText henv, splitNamespace_intercalate (by simpa using h.nonempty) hparts, List.map_map]
    exact List.map_congr_left fun part hpart =>
      compareKey_toUppercase henv fun hhorizon => (h.upper hhorizon).2 part hpart
  name := compareKey_toUppercase henv fun hhorizon => (h.upper hhorizon).1

/-- **Below a database, a plain identifier is given back.** -/
theorem FaithfulEndpoint.of_locatable (henv : Uppercase env.toUppercase) (h : Locatable env H uri props table) :
    FaithfulEndpoint env H uri props table := by
  obtain ⟨u, root, hu, hpath, hquery, hfragment, hplain⟩ := h
  obtain ⟨pre, hpre, hlist, htable⟩ := exists_endpoints env uri props table
  rw [hpre] at hu
  have hne : "namespaces".toList ≠ [] := by decide
  have hletter : isC0OrSpace 's' = false := by decide
  have hroot : root ++ ["namespaces".toList] ≠ [] := by simp
  obtain ⟨v, hv, hvpath⟩ := parse_append hletter hu hquery hfragment hpath hne (listRest env table)
  obtain ⟨w, hw, hwpath⟩ := parse_append hletter hu hquery hfragment hpath hne (tableRest env table)
  have htables : isDot "tables".toList = false := (plainSegment_tables u.kind).notDot
  rw [splitOnP_listRest hplain.ns.chars, foldPath_plain hroot] at hvpath
  · rw [splitOnP_tableRest hplain.ns.chars, hplain.name.chars.splitOnP, rdropWhile_eq_self_iff.mpr hplain.stop,
      foldPath_plain hroot] at hwpath
    · refine ⟨root, _, _, endpointPath_eq_some_iff.mpr ⟨u, by rw [hpre, hu], hpath⟩,
        endpointPath_eq_some_iff.mpr ⟨v, by rw [hlist, hv], ?_⟩,
        endpointPath_eq_some_iff.mpr ⟨w, by rw [htable, hw], ?_⟩,
        _, _, hplain.ns.percentDecode, hplain.name.percentDecode, hplain.same henv⟩
      · rw [hvpath, List.append_assoc, List.map_cons, List.map_cons, percentEncode_tables]
        rfl
      · rw [hwpath, List.append_assoc, List.map_cons, List.map_cons, percentEncode_tables]
        rfl
    · intro seg hseg
      simp only [List.mem_cons, List.not_mem_nil, or_false] at hseg
      rcases hseg with rfl | rfl | rfl
      · exact hplain.ns.notDot
      · exact htables
      · exact hplain.name.notDot
  · intro seg hseg
    simp only [List.mem_cons, List.not_mem_nil, or_false] at hseg
    rcases hseg with rfl | rfl
    · exact hplain.ns.notDot
    · exact htables

/-! ### Only plain identifiers are given back -/

/-- Characters that are cleaned are ASCII and no letters. -/
theorem of_isC0OrSpace {c : Char} (h : isC0OrSpace c = true) : c.toNat < 128 ∧ c.isAlpha = false := by
  have hle : c.toNat ≤ 32 := of_decide_eq_true h
  have hall : ∀ n ≤ 32, (Char.ofNat n).isAlpha = false := by decide
  have halpha := hall c.toNat hle
  rw [Char.ofNat_toNat] at halpha
  exact ⟨by omega, halpha⟩

/-- Texts with the same signs are plain together. -/
theorem plainChars_of_sameSigns {cs ds : List Char} (h : SameSigns cs ds) (hds : PlainChars k ds) :
    PlainChars k cs := by
  have hsign : ∀ {x : Char}, x.toNat < 128 → x.isAlpha = false → x ∈ cs → x ∈ ds := by
    intro x hascii hletter hmem
    exact (h.mem_iff hascii hletter).mp hmem
  intro c hc
  refine ⟨?_, ?_, ?_, ?_⟩
  · rw [Bool.eq_false_iff]
    intro htab
    obtain ⟨hascii, hletter⟩ := of_isC0OrSpace (isC0OrSpace_of_isTabOrNewline htab)
    rw [(hds c (hsign hascii hletter hc)).1] at htab
    cases htab
  · rintro rfl
    exact (hds _ (hsign (by decide) (by decide) hc)).2.1 rfl
  · rintro rfl
    exact (hds _ (hsign (by decide) (by decide) hc)).2.2.1 rfl
  · rw [Bool.eq_false_iff]
    intro hsep
    have hmem : c ∈ ds := by
      rcases isSeparator_cases hsep with rfl | ⟨-, rfl⟩
      · exact hsign (by decide) (by decide) hc
      · exact hsign (by decide) (by decide) hc
    rw [(hds c hmem).2.2.2] at hsep
    cases hsep

/-- **A namespace that is given back is plain.** -/
theorem plainSegment_of_namespace {cs ds : List Char} {ns : Segment} (hsigns : SameSigns cs ds)
    (hfold : foldPath k (root ++ ["namespaces".toList])
        ((pathRest (cs ++ '/' :: "tables".toList)).splitOnP (isSeparator k)) =
      root ++ ["namespaces".toList, ns, "tables".toList])
    (hns : percentDecode ns = bytes ds) : PlainSegment k cs ∧ cs = ds ∧ ns = percentEncode pathSet cs := by
  have hroot : root ++ ["namespaces".toList] ≠ [] := by simp
  have hget : (root ++ ["namespaces".toList, ns, "tables".toList])[(root ++ ["namespaces".toList]).length]? =
      some ns := by simp
  have hpercent : cs.count '%' = ds.count '%' := hsigns '%' (by decide) (by decide)
  have htwo : cs.count '2' = ds.count '2' := hsigns '2' (by decide) (by decide)
  -- there are no such signs in what follows the namespace
  have hrest : ∀ x, ('/' :: "tables".toList).count x = 0 → (cs ++ '/' :: "tables".toList).count x = cs.count x := by
    intro x hx
    rw [List.count_append, hx, Nat.add_zero]
  have hplain : PlainChars k cs := by
    refine plainChars_of_sameSigns hsigns ?_
    refine chars_of_foldPath hroot ((congrArg (·[(root ++ ["namespaces".toList]).length]?) hfold).trans hget) le_rfl hns ?_ ?_
    · rw [hrest '%' (by decide), hpercent]
    · rw [hrest '2' (by decide), htwo]
  rw [hplain.splitOnP_append, pathRest_tables] at hfold
  have hdot : isDot cs = false := by
    have hlength : (root ++ ["namespaces".toList]).length + ["tables".toList].length <
        (foldPath k (root ++ ["namespaces".toList]) [cs, "tables".toList]).length := by
      rw [hfold]
      simp
    exact not_dot_of_length (List.cons_ne_nil _ _) hlength
  rw [foldPath_plain hroot] at hfold
  · rw [List.append_assoc] at hfold
    have hns' : percentEncode pathSet cs = ns := (List.cons.inj (List.cons.inj (List.append_cancel_left hfold)).2).1
    rw [← hns', percentDecode_percentEncode pathSet_leavesTriplets] at hns
    obtain ⟨hno, heq⟩ := eq_of_percentDecode hns hpercent.le htwo.le
    exact ⟨⟨hno, hdot, hplain⟩, heq, hns'.symm⟩
  · intro seg hseg
    simp only [List.mem_cons, List.not_mem_nil, or_false] at hseg
    rcases hseg with rfl | rfl
    · exact hdot
    · exact (plainSegment_tables k).notDot

/-- **A name that is given back is plain, up to its end.** -/
theorem plainSegment_of_name {cs ds : List Char} {path : List Segment} {name : Segment} (hpath : path ≠ [])
    (hsigns : SameSigns cs ds) (hempty : ds = [] → cs = [])
    (hfold : foldPath k path ((pathRest cs).splitOnP (isSeparator k)) = path ++ [name])
    (hname : percentDecode name = bytes ds) :
    PlainSegment k cs ∧ (∀ c ∈ cs.getLast?, isC0OrSpace c = false) ∧ cs = ds := by
  have hget : (path ++ [name])[path.length]? = some name := by simp
  have hpercent : cs.count '%' = ds.count '%' := hsigns '%' (by decide) (by decide)
  have htwo : cs.count '2' = ds.count '2' := hsigns '2' (by decide) (by decide)
  have hplain : PlainChars k cs := by
    refine plainChars_of_sameSigns hsigns ?_
    exact chars_of_foldPath hpath ((congrArg (·[path.length]?) hfold).trans hget) le_rfl hname hpercent.le htwo.le
  by_cases hnil : name = []
  · subst hnil
    have hds : bytes [] = bytes ds := hname
    obtain rfl : [] = ds := bytes_injective hds
    obtain rfl := hempty rfl
    exact ⟨⟨noTriplet_nil, rfl, hplain⟩, nofun, rfl⟩
  · rw [hplain.splitOnP] at hfold
    have hdot : isDot (cs.rdropWhile isC0OrSpace) = false := not_dot_of_foldPath _ hnil [] path hfold
    rw [foldPath_plain hpath (fun seg hseg => by rw [List.mem_singleton.mp hseg, hdot])] at hfold
    have hname' : percentEncode pathSet (cs.rdropWhile isC0OrSpace) = name :=
      (List.cons.inj (List.append_cancel_left hfold)).1
    rw [← hname', percentDecode_percentEncode pathSet_leavesTriplets] at hname
    have hle : ∀ x, (cs.rdropWhile isC0OrSpace).count x ≤ cs.count x :=
      fun x => (List.rdropWhile_prefix _ cs).sublist.count_le x
    obtain ⟨hno, heq⟩ := eq_of_percentDecode hname ((hle '%').trans hpercent.le) ((hle '2').trans htwo.le)
    have hself : cs.rdropWhile isC0OrSpace ++ cs.rtakeWhile isC0OrSpace = cs := List.rdropWhile_append_rtakeWhile
    -- nothing is dropped, or there would be less of it
    have hwhole : cs.rtakeWhile isC0OrSpace = [] := by
      by_contra hdropped
      obtain ⟨x, hx⟩ := List.exists_mem_of_ne_nil _ hdropped
      obtain ⟨hascii, hletter⟩ := of_isC0OrSpace (List.mem_rtakeWhile_imp hx)
      have hcount := hsigns x hascii hletter
      have hsplit := congrArg (List.count x) hself
      have hpos := List.count_pos_iff.mpr hx
      rw [List.count_append, heq] at hsplit
      omega
    rw [hwhole, List.append_nil] at hself
    rw [hself] at hno hdot heq
    exact ⟨⟨hno, hdot, hplain⟩, rdropWhile_eq_self_iff.mp hself, heq⟩

/-- What is compared has the same upper-casing. -/
theorem toUppercase_compareKey (henv : Uppercase env.toUppercase) (s : String) :
    env.toUppercase (compareKey env uri s) = env.toUppercase s := by
  unfold compareKey
  split
  · exact henv.idempotent s
  · rfl

/-- The same identifiers have the same upper-casing. -/
theorem SameIdentifier.toUppercase (henv : Uppercase env.toUppercase) {a b : TableIdent}
    (h : SameIdentifier env uri a b) :
    a.namespaceParts.map env.toUppercase = b.namespaceParts.map env.toUppercase ∧
      env.toUppercase (namespaceText a.namespaceParts) = env.toUppercase (namespaceText b.namespaceParts) ∧
      env.toUppercase a.name = env.toUppercase b.name := by
  have hcompose : env.toUppercase ∘ compareKey env uri = env.toUppercase := by
    funext s
    exact toUppercase_compareKey henv s
  have hparts := congrArg (List.map env.toUppercase) h.namespaceParts
  rw [List.map_map, List.map_map, hcompose] at hparts
  refine ⟨hparts, ?_, ?_⟩
  · rw [toUppercase_namespaceText henv, hparts, ← toUppercase_namespaceText henv]
  · have hname : env.toUppercase (compareKey env uri a.name) = env.toUppercase a.name :=
      toUppercase_compareKey henv a.name
    rw [← hname, h.name, toUppercase_compareKey henv]

/-- There is no separator in the parts of a namespace text. -/
theorem notMem_of_mem_splitNamespace {s part : String} (h : part ∈ splitNamespace s) : '\x1f' ∉ part.toList := by
  obtain ⟨l, hl, rfl⟩ := List.mem_map.mp h
  rw [String.toList_ofList]
  intro hmem
  have hno := eq_false_of_mem_splitOnP (p := (· == '\x1f')) s.toList l hl _ hmem
  exact absurd hno (by decide)

/-- **An identifier that is given back by its upper-cased text is plain**, if the text is. -/
theorem PlainIdentifier.of_same (henv : Uppercase env.toUppercase) {nsText nameText : String}
    (hsame : SameIdentifier env uri ⟨splitNamespace nsText, nameText⟩ table)
    (hns : PlainSegment k (env.toUppercase (namespaceText table.namespaceParts)).toList)
    (hname : PlainSegment k (env.toUppercase table.name).toList)
    (hstop : ∀ c ∈ (env.toUppercase table.name).toList.getLast?, isC0OrSpace c = false)
    (hnsText : env.toUppercase (namespaceText table.namespaceParts) = nsText)
    (hnameText : env.toUppercase table.name = nameText) : PlainIdentifier env uri k table := by
  have hupper := (hsame.toUppercase henv).1
  have hnonempty : table.namespaceParts ≠ [] := by
    intro hnil
    have hparts := hsame.namespaceParts
    rw [hnil, List.map_nil, List.map_eq_nil_iff] at hparts
    exact List.splitOn_ne_nil _ _ (List.map_eq_nil_iff.mp hparts)
  have hparts : ∀ part ∈ table.namespaceParts, '\x1f' ∉ part.toList := by
    intro part hpart
    have hmem : env.toUppercase part ∈ (splitNamespace nsText).map env.toUppercase := by
      rw [hupper]
      exact List.mem_map_of_mem hpart
    obtain ⟨piece, hpiece, heq⟩ := List.mem_map.mp hmem
    rw [← (henv.sameSigns_of_eq heq).mem_iff (by decide) (by decide)]
    exact notMem_of_mem_splitNamespace hpiece
  refine ⟨hns, hname, hstop, hnonempty, hparts, fun hhorizon => ?_⟩
  have hkey : ∀ s, compareKey env uri s = s := by
    intro s
    rw [compareKey, hhorizon]
    rfl
  constructor
  · have hsameName := hsame.name
    rw [hkey, hkey] at hsameName
    rw [hnameText]
    exact hsameName
  · -- the parts of the text are the parts, and their upper-casing
    have hsameParts := hsame.namespaceParts
    have hid : compareKey env uri = id := by
      funext s
      exact hkey s
    rw [hid, List.map_id, List.map_id] at hsameParts
    have hsplit : splitNamespace nsText = table.namespaceParts.map env.toUppercase := by
      rw [← hnsText, toUppercase_namespaceText henv]
      refine splitNamespace_intercalate (by simpa using hnonempty) fun part hpart => ?_
      obtain ⟨raw, hraw, rfl⟩ := List.mem_map.mp hpart
      rw [(henv.sameSigns raw).mem_iff (by decide) (by decide)]
      exact hparts raw hraw
    have hmap : table.namespaceParts.map env.toUppercase = table.namespaceParts.map id := by
      rw [List.map_id, ← hsplit]
      exact hsameParts
    exact List.map_inj_left.mp hmap

/-- **Only plain identifiers below a database are given back.** -/
theorem Locatable.of_faithful (henv : Uppercase env.toUppercase) (h : FaithfulEndpoint env H uri props table) :
    Locatable env H uri props table := by
  obtain ⟨root, ns, name, hbase, hlist, htable, nsText, nameText, hns, hname, hsame⟩ := h
  obtain ⟨u, hu, hpath⟩ := endpointPath_eq_some_iff.mp hbase
  obtain ⟨v, hv, hvpath⟩ := endpointPath_eq_some_iff.mp hlist
  obtain ⟨w, hw, hwpath⟩ := endpointPath_eq_some_iff.mp htable
  obtain ⟨pre, hpre, hlistText, htableText⟩ := exists_endpoints env uri props table
  rw [hlistText] at hv
  rw [htableText] at hw
  have hu' := hu
  rw [hpre] at hu'
  have hne : "namespaces".toList ≠ [] := by decide
  have hletter : isC0OrSpace 's' = false := by decide
  have hroot : root ++ ["namespaces".toList] ≠ [] := by simp
  -- behind a query or a fragment, the path would not go on
  have hopen : u.query = none ∧ u.fragment = none := by
    by_contra htail
    rw [Classical.not_and_iff_not_or_not] at htail
    obtain ⟨v', hv', hsamePath⟩ := parse_append_of_tail hletter hu' htail ('/' :: listRest env table)
    rw [hv] at hv'
    obtain rfl := Option.some.inj hv'
    rw [hvpath, hpath] at hsamePath
    have hlength := congrArg List.length (Path.segments.inj hsamePath)
    simp at hlength
  obtain ⟨v', hv', hlistPath⟩ := parse_append hletter hu' hopen.1 hopen.2 hpath hne (listRest env table)
  obtain ⟨w', hw', htablePath⟩ := parse_append hletter hu' hopen.1 hopen.2 hpath hne (tableRest env table)
  obtain rfl := Option.some.inj (hv.symm.trans hv')
  obtain rfl := Option.some.inj (hw.symm.trans hw')
  have hlistFold := Path.segments.inj (hlistPath.symm.trans hvpath)
  have htableFold := Path.segments.inj (htablePath.symm.trans hwpath)
  obtain ⟨-, hnsUpper, hnameUpper⟩ := hsame.toUppercase henv
  rw [namespaceText_splitNamespace] at hnsUpper
  -- the namespace
  have hnsSigns := henv.sameSigns_of_eq ((henv.idempotent _).trans hnsUpper.symm)
  obtain ⟨hnsPlain, hnsEq, rfl⟩ := plainSegment_of_namespace hnsSigns hlistFold hns
  -- the name
  have hnameSigns := henv.sameSigns_of_eq ((henv.idempotent _).trans hnameUpper.symm)
  have hempty : nameText.toList = [] → (env.toUppercase table.name).toList = [] := by
    intro hnil
    obtain rfl : nameText = "" := String.toList_eq_nil_iff.mp hnil
    rw [← hnameUpper, henv.empty]
    rfl
  have hfront : ∀ segs, foldPath u.kind (root ++ ["namespaces".toList])
      ((env.toUppercase (namespaceText table.namespaceParts)).toList :: "tables".toList :: segs) =
        foldPath u.kind (root ++ ["namespaces".toList, percentEncode pathSet
          (env.toUppercase (namespaceText table.namespaceParts)).toList, "tables".toList]) segs := by
    intro segs
    rw [foldPath_cons_of_not_dot hnsPlain.notDot, foldPath_cons_of_not_dot (plainSegment_tables u.kind).notDot,
      pushSegment_eq (fun _ hnil => absurd hnil hroot), pushSegment_eq (fun _ hnil => absurd hnil (by simp)),
      percentEncode_tables]
    simp only [List.append_assoc, List.cons_append, List.nil_append]
  rw [splitOnP_tableRest hnsPlain.chars, hfront] at htableFold
  obtain ⟨hnamePlain, hstop, hnameEq⟩ := plainSegment_of_name (by simp) hnameSigns hempty
    (htableFold.trans (by simp)) hname
  exact ⟨u, root, hu, hpath, hopen.1, hopen.2, PlainIdentifier.of_same henv hsame hnsPlain hnamePlain hstop
    (String.toList_inj.mp hnsEq) (String.toList_inj.mp hnameEq)⟩

/-- **Tables that are given back have different URLs**, unless they are the same. -/
theorem FaithfulEndpoint.same {other : TableIdent} (h : FaithfulEndpoint env H uri props table)
    (h' : FaithfulEndpoint env H uri props other)
    (hurl : parse H (tableEndpoint env uri table props).toList = parse H (tableEndpoint env uri other props).toList) :
    SameIdentifier env uri table other := by
  obtain ⟨root, ns, name, hbase, -, htable, nsText, nameText, hns, hname, hsame⟩ := h
  obtain ⟨root', ns', name', hbase', -, htable', nsText', nameText', hns', hname', hsame'⟩ := h'
  have hpaths : endpointPath H (tableEndpoint env uri table props) =
      endpointPath H (tableEndpoint env uri other props) := by
    unfold endpointPath
    rw [hurl]
  obtain rfl := List.append_cancel_right (Option.some.inj (hbase.symm.trans hbase'))
  have htails := List.append_cancel_left (Option.some.inj ((htable.symm.trans hpaths).trans htable'))
  simp only [List.cons.injEq, and_true, true_and] at htails
  obtain ⟨rfl, rfl⟩ := htails
  obtain rfl : nsText = nsText' := String.toList_inj.mp (bytes_injective (hns.symm.trans hns'))
  obtain rfl : nameText = nameText' := String.toList_inj.mp (bytes_injective (hname.symm.trans hname'))
  exact ⟨hsame.namespaceParts.symm.trans hsame'.namespaceParts, hsame.name.symm.trans hsame'.name⟩

end

/-- **The endpoint of a table is faithful exactly when the identifier is plain below a database without query and
fragment**; and such tables have different URLs. -/
theorem faithfulEndpoint_iff {env : HttpEnv} (henv : Uppercase env.toUppercase) (H : HostParser) (uri : String)
    (props : Props) (table : TableIdent) :
    (FaithfulEndpoint env H uri props table ↔ Locatable env H uri props table) ∧
    ∀ other, Locatable env H uri props table → Locatable env H uri props other →
      parse H (tableEndpoint env uri table props).toList = parse H (tableEndpoint env uri other props).toList →
      SameIdentifier env uri table other :=
  ⟨⟨Locatable.of_faithful henv, FaithfulEndpoint.of_locatable henv⟩, fun _ h h' hurl =>
    (FaithfulEndpoint.of_locatable henv h).same (FaithfulEndpoint.of_locatable henv h') hurl⟩

/-! ### Two catalogs -/

/-- An environment that upper-cases in ASCII. -/
def asciiEnv : HttpEnv where
  toUppercase s := String.ofList (s.toList.map Char.toUpper)
  showStatus := toString
  clientOk _ := true

def horizonUri : String := "https://xy.snowflakecomputing.com/polaris/api/catalog"

def horizonProps : Props := [("warehouse", "ICEBERG_TEST"), ("uri", horizonUri)]

/-- The endpoint of a table at Snowflake Horizon. -/
theorem faithfulEndpoint_employee :
    FaithfulEndpoint asciiEnv nameParser horizonUri horizonProps ⟨["public"], "employee"⟩ := by
  refine (faithfulEndpoint_iff uppercase_map nameParser horizonUri horizonProps _).1.mpr ?_
  refine ⟨plain "https" (some "xy.snowflakecomputing.com".toList) (.segments (["polaris", "api", "catalog", "v1",
    "ICEBERG_TEST", "namespaces"].map String.toList)), ["polaris", "api", "catalog", "v1", "ICEBERG_TEST"].map
    String.toList, by decide +kernel, by decide, rfl, rfl, ?_⟩
  exact ⟨⟨by decide, by decide, forall_mem_of_all (by decide)⟩, ⟨by decide, by decide, forall_mem_of_all (by decide)⟩,
    forall_mem_getLast_of_all (by decide), by decide, by decide, fun h => absurd h (by decide)⟩

/-- In other catalogs the upper-cased name is another one; and everywhere a name with dot segments has the URL of
another table. -/
theorem not_faithfulEndpoint_orders :
    ¬ FaithfulEndpoint asciiEnv nameParser "https://catalog.example" [] ⟨["sales"], "orders"⟩ ∧
      ¬ FaithfulEndpoint asciiEnv nameParser horizonUri horizonProps ⟨["public"], "x/../employee"⟩ ∧
      parse nameParser (tableEndpoint asciiEnv horizonUri ⟨["public"], "x/../employee"⟩ horizonProps).toList =
        parse nameParser (tableEndpoint asciiEnv horizonUri ⟨["public"], "employee"⟩ horizonProps).toList := by
  refine ⟨fun h => ?_, fun h => ?_, by decide +kernel⟩
  · obtain ⟨u, root, -, -, -, -, hplain⟩ := Locatable.of_faithful uppercase_map h
    exact absurd (hplain.upper (by decide)).1 (by decide)
  · obtain ⟨u, root, -, -, -, -, hplain⟩ := Locatable.of_faithful uppercase_map h
    have hslash := (hplain.name.chars '/' (by decide)).2.2.2
    rw [isSeparator_slash] at hslash
    cases hslash

end IcebergDb.Catalog
