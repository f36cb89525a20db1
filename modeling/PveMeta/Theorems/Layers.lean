import Mathlib.Data.List.Find
import PveMeta.Layers
import PveMeta.Sample
import PveMeta.Theorems.Copies
import PveMeta.Theorems.Dialect
import PveMeta.Theorems.Places
import PveMeta.Theorems.Shapes

/-! # One registry for the loader and the store

A name's row comes from the file of the highest directory that has one, which is the file a read of the
prefix document opens. The files below it are seen in the `overrides` flag and nowhere else. -/

namespace PveMeta
namespace Registry

/-- The directory of index `i` has a file of `name`, or something there that cannot be looked at. -/
def Holds (dirs : List Directory) (name : String) (i : Nat) : Prop :=
  (dirs[i]?).any (·.isFileOrUnreadable (yamlFile name)) = true

/-- It is the highest one that does. -/
def Effective (dirs : List Directory) (name : String) (i : Nat) : Prop :=
  Holds dirs name i ∧ ∀ j, i < j → ¬ Holds dirs name j

variable {dirs : List Directory} {d : Directory} {name file : String} {i j : Nat}

/-! ### The effective file -/

theorem Holds.lt (h : Holds dirs name i) : i < dirs.length := by
  by_contra hlt
  rw [Holds, List.getElem?_eq_none (Nat.le_of_not_lt hlt)] at h
  cases h

theorem effectiveFile_eq_some_iff : effectiveFile dirs name = some i ↔ Effective dirs name i := by
  have hrange : ∀ n, ((List.range n).reverse.find? fun i => (dirs[i]?).any (·.isFileOrUnreadable (yamlFile name))) =
      some i ↔ i < n ∧ Holds dirs name i ∧ ∀ j, i < j → j < n → ¬ Holds dirs name j := by
    intro n
    induction n with
    | zero => simp
    | succ n ih =>
      rw [List.range_succ, List.reverse_append, List.reverse_singleton, List.singleton_append, List.find?_cons]
      split
      · next hn =>
        rw [Option.some.injEq]
        constructor
        · rintro rfl
          exact ⟨Nat.lt_succ_self _, hn, fun j hj hlt => absurd hlt (by omega)⟩
        · rintro ⟨hlt, -, hmax⟩
          by_contra hne
          exact hmax n (by omega) (Nat.lt_succ_self n) hn
      · next hn =>
        rw [ih]
        have hn' : ¬ Holds dirs name n := by rw [Holds, hn]; exact Bool.false_ne_true
        constructor
        · rintro ⟨hlt, hi, hmax⟩
          refine ⟨by omega, hi, fun j hj hjn => ?_⟩
          rcases Nat.lt_succ_iff_lt_or_eq.mp hjn with hjn | rfl
          · exact hmax j hj hjn
          · exact hn'
        · rintro ⟨hlt, hi, hmax⟩
          refine ⟨?_, hi, fun j hj hjn => hmax j hj (by omega)⟩
          rcases Nat.lt_succ_iff_lt_or_eq.mp hlt with hlt | rfl
          · exact hlt
          · exact absurd hi hn'
  rw [effectiveFile, hrange]
  exact ⟨fun ⟨_, hi, hmax⟩ => ⟨hi, fun j hj hh => hmax j hj hh.lt hh⟩,
    fun ⟨hi, hmax⟩ => ⟨hi.lt, hi, fun j hj _ => hmax j hj⟩⟩

theorem exists_effective (h : Holds dirs name i) : ∃ j, effectiveFile dirs name = some j := by
  rw [← Option.isSome_iff_exists, effectiveFile, List.find?_isSome]
  exact ⟨i, List.mem_reverse.mpr (List.mem_range.mpr h.lt), h⟩

/-! ### Names -/

/-- The segments of a valid name, which are what splitting it gives. -/
theorem segments_of_valid (h : isValidFileName name = true) :
    name.toList ≠ [] ∧ ∀ part ∈ name.toList.splitOn '.', part ≠ [] ∧ ∀ c ∈ part, isSegmentChar c = true := by
  simp only [isValidFileName, isValidSegment, Bool.and_eq_true, Bool.not_eq_true', List.isEmpty_eq_false_iff,
    List.all_eq_true, List.mem_map, forall_exists_index, and_imp, forall_apply_eq_imp_iff₂, String.toList_ofList] at h
  exact ⟨h.1.1, fun part hpart => h.2 part hpart⟩

theorem isSegmentChar_of_mem (h : isValidFileName name = true) {c : Char} (hc : c ∈ name.toList) :
    c = '.' ∨ isSegmentChar c = true := by
  rcases Text.mem_splitOn hc with hc | ⟨part, hpart, hc⟩
  · exact Or.inl hc
  · exact Or.inr ((segments_of_valid h).2 part hpart |>.2 c hc)

theorem head?_of_valid (h : isValidFileName name = true) : name.toList.head? ≠ some '.' := by
  intro hhead
  obtain ⟨rest, hrest⟩ := List.head?_eq_some_iff.mp hhead
  have hmem : [] ∈ name.toList.splitOn '.' := by
    rw [hrest, show '.' :: rest = [] ++ '.' :: rest from rfl, List.splitOn_append_cons_self]
    simp [List.splitOn_nil]
  exact ((segments_of_valid h).2 _ hmem).1 rfl

/-- A text without a slash is split at its dots. -/
theorem parse_dotted (hslash : '/' ∉ name.toList) (hne : name.toList ≠ [])
    (hall : ((name.toList.splitOn '.').map String.ofList).all isValidSegment = true) :
    Path.parse name = .ok ((name.toList.splitOn '.').map String.ofList) := by
  have hhead : Text.stripPrefix ['/'] name.toList = none := by
    rw [Text.stripPrefix, if_neg]
    cases hname : name.toList with
    | nil => simp
    | cons c cs =>
      rw [hname] at hslash
      simp only [List.mem_cons, not_or] at hslash
      simp [List.isPrefixOf, hslash.1]
  have hempty : name.toList.isEmpty = false := by simpa using hne
  have hcontains : name.toList.contains '/' = false := by simpa using hslash
  rw [Path.parse]
  simp only [hhead, Option.getD_none, hempty, hcontains, Bool.false_eq_true, if_false, hall, if_true]

theorem allValid_of_valid (h : isValidFileName name = true) :
    ((name.toList.splitOn '.').map String.ofList).all isValidSegment = true := by
  rw [isValidFileName, Bool.and_eq_true] at h
  exact h.2

/-- The prefix of a file is the file's name. -/
theorem parse_of_valid (h : isValidFileName name = true) :
    Path.parse name = .ok ((name.toList.splitOn '.').map String.ofList) := by
  refine parse_dotted (fun hc => ?_) (segments_of_valid h).1 (allValid_of_valid h)
  rcases isSegmentChar_of_mem h hc with hc | hc
  · cases hc
  · exact absurd hc (by decide)

theorem display_parts (name : String) : Path.display ((name.toList.splitOn '.').map String.ofList) = name := by
  have hmap : ((name.toList.splitOn '.').map String.ofList).map String.toList = name.toList.splitOn '.' := by
    simp [List.map_map, Function.comp_def]
  have hjoin : ['.'].intercalate (name.toList.splitOn '.') = name.toList := List.intercalate_splitOn _
  rw [Path.display, hmap, hjoin, String.ofList_toList]

theorem toList_yamlFile : (yamlFile name).toList = name.toList ++ ".yaml".toList := String.toList_append

theorem yamlFile_visible (h : isValidFileName name = true) : (yamlFile name).toList.head? ≠ some '.' := by
  rw [toList_yamlFile, List.head?_append_of_ne_nil _ (segments_of_valid h).1]
  exact head?_of_valid h

theorem yamlStem_eq_some_iff : yamlStem d file = some name ↔
    file = yamlFile name ∧ isValidFileName name = true ∧ d.isFileOrUnreadable file = true := by
  constructor
  · intro h
    unfold yamlStem at h
    split at h
    · cases h
    · split at h
      · cases h
      · next stem hstem =>
        split at h
        · cases h
        · next hok =>
          cases h
          rw [Bool.or_eq_true, not_or, Bool.not_eq_true', Bool.not_eq_false, Bool.not_eq_true', Bool.not_eq_false] at hok
          refine ⟨?_, hok⟩
          rw [← String.toList_inj, toList_yamlFile, String.toList_ofList, Text.eq_append_of_stripSuffix hstem]
  · rintro ⟨rfl, hvalid, hfile⟩
    rw [yamlStem, if_neg (yamlFile_visible hvalid), toList_yamlFile, Text.stripSuffix_append]
    simp [String.ofList_toList, hvalid, hfile]

/-! ### The names of a directory -/

theorem yamlFiles_eq_ok {names : List String} (h : yamlFiles d = .ok names) :
    d.listFault = none ∧ names.Nodup ∧
      ∀ name, name ∈ names ↔ isValidFileName name = true ∧ d.isFileOrUnreadable (yamlFile name) = true := by
  obtain ⟨entries, hentries, h⟩ := Except.bind_eq_ok.mp h
  have hfault : d.listFault = none ∧ entries = d.entries := by
    revert hentries
    unfold Directory.readDir
    cases d.listFault with
    | none => exact fun h => ⟨rfl, (Except.ok.inj h).symm⟩
    | some msg => exact fun h => nomatch h
  obtain ⟨hfault, rfl⟩ := hfault
  cases h
  refine ⟨hfault, ?_, fun name => ?_⟩
  · have hkeys : d.entries.filterMap (fun e => yamlStem d e.1) = (Assoc.keys d.entries).filterMap (yamlStem d) := by
      rw [Assoc.keys, List.filterMap_map]
      rfl
    rw [(List.perm_insertionSort _ _).nodup_iff, hkeys]
    refine d.nodup.filterMap fun file file' name h h' => ?_
    rw [(yamlStem_eq_some_iff.mp h).1, (yamlStem_eq_some_iff.mp h').1]
  · rw [List.mem_insertionSort, List.mem_filterMap]
    constructor
    · rintro ⟨e, -, he⟩
      obtain ⟨hfile, hvalid, hthere⟩ := yamlStem_eq_some_iff.mp he
      exact ⟨hvalid, hfile ▸ hthere⟩
    · rintro ⟨hvalid, hthere⟩
      have hmem : yamlFile name ∈ Assoc.keys d.entries := by
        by_contra hnot
        rw [Directory.isFileOrUnreadable, Directory.node, Assoc.get?_eq_none_iff.mpr hnot] at hthere
        cases hthere
      obtain ⟨e, he, heq⟩ := List.mem_map.mp hmem
      exact ⟨e, he, yamlStem_eq_some_iff.mpr ⟨heq, hvalid, heq ▸ hthere⟩⟩

/-- A directory that can be listed has its names. -/
theorem exists_yamlFiles (h : d.listFault = none) : ∃ names, yamlFiles d = .ok names := by
  rw [yamlFiles, Directory.readDir, h]
  exact ⟨_, rfl⟩

/-! ### The rows -/

def originOf (dirs : List Directory) (i : Nat) : Origin := if i + 1 = dirs.length then .cluster else .packaged

/-- What is at the effective file of a name, with its directory's index. -/
def effectiveNode (dirs : List Directory) (name : String) : Option (Nat × Option Node) :=
  (effectiveFile dirs name).map fun i => (i, (dirs[i]?).bind (·.node (yamlFile name)))

theorem clusterLayers_fst : (clusterLayers dirs).map Prod.fst = dirs := by
  apply List.ext_getElem? 
  intro i
  simp [clusterLayers, List.getElem?_mapIdx]
  cases dirs[i]? <;> rfl

theorem getElem?_clusterLayers : (clusterLayers dirs)[i]? = (dirs[i]?).map fun d => (d, originOf dirs i) := by
  simp [clusterLayers, List.getElem?_mapIdx, originOf]

/-! ### The tally -/

section

variable {names : List (List String)}

theorem listed_iff (h : dirs.mapM yamlFiles = .ok names) :
    (names[i]?).any (fun l => decide (name ∈ l)) = true ↔ isValidFileName name = true ∧ Holds dirs name i := by
  obtain ⟨hlen, hget⟩ := Except.getElem?_of_mapM h
  cases hd : dirs[i]? with
  | none =>
    have hn : names[i]? = none := by
      rw [List.getElem?_eq_none_iff] at hd ⊢
      omega
    simp [hn, Holds, hd]
  | some d =>
    obtain ⟨l, hl, hfiles⟩ := hget i d hd
    simp [hl, Holds, hd, (yamlFiles_eq_ok hfiles).2.2]

theorem nodup_of_mapM (h : dirs.mapM yamlFiles = .ok names) : ∀ l ∈ names, l.Nodup := by
  intro l hl
  obtain ⟨d, -, hd⟩ := Except.exists_of_mapM h hl
  exact (yamlFiles_eq_ok hd).2.1

/-- The names of the walk are those that some directory has. -/
theorem mem_tally_keys (h : dirs.mapM yamlFiles = .ok names) :
    name ∈ Assoc.keys (Tally.ofList names.flatten) ↔ isValidFileName name = true ∧ ∃ i, Holds dirs name i := by
  rw [Tally.mem_keys_ofList, List.mem_flatten]
  constructor
  · rintro ⟨l, hl, hname⟩
    obtain ⟨i, hi⟩ := List.mem_iff_getElem?.mp hl
    obtain ⟨hvalid, hholds⟩ := (listed_iff h (i := i)).mp (by rw [hi]; simpa using hname)
    exact ⟨hvalid, i, hholds⟩
  · rintro ⟨hvalid, i, hholds⟩
    obtain ⟨l, hl, hname⟩ := (Option.any_eq_true _ _).mp ((listed_iff h).mpr ⟨hvalid, hholds⟩)
    exact ⟨l, List.mem_of_getElem? hl, of_decide_eq_true hname⟩

/-- A count above one is that of a name which another directory has as well. -/
theorem one_lt_count_iff (h : dirs.mapM yamlFiles = .ok names) {count : Nat}
    (hmem : (name, count) ∈ Tally.ofList names.flatten) (hi : Holds dirs name i) :
    1 < count ↔ ∃ j, j ≠ i ∧ Holds dirs name j := by
  have hvalid := ((mem_tally_keys h).mp (Assoc.mem_keys_of_mem hmem)).1
  rw [(Tally.mem_ofList.mp hmem).2, Tally.count_flatten (nodup_of_mapM h),
    Tally.one_lt_countP_iff ((listed_iff h).mpr ⟨hvalid, hi⟩)]
  simp only [listed_iff h, hvalid, true_and]

/-- Two walks that find the same names go through them in the same order. -/
theorem tally_keys_congr {dirs' : List Directory} {names' : List (List String)} (h : dirs.mapM yamlFiles = .ok names)
    (h' : dirs'.mapM yamlFiles = .ok names')
    (hsame : ∀ name, isValidFileName name = true → ((∃ i, Holds dirs' name i) ↔ ∃ i, Holds dirs name i)) :
    Assoc.keys (Tally.ofList names'.flatten) = Assoc.keys (Tally.ofList names.flatten) := by
  refine List.Perm.eq_of_pairwise ?_ (Tally.sorted_ofList _) (Tally.sorted_ofList _) ?_
  · exact fun a b _ _ hab hba => absurd (hab.trans hba) (lt_irrefl _)
  · refine (List.perm_ext_iff_of_nodup (Tally.nodup_keys_ofList _) (Tally.nodup_keys_ofList _)).mpr fun name => ?_
    rw [mem_tally_keys h', mem_tally_keys h]
    exact and_congr_right (hsame name)

end

/-! ### The listing -/

section

variable [Deps]

/-- The row that a name gets for a text, or for the reason why it cannot be read. -/
def rowOf (name : String) (origin : Origin) (overrides : Bool) : Except String Text → Except RegistryFailure PrefixDef
  | .error e => .error ⟨name, origin, e⟩
  | .ok text =>
    match parsePrefix name text with
    | .error e => .error ⟨name, origin, e.display⟩
    | .ok p => .ok (stamp p origin overrides)

theorem loadName_eq (name : String) (count : Nat) : loadName (clusterLayers dirs) parsePrefix stamp name count =
    (effectiveNode dirs name).map fun e =>
      (rowOf name (originOf dirs e.1) (1 < count) (Node.readToString e.2)).map (name, ·) := by
  unfold loadName
  rw [clusterLayers_fst, effectiveNode]
  cases heff : effectiveFile dirs name with
  | none => rfl
  | some i =>
    have hlt := (effectiveFile_eq_some_iff.mp heff).1.lt
    have hd : dirs[i]? = some dirs[i] := List.getElem?_eq_getElem hlt
    simp only [getElem?_clusterLayers, hd, Option.map_some, Option.bind_some, Option.bind_eq_bind,
      Directory.readToString]
    cases hread : Node.readToString (dirs[i].node (yamlFile name)) with
    | error e => rfl
    | ok text =>
      cases hparse : parsePrefix name text <;> simp [rowOf, hparse, Except.map]

/-- What a prefix file parses to: the prefix of its name, with a schema that the loader takes. -/
theorem parsePrefix_eq_ok {text : Text} {p : PrefixDef} (h : parsePrefix name text = .ok p) :
    isValidFileName name = true ∧ Path.parse name = .ok p.pre ∧ p.pre.display = name ∧
      ∀ schema, p.schema = some schema → Accepted schema := by
  unfold parsePrefix at h
  dsimp only at h
  split at h
  · next hvalid =>
    have hroot : Path.isRoot ((name.toList.splitOn '.').map String.ofList) = false := by
      simp [Path.isRoot]
    have hpre : (Path.parse name).mapError (fun _ => bad (name ++ ": file name is not a valid prefix")) =
        .ok ((name.toList.splitOn '.').map String.ofList) := by
      rw [parse_of_valid hvalid]
      rfl
    simp only [hpre, Except.ok_bind, hroot, Bool.false_eq_true, if_false] at h
    obtain ⟨value, -, h⟩ := Except.bind_eq_ok.mp h
    split at h
    · cases h
    · obtain ⟨selector, -, h⟩ := Except.bind_eq_ok.mp h
      split at h
      · next schema hschema =>
        obtain ⟨_, hdialect, h⟩ := Except.bind_eq_ok.mp h
        obtain ⟨nodes, -, h⟩ := Except.bind_eq_ok.mp h
        cases h
        refine ⟨hvalid, parse_of_valid hvalid, display_parts name, fun schema' hs => ?_⟩
        cases hschema.symm.trans hs
        exact ⟨name, "schema", hdialect⟩
      · next hschema =>
        obtain ⟨nodes, -, h⟩ := Except.bind_eq_ok.mp h
        cases h
        refine ⟨hvalid, parse_of_valid hvalid, display_parts name, fun schema hs => ?_⟩
        cases hschema.symm.trans hs
  · cases h

theorem pre_of_parsePrefix {text : Text} {p : PrefixDef} (h : parsePrefix name text = .ok p) :
    isValidFileName name = true ∧ p.pre.display = name := by
  obtain ⟨hvalid, -, hname, -⟩ := parsePrefix_eq_ok h
  exact ⟨hvalid, hname⟩

/-- `row` is what the effective file of `name` gives, which is the file that a read of the prefix document opens. -/
def FromFile (dirs : List Directory) (name : String) (row : Except RegistryFailure PrefixDef) : Prop :=
  ∃ i d overrides, Effective dirs name i ∧ dirs[i]? = some d ∧ readPath dirs name = .prefixDir i (yamlFile name) ∧
    row = rowOf name (originOf dirs i) overrides (d.readToString (yamlFile name)) ∧
    (overrides = true ↔ ∃ j, j ≠ i ∧ Holds dirs name j)

def PrefixDef.clearOverrides (p : PrefixDef) : PrefixDef := { p with overrides := false }

/-- What a listing is. -/
structure Listing (dirs : List Directory) (loaded : List PrefixDef) (failures : List RegistryFailure) : Prop where
  nodup : (loaded.map (·.pre.display) ++ failures.map (·.name)).Nodup
  mem_iff : ∀ name, name ∈ loaded.map (·.pre.display) ++ failures.map (·.name) ↔
    isValidFileName name = true ∧ ∃ i, Holds dirs name i
  of_loaded : ∀ p ∈ loaded, FromFile dirs p.pre.display (.ok p)
  of_failed : ∀ f ∈ failures, FromFile dirs f.name (.error f)
  order : loaded.Pairwise fun p q => ¬ p.pre <+: q.pre
  /-- Directories with the same effective files list the same, but for the flag. -/
  shadowed : ∀ dirs' : List Directory, dirs'.length = dirs.length → (∀ d ∈ dirs', d.listFault = none) →
    (∀ name, isValidFileName name = true → effectiveNode dirs' name = effectiveNode dirs name) →
    ∃ loaded', listPrefixes dirs' = .ok (loaded', failures) ∧
      loaded'.map PrefixDef.clearOverrides = loaded.map PrefixDef.clearOverrides

def rowName : Except RegistryFailure (String × PrefixDef) → String
  | .ok row => row.1
  | .error failure => failure.name

omit [Deps] in
theorem perm_rowName (rows : List (Except RegistryFailure (String × PrefixDef))) :
    ((rows.filterMap Except.toOption).map Prod.fst ++ (rows.filterMap failed).map (·.name)).Perm (rows.map rowName) := by
  induction rows with
  | nil => exact .nil
  | cons row rows ih =>
    cases row with
    | ok row => exact ih.cons row.1
    | error failure => exact List.perm_middle.trans (ih.cons failure.name)

theorem rowName_rowOf {name : String} {origin : Origin} {overrides : Bool} {text : Except String Text} :
    rowName ((rowOf name origin overrides text).map (name, ·)) = name := by
  cases text with
  | error e => rfl
  | ok text =>
    simp only [rowOf]
    cases parsePrefix name text <;> rfl

/-- The walk's rows, each with the name it is of. -/
def rowsOf (dirs : List Directory) (names : List (List String)) : List (Except RegistryFailure (String × PrefixDef)) :=
  (Tally.ofList names.flatten).filterMap fun holder =>
    loadName (clusterLayers dirs) parsePrefix stamp holder.1 holder.2

theorem listPrefixes_eq_ok_iff {loaded : List PrefixDef} {failures : List RegistryFailure} :
    listPrefixes dirs = .ok (loaded, failures) ↔ ∃ names, dirs.mapM yamlFiles = .ok names ∧
      loaded = (((rowsOf dirs names).filterMap Except.toOption).map Prod.snd).insertionSort
        (fun a b => bySpecificity a.pre b.pre ≠ .gt) ∧
      failures = (rowsOf dirs names).filterMap Registry.failed := by
  rw [listPrefixes, loadDirs, clusterLayers_fst]
  cases hnames : dirs.mapM yamlFiles with
  | error e => exact ⟨fun h => (nomatch h), fun ⟨_, h, _⟩ => nomatch h⟩
  | ok names =>
    constructor
    · intro h
      cases h
      exact ⟨names, rfl, rfl, rfl⟩
    · rintro ⟨_, h, rfl, rfl⟩
      cases h
      rfl

/-- A name of the walk has a row, that of its effective file. -/
theorem row_of_mem {names : List (List String)} (h : dirs.mapM yamlFiles = .ok names) {holder : String × Nat}
    (hmem : holder ∈ Tally.ofList names.flatten) : ∃ row, FromFile dirs holder.1 row ∧
      loadName (clusterLayers dirs) parsePrefix stamp holder.1 holder.2 = some (row.map (holder.1, ·)) := by
  obtain ⟨-, i₀, hi₀⟩ := (mem_tally_keys h).mp (Assoc.mem_keys_of_mem hmem)
  obtain ⟨i, hi⟩ := exists_effective hi₀
  have heff := effectiveFile_eq_some_iff.mp hi
  have hlt := heff.1.lt
  have hd : dirs[i]? = some dirs[i] := List.getElem?_eq_getElem hlt
  refine ⟨_, ⟨i, dirs[i], decide (1 < holder.2), heff, hd, ?_, rfl, ?_⟩, ?_⟩
  · rw [readPath, locate, hi]
    rfl
  · rw [decide_eq_true_iff]
    exact one_lt_count_iff h hmem heff.1
  · rw [loadName_eq, effectiveNode, hi, Option.map_some, Option.map_some, hd]
    rfl

theorem map_rowName {names : List (List String)} (h : dirs.mapM yamlFiles = .ok names) :
    (rowsOf dirs names).map rowName = Assoc.keys (Tally.ofList names.flatten) := by
  rw [rowsOf, List.map_filterMap, Assoc.keys, ← List.filterMap_eq_map]
  refine List.filterMap_congr fun holder hmem => ?_
  obtain ⟨row, ⟨i, d, overrides, -, -, -, rfl, -⟩, hrow⟩ := row_of_mem h hmem
  rw [hrow, Option.map_some, rowName_rowOf]
  rfl

/-- A row of the walk is that of the effective file of its name. -/
theorem fromFile_of_mem {names : List (List String)} (h : dirs.mapM yamlFiles = .ok names)
    {row : Except RegistryFailure (String × PrefixDef)} (hmem : row ∈ rowsOf dirs names) :
    FromFile dirs (rowName row) (row.map Prod.snd) := by
  obtain ⟨holder, hholder, hrow⟩ := List.mem_filterMap.mp hmem
  obtain ⟨row', hfrom, hrow'⟩ := row_of_mem h hholder
  cases hrow.symm.trans hrow'
  obtain ⟨i, d, overrides, heff, hd, hpath, rfl, hover⟩ := hfrom
  rw [rowName_rowOf]
  refine ⟨i, d, overrides, heff, hd, hpath, ?_, hover⟩
  cases rowOf holder.1 (originOf dirs i) overrides (d.readToString (yamlFile holder.1)) <;> rfl

/-! ### The listing is one -/

theorem pre_of_rowOf {name : String} {origin : Origin} {overrides : Bool} {text : Except String Text} {p : PrefixDef}
    (h : rowOf name origin overrides text = .ok p) : p.pre.display = name := by
  unfold rowOf at h
  split at h
  · cases h
  · split at h
    · cases h
    · next q hparse =>
      cases h
      exact (pre_of_parsePrefix hparse).2

theorem FromFile.name_eq {name : String} {p : PrefixDef} (h : FromFile dirs name (.ok p)) : p.pre.display = name := by
  obtain ⟨i, d, overrides, -, -, -, heq, -⟩ := h
  exact pre_of_rowOf heq.symm

section

variable {names : List (List String)}

theorem mem_loaded (h : dirs.mapM yamlFiles = .ok names) {row : String × PrefixDef}
    (hmem : row ∈ (rowsOf dirs names).filterMap Except.toOption) :
    row.2.pre.display = row.1 ∧ FromFile dirs row.1 (.ok row.2) := by
  obtain ⟨r, hr, hok⟩ := List.mem_filterMap.mp hmem
  cases Except.toOption_eq_some.mp hok
  exact ⟨(fromFile_of_mem h hr).name_eq, fromFile_of_mem h hr⟩

theorem mem_failures (h : dirs.mapM yamlFiles = .ok names) {f : RegistryFailure}
    (hmem : f ∈ (rowsOf dirs names).filterMap Registry.failed) : FromFile dirs f.name (.error f) := by
  obtain ⟨r, hr, hfailed⟩ := List.mem_filterMap.mp hmem
  cases r with
  | ok row => cases hfailed
  | error failure =>
    cases hfailed
    exact fromFile_of_mem h hr

/-- The rows' names are the names of the walk. -/
theorem perm_names (h : dirs.mapM yamlFiles = .ok names) :
    (((((rowsOf dirs names).filterMap Except.toOption).map Prod.snd).insertionSort
      (fun a b => bySpecificity a.pre b.pre ≠ .gt)).map (·.pre.display) ++
        ((rowsOf dirs names).filterMap Registry.failed).map (·.name)).Perm
      (Assoc.keys (Tally.ofList names.flatten)) := by
  rw [← map_rowName h]
  refine List.Perm.trans ?_ (perm_rowName _)
  refine List.Perm.append_right _ (((List.perm_insertionSort _ _).map _).trans ?_)
  rw [List.map_map]
  exact .of_eq (List.map_congr_left fun row hrow => (mem_loaded h hrow).1)

end

/-- A row without its flag, and the listing of such rows. -/
def clearRow (row : Except RegistryFailure (String × PrefixDef)) : Except RegistryFailure (String × PrefixDef) :=
  row.map (Prod.map id PrefixDef.clearOverrides)

theorem rowsOf_clearRow (names : List (List String)) : (rowsOf dirs names).map clearRow =
    (Assoc.keys (Tally.ofList names.flatten)).filterMap fun name => (effectiveNode dirs name).map fun e =>
      (rowOf name (originOf dirs e.1) false (Node.readToString e.2)).map (name, ·) := by
  rw [rowsOf, List.map_filterMap, Assoc.keys, List.filterMap_map]
  refine List.filterMap_congr fun holder _ => ?_
  rw [loadName_eq, Function.comp_apply, Option.map_map]
  refine Option.map_congr fun e _ => ?_
  rw [Function.comp_apply]
  cases Node.readToString e.2 with
  | error msg => rfl
  | ok text =>
    simp only [rowOf]
    cases parsePrefix holder.1 text <;> rfl

omit [Deps] in
theorem exists_holds_iff : (∃ i, Holds dirs name i) ↔ (effectiveNode dirs name).isSome = true := by
  rw [effectiveNode, Option.isSome_map, Option.isSome_iff_exists]
  exact ⟨fun ⟨_, h⟩ => exists_effective h, fun ⟨i, h⟩ => ⟨i, (effectiveFile_eq_some_iff.mp h).1⟩⟩

/-- Directories with the same effective files give the same rows, but for the flag. -/
theorem rowsOf_congr {dirs' : List Directory} {names names' : List (List String)} (h : dirs.mapM yamlFiles = .ok names)
    (h' : dirs'.mapM yamlFiles = .ok names') (hlen : dirs'.length = dirs.length)
    (hsame : ∀ name, isValidFileName name = true → effectiveNode dirs' name = effectiveNode dirs name) :
    (rowsOf dirs' names').map clearRow = (rowsOf dirs names).map clearRow := by
  have hkeys : Assoc.keys (Tally.ofList names'.flatten) = Assoc.keys (Tally.ofList names.flatten) :=
    tally_keys_congr h h' fun name hvalid => by rw [exists_holds_iff, exists_holds_iff, hsame name hvalid]
  rw [rowsOf_clearRow, rowsOf_clearRow, hkeys]
  refine List.filterMap_congr fun name hname => ?_
  rw [hsame name ((mem_tally_keys h).mp hname).1]
  simp only [originOf, hlen]

omit [Deps] in
theorem failed_clearRow (rows : List (Except RegistryFailure (String × PrefixDef))) :
    (rows.map clearRow).filterMap Registry.failed = rows.filterMap Registry.failed := by
  rw [List.filterMap_map]
  exact List.filterMap_congr fun row _ => by cases row <;> rfl

omit [Deps] in
theorem loaded_clearRow (rows : List (Except RegistryFailure (String × PrefixDef))) :
    (((rows.filterMap Except.toOption).map Prod.snd).insertionSort
      (fun a b => bySpecificity a.pre b.pre ≠ .gt)).map PrefixDef.clearOverrides =
    ((((rows.map clearRow).filterMap Except.toOption).map Prod.snd).insertionSort
      (fun a b => bySpecificity a.pre b.pre ≠ .gt)) := by
  have hsort := List.map_insertionSort (fun a b : PrefixDef => bySpecificity a.pre b.pre ≠ .gt)
    (fun a b => bySpecificity a.pre b.pre ≠ .gt) PrefixDef.clearOverrides
    ((rows.filterMap Except.toOption).map Prod.snd) fun _ _ _ _ => Iff.rfl
  rw [hsort, List.filterMap_map, List.map_map, List.map_filterMap, List.map_filterMap]
  congr 1
  exact List.filterMap_congr fun row _ => by cases row <;> rfl

omit [Deps] in
theorem exists_mapM_yamlFiles (h : ∀ d ∈ dirs, d.listFault = none) : ∃ names, dirs.mapM yamlFiles = .ok names := by
  induction dirs with
  | nil => exact ⟨[], rfl⟩
  | cons d dirs ih =>
    obtain ⟨l, hl⟩ := exists_yamlFiles (h d List.mem_cons_self)
    obtain ⟨names, hnames⟩ := ih fun e he => h e (List.mem_cons_of_mem _ he)
    rw [List.mapM_cons, hl, hnames]
    exact ⟨l :: names, rfl⟩

/-- The rows of a walk are a listing of the directories. -/
theorem listing_of_listPrefixes {loaded : List PrefixDef} {failures : List RegistryFailure}
    (h : listPrefixes dirs = .ok (loaded, failures)) : Listing dirs loaded failures := by
  obtain ⟨names, hnames, rfl, rfl⟩ := listPrefixes_eq_ok_iff.mp h
  have hperm := perm_names hnames
  have hnodup := hperm.nodup_iff.mpr (Tally.nodup_keys_ofList names.flatten)
  refine ⟨hnodup, fun name => ?_, fun p hp => ?_, fun f hf => mem_failures hnames hf, ?_, ?_⟩
  · rw [hperm.mem_iff, mem_tally_keys hnames]
  · rw [List.mem_insertionSort] at hp
    obtain ⟨row, hrow, rfl⟩ := List.mem_map.mp hp
    obtain ⟨hname, hfrom⟩ := mem_loaded hnames hrow
    exact hname ▸ hfrom
  · have hne := List.pairwise_map.mp (List.nodup_append.mp hnodup).1
    refine (hne.and (length_le_of_sorted PrefixDef.pre _)).imp fun {p q} ⟨hpq, hlen⟩ hpre => hpq ?_
    rw [hpre.eq_of_length (hpre.length_le.antisymm hlen)]
  · intro dirs' hlen hlist hsame
    obtain ⟨names', hnames'⟩ := exists_mapM_yamlFiles hlist
    have hrows := rowsOf_congr hnames hnames' hlen hsame
    refine ⟨_, listPrefixes_eq_ok_iff.mpr ⟨names', hnames', rfl, ?_⟩, ?_⟩
    · rw [← failed_clearRow (rowsOf dirs names), ← hrows, failed_clearRow]
    · rw [loaded_clearRow, loaded_clearRow, hrows]

omit [Deps] in
theorem exists_listFault {e : Error} (h : dirs.mapM yamlFiles = .error e) : ∃ d ∈ dirs, d.listFault ≠ none := by
  by_contra hall
  push Not at hall
  obtain ⟨names, hnames⟩ := exists_mapM_yamlFiles hall
  rw [hnames] at h
  cases h

theorem exists_listPrefixes (h : ∀ d ∈ dirs, d.listFault = none) :
    ∃ loaded failures, listPrefixes dirs = .ok (loaded, failures) := by
  obtain ⟨names, hnames⟩ := exists_mapM_yamlFiles h
  exact ⟨_, _, listPrefixes_eq_ok_iff.mpr ⟨names, hnames, rfl, rfl⟩⟩

/-- A name whose effective file parses is loaded with what it parses to, and does not fail. -/
theorem Listing.of_parses {loaded : List PrefixDef} {failures : List RegistryFailure} {text : Text} {q : PrefixDef}
    (h : Listing dirs loaded failures) (heff : Effective dirs name i) (hd : dirs[i]? = some d)
    (htext : d.readToString (yamlFile name) = .ok text) (hparse : parsePrefix name text = .ok q) :
    (∃ overrides, stamp q (originOf dirs i) overrides ∈ loaded) ∧
      (∀ p ∈ loaded, p.pre.display = name → ∃ overrides, p = stamp q (originOf dirs i) overrides) ∧
        ∀ f ∈ failures, f.name ≠ name := by
  have hrow : ∀ row, FromFile dirs name row → ∃ overrides, row = .ok (stamp q (originOf dirs i) overrides) := by
    rintro row ⟨i', d', overrides, heff', hd', -, rfl, -⟩
    have hi : i' = i := Option.some.inj
      ((effectiveFile_eq_some_iff.mpr heff').symm.trans (effectiveFile_eq_some_iff.mpr heff))
    subst hi
    cases hd'.symm.trans hd
    exact ⟨overrides, by simp only [rowOf, htext, hparse]⟩
  have hfailed : ∀ f ∈ failures, f.name ≠ name := by
    rintro f hf rfl
    obtain ⟨overrides, hover⟩ := hrow _ (h.of_failed f hf)
    cases hover
  have hloaded : ∀ p ∈ loaded, p.pre.display = name → ∃ overrides, p = stamp q (originOf dirs i) overrides := by
    rintro p hp rfl
    obtain ⟨overrides, hover⟩ := hrow _ (h.of_loaded p hp)
    exact ⟨overrides, Except.ok.inj hover⟩
  refine ⟨?_, hloaded, hfailed⟩
  rcases List.mem_append.mp ((h.mem_iff name).mpr ⟨(pre_of_parsePrefix hparse).1, i, heff.1⟩) with hmem | hmem
  · obtain ⟨p, hp, hname⟩ := List.mem_map.mp hmem
    obtain ⟨overrides, rfl⟩ := hloaded p hp hname
    exact ⟨overrides, hp⟩
  · obtain ⟨f, hf, hname⟩ := List.mem_map.mp hmem
    exact absurd hname (hfailed f hf)

/-- What the loader answers is the listing of its directories, unless one of them cannot be listed. -/
theorem listPrefixes_listing (dirs : List Directory) :
    match listPrefixes dirs with
    | .ok (loaded, failures) => Listing dirs loaded failures
    | .error _ => ∃ d ∈ dirs, d.listFault ≠ none := by
  cases h : listPrefixes dirs with
  | ok rows => exact listing_of_listPrefixes h
  | error e =>
    rw [listPrefixes, loadDirs, clusterLayers_fst] at h
    cases hnames : dirs.mapM yamlFiles with
    | error e' => exact exists_listFault hnames
    | ok names =>
      rw [hnames] at h
      cases h

end

/-- The directories of the test below: `web` is in both, and the one of the cluster cannot be read. -/
def sampleDirs : List Directory :=
  [⟨[("web.yaml", ⟨false, some (.file ⟨Text.encode "selector:\n  all: true\n".toList, 0⟩)⟩),
      ("db.yaml", ⟨false, some (.file ⟨Text.encode "selector:\n  all: true\n".toList, 0⟩)⟩)], by decide, none⟩,
    ⟨[("web.yaml", ⟨true, some (.unreadable "Permission denied (os error 13)")⟩), (".web.yaml", ⟨true, none⟩)],
      by decide, none⟩]

open Sample in
example : (listPrefixes sampleDirs).toOption.map (fun r => (r.1.map (·.pre), r.2)) =
    some ([["db"]], [⟨"web", .cluster, "Permission denied (os error 13)"⟩]) := by
  decide +kernel

end Registry

/-! ### The store's directories -/

namespace MetaStore
open Registry

variable {s : MetaStore} {dirs : List Directory} {name file : String} {i : Nat}

theorem mem_prefixFiles : file ∈ s.prefixFiles i ↔ (Assoc.get? (.prefixDir i file) s.files).isSome = true := by
  rw [prefixFiles, List.mem_dedup, List.mem_filterMap, Assoc.get?_isSome_iff]
  constructor
  · rintro ⟨⟨p, f⟩, hmem, hp⟩
    split at hp
    · next hpath =>
      split at hp
      · next hi =>
        cases hp
        obtain rfl : p = .prefixDir i file := by simpa [hi] using hpath
        exact Assoc.mem_keys_of_mem hmem
      · cases hp
    · cases hp
  · intro h
    obtain ⟨⟨p, f⟩, hmem, rfl⟩ := List.mem_map.mp h
    exact ⟨_, hmem, by simp⟩

/-- A directory of the store has the store's files. -/
theorem node_directory : (s.directory i).node file = (Assoc.get? (.prefixDir i file) s.files).map .file := by
  rw [Directory.node, directory]
  cases hget : Assoc.get? (FsPath.prefixDir i file) s.files with
  | none =>
    have hnot : file ∉ s.prefixFiles i := by
      rw [mem_prefixFiles, hget]
      exact Bool.false_ne_true
    have hnone : Assoc.get? file ((s.prefixFiles i).map fun file =>
        (file, (⟨false, (Assoc.get? (.prefixDir i file) s.files).map .file⟩ : DirEntry))) = none := by
      rw [Assoc.get?_eq_none_iff, Assoc.keys, List.map_map]
      simpa [Function.comp_def] using hnot
    rw [hnone]
    rfl
  | some f =>
    have hmem : file ∈ s.prefixFiles i := by
      rw [mem_prefixFiles, hget]
      rfl
    have hsome := Assoc.get?_of_mem (s.directory i).nodup (List.mem_map_of_mem (f := fun file =>
      (file, (⟨false, (Assoc.get? (.prefixDir i file) s.files).map .file⟩ : DirEntry))) hmem)
    rw [directory] at hsome
    rw [hsome, hget]
    rfl

theorem registry_eq_ok (h : s.registry = .ok dirs) : dirs = (List.range s.prefixDirs).map s.directory := by
  obtain ⟨_, -, h⟩ := Except.bind_eq_ok.mp h
  cases h
  rfl

theorem getElem?_registry (h : s.registry = .ok dirs) :
    dirs[i]? = if i < s.prefixDirs then some (s.directory i) else none := by
  rw [registry_eq_ok h, List.getElem?_map]
  split
  · next hlt => rw [List.getElem?_range hlt]; rfl
  · next hlt => rw [List.getElem?_eq_none (by simpa using hlt)]; rfl

theorem fileName_registry (kind : RegistryKind) (name : String) : fileName (.registry kind name) = yamlFile name := by
  simp [fileName, yamlFile, DocId.baseName, String.append_assoc, diskFormat, Format.ext]

end MetaStore
end PveMeta
