import PveMeta.Guest.Path

/-! # Where a guest's files cannot be

The daemon's own names are none that a file of a guest's document can have, and neither is the manifest's, nor that of a
directory it lives in. -/

namespace PveMeta
namespace Guest

/-! ### The daemon's own names -/

theorem not_mem_splitName (absolute : Text) : '/' ∉ (splitName absolute).2 := by
  unfold splitName
  split
  · next base dir h => exact fun hmem => Text.not_mem_of_splitOnce h (List.mem_reverse.mp hmem)
  · next h => exact fun hmem => Text.splitOnce_eq_none.mp h (List.mem_reverse.mpr hmem)

theorem not_mem_tempName (p : Text) : '/' ∉ '.' :: (splitName p).2 ++ tempMark ++ ".tmp".toList := by
  simp only [List.mem_append, List.mem_cons, not_or]
  exact ⟨⟨⟨by decide, not_mem_splitName p⟩, by decide⟩, by decide⟩

theorem tempFor_eq (p : Text) :
    tempFor p = (splitName p).1 ++ '/' :: ('.' :: (splitName p).2 ++ tempMark ++ ".tmp".toList) := by
  simp only [tempFor, List.append_assoc, List.cons_append]

theorem reserved_append (dir : Text) {name : Text} (hname : '/' ∉ name) (hmark : tempMark <:+: name) :
    Reserved (dir ++ '/' :: name) := by
  have hmem : name ∈ (dir ++ '/' :: name).splitOn '/' := by
    rw [List.splitOn_append_cons_self, List.splitOn_eq_singleton hname]
    exact List.mem_append_right _ (List.mem_singleton_self _)
  exact ⟨name, hmem, hmark⟩

theorem reserved_tempFor (p : Text) : Reserved (tempFor p) := by
  rw [tempFor_eq]
  exact reserved_append _ (not_mem_tempName p) (List.infix_append _ _ _)

/-! ### Paths that are accepted -/

theorem not_infix_of_segmentProblem {segment : Text} (h : segmentProblem segment = none) : ¬ tempMark <:+: segment := by
  unfold segmentProblem at h
  intro hmark
  split at h
  · cases h
  · split at h
    · cases h
    · split at h <;> cases h

theorem segments_of_pathProblem {p : Text} (h : pathProblem p = none) :
    ∃ rest, p = '/' :: rest ∧ ∀ name ∈ rest.splitOn '/', segmentProblem name = none := by
  unfold pathProblem at h
  split at h
  · next rest =>
    split at h
    · cases h
    · split at h
      · cases h
      · next hsegments => exact ⟨rest, rfl, List.findSome?_eq_none_iff.mp hsegments⟩
  · cases h

theorem GuestPath.not_reserved (p : GuestPath) : ¬ Reserved p.text := by
  obtain ⟨rest, htext, hsegments⟩ := segments_of_pathProblem p.valid
  rintro ⟨name, hmem, hmark⟩
  rw [htext, show '/' :: rest = [] ++ '/' :: rest from rfl, List.splitOn_append_cons_self] at hmem
  rcases List.mem_append.mp hmem with hmem | hmem
  · obtain rfl := List.mem_singleton.mp hmem
    exact absurd hmark (by decide)
  · exact not_infix_of_segmentProblem (hsegments name hmem) hmark

theorem not_reserved_manifestPath : ¬ Reserved manifestPath := by decide

theorem splitName_append (dir : Text) {name : Text} (h : '/' ∉ name) : splitName (dir ++ '/' :: name) = (dir, name) := by
  have hreverse : (dir ++ '/' :: name).reverse = name.reverse ++ '/' :: dir.reverse := by simp
  rw [splitName, hreverse, Text.splitOnce_append fun hmem => h (List.mem_reverse.mp hmem)]
  simp

theorem splitName_tempFor (p : Text) :
    splitName (tempFor p) = ((splitName p).1, '.' :: (splitName p).2 ++ tempMark ++ ".tmp".toList) := by
  rw [tempFor_eq, splitName_append _ (not_mem_tempName p)]

/-- A temp file that is moved into a directory keeps its name. -/
theorem reserved_into (dir p : Text) : Reserved (dir ++ '/' :: (splitName (tempFor p)).2) := by
  rw [splitName_tempFor]
  exact reserved_append dir (not_mem_tempName p) (List.infix_append _ _ _)

theorem tempFor_ne_manifestPath (p : Text) : tempFor p ≠ manifestPath := by
  intro h
  have := reserved_tempFor p
  rw [h] at this
  exact not_reserved_manifestPath this

/-! ### The manifest's -/

theorem isUnder_iff {a b : Text} : isUnder a b = true ↔ ∃ rest, b = a ++ '/' :: rest := by
  unfold isUnder
  constructor
  · intro h
    split at h
    · next rest hstrip => exact ⟨rest, Text.eq_append_of_stripPrefix hstrip⟩
    · cases h
  · rintro ⟨rest, rfl⟩
    rw [Text.stripPrefix_append]
    rfl

theorem manifest_of_pathProblem {p : Text} (h : pathProblem p = none) :
    isAtOrUnder p manifestPath = false ∧ isUnder manifestPath p = false := by
  unfold pathProblem at h
  split at h
  · split at h
    · cases h
    · split at h
      · cases h
      · split at h
        · cases h
        · split at h
          · cases h
          · next hmanifest => simpa using hmanifest
  · cases h

theorem GuestPath.ne_manifestPath (p : GuestPath) : p.text ≠ manifestPath := by
  intro h
  have := (manifest_of_pathProblem p.valid).1
  rw [h, isAtOrUnder, beq_self_eq_true, Bool.true_or] at this
  cases this

/-! ### Directories -/

/-- A path spelled by its names. -/
theorem cons_eq_flatMap_splitOn (rest : Text) : '/' :: rest = (rest.splitOn '/').flatMap fun name => '/' :: name := by
  have hjoin : ∀ names : List Text, names ≠ [] →
      '/' :: ['/'].intercalate names = names.flatMap fun name => '/' :: name := by
    intro names
    induction names with
    | nil => exact fun h => absurd rfl h
    | cons name names ih =>
      intro _
      cases names with
      | nil => simp
      | cons next names =>
        have := ih (by simp)
        simp_all [List.intercalate]
  rw [← hjoin _ (List.splitOn_ne_nil _ _), List.intercalate_splitOn]

theorem mem_directoriesFrom {dir base : Text} {names : List Text} (h : dir ∈ GuestPath.directoriesFrom base names)
    (last : Text) : ∃ rest, base ++ (names ++ [last]).flatMap (fun name => '/' :: name) = dir ++ '/' :: rest := by
  induction names generalizing base with
  | nil => cases h
  | cons name names ih =>
    rw [GuestPath.directoriesFrom, List.mem_cons] at h
    rcases h with rfl | h
    · cases names with
      | nil => exact ⟨last, by simp⟩
      | cons next names => exact ⟨next ++ (names ++ [last]).flatMap fun name => '/' :: name, by simp⟩
    · obtain ⟨rest, hrest⟩ := ih h
      exact ⟨rest, by rw [← hrest]; simp⟩

theorem isUnder_of_mem_directories {p : GuestPath} {dir : Text} (h : dir ∈ p.directories) : isUnder dir p.text = true := by
  obtain ⟨rest, htext, -⟩ := segments_of_pathProblem p.valid
  rw [GuestPath.directories, htext, List.tail_cons] at h
  obtain ⟨more, hmore⟩ := mem_directoriesFrom h ((rest.splitOn '/').getLast (List.splitOn_ne_nil _ _))
  rw [List.dropLast_append_getLast, List.nil_append, ← cons_eq_flatMap_splitOn] at hmore
  rw [isUnder_iff, htext]
  exact ⟨more, hmore⟩

theorem ne_manifestPath_of_mem_directories {p : GuestPath} {dir : Text} (h : dir ∈ p.directories) : dir ≠ manifestPath := by
  rintro rfl
  have := (manifest_of_pathProblem p.valid).2
  rw [isUnder_of_mem_directories h] at this
  cases this

/-! ### The tree above a path -/

/-- A name that a path is made of. -/
def PathName (name : Text) : Prop := name ≠ [] ∧ '/' ∉ name ∧ ¬ tempMark <:+: name

theorem GuestPath.names (p : GuestPath) : ∃ (names : List Text) (last : Text), (∀ name ∈ names, PathName name) ∧
    PathName last ∧
    p.text = (names ++ [last]).flatMap (fun name => '/' :: name) ∧ p.directories = GuestPath.directoriesFrom [] names := by
  obtain ⟨rest, htext, hsegments⟩ := segments_of_pathProblem p.valid
  have hname : ∀ name ∈ rest.splitOn '/', PathName name := by
    intro name hmem
    have hsegment := hsegments name hmem
    refine ⟨?_, Text.not_mem_of_mem_splitOn hmem, not_infix_of_segmentProblem hsegment⟩
    rintro rfl
    cases hsegment
  obtain ⟨names, last, hsplit⟩ := List.eq_nil_or_concat' (rest.splitOn '/') |>.resolve_left (List.splitOn_ne_nil _ _)
  rw [hsplit] at hname
  refine ⟨names, last, fun name h => hname name (List.mem_append_left _ h), hname last (by simp), ?_, ?_⟩
  · rw [htext, cons_eq_flatMap_splitOn, hsplit]
  · rw [GuestPath.directories, htext, List.tail_cons, hsplit, List.dropLast_concat]

/-- Each directory on the way is in the one before it. -/
theorem parent_of_mem_directoriesFrom {dir base : Text} {names : List Text}
    (h : dir ∈ GuestPath.directoriesFrom base names) :
    ∃ parent, ∃ name ∈ names, dir = parent ++ '/' :: name ∧
      (parent = base ∨ parent ∈ GuestPath.directoriesFrom base names) := by
  induction names generalizing base with
  | nil => cases h
  | cons name names ih =>
    rw [GuestPath.directoriesFrom, List.mem_cons] at h
    rcases h with rfl | h
    · exact ⟨base, name, List.mem_cons_self, rfl, .inl rfl⟩
    · obtain ⟨parent, name', hname', hdir, hparent⟩ := ih h
      refine ⟨parent, name', List.mem_cons_of_mem _ hname', hdir, .inr ?_⟩
      rw [GuestPath.directoriesFrom, List.mem_cons]
      exact hparent

/-- What some names lead to is in the last directory on the way. -/
theorem parent_of_names (base : Text) (names : List Text) (last : Text) :
    ∃ parent, base ++ (names ++ [last]).flatMap (fun name => '/' :: name) = parent ++ '/' :: last ∧
      (parent = base ∨ parent ∈ GuestPath.directoriesFrom base names) := by
  induction names generalizing base with
  | nil => exact ⟨base, by simp, .inl rfl⟩
  | cons name names ih =>
    obtain ⟨parent, hparent, hmem⟩ := ih (base ++ '/' :: name)
    refine ⟨parent, by rw [← hparent]; simp, .inr ?_⟩
    rw [GuestPath.directoriesFrom, List.mem_cons]
    exact hmem

theorem GuestPath.parent (p : GuestPath) : ∃ dir name, PathName name ∧ p.text = dir ++ '/' :: name ∧
    (dir = [] ∨ dir ∈ p.directories) := by
  obtain ⟨names, last, -, hlast, htext, hdirs⟩ := p.names
  obtain ⟨parent, hparent, hmem⟩ := parent_of_names [] names last
  exact ⟨parent, last, hlast, htext.trans hparent, hdirs ▸ hmem⟩

theorem GuestPath.parent_of_directory (p : GuestPath) {dir : Text} (h : dir ∈ p.directories) :
    ∃ parent name, PathName name ∧ dir = parent ++ '/' :: name ∧ (parent = [] ∨ parent ∈ p.directories) := by
  obtain ⟨names, last, hnames, -, -, hdirs⟩ := p.names
  rw [hdirs] at h ⊢
  obtain ⟨parent, name, hname, hdir, hparent⟩ := parent_of_mem_directoriesFrom h
  exact ⟨parent, name, hnames name hname, hdir, hparent⟩

/-- Some names lead to a directory, and from there the others do. -/
theorem split_of_mem_directoriesFrom {dir base : Text} {names : List Text}
    (h : dir ∈ GuestPath.directoriesFrom base names) :
    ∃ way name rest, names = way ++ name :: rest ∧ dir = base ++ (way ++ [name]).flatMap (fun name => '/' :: name) ∧
      GuestPath.directoriesFrom base names = GuestPath.directoriesFrom base way ++
        dir :: GuestPath.directoriesFrom dir rest := by
  induction names generalizing base with
  | nil => cases h
  | cons name names ih =>
    rw [GuestPath.directoriesFrom, List.mem_cons] at h
    rcases h with rfl | h
    · exact ⟨[], name, names, rfl, by simp, rfl⟩
    · obtain ⟨way, name', rest, hnames, hdir, hsplit⟩ := ih h
      refine ⟨name :: way, name', rest, by rw [hnames]; rfl, by rw [hdir]; simp, ?_⟩
      rw [GuestPath.directoriesFrom, hsplit]
      rfl

theorem splitOn_flatMap {names : List Text} (h : ∀ name ∈ names, PathName name) :
    (names.flatMap fun name => '/' :: name).splitOn '/' = [] :: names := by
  induction names using List.reverseRecOn with
  | nil => rfl
  | append_singleton names name ih =>
    rw [List.flatMap_append, List.flatMap_singleton, List.splitOn_append_cons_self,
      ih fun n hn => h n (List.mem_append_left _ hn), List.splitOn_eq_singleton (h name (by simp)).2.1]
    rfl

theorem not_reserved_flatMap {names : List Text} (h : ∀ name ∈ names, PathName name) :
    ¬ Reserved (names.flatMap fun name => '/' :: name) := by
  rintro ⟨name, hmem, hmark⟩
  rw [splitOn_flatMap h] at hmem
  rcases List.mem_cons.mp hmem with rfl | hmem
  · exact absurd hmark (by decide)
  · exact (h name hmem).2.2 hmark

theorem not_reserved_of_mem_directories {p : GuestPath} {dir : Text} (h : dir ∈ p.directories) : ¬ Reserved dir := by
  obtain ⟨names, last, hnames, -, -, hdirs⟩ := p.names
  rw [hdirs] at h
  obtain ⟨way, name, rest, hsplit, rfl, -⟩ := split_of_mem_directoriesFrom h
  rw [List.nil_append]
  refine not_reserved_flatMap fun n hn => hnames n ?_
  rw [hsplit]
  rcases List.mem_append.mp hn with hn | hn
  · exact List.mem_append_left _ hn
  · exact List.mem_append_right _ (List.mem_cons.mpr (.inl (List.mem_singleton.mp hn)))

/-- A file that lives where another's directory should be has the same directories above it. -/
theorem GuestPath.directories_split {p q : GuestPath} (h : q.text ∈ p.directories) :
    ∃ rest, p.directories = q.directories ++ q.text :: rest := by
  obtain ⟨names, last, hnames, -, -, hdirs⟩ := p.names
  obtain ⟨names', last', hnames', hlast', htext, hdirs'⟩ := q.names
  rw [hdirs] at h ⊢
  obtain ⟨way, name, rest, hsplit, hq, hways⟩ := split_of_mem_directoriesFrom h
  have hway : ∀ n ∈ way ++ [name], PathName n := by
    intro n hn
    refine hnames n ?_
    rw [hsplit, ← List.singleton_append, ← List.append_assoc]
    exact List.mem_append_left _ hn
  have hown : ∀ n ∈ names' ++ [last'], PathName n :=
    List.forall_mem_append.mpr ⟨hnames', List.forall_mem_singleton.mpr hlast'⟩
  have hsame : way ++ [name] = names' ++ [last'] := by
    have hflat : (way ++ [name]).flatMap (fun name => '/' :: name) =
        (names' ++ [last']).flatMap fun name => '/' :: name := by
      rw [← htext, hq, List.nil_append]
    have hlists := congrArg (List.splitOn '/') hflat
    rw [splitOn_flatMap hway, splitOn_flatMap hown] at hlists
    exact List.tail_eq_of_cons_eq hlists
  obtain ⟨rfl, -⟩ := List.append_inj' hsame rfl
  exact ⟨_, hdirs' ▸ hways⟩

theorem GuestPath.not_reserved_parent (p : GuestPath) : ¬ Reserved (splitName p.text).1 := by
  obtain ⟨dir, name, hname, htext, hdir⟩ := p.parent
  rw [htext, splitName_append dir hname.2.1]
  rcases hdir with rfl | hdir
  · show ¬ Reserved []
    decide
  · exact not_reserved_of_mem_directories hdir

end Guest
end PveMeta
