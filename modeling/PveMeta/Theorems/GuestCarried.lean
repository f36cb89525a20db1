import PveMeta.Guest.Sample
import PveMeta.Theorems.GuestCalm
import PveMeta.Theorems.GuestWriters

/-! # When a plan can be carried out

On the very files that were probed, a plan is carried out unless a directory stands where the temp file of one of its
files goes, or `/etc` itself is missing: the manifest's directory is made, but not the one that it is in. -/

namespace PveMeta
namespace Guest

section

variable [Deps] {files : GuestFiles} {old : Manifest} {nodes : Nodes} {force : Bool} {d : Desired} {q : GuestPath} {fs : Fs}
  {w w' : World}

/-! ### Files in a tree -/

/-- Whatever is there is in a directory. -/
def Tree (fs : Fs) : Prop :=
  ∀ dir name, dir ≠ [] → name ≠ [] → '/' ∉ name → fs (dir ++ '/' :: name) ≠ .missing → fs dir = .dir

omit [Deps] in
theorem Tree.missing_child (h : Tree fs) {dir name : Text} (hdir : dir ≠ []) (hname : PathName name)
    (hmissing : fs dir = .missing) :
    fs (dir ++ '/' :: name) = .missing := by
  by_contra hthere
  have hisDir := h dir name hdir hname.1 hname.2.1 hthere
  rw [hmissing] at hisDir
  cases hisDir

omit [Deps] in
/-- Below what is missing everything is. -/
theorem Tree.missing_below (h : Tree fs) {base : Text} {names : List Text} (hnames : ∀ name ∈ names, PathName name)
    (hbase : base ≠ []) (hmissing : fs base = .missing) :
    fs (base ++ names.flatMap fun name => '/' :: name) = .missing ∧
      ∀ dir ∈ GuestPath.directoriesFrom base names, fs dir = .missing := by
  induction names generalizing base with
  | nil => exact ⟨by simpa using hmissing, by rintro _ ⟨⟩⟩
  | cons name names ih =>
    obtain ⟨hname, hrest⟩ := List.forall_mem_cons.mp hnames
    have hchild := h.missing_child hbase hname hmissing
    obtain ⟨hlast, hdirs⟩ := ih hrest (by simp) hchild
    refine ⟨by simpa using hlast, fun dir hdir => ?_⟩
    rw [GuestPath.directoriesFrom, List.mem_cons] at hdir
    rcases hdir with rfl | hdir
    · exact hchild
    · exact hdirs dir hdir

/-! ### Names that are not too long -/

omit [Deps] in
theorem fits_iff {path : Text} :
    fits path = true ↔ Text.byteLen path < 4096 ∧ ∀ name ∈ path.splitOn '/', Text.byteLen name ≤ 255 := by
  simp [fits]

omit [Deps] in
/-- A directory's path is not too long where one below it is not. -/
theorem fits_of_below {dir rest : Text} (h : fits (dir ++ '/' :: rest) = true) : fits dir = true := by
  rw [fits_iff, Text.byteLen_append, Text.byteLen_cons, List.splitOn_append_cons_self] at h
  exact fits_iff.mpr ⟨by omega, fun name hname => h.2 name (List.mem_append_left _ hname)⟩

omit [Deps] in
/-- A path is not too long where the longer one of its temp file is not. -/
theorem fits_of_tempFor (h : fits (tempFor q.text) = true) : fits q.text = true := by
  obtain ⟨parent, name, hname, htext, -⟩ := q.parent
  have hsplit := splitName_append parent hname.2.1
  have htemp := not_mem_tempName q.text
  rw [tempFor_eq, fits_iff, Text.byteLen_append, Text.byteLen_cons, List.splitOn_append_cons_self,
    List.splitOn_eq_singleton htemp, htext, hsplit] at h
  rw [htext, fits_iff, Text.byteLen_append, Text.byteLen_cons, List.splitOn_append_cons_self,
    List.splitOn_eq_singleton hname.2.1]
  obtain ⟨hlen, hnames⟩ := h
  obtain ⟨hdir, hlast⟩ := List.forall_mem_append.mp hnames
  have hle := List.forall_mem_singleton.mp hlast
  simp only [Text.byteLen_append, Text.byteLen_cons] at hlen hle
  exact ⟨by omega, List.forall_mem_append.mpr ⟨hdir, List.forall_mem_singleton.mpr (by omega)⟩⟩

omit [Deps] in
theorem fits_of_mem_directories {dir : Text} (hdir : dir ∈ q.directories) (h : fits (tempFor q.text) = true) :
    fits dir = true := by
  obtain ⟨rest, hrest⟩ := isUnder_iff.mp (isUnder_of_mem_directories hdir)
  have htext := fits_of_tempFor h
  rw [hrest] at htext
  exact fits_of_below htext

/-! ### What a target is judged to be -/

theorem lstat_eq_dir {node : Inode} : node.lstat = .dir ↔ node = .dir := by
  cases node <;> simp [Inode.lstat]

theorem lstat_eq_missing {node : Inode} : node.lstat = .missing ↔ node = .missing := by
  cases node <;> simp [Inode.lstat]

/-- The nodes are what is at the path and on the way to it. -/
def Sees (nodes : Nodes) (fs : Fs) (q : GuestPath) : Prop :=
  ∀ path, path = q.text ∨ path ∈ q.directories → nodes.at path = (fs path).lstat

theorem Sees.dirs_of_none (h : Sees nodes fs q) (hnone : assessDirs nodes q.directories = none) :
    ∀ dir ∈ q.directories, fs dir = .dir := by
  intro dir hdir
  rw [← lstat_eq_dir, ← h dir (.inr hdir)]
  exact assessDirs_eq_none.mp hnone dir hdir

/-- Where a directory on the way is missing, the target is, and what is on the way to it is directories. -/
theorem missing_of_assessDirs (htree : Tree fs) {base last : Text} {names : List Text}
    (hnames : ∀ name ∈ names ++ [last], PathName name)
    (hsees : ∀ dir ∈ GuestPath.directoriesFrom base names, nodes.at dir = (fs dir).lstat)
    (h : assessDirs nodes (GuestPath.directoriesFrom base names) = some .missing) :
    fs (base ++ (names ++ [last]).flatMap fun name => '/' :: name) = .missing ∧
      ∀ dir ∈ GuestPath.directoriesFrom base names, fs dir = .dir ∨ fs dir = .missing := by
  induction names generalizing base with
  | nil => cases h
  | cons name names ih =>
    rw [GuestPath.directoriesFrom] at h hsees ⊢
    obtain ⟨hhere, hbelow⟩ := List.forall_mem_cons.mp hsees
    have hrest : ∀ name ∈ names ++ [last], PathName name := fun n hn => hnames n (List.mem_cons_of_mem name hn)
    have hpath : base ++ (name :: names ++ [last]).flatMap (fun name => '/' :: name) =
        (base ++ '/' :: name) ++ (names ++ [last]).flatMap fun name => '/' :: name := by simp
    rw [hpath]
    rw [assessDirs] at h
    cases hnode : fs (base ++ '/' :: name) with
    | missing =>
      obtain ⟨hlast, -⟩ := htree.missing_below hrest (by simp) hnode
      obtain ⟨-, hdirs⟩ := htree.missing_below (fun n hn => hrest n (List.mem_append_left _ hn)) (by simp) hnode
      exact ⟨hlast, List.forall_mem_cons.mpr ⟨.inr hnode, fun dir hdir => .inr (hdirs dir hdir)⟩⟩
    | dir =>
      have hat : nodes.at (base ++ '/' :: name) = .dir := by rw [hhere, hnode]; rfl
      simp only [hat, dirProblem, reduceCtorEq, if_false] at h
      obtain ⟨hlast, hdirs⟩ := ih hrest hbelow h
      exact ⟨hlast, List.forall_mem_cons.mpr ⟨.inl hnode, hdirs⟩⟩
    | symlink target =>
      have hat : nodes.at (base ++ '/' :: name) = .symlink := by rw [hhere, hnode]; rfl
      simp [hat, dirProblem] at h
    | other =>
      have hat : nodes.at (base ++ '/' :: name) = .other := by rw [hhere, hnode]; rfl
      simp [hat, dirProblem] at h
    | file owner mode content =>
      have hat : nodes.at (base ++ '/' :: name) = .file owner.uid owner.gid mode (MetaStore.digest content) := by
        rw [hhere, hnode]
        rfl
      simp [hat, dirProblem] at h

theorem Sees.missing (h : Sees nodes fs q) (htree : Tree fs) (hstate : assess q nodes = .missing) :
    fs q.text = .missing ∧ ∀ dir ∈ q.directories, fs dir = .dir ∨ fs dir = .missing := by
  unfold assess at hstate
  split at hstate
  · next state hdirs =>
    subst hstate
    obtain ⟨names, last, hnames, hlast, htext, hways⟩ := q.names
    rw [hways] at hdirs
    have hall : ∀ name ∈ names ++ [last], PathName name :=
      List.forall_mem_append.mpr ⟨hnames, List.forall_mem_singleton.mpr hlast⟩
    have hmissing := missing_of_assessDirs htree hall (fun dir hdir => h dir (.inr (hways ▸ hdir))) hdirs
    rwa [List.nil_append, ← htext, ← hways] at hmissing
  · next hnone =>
    refine ⟨?_, fun dir hdir => .inl (h.dirs_of_none hnone dir hdir)⟩
    rw [← lstat_eq_missing, ← h q.text (.inl rfl)]
    split at hstate
    · assumption
    all_goals cases hstate

theorem Sees.present (h : Sees nodes fs q) {hash : String} {mode : Nat} {owner : Owner}
    (hstate : assess q nodes = .present hash mode owner) :
    (∃ content, fs q.text = .file owner mode content ∧ MetaStore.digest content = hash) ∧
      ∀ dir ∈ q.directories, fs dir = .dir := by
  unfold assess at hstate
  split at hstate
  · next state hdirs =>
    subst hstate
    exact absurd hdirs assessDirs_ne_present
  · next hnone =>
    refine ⟨?_, h.dirs_of_none hnone⟩
    have hnode := h q.text (.inl rfl)
    cases hfs : fs q.text with
    | file owner' mode' content =>
      rw [hnode, hfs] at hstate
      cases hstate
      exact ⟨content, rfl, rfl⟩
    | _ =>
      rw [hnode, hfs] at hstate
      cases hstate

theorem Sees.mem_missingDirs (h : Sees nodes fs q) {dir : Text} :
    dir ∈ missingDirs nodes q ↔ dir ∈ q.directories ∧ fs dir ≠ .dir := by
  unfold missingDirs
  rw [List.mem_filter, decide_eq_true_iff]
  refine and_congr_right fun hdir => ?_
  rw [h dir (.inr hdir), ne_eq, lstat_eq_dir]

section

variable (h : Sees nodes fs d.entry.path) (hhold : holdReason files nodes = none) (hd : d ∈ files.desired)

include h hhold hd

/-- What a new file is in is there, or is to be made. -/
theorem Sees.way_made (hcreate : (verdict old nodes force d).1 = .create) {dir : Text}
    (hdir : dir ∈ d.entry.path.directories) :
    fs dir = .dir ∨ dir ∈ (plan files old nodes force).dirs := by
  by_cases hthere : fs dir = .dir
  · exact .inl hthere
  · exact .inr ((mem_dirs_iff hhold).mpr (.inr ⟨d, hd, hcreate, h.mem_missingDirs.mpr ⟨hdir, hthere⟩⟩))

/-- So is what a file is in that is to be written, new or not. -/
theorem Sees.due_made (hdue : Due old nodes force d) {dir : Text} (hdir : dir ∈ d.entry.path.directories) :
    fs dir = .dir ∨ dir ∈ (plan files old nodes force).dirs := by
  have hstate := hdue.2
  split at hstate
  · next hmissing => exact h.way_made hhold hd (create_of_due hdue hmissing) hdir
  · next hpresent => exact .inl ((h.present hpresent).2 dir hdir)
  · exact hstate.elim

end

/-! ### What a plan finds -/

omit [Deps] in
theorem guestRoot_mem : guestRoot ∈ Manifest.directories := List.mem_cons_of_mem _ List.mem_cons_self

/-- The nodes are those of a probe of the files. -/
def Probes (files : GuestFiles) (old : Manifest) (nodes : Nodes) (fs : Fs) : Prop :=
  ∀ path ∈ probePaths files old, nodes.at path = (fs path).lstat

theorem probes_probed (files : GuestFiles) (old : Manifest) (fs : Fs) :
    Probes files old (probed fs (probePaths files old)) fs :=
  fun _ hpath => at_probed hpath

namespace Probes

variable (h : Probes files old nodes fs)

include h

theorem wanted (hd : d ∈ files.desired) : Sees nodes fs d.entry.path := fun path hpath =>
  h path (mem_probePaths_iff.mpr (.inr (.inl ⟨_, List.mem_map_of_mem hd, hpath⟩)))

theorem recorded {r : Record} (hr : old.records.get? q = some r) : Sees nodes fs q := fun path hpath =>
  h path (mem_probePaths hr hpath)

/-- Where the manifest lives, nothing but a directory is, or a hold says so. -/
theorem root (hhold : holdReason files nodes = none) {dir : Text} (hdir : dir ∈ Manifest.directories) :
    nodes.at dir = (fs dir).lstat ∧ (fs dir = .dir ∨ fs dir = .missing) := by
  have hnode := h dir (mem_probePaths_iff.mpr (.inr (.inr hdir)))
  refine ⟨hnode, ?_⟩
  unfold holdReason at hhold
  split at hhold
  · cases hhold
  · have hproblem := List.findSome?_eq_none_iff.mp hhold dir hdir
    rw [hnode] at hproblem
    cases hfs : fs dir with
    | missing => exact .inr rfl
    | dir => exact .inl rfl
    | _ =>
      rw [hfs] at hproblem
      cases hproblem

/-- A new file is missing, and on the way to it is nothing but directories. -/
theorem created (htree : Tree fs) (hd : d ∈ files.desired) (hcreate : (verdict old nodes force d).1 = .create) :
    fs d.entry.path.text = .missing ∧ ∀ dir ∈ d.entry.path.directories, fs dir = .dir ∨ fs dir = .missing :=
  (h.wanted hd).missing htree (due_of_create hcreate).2

variable (hhold : holdReason files nodes = none)

include hhold

/-- What is to be made a directory is not there. -/
theorem missing_of_mem_dirs (htree : Tree fs) {dir : Text} (hdir : dir ∈ (plan files old nodes force).dirs) :
    fs dir = .missing := by
  rcases (mem_dirs_iff hhold).mp hdir with ⟨rfl, -, hnot⟩ | ⟨d, hd, hcreate, hmissing⟩
  · obtain ⟨hnode, hroot⟩ := h.root hhold guestRoot_mem
    refine hroot.resolve_left fun hdir => hnot ?_
    rw [hnode, hdir]
    rfl
  · obtain ⟨hway, hnot⟩ := (h.wanted hd).mem_missingDirs.mp hmissing
    exact ((h.created htree hd hcreate).2 dir hway).resolve_left hnot

theorem parent_made {dir : Text} (hdir : dir ∈ (plan files old nodes force).dirs) (hroot : dir ≠ guestRoot) :
    canHold fs (splitName dir).1 = true ∨
      (splitName dir).1 ∈ (plan files old nodes force).dirs ∧ (splitName dir).1 < dir := by
  obtain ⟨d, hd, hcreate, hmissing⟩ := ((mem_dirs_iff hhold).mp hdir).resolve_left fun hmanifest => hroot hmanifest.1
  obtain ⟨parent, name, hname, rfl, hparent⟩ :=
    d.entry.path.parent_of_directory ((h.wanted hd).mem_missingDirs.mp hmissing).1
  rw [splitName_append parent hname.2.1]
  rcases hparent with rfl | hparent
  · exact .inl rfl
  · exact ((h.wanted hd).way_made hhold hd hcreate hparent).imp canHold_of_dir fun hmem => ⟨hmem, lt_child parent name⟩

end Probes

/-! ### Every operation finds what it needs -/

omit [Deps] in
theorem not_isUnder_self (path : Text) : isUnder path path = false := by
  rw [Bool.eq_false_iff]
  intro h
  obtain ⟨rest, hrest⟩ := isUnder_iff.mp h
  have hlength := congrArg List.length hrest
  rw [List.length_append, List.length_cons] at hlength
  omega

omit [Deps] in
theorem not_nested_of_collides {q q' : GuestPath} (h : collides q q' = false) :
    isUnder q.text q'.text = false ∧ isUnder q'.text q.text = false := by
  simpa [GuestPath.nestsWith] using (Bool.or_eq_false_iff.mp h).2

/-- No file that is wanted lives under another. -/
theorem Apart.not_under (h : Apart files) {e : Desired} (hd : d ∈ files.desired) (he : e ∈ files.desired) :
    isUnder d.entry.path.text e.entry.path.text = false :=
  List.Pairwise.forall_of_forall_of_flip (R := fun d e : Desired => isUnder d.entry.path.text e.entry.path.text = false)
    (fun _ _ => not_isUnder_self _) (List.Pairwise.imp (fun hne => (not_nested_of_collides hne).1) h)
    (List.Pairwise.imp (fun hne => (not_nested_of_collides hne).2) h) hd he

/-- No file that is wanted is where a directory is made. -/
theorem Apart.not_mem_dirs (h : Apart files) (hhold : holdReason files nodes = none) (hd : d ∈ files.desired) :
    d.entry.path.text ∉ (plan files old nodes force).dirs := by
  intro hmem
  rcases (mem_dirs_iff hhold).mp hmem with ⟨hroot, -⟩ | ⟨e, he, -, hmissing⟩
  · have hmanifest := (manifest_of_pathProblem d.entry.path.valid).1
    rw [hroot] at hmanifest
    exact absurd hmanifest (by decide)
  · have hunder := isUnder_of_mem_directories (List.mem_filter.mp hmissing).1
    rw [h.not_under hd he] at hunder
    cases hunder

omit [Deps] in
theorem made_of_not_mem {dirs : List Text} {path : Text} (h : path ∉ dirs) : made fs dirs path = fs path := if_neg h

omit [Deps] in
theorem made_dir {dirs : List Text} {path : Text} : made fs dirs path = .dir ↔ path ∈ dirs ∨ fs path = .dir := by
  unfold made
  split
  · next h => simp [h]
  · next h => simp [h]

/-- A file goes where its directory is, or is made. -/
theorem ready_place {dirs : List Text} {expect : Expect} (hway : ∀ dir ∈ d.entry.path.directories, made fs dirs dir = .dir)
    (hnot : d.entry.path.text ∉ dirs) (hholds : expect.holds (fs d.entry.path.text) = true) (hany : expect ≠ .any) :
    (d.op expect).Ready (made fs dirs) := by
  obtain ⟨parent, name, hname, htext, hparent⟩ := d.entry.path.parent
  have hsplit : (splitName d.entry.path.text).1 = parent := by rw [htext, splitName_append parent hname.2.1]
  refine ⟨d.entry.path.not_reserved, d.entry.path.not_reserved_parent, ?_, ?_, hany⟩
  · rw [hsplit]
    exact hparent.imp_right (hway parent)
  · rwa [made_of_not_mem hnot]

/-- With its directories made, every operation of a plan finds what it needs. -/
theorem Probes.ready (h : Probes files old nodes fs) (hapart : Apart files) (hhold : holdReason files nodes = none)
    (htree : Tree fs) {op : Op} (hop : op ∈ (plan files old nodes force).ops) :
    op.Ready (made fs (plan files old nodes force).dirs) := by
  have hfile : ∀ path, fs path ≠ .missing → path ∉ (plan files old nodes force).dirs :=
    fun path hthere hmem => hthere (h.missing_of_mem_dirs hhold htree hmem)
  have hpresent : ∀ d ∈ files.desired, ∀ hash mode owner, assess d.entry.path nodes = .present hash mode owner →
      (d.op (.sha256 hash)).Ready (made fs (plan files old nodes force).dirs) := by
    intro d hd hash mode owner hstate
    obtain ⟨⟨content, hfs, hhash⟩, hdirs⟩ := (h.wanted hd).present hstate
    refine ready_place (fun dir hdir => made_dir.mpr (.inr (hdirs dir hdir))) (hapart.not_mem_dirs hhold hd) ?_
      (by rintro ⟨⟩)
    rw [hfs]
    exact beq_iff_eq.mpr hhash
  cases planned_of_mem hop with
  | create d wanted unclaimed state =>
    have hcreate := @create_of_due _ old nodes force d ⟨unclaimed, by rw [state]; trivial⟩ state
    obtain ⟨hmissing, hdirs⟩ := h.created htree wanted hcreate
    refine ready_place (fun dir hdir => made_dir.mpr ((h.wanted wanted).way_made hhold wanted hcreate hdir).symm)
      (hapart.not_mem_dirs hhold wanted) ?_ (by rintro ⟨⟩)
    rw [hmissing]
    rfl
  | update d wanted unclaimed r mode owner known state => exact hpresent d wanted r.sha256 mode owner state
  | overwrite d wanted unclaimed hash mode owner state forced => exact hpresent d wanted hash mode owner state
  | remove q r known mode owner unwanted owned unheld state =>
    obtain ⟨⟨content, hfs, hhash⟩, -⟩ := (h.recorded known).present state
    refine ⟨q.not_reserved, owner, mode, content, ?_, hhash⟩
    rwa [made_of_not_mem (hfile q.text (by rw [hfs]; rintro ⟨⟩))]

/-! ### The commit -/

section

variable {dirs : List Text} {ops : List Op} {outcomes : List Outcome}

theorem commit_calm {w₁ w₂ : World} (h : w.turns = []) (hdirs : mkdirs dirs w = (.ok (), w₁))
    (hops : runOps ops w₁ = (.ok outcomes, w₂)) : w.commit dirs ops = (.ok outcomes, w₂) := by
  have h₁ : w₁.turns = [] := by
    rw [(mkdirs_ok h hdirs).1]
    exact h
  rw [World.commit, call_calm h]
  dsimp only
  rw [hdirs]
  dsimp only
  rw [hops]
  dsimp only
  rw [call_calm (runOps_turns h₁ hops)]

theorem commit_stuck (h : w.turns = []) (hdirs : ∃ e, (mkdirs dirs w).1 = .error e) :
    ∃ e, (w.commit dirs ops).1 = .error e := by
  obtain ⟨e, he⟩ := hdirs
  rw [World.commit, call_calm h]
  dsimp only
  cases hmkdirs : mkdirs dirs w with
  | mk r w₁ =>
    rw [hmkdirs] at he
    cases he
    exact ⟨e, rfl⟩

theorem commit_ok (h : w.turns = []) (hok : w.commit dirs ops = (.ok outcomes, w')) :
    runOps ops { w with fs := made w.fs dirs } = (.ok outcomes, w') ∧ ∀ dir ∈ dirs, w.fs dir = .dir ∨
      w.fs dir = .missing := by
  cases hdirs : mkdirs dirs w with
  | mk r w₁ =>
    cases r with
    | error e =>
      obtain ⟨e', he'⟩ := @commit_stuck _ w dirs ops h ⟨e, by rw [hdirs]⟩
      rw [hok] at he'
      cases he'
    | ok u =>
      refine ⟨?_, (mkdirs_ok h hdirs).2⟩
      cases hops : runOps ops w₁ with
      | mk r w₂ =>
        rw [← (mkdirs_ok h hdirs).1, hops]
        cases r with
        | error e =>
          rw [World.commit, call_calm h] at hok
          dsimp only at hok
          rw [hdirs] at hok
          dsimp only at hok
          rw [hops] at hok
          cases hok
        | ok outcomes' => rw [← commit_calm h hdirs hops, hok]

end

/-! ### The manifest -/

/-- A directory is in the way of the manifest: where its temp file goes, or where that is moved in the directory that the
    manifest's path is or leads to, which may be the temp file's own. -/
def SaveBlocked (fs : Fs) : Prop :=
  fs (tempFor manifestPath) = .dir ∨
    nodeAt fs manifestPath = .dir ∧
      (leadsTo fs manifestPath = guestRoot ∨
        fs (leadsTo fs manifestPath ++ '/' :: (splitName (tempFor manifestPath)).2) = .dir)

omit [Deps] in
theorem leadsTo_congr {fs' : Fs} {path : Text} (hpath : fs' path = fs path) : leadsTo fs' path = leadsTo fs path := by
  unfold leadsTo
  rw [hpath]

omit [Deps] in
theorem saveBlocked_congr {fs' : Fs} (hpath : fs' manifestPath = fs manifestPath)
    (hdirs : ∀ p, fs' p = .dir ↔ fs p = .dir) :
    SaveBlocked fs' ↔ SaveBlocked fs := by
  unfold SaveBlocked
  rw [nodeAt_dir_congr hpath hdirs, leadsTo_congr hpath, hdirs, hdirs]

omit [Deps] in
/-- In a tree, what is moved into a directory that is made finds nothing in its way there. -/
theorem Tree.saveBlocked_made (h : Tree fs) {dirs : List Text} (hdirs : ∀ dir ∈ dirs, ¬ Reserved dir ∧ dir ≠ manifestPath) :
    SaveBlocked (made fs dirs) ↔ SaveBlocked fs := by
  have hpath : made fs dirs manifestPath = fs manifestPath := made_of_not_mem fun hmem => (hdirs _ hmem).2 rfl
  have hreserved : ∀ p, Reserved p → (made fs dirs p = .dir ↔ fs p = .dir) := fun p hp => by
    rw [made_of_not_mem fun hmem => (hdirs p hmem).1 hp]
  unfold SaveBlocked
  rw [leadsTo_congr hpath, hreserved _ (reserved_tempFor _), hreserved _ (reserved_into _ _)]
  refine or_congr_right (and_congr_left fun hway =>
    ⟨fun hnode => ?_, nodeAt_dir_mono hpath fun p hp => made_dir.mpr (.inr hp)⟩)
  by_cases hlink : ∃ target, fs manifestPath = .symlink target
  · obtain ⟨target, hlink⟩ := hlink
    have hleads : leadsTo fs manifestPath = target := by
      unfold leadsTo
      rw [hlink]
    rw [hleads] at hway
    unfold nodeAt
    rw [hlink]
    cases target with
    | nil => rfl
    | cons c target =>
      -- What is below it is there already, so that it is.
      rcases hway with hroot | hbelow
      · rw [hroot]
        refine h guestRoot manifestName (by decide) (by decide) (by decide) ?_
        rw [show guestRoot ++ '/' :: manifestName = manifestPath from rfl, hlink]
        rintro ⟨⟩
      · exact h (c :: target) (splitName (tempFor manifestPath)).2 (by simp) (by decide) (not_mem_splitName _)
          (by rw [hbelow]; rintro ⟨⟩)
  · have hplain : ∀ target, fs manifestPath ≠ .symlink target := fun target htarget => hlink ⟨target, htarget⟩
    rw [nodeAt_of_plain (hpath ▸ hplain), hpath] at hnode
    rwa [nodeAt_of_plain hplain]

omit [Deps] in
theorem saveBlocked_iff :
    SaveBlocked w.fs ↔ w.fs (tempFor manifestPath) = .dir ∨ w.moveTarget manifestPath = tempFor manifestPath ∨
      w.fs (w.moveTarget manifestPath) = .dir := by
  unfold SaveBlocked World.moveTarget
  refine or_congr_right ?_
  by_cases hnode : nodeAt w.fs manifestPath = .dir
  · rw [moveInto, if_pos hnode, and_iff_right hnode]
    refine or_congr_left ?_
    have htemp : tempFor manifestPath = guestRoot ++ '/' :: (splitName (tempFor manifestPath)).2 := by decide
    refine ⟨fun hroot => by rw [hroot, ← htemp], fun hsame => ?_⟩
    exact List.append_cancel_right (hsame.trans htemp)
  · rw [moveInto_of_ne_dir hnode]
    refine iff_of_false (fun hboth => hnode hboth.1) (not_or.mpr ⟨(tempFor_ne_manifestPath _).symm, fun hdir => hnode ?_⟩)
    rwa [nodeAt_of_plain (by simp [hdir])]

section

variable [Serde] {after : Manifest}

/-- The manifest is written into the directory it lives in, unless a directory is in its way. -/
theorem runOps_manifestOp (h : w.turns = []) (hroot : w.fs guestRoot = .dir) :
    ∃ outcome w', runOps [manifestOp after] w = (.ok [outcome], w') ∧
      ((∃ why, outcome = .failed why) ↔ SaveBlocked w.fs) := by
  have hparent : ¬ Reserved (splitName manifestPath).1 := by decide
  have hplace := @place_calm _ w manifestPath after.render Manifest.mode .root .any not_reserved_manifestPath hparent
  have hrun : runOp w (manifestOp after) = place w .none manifestPath after.render Manifest.mode .root .any := by
    rw [runOp, turn_calm h]
    rfl
  have hcreatable : creatable w.fs (tempFor manifestPath) = true := by
    rw [creatable_eq_true, splitName_tempFor, show (splitName manifestPath).1 = guestRoot by decide]
    exact ⟨canHold_of_dir hroot, by decide⟩
  have hsettable : Owner.root.settable = true := by decide
  rw [hcreatable, hsettable] at hplace
  simp only [Bool.true_eq_false, or_false, Expect.holds, if_false] at hplace
  rw [saveBlocked_iff, runOps, hrun, hplace]
  by_cases htemp : w.fs (tempFor manifestPath) = .dir
  · rw [if_pos htemp]
    exact ⟨_, _, rfl, iff_of_true ⟨_, rfl⟩ (.inl htemp)⟩
  · rw [if_neg htemp]
    by_cases htarget : w.moveTarget manifestPath = tempFor manifestPath ∨ w.fs (w.moveTarget manifestPath) = .dir
    · rw [if_pos htarget]
      exact ⟨_, _, rfl, iff_of_true ⟨_, rfl⟩ (.inr htarget)⟩
    · rw [if_neg htarget]
      exact ⟨_, _, rfl, iff_of_false (by rintro ⟨why, ⟨⟩⟩) (not_or.mpr ⟨htemp, htarget⟩)⟩

theorem saveManifest_calm {dirs : List Text} {w₁ : World} (h : w.turns = []) (hdirs : mkdirs dirs w = (.ok (), w₁))
    (hroot : w₁.fs guestRoot = .dir) (hne : after ≠ old) :
    (saveManifest old after dirs w).1 = .ok () ↔ ¬ SaveBlocked w₁.fs := by
  have h₁ : w₁.turns = [] := by
    rw [(mkdirs_ok h hdirs).1]
    exact h
  obtain ⟨outcome, w', hops, hblocked⟩ := @runOps_manifestOp _ w₁ _ after h₁ hroot
  rw [saveManifest, Calls.saveManifest, if_neg hne, World.calls_commit, commit_calm h hdirs hops, ← hblocked]
  cases outcome with
  | failed why => exact iff_of_false (by rintro ⟨⟩) (not_not.mpr ⟨why, rfl⟩)
  | _ => exact iff_of_true rfl (by rintro ⟨why, ⟨⟩⟩)

theorem saveManifest_stuck {dirs : List Text} (h : w.turns = []) (hdirs : ∃ e, (mkdirs dirs w).1 = .error e)
    (hne : after ≠ old) : ∃ e, (saveManifest old after dirs w).1 = .error e := by
  obtain ⟨e, he⟩ := @commit_stuck _ w dirs [manifestOp after] h hdirs
  rw [saveManifest, Calls.saveManifest, if_neg hne, World.calls_commit]
  cases hcommit : w.commit dirs [manifestOp after] with
  | mk r w₁ =>
    rw [hcommit] at he
    cases he
    exact ⟨e, rfl⟩

theorem saveManifest_world {dirs : List Text} (hne : after ≠ old) :
    (saveManifest old after dirs w).2 = (w.commit dirs [manifestOp after]).2 := by
  rw [saveManifest, Calls.saveManifest, if_neg hne, World.calls_commit]
  split
  all_goals
    next heq => rw [heq]

/-- A manifest that is written is all that is, but for its directories and files of the daemon's own. -/
theorem saveManifest_ok {dirs : List Text} (h : w.turns = []) (hne : after ≠ old)
    (hok : saveManifest old after dirs w = (.ok (), w')) :
    ActsAt manifestPath { w with fs := made w.fs dirs } w' ∧ ∀ dir ∈ dirs, w.fs dir = .dir ∨ w.fs dir = .missing := by
  have hworld := @saveManifest_world _ old w _ after dirs hne
  rw [hok] at hworld
  rw [saveManifest, Calls.saveManifest, if_neg hne, World.calls_commit] at hok
  cases hcommit : w.commit dirs [manifestOp after] with
  | mk r w₁ =>
    rw [hcommit] at hok hworld
    cases r with
    | error e => cases hok
    | ok outcomes =>
      obtain ⟨hops, hways⟩ := commit_ok h hcommit
      refine ⟨?_, hways⟩
      rw [runOps] at hops
      cases hop : runOp { w with fs := made w.fs dirs } (manifestOp after) with
      | mk r w₂ =>
        have hacts := runOp_actsAt hop
        rw [@turn_calm { w with fs := made w.fs dirs } h] at hacts
        rw [hop] at hops
        cases r with
        | error e => cases hops
        | ok outcome =>
          cases hops
          obtain rfl : w' = w₁ := hworld
          exact hacts

end

/-! ### What is carried out -/

section

variable [Serde] {p : Plan}

/-- The manifest is saved, and then the outcomes are what a sync answers with. -/
def conclude (old after : Manifest) (dirs : List Text) (outcomes : List Outcome) (w : World) :
    Except String (List Outcome) × World :=
  match saveManifest old after dirs w with
  | (.error e, w) => (.error e, w)
  | (.ok (), w) => (.ok outcomes, w)

/-- What a sync does once it has its plan: the commit, and the manifest that says what was done. -/
def carry (p : Plan) (old : Manifest) (w : World) : Except String (List Outcome) × World :=
  match if p.ops.isEmpty then (.ok [], w) else w.commit p.dirs p.ops with
  | (.error e, w) => (.error e, w)
  | (.ok outcomes, w) =>
    conclude old (p.manifestAfter old (outcomes.map fun o => o == .done)) (if p.ops.isEmpty then p.dirs else []) outcomes w

/-- A sync whose plan changes something carries it out on the files that it has looked at. -/
theorem sync_carry [RustDebug] {ins : Inspection} {w₁ : World} (h : inspect files force w = (.ok ins, w₁))
    (hchanges : ins.plan.changes ins.manifest = true) :
    (sync files force w).2 = (carry ins.plan ins.manifest w₁).2 ∧
      ((∃ report, (sync files force w).1 = .ok report) ↔
        ∃ outcomes, (carry ins.plan ins.manifest w₁).1 = .ok outcomes) := by
  unfold sync carry conclude
  rw [Calls.sync, World.calls_inspect, h]
  dsimp only
  rw [if_pos hchanges]
  simp only [World.calls_commit, World.calls_saveManifest]
  cases hcommit : if ins.plan.ops.isEmpty then (.ok [], w₁) else w₁.commit ins.plan.dirs ins.plan.ops with
  | mk r w₂ =>
    cases r with
    | error e => exact ⟨rfl, by simp⟩
    | ok outcomes =>
      dsimp only
      cases hsave : saveManifest ins.manifest (ins.plan.manifestAfter ins.manifest (outcomes.map fun o => o == .done))
          (if ins.plan.ops.isEmpty then ins.plan.dirs else []) w₂ with
      | mk r w₃ =>
        cases r with
        | error e => exact ⟨rfl, by simp⟩
        | ok u => exact ⟨rfl, by simp⟩

section

variable {after : Manifest} {dirs : List Text} {outcomes : List Outcome}

theorem conclude_ok {outcomes' : List Outcome} (h : conclude old after dirs outcomes w = (.ok outcomes', w')) :
    outcomes = outcomes' ∧ saveManifest old after dirs w = (.ok (), w') := by
  unfold conclude at h
  split at h
  · cases h
  · next hsave =>
    cases h
    exact ⟨rfl, hsave⟩

theorem conclude_calm {w₁ : World} (h : w.turns = []) (hdirs : mkdirs dirs w = (.ok (), w₁))
    (hroot : w₁.fs guestRoot = .dir) :
    (∃ w', conclude old after dirs outcomes w = (.ok outcomes, w')) ↔ (after ≠ old → ¬ SaveBlocked w₁.fs) := by
  unfold conclude
  by_cases hsame : after = old
  · rw [saveManifest, Calls.saveManifest, if_pos hsame]
    exact iff_of_true ⟨w, rfl⟩ fun hne => absurd hsame hne
  · rw [imp_iff_right hsame, ← saveManifest_calm h hdirs hroot hsame]
    cases hsave : saveManifest old after dirs w with
    | mk r w₂ =>
      cases r with
      | error e => exact iff_of_false (by rintro ⟨w', ⟨⟩⟩) (by rintro ⟨⟩)
      | ok u => exact iff_of_true ⟨w₂, rfl⟩ rfl

theorem conclude_stuck (h : w.turns = []) (hdirs : ∃ e, (mkdirs dirs w).1 = .error e) (hne : after ≠ old) :
    ∃ e, (conclude old after dirs outcomes w).1 = .error e := by
  obtain ⟨e, he⟩ := saveManifest_stuck h hdirs hne
  unfold conclude
  cases hsave : saveManifest old after dirs w with
  | mk r w₁ =>
    rw [hsave] at he
    cases he
    exact ⟨e, rfl⟩

end

omit [Deps] [Serde] in
theorem manifestAfter_done (ops : List Op) :
    p.manifestAfter old ((ops.map fun _ => Outcome.done).map fun o => o == .done) = p.manifest := by
  refine Manifest.ext_get? fun q => get?_after_done fun e he _ => ?_
  obtain ⟨op, -, hdone⟩ := List.mem_map.mp (List.of_mem_zip he).2
  exact hdone.symm

/-- A plan without operations is its manifest. -/
theorem carry_of_isEmpty (h : p.ops = []) : carry p old w = conclude old p.manifest p.dirs [] w := by
  have hmanifest : p.manifestAfter old [] = p.manifest := manifestAfter_done []
  rw [carry, h]
  simp only [List.isEmpty_nil, if_true, List.map_nil, hmanifest]

theorem carry_of_commit (h : p.ops ≠ []) {w₁ : World}
    (hcommit : w.commit p.dirs p.ops = (.ok (p.ops.map fun _ => .done), w₁)) :
    carry p old w = conclude old p.manifest [] (p.ops.map fun _ => .done) w₁ := by
  have hfalse : p.ops.isEmpty = false := by simpa using h
  rw [carry, hfalse, if_neg Bool.false_ne_true, hcommit]
  dsimp only
  rw [manifestAfter_done, if_neg Bool.false_ne_true]

theorem carry_ok (h : p.ops ≠ []) (hok : carry p old w = (.ok (p.ops.map fun _ => .done), w')) :
    ∃ w₁, w.commit p.dirs p.ops = (.ok (p.ops.map fun _ => .done), w₁) ∧
      saveManifest old p.manifest [] w₁ = (.ok (), w') := by
  have hfalse : p.ops.isEmpty = false := by simpa using h
  rw [carry, hfalse, if_neg Bool.false_ne_true] at hok
  cases hcommit : w.commit p.dirs p.ops with
  | mk r w₁ =>
    rw [hcommit] at hok
    cases r with
    | error e => cases hok
    | ok outcomes =>
      obtain ⟨rfl, hsave⟩ := conclude_ok hok
      rw [manifestAfter_done, if_neg Bool.false_ne_true] at hsave
      exact ⟨w₁, rfl, hsave⟩

omit [Deps] [Serde] in
theorem manifest_ne_of_changes (hchanges : p.changes old = true) (h : p.ops = []) : p.manifest ≠ old := by
  rw [Plan.changes, h] at hchanges
  simpa using hchanges

theorem carry_stuck (h : w.turns = []) (hchanges : p.changes old = true) (hdirs : ∃ e, (mkdirs p.dirs w).1 = .error e) :
    ∃ e, (carry p old w).1 = .error e := by
  by_cases hops : p.ops = []
  · rw [carry_of_isEmpty hops]
    exact conclude_stuck h hdirs (manifest_ne_of_changes hchanges hops)
  · obtain ⟨e, he⟩ := @commit_stuck _ w p.dirs p.ops h hdirs
    have hfalse : p.ops.isEmpty = false := by simpa using hops
    rw [carry, hfalse, if_neg Bool.false_ne_true]
    cases hcommit : w.commit p.dirs p.ops with
    | mk r w₁ =>
      rw [hcommit] at he
      cases he
      exact ⟨e, rfl⟩

/-- The files after a plan that was carried out. -/
structure Carried (p : Plan) (fs fs' : Fs) : Prop where
  own : ∀ op ∈ p.ops, fs' op.path = op.node
  others : ∀ q, ¬ Reserved q → q ≠ manifestPath → (∀ op ∈ p.ops, op.path ≠ q) → fs' q = made fs p.dirs q
  dirs : ∀ q, fs' q = .dir ↔ made fs p.dirs q = .dir
  ways : ∀ dir ∈ p.dirs, fs dir = .dir ∨ fs dir = .missing

theorem carried_of_carry (h : w.turns = []) (hfits : ∀ op ∈ p.ops, op.Fits ∧ op.path ≠ manifestPath)
    (hpaths : p.ops.Pairwise fun a b => a.path ≠ b.path) (hidle : p.changes old = false → p.dirs = [])
    (hok : carry p old w = (.ok (p.ops.map fun _ => .done), w')) : Carried p w.fs w'.fs := by
  by_cases hops : p.ops = []
  · rw [carry_of_isEmpty hops] at hok
    obtain ⟨-, hsave⟩ := conclude_ok hok
    have hnone : ∀ {P : Op → Prop}, ∀ op ∈ p.ops, P op := by
      rw [hops]
      rintro _ _ ⟨⟩
    by_cases hsame : p.manifest = old
    · rw [saveManifest, Calls.saveManifest, if_pos hsame] at hsave
      cases hsave
      have hdirs : p.dirs = [] := hidle (by simp [Plan.changes, hops, hsame])
      exact ⟨hnone, by simp [hdirs, made_nil], by simp [hdirs, made_nil], by simp [hdirs]⟩
    · obtain ⟨hacts, hways⟩ := saveManifest_ok h hsame hsave
      exact ⟨hnone, fun q hq hne _ => hacts.others q hq hne, hacts.dirs, hways⟩
  · obtain ⟨w₁, hcommit, hsave⟩ := carry_ok hops hok
    obtain ⟨hrun, hways⟩ := commit_ok h hcommit
    have hdone := @runOps_committed _ { w with fs := made w.fs p.dirs } w₁ p.ops h (fun op hop => (hfits op hop).1)
      hpaths hrun
    have hacts : ActsAt manifestPath w₁ w' := by
      by_cases hsame : p.manifest = old
      · rw [saveManifest, Calls.saveManifest, if_pos hsame] at hsave
        cases hsave
        exact .refl _ _
      · exact (saveManifest_ok (@runOps_turns _ { w with fs := made w.fs p.dirs } w₁ p.ops _ h hrun) hsame hsave).1
    refine ⟨fun op hop => ?_, fun q hq hne hnot => ?_, fun q => (hacts.dirs q).trans (hdone.dirs q), hways⟩
    · rw [hacts.others op.path (hfits op hop).1.unreserved (hfits op hop).2]
      exact hdone.own op hop
    · rw [hacts.others q hq hne]
      exact hdone.others q hq hnot

/-- With its directories made and its operations ready, a plan is carried out unless a directory is in the way. -/
theorem carry_calm {w₁ : World} (h : w.turns = []) (hdirs : mkdirs p.dirs w = (.ok (), w₁)) (hroot : w₁.fs guestRoot = .dir)
    (hready : ∀ op ∈ p.ops, op.Ready w₁.fs) (hfits : ∀ op ∈ p.ops, op.Fits ∧ op.path ≠ manifestPath)
    (hpaths : p.ops.Pairwise fun a b => a.path ≠ b.path) :
    (∃ w', carry p old w = (.ok (p.ops.map fun _ => .done), w')) ↔
      (∀ op ∈ p.ops, ¬ op.Blocked w₁.fs) ∧ (p.manifest ≠ old → ¬ SaveBlocked w₁.fs) := by
  by_cases hops : p.ops = []
  · rw [carry_of_isEmpty hops, hops, List.map_nil, conclude_calm h hdirs hroot]
    exact (and_iff_right (by rintro _ ⟨⟩)).symm
  · have h₁ : w₁.turns = [] := by
      rw [(mkdirs_ok h hdirs).1]
      exact h
    obtain ⟨outcomes, w₂, hrun, hall⟩ := runOps_calm h₁ hready hpaths
    have hcommit := commit_calm h hdirs hrun
    rw [← hall]
    by_cases hdone : outcomes = p.ops.map fun _ => .done
    · subst hdone
      have hcommitted := runOps_committed h₁ (fun op hop => (hfits op hop).1) hpaths hrun
      have hmanifest := hcommitted.others manifestPath not_reserved_manifestPath fun op hop => (hfits op hop).2
      rw [carry_of_commit hops hcommit, conclude_calm (runOps_turns h₁ hrun) rfl ((hcommitted.dirs _).mpr hroot),
        saveBlocked_congr hmanifest hcommitted.dirs]
      exact (and_iff_right rfl).symm
    · refine iff_of_false ?_ fun hboth => hdone hboth.1
      rintro ⟨w', hok⟩
      obtain ⟨w₃, hcommit', -⟩ := carry_ok hops hok
      rw [hcommit] at hcommit'
      cases hcommit'
      exact hdone rfl

end

/-! ### When it can be -/

theorem planned_fits {op : Op} (hop : op ∈ (plan files old nodes force).ops) : op.Fits ∧ op.path ≠ manifestPath := by
  have hplace : ∀ (q : GuestPath) content mode owner expect, expect ≠ .any →
      (Op.place q.text content mode owner expect).Fits ∧ q.text ≠ manifestPath := fun q _ _ _ _ hany =>
    ⟨⟨q.not_reserved, q.not_reserved_parent, hany⟩, q.ne_manifestPath⟩
  cases planned_of_mem hop with
  | create d => exact hplace d.entry.path _ _ _ _ (by rintro ⟨⟩)
  | update d => exact hplace d.entry.path _ _ _ _ (by rintro ⟨⟩)
  | overwrite d => exact hplace d.entry.path _ _ _ _ (by rintro ⟨⟩)
  | remove q => exact ⟨q.not_reserved, q.ne_manifestPath⟩

theorem not_reserved_of_mem_dirs {dir : Text} (h : dir ∈ (plan files old nodes force).dirs) :
    ¬ Reserved dir ∧ dir ≠ manifestPath := by
  rcases mem_dirs h with rfl | ⟨d, -, hdir⟩
  · decide
  · have hway := (List.mem_filter.mp hdir).1
    exact ⟨not_reserved_of_mem_directories hway, ne_manifestPath_of_mem_directories hway⟩

/-- What is not the daemon's own to make is as it was when the directories are made. -/
theorem made_plan_dir {q : Text} (h : Reserved q ∨ q = manifestPath) :
    made fs (plan files old nodes force).dirs q = .dir ↔ fs q = .dir := by
  rw [made_dir, or_iff_right]
  intro hmem
  obtain ⟨hreserved, hmanifest⟩ := not_reserved_of_mem_dirs hmem
  exact h.elim hreserved hmanifest

/-- The plan's operations are carried out, each of them done, and the manifest is written where it lives. -/
def CarriedOut [Serde] (p : Plan) (old : Manifest) (w : World) : Prop :=
  ∃ w', carry p old w = (.ok (p.ops.map fun _ => .done), w') ∧ (∀ dir ∈ p.dirs, w'.fs dir = .dir) ∧
    (p.changes old = true → w'.fs guestRoot = .dir)

/-- A file can be written: no directory is in the way of its temp file, whose name is not too long, and its owner can be
    set. -/
def Desired.Writable (fs : Fs) (d : Desired) : Prop :=
  fs (tempFor d.entry.path.text) ≠ .dir ∧ fits (tempFor d.entry.path.text) = true ∧ d.entry.owner.settable = true

/-- `/etc` is there or is made for a file in it, what is to be written can be, and no directory is in the way of the
    manifest. -/
structure Clear (files : GuestFiles) (old : Manifest) (nodes : Nodes) (force : Bool) (fs : Fs) : Prop where
  etc : (∃ d ∈ files.desired, Due old nodes force d) ∨ Stale files old nodes force →
    fs "/etc".toList = .dir ∨ ∃ d ∈ files.desired, Due old nodes force d ∧ "/etc".toList ∈ d.entry.path.directories
  writable : ∀ d ∈ files.desired, Due old nodes force d → d.Writable fs
  manifest : Stale files old nodes force → ¬ SaveBlocked fs

theorem not_blocked_op {expect : Expect} : ¬ (d.op expect).Blocked fs ↔ d.Writable fs := by
  unfold Desired.op Op.Blocked Desired.Writable
  rw [not_or, not_or, Bool.not_eq_false, Bool.not_eq_false]

theorem writable_iff (hhold : holdReason files nodes = none) :
    (∀ op ∈ (plan files old nodes force).ops, ¬ op.Blocked fs) ↔
      ∀ d ∈ files.desired, Due old nodes force d → d.Writable fs := by
  rw [plan_eq hhold]
  show (∀ op ∈ (draft files old nodes force).ops, ¬ op.Blocked fs) ↔ _
  rw [ops_draft]
  constructor
  · intro hblocked d hd hdue
    obtain ⟨op, hop⟩ := isSome_fileOp.mpr hdue
    have hnot := hblocked op (List.mem_append_left _ (List.mem_filterMap.mpr ⟨d, hd, hop⟩))
    obtain ⟨expect, -, rfl⟩ := Option.map_eq_some_iff.mp hop
    exact not_blocked_op.mp hnot
  · intro hwritable op hop
    rcases List.mem_append.mp hop with hop | hop
    · obtain ⟨d, hd, hfile⟩ := List.mem_filterMap.mp hop
      obtain ⟨expect, -, rfl⟩ := Option.map_eq_some_iff.mp hfile
      exact not_blocked_op.mpr (hwritable d hd (isSome_fileOp.mp ⟨_, hfile⟩))
    · obtain ⟨e, -, hgone⟩ := List.mem_filterMap.mp hop
      obtain ⟨rfl, -⟩ := goneOp_eq_some hgone
      exact id

/-- `/etc` is made where a file in it is to be written. -/
theorem Probes.etc_made (h : Probes files old nodes fs) (hhold : holdReason files nodes = none)
    (hnot : fs "/etc".toList ≠ .dir) :
    "/etc".toList ∈ (plan files old nodes force).dirs ↔
      ∃ d ∈ files.desired, Due old nodes force d ∧ "/etc".toList ∈ d.entry.path.directories := by
  rw [mem_dirs_iff hhold, or_iff_right fun hroot => absurd hroot.1 (by decide)]
  constructor
  · rintro ⟨d, hd, hcreate, hmissing⟩
    exact ⟨d, hd, (due_of_create hcreate).1, (List.mem_filter.mp hmissing).1⟩
  · rintro ⟨d, hd, hdue, hway⟩
    refine ⟨d, hd, create_of_due hdue ?_, (h.wanted hd).mem_missingDirs.mpr ⟨hway, hnot⟩⟩
    have hstate := hdue.2
    split at hstate
    · assumption
    · next hpresent => exact absurd (((h.wanted hd).present hpresent).2 _ hway) hnot
    · exact hstate.elim

/-- Where nothing is to change, no directory is made. -/
theorem Apart.dirs_of_idle (h : Apart files) (hhold : holdReason files nodes = none)
    (hidle : (plan files old nodes force).changes old = false) : (plan files old nodes force).dirs = [] := by
  have hnothing := fun hdue => Bool.eq_false_iff.mp hidle ((h.changes_iff hhold).mpr hdue)
  refine List.eq_nil_iff_forall_not_mem.mpr fun dir hdir => ?_
  rcases (mem_dirs_iff hhold).mp hdir with ⟨-, hchanged, -⟩ | ⟨d, hd, hcreate, -⟩
  · rw [hidle] at hchanged
    cases hchanged
  · exact hnothing (.inl ⟨d, hd, (due_of_create hcreate).1⟩)

/-- What a plan leaves, once it is carried out with nothing to disturb it. -/
theorem Apart.carried [Serde] (h : Apart files) (hhold : holdReason files nodes = none) (hcalm : w.turns = [])
    (hok : carry (plan files old nodes force) old w = (.ok ((plan files old nodes force).ops.map fun _ => .done), w')) :
    Carried (plan files old nodes force) w.fs w'.fs :=
  carried_of_carry hcalm (fun _ hop => planned_fits hop) h.plan_ops (h.dirs_of_idle hhold) hok

section

variable (h : Probes files old nodes fs) (hhold : holdReason files nodes = none) (hapart : Apart files) (htree : Tree fs)

include h hhold htree

theorem Probes.mkdirs_ok (hfits : ∀ dir ∈ (plan files old nodes force).dirs, fits dir = true)
    (hetc : fs "/etc".toList = .dir ∨
      ∃ d ∈ files.desired, Due old nodes force d ∧ "/etc".toList ∈ d.entry.path.directories) :
    mkdirs (plan files old nodes force).dirs (World.start fs) =
      (.ok (), { World.start fs with fs := made fs (plan files old nodes force).dirs }) := by
  refine mkdirs_calm rfl sorted_dirs (fun dir hdir => h.missing_of_mem_dirs hhold htree hdir) hfits fun dir hdir => ?_
  by_cases hroot : dir = guestRoot
  · subst hroot
    by_cases hthere : fs "/etc".toList = .dir
    · exact .inl (canHold_of_dir hthere)
    · exact .inr ⟨(h.etc_made hhold hthere).mpr (hetc.resolve_left hthere), lt_child "/etc".toList "pve-meta".toList⟩
  · exact h.parent_made hhold hdir hroot

/-- The manifest's directory is made, but not the one that it is in. -/
theorem Probes.mkdirs_stuck (hchanges : (plan files old nodes force).changes old = true)
    (hetc : ¬ (fs "/etc".toList = .dir ∨
      ∃ d ∈ files.desired, Due old nodes force d ∧ "/etc".toList ∈ d.entry.path.directories)) :
    ∃ e, (mkdirs (plan files old nodes force).dirs (World.start fs)).1 = .error e := by
  obtain ⟨hnot, hnone⟩ := not_or.mp hetc
  have hmissing := (h.root hhold (List.mem_cons_self : "/etc".toList ∈ Manifest.directories)).2.resolve_left hnot
  have hroot : fs guestRoot = .missing :=
    @Tree.missing_child fs htree "/etc".toList "pve-meta".toList (by decide) ⟨by decide, by decide, by decide⟩ hmissing
  have hmem : guestRoot ∈ (plan files old nodes force).dirs := by
    refine (mem_dirs_iff hhold).mpr (.inl ⟨rfl, hchanges, ?_⟩)
    rw [(h.root hhold guestRoot_mem).1, hroot]
    rintro ⟨⟩
  refine @Guest.mkdirs_stuck (.start fs) guestRoot _ rfl hmem hroot fun ds hds => ?_
  have hparent : (splitName guestRoot).1 = "/etc".toList := by decide
  have hetc' : made fs ds "/etc".toList = .missing := by
    rw [made_of_not_mem fun hmem => hnone ((h.etc_made hhold hnot).mp (hds hmem)), hmissing]
  show (canHold (made fs ds) (splitName guestRoot).1 && fits guestRoot) = false
  rw [hparent, canHold_of_missing hetc' (by decide)]
  rfl

/-- A directory is not made whose path is too long. -/
theorem Probes.mkdirs_long {dir : Text} (hdir : dir ∈ (plan files old nodes force).dirs) (hlong : fits dir ≠ true) :
    ∃ e, (mkdirs (plan files old nodes force).dirs (World.start fs)).1 = .error e := by
  refine @Guest.mkdirs_stuck (.start fs) dir _ rfl hdir (h.missing_of_mem_dirs hhold htree hdir) fun ds _ => ?_
  rw [← Bool.not_eq_true, creatable_eq_true]
  exact fun hboth => hlong hboth.2

variable [Serde]

include hapart

/-- Where something is to change, and the directories are made, it is carried out exactly when nothing else is in the
    way. -/
theorem Probes.carried_iff (hfits : ∀ dir ∈ (plan files old nodes force).dirs, fits dir = true)
    (hchanges : (plan files old nodes force).changes old = true) (hetc : fs "/etc".toList = .dir ∨
      ∃ d ∈ files.desired, Due old nodes force d ∧ "/etc".toList ∈ d.entry.path.directories) :
    CarriedOut (plan files old nodes force) old (World.start fs) ↔
      (∀ d ∈ files.desired, Due old nodes force d → d.Writable fs) ∧ (Stale files old nodes force → ¬ SaveBlocked fs) := by
  have hdirs := h.mkdirs_ok hhold htree hfits hetc
  have hroot : made fs (plan files old nodes force).dirs guestRoot = .dir := by
    rw [made_dir]
    obtain ⟨hnode, hthere | hmissing⟩ := h.root hhold guestRoot_mem
    · exact .inr hthere
    · refine .inl ((mem_dirs_iff hhold).mpr (.inl ⟨rfl, hchanges, ?_⟩))
      rw [hnode, hmissing]
      rintro ⟨⟩
  have hcarry : (∃ w', carry (plan files old nodes force) old (World.start fs) =
      (.ok ((plan files old nodes force).ops.map fun _ => .done), w')) ↔ _ :=
    carry_calm rfl hdirs hroot (fun op hop => h.ready hapart hhold htree hop) (fun op hop => planned_fits hop)
      hapart.plan_ops
  have hmanifest : (plan files old nodes force).manifest ≠ old ↔ Stale files old nodes force := by
    rw [plan_eq hhold]
    exact hapart.manifest_ne_iff
  have hsave : SaveBlocked (made fs (plan files old nodes force).dirs) ↔ SaveBlocked fs :=
    htree.saveBlocked_made fun dir hdir => not_reserved_of_mem_dirs hdir
  have hblocked : ∀ op : Op, op.Blocked (made fs (plan files old nodes force).dirs) ↔ op.Blocked fs := by
    intro op
    cases op with
    | place path content mode owner expect => exact or_congr_left (made_plan_dir (.inl (reserved_tempFor path)))
    | remove path sha256 => exact Iff.rfl
  have hmade : CarriedOut (plan files old nodes force) old (World.start fs) ↔
      ∃ w', carry (plan files old nodes force) old (World.start fs) =
        (.ok ((plan files old nodes force).ops.map fun _ => .done), w') := by
    refine ⟨fun hcarried => hcarried.imp fun w' hboth => hboth.1, fun hcarried => hcarried.imp fun w' hok => ?_⟩
    have hafter := hapart.carried hhold rfl hok
    exact ⟨hok, fun dir hdir => (hafter.dirs dir).mpr (made_dir.mpr (.inl hdir)), fun _ =>
      (hafter.dirs guestRoot).mpr hroot⟩
  rw [hmade, hcarry, hmanifest, hsave]
  simp only [hblocked]
  rw [writable_iff hhold]

/-- Where something is to change, it is carried out exactly when nothing is in the way. -/
theorem Probes.clear_iff (hchanges : (plan files old nodes force).changes old = true) :
    CarriedOut (plan files old nodes force) old (World.start fs) ↔ Clear files old nodes force fs := by
  have hstuck : (∃ e, (mkdirs (plan files old nodes force).dirs (World.start fs)).1 = .error e) →
      ¬ CarriedOut (plan files old nodes force) old (World.start fs) := by
    rintro hmkdirs ⟨w', hok, -⟩
    obtain ⟨e, he⟩ := carry_stuck rfl hchanges hmkdirs
    rw [hok] at he
    cases he
  by_cases hetc : fs "/etc".toList = .dir ∨
      ∃ d ∈ files.desired, Due old nodes force d ∧ "/etc".toList ∈ d.entry.path.directories
  · by_cases hfits : ∀ dir ∈ (plan files old nodes force).dirs, fits dir = true
    · rw [h.carried_iff hhold hapart htree hfits hchanges hetc]
      exact ⟨fun hboth => ⟨fun _ => hetc, hboth.1, hboth.2⟩, fun hclear => ⟨hclear.writable, hclear.manifest⟩⟩
    · -- A directory with too long a path is one of a file whose temp file has a longer one.
      push Not at hfits
      obtain ⟨dir, hdir, hlong⟩ := hfits
      refine iff_of_false (hstuck (h.mkdirs_long hhold htree hdir hlong)) fun hclear => hlong ?_
      rcases (mem_dirs_iff hhold).mp hdir with ⟨rfl, -⟩ | ⟨d, hd, hcreate, hmissing⟩
      · decide
      · exact fits_of_mem_directories (List.mem_filter.mp hmissing).1 (hclear.writable d hd (due_of_create hcreate).1).2.1
  · exact iff_of_false (hstuck (h.mkdirs_stuck hhold htree hchanges hetc))
      fun hclear => hetc (hclear.etc ((hapart.changes_iff hhold).mp hchanges))

end

/-- Where nothing is to change, nothing is carried out. -/
theorem carriedOut_idle [Serde] {p : Plan} (hops : p.ops = []) (hmanifest : p.manifest = old) (hdirs : p.dirs = []) :
    CarriedOut p old w := by
  refine ⟨w, ?_, ?_, fun hchanges => absurd hmanifest (manifest_ne_of_changes hchanges hops)⟩
  · rw [carry_of_isEmpty hops, hops, conclude, saveManifest, Calls.saveManifest, if_pos hmanifest]
    rfl
  · rw [hdirs]
    rintro _ ⟨⟩

end

open GuestSample Sample

theorem tree_guest : Tree guest := by
  intro dir name hdir _ hname hthere
  have hsplit := splitName_append dir hname
  have hpath : dir ++ '/' :: name = "/etc".toList ∨ dir ++ '/' :: name = guestRoot := by
    by_contra hnot
    exact hthere (if_neg hnot)
  rcases hpath with hpath | hpath
  · rw [hpath, show splitName "/etc".toList = ([], "etc".toList) by decide] at hsplit
    exact absurd (congrArg Prod.fst hsplit).symm hdir
  · rw [hpath, show splitName guestRoot = ("/etc".toList, "pve-meta".toList) by decide] at hsplit
    rw [← (Prod.mk.inj hsplit).1]
    decide

/-- A guest with nothing in it. -/
def bare : Fs := fun _ => .missing

/-- A document that asks for a file outside `/etc`. -/
def askedOutside : GuestFiles := .ofDocument (.object [("a", .string "a: 1\n"),
  ("guest-files",
    .object [("app", .object [("view", .string "a"), ("path", .string "/opt/app"), ("format", .string "raw")])])])

end Guest
end PveMeta
