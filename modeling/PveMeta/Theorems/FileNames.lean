import PveMeta.Sample
import PveMeta.Theorems.Copies
import PveMeta.Theorems.Ids

/-! # Whose a file is

The store writes a guest's document and its copies under names of its own, and reads a vmid and a snapshot
back from a name. The readings take names that the store does not write: a vmid with a sign or with zeros
before it, and a copy under another spelling of the extension. Without such files, they are the inverse of
the writing. -/

namespace PveMeta
namespace MetaStore

/-- A vmid as the store does not write it. -/
def Respelled (head : Text) (v : UInt32) : Prop :=
  Text.parseU32 head = some v ∧ head ≠ (DocId.decimal v.toNat).toList

/-- A name with a respelled vmid, or a copy's name with another spelling of the extension. -/
def Stray (file : String) : Prop :=
  (∃ head v, Respelled head v ∧
    (file.toList = head ++ ".yaml".toList ∨
      ∃ n, isValidSnapshotName n = true ∧ file.toList = head ++ '.' :: (n.toList ++ ".yaml".toList))) ∨
    ∃ (v : UInt32) (n ext : String), isValidSnapshotName n = true ∧ Format.fromExt ext = some diskFormat ∧
      ext ≠ diskFormat.ext ∧ file = DocId.decimal v.toNat ++ "." ++ n ++ "." ++ ext

/-- The name of the guest's document, or of a copy of it. -/
def NameOf (v : UInt32) (file : String) : Prop :=
  FsPath.root file = docPath v ∨ ∃ n, isValidSnapshotName n = true ∧ FsPath.root file = snapshotPath v n

/-- The listings tell the names the store gives out, and a purge clears what they list. -/
structure Classified (s : MetaStore) : Prop where
  vmids : ∃ vs, s.storedVmids = .ok vs ∧ ∀ v, v ∈ vs ↔ docPath v ∈ Assoc.keys s.files ∨
    ∃ n, isValidSnapshotName n = true ∧ snapshotPath v n ∈ Assoc.keys s.files
  snapshots : ∀ v, ∃ names, s.listSnapshots v = .ok names ∧ names.Nodup ∧
    ∀ n, n ∈ names ↔ isValidSnapshotName n = true ∧ snapshotPath v n ∈ Assoc.keys s.files
  unknown : ∃ files, s.unknownFiles = .ok files ∧ ∀ file, file ∈ files ↔ FsPath.root file ∈ Assoc.keys s.files ∧
    file.toList.head? ≠ some '.' ∧ ∀ v, ¬ NameOf v file
  purged : ∀ v, ∃ n t vs, s.purge v = (.ok n, t) ∧ t.storedVmids = .ok vs ∧ v ∉ vs

variable {s : MetaStore} {v : UInt32} {n file : String} {head : Text}

/-! ### Reading a name -/

theorem dot_not_mem_of_parseU32 (h : Text.parseU32 head = some v) : '.' ∉ head := by
  obtain ⟨ds, hds, -, hall, -⟩ := Decimal.parseU32_eq_some h
  have hnot : '.' ∉ ds := fun hmem => by
    have := List.all_eq_true.mp hall _ hmem
    simp at this
  rcases hds with rfl | rfl
  · exact hnot
  · simp [hnot]

theorem vmidOfFile_eq_some :
    vmidOfFile file = some v ↔ ∃ head, Text.parseU32 head = some v ∧
      (file.toList = head ++ ".yaml".toList ∨
        ∃ n, isValidSnapshotName n = true ∧ file.toList = head ++ '.' :: (n.toList ++ ".yaml".toList)) := by
  constructor
  · intro h
    obtain ⟨stem, hstem, h⟩ := Option.bind_eq_some_iff.mp h
    have hfile : file.toList = stem ++ ".yaml".toList := Text.eq_append_of_stripSuffix hstem
    cases hsplit : Text.splitOnce '.' stem with
    | none =>
      rw [hsplit] at h
      exact ⟨stem, by simpa using h, Or.inl hfile⟩
    | some ab =>
      obtain ⟨head, snap⟩ := ab
      rw [hsplit] at h
      simp only [Option.any_some] at h
      split at h
      · cases h
      · next hvalid =>
        refine ⟨head, h, Or.inr ⟨String.ofList snap, by simpa using hvalid, ?_⟩⟩
        rw [hfile, Text.splitOnce_eq_some hsplit]
        simp
  · rintro ⟨head, hhead, hfile | ⟨n, hn, hfile⟩⟩
    · have hstem : Text.stripSuffix ("." ++ diskFormat.ext).toList file.toList = some head := by
        rw [hfile]
        exact Text.stripSuffix_append head _
      have hsplit := Text.splitOnce_of_not_mem (dot_not_mem_of_parseU32 hhead)
      refine Option.bind_eq_some_iff.mpr ⟨head, hstem, ?_⟩
      rw [hsplit]
      simpa using hhead
    · have hstem : Text.stripSuffix ("." ++ diskFormat.ext).toList file.toList = some (head ++ '.' :: n.toList) := by
        rw [hfile, ← List.cons_append, ← List.append_assoc]
        exact Text.stripSuffix_append (head ++ '.' :: n.toList) _
      have hsplit := Text.splitOnce_append (dot_not_mem_of_parseU32 hhead) n.toList
      refine Option.bind_eq_some_iff.mpr ⟨_, hstem, ?_⟩
      rw [hsplit]
      simpa [hn] using hhead

theorem snapshotOf_eq_some :
    snapshotOf v file = some n ↔ isValidSnapshotName n = true ∧
      ∃ ext, Format.fromExt ext = some diskFormat ∧ file = DocId.decimal v.toNat ++ "." ++ n ++ "." ++ ext := by
  constructor
  · intro h
    refine ⟨isValidSnapshotName_of_snapshotOf h, ?_⟩
    rw [snapshotOf] at h
    split at h
    · cases h
    · obtain ⟨rest, hrest, h⟩ := Option.bind_eq_some_iff.mp h
      obtain ⟨⟨ext, rev⟩, hsplit, h⟩ := Option.bind_eq_some_iff.mp h
      dsimp only at h
      split at h
      · next hok =>
        obtain rfl := Option.some.inj h
        refine ⟨_, hok.1, ?_⟩
        have hrev : rest = rev.reverse ++ '.' :: ext.reverse := by
          rw [← List.reverse_reverse rest, Text.splitOnce_eq_some hsplit]
          simp
        rw [← String.toList_inj, Text.eq_append_of_stripPrefix hrest, hrev]
        simp
      · cases h
  · rintro ⟨hn, ext, hext, rfl⟩
    exact snapshotOf_of_fromExt hn hext

/-- The vmid of a file that is not stray is the one its name was made from. -/
theorem nameOf_of_vmidOfFile (hs : ¬ Stray file) (h : vmidOfFile file = some v) : NameOf v file := by
  obtain ⟨head, hhead, hfile⟩ := vmidOfFile_eq_some.mp h
  have hplain : head = (DocId.decimal v.toNat).toList := by
    by_contra hne
    exact hs (Or.inl ⟨head, v, ⟨hhead, hne⟩, hfile⟩)
  rcases hfile with hfile | ⟨n, hn, hfile⟩
  · refine Or.inl (congrArg FsPath.root (String.toList_inj.mp ?_))
    rw [hfile, hplain, toList_fileName_guest]
  · refine Or.inr ⟨n, hn, congrArg FsPath.root (String.toList_inj.mp ?_)⟩
    rw [hfile, hplain]
    simp [diskFormat, Format.ext]

theorem vmidOfFile_of_nameOf (h : NameOf v file) : vmidOfFile file = some v := by
  refine vmidOfFile_eq_some.mpr ⟨(DocId.decimal v.toNat).toList, ?_, ?_⟩
  · simpa [DocId.decimal] using Decimal.parseU32_toDigits v
  · rcases h with h | ⟨n, hn, h⟩
    · obtain rfl := FsPath.root.inj h
      exact Or.inl (toList_fileName_guest v)
    · obtain rfl := FsPath.root.inj h
      exact Or.inr ⟨n, hn, by simp [diskFormat, Format.ext]⟩

/-- A copy is listed under its name, and a file that is not stray under no other. -/
theorem snapshotOf_eq_some_iff (hs : ¬ Stray file) :
    snapshotOf v file = some n ↔ isValidSnapshotName n = true ∧ snapshotPath v n = .root file := by
  rw [snapshotOf_eq_some]
  constructor
  · rintro ⟨hn, ext, hext, rfl⟩
    refine ⟨hn, ?_⟩
    by_cases hyaml : ext = diskFormat.ext
    · rw [hyaml, snapshotPath]
    · exact absurd (Or.inr ⟨v, n, ext, hn, hext, hyaml, rfl⟩) hs
  · rintro ⟨hn, hfile⟩
    exact ⟨hn, diskFormat.ext, rfl, (FsPath.root.inj hfile).symm⟩

theorem not_hidden_of_vmidOfFile (h : vmidOfFile file = some v) : file.toList.head? ≠ some '.' := by
  obtain ⟨head, hhead, hfile⟩ := vmidOfFile_eq_some.mp h
  obtain ⟨c, u, rfl⟩ : ∃ c u, head = c :: u := by
    refine List.exists_cons_of_ne_nil ?_
    rintro rfl
    cases hhead
  have hdot := dot_not_mem_of_parseU32 hhead
  rintro hc
  obtain rfl : c = '.' := by rcases hfile with hfile | ⟨n, -, hfile⟩ <;> simpa [hfile] using hc
  exact hdot List.mem_cons_self

/-! ### The listings -/

theorem classifiedRoot_eq (h : s.FaultFree) :
    ∃ files, s.classifiedRoot = .ok files ∧ ∀ e, e ∈ files ↔
      FsPath.root e.1 ∈ Assoc.keys s.files ∧ e.1.toList.head? ≠ some '.' ∧ vmidOfFile e.1 = e.2 := by
  refine ⟨_, by simp only [classifiedRoot, checkAvailable, h.available, h.reads]; rfl, fun e => ?_⟩
  simp only [List.mem_map, List.mem_filter, List.mem_filterMap, decide_eq_true_eq]
  constructor
  · rintro ⟨file, ⟨⟨⟨p, f⟩, hmem, hp⟩, hdot⟩, rfl⟩
    cases p with
    | root file' =>
      obtain rfl := Option.some.inj hp
      exact ⟨Assoc.mem_keys_of_mem hmem, hdot, rfl⟩
    | prefixDir i file' => cases hp
    | fallback file' => cases hp
  · rintro ⟨hmem, hdot, hv⟩
    obtain ⟨⟨p, f⟩, hmem, hp⟩ := List.mem_map.mp hmem
    obtain rfl : p = .root e.1 := hp
    exact ⟨e.1, ⟨⟨(.root e.1, f), hmem, rfl⟩, hdot⟩, by rw [hv]⟩

theorem storedVmids_eq (h : s.FaultFree) :
    ∃ vs, s.storedVmids = .ok vs ∧ ∀ v, v ∈ vs ↔
      ∃ file, FsPath.root file ∈ Assoc.keys s.files ∧ vmidOfFile file = some v := by
  obtain ⟨files, hfiles, hmem⟩ := classifiedRoot_eq h
  refine ⟨_, by rw [storedVmids, hfiles]; rfl, fun v => ?_⟩
  simp only [List.mem_insertionSort, List.mem_dedup, List.mem_filterMap, hmem]
  constructor
  · rintro ⟨⟨file, w⟩, ⟨hfile, -, hw⟩, hv⟩
    exact ⟨file, hfile, hw.trans hv⟩
  · rintro ⟨file, hfile, hv⟩
    exact ⟨(file, some v), ⟨hfile, not_hidden_of_vmidOfFile hv, hv⟩, rfl⟩

theorem unknownFiles_eq (h : s.FaultFree) :
    ∃ files, s.unknownFiles = .ok files ∧ ∀ file, file ∈ files ↔
      FsPath.root file ∈ Assoc.keys s.files ∧ file.toList.head? ≠ some '.' ∧ vmidOfFile file = none := by
  obtain ⟨files, hfiles, hmem⟩ := classifiedRoot_eq h
  refine ⟨_, by rw [unknownFiles, hfiles]; rfl, fun file => ?_⟩
  simp only [List.mem_insertionSort, List.mem_map, List.mem_filter, hmem]
  constructor
  · rintro ⟨⟨file, w⟩, ⟨⟨hfile, hdot, hv⟩, hw⟩, rfl⟩
    exact ⟨hfile, hdot, hv.trans (Option.isNone_iff_eq_none.mp hw)⟩
  · rintro ⟨hfile, hdot, hv⟩
    exact ⟨(file, none), ⟨⟨hfile, hdot, hv⟩, rfl⟩, rfl⟩

theorem eq_of_nodup_filterMap {α β : Type} {f : α → Option β} {l : List α} {a a' : α} {b : β}
    (h : (l.filterMap f).Nodup) (ha : a ∈ l) (ha' : a' ∈ l) (hb : f a = some b) (hb' : f a' = some b) : a = a' := by
  rw [List.Nodup, List.pairwise_filterMap] at h
  have hsymm : Std.Symm fun a a' : α => ∀ b ∈ f a, ∀ b' ∈ f a', b ≠ b' :=
    ⟨fun _ _ h b hb b' hb' => (h b' hb' b hb).symm⟩
  by_contra hne
  exact h.forall ha ha' hne b hb b hb' rfl

theorem nodup_listSnapshots (h : s.FaultFree) (hkeys : (Assoc.keys s.files).Nodup) {names : List String}
    (hnames : s.listSnapshots v = .ok names) :
    names.Nodup ↔ ∀ file file' n, FsPath.root file ∈ Assoc.keys s.files → FsPath.root file' ∈ Assoc.keys s.files →
      snapshotOf v file = some n → snapshotOf v file' = some n → file = file' := by
  simp only [listSnapshots, checkAvailable, h.available, h.reads] at hnames
  obtain rfl := Except.ok.inj hnames
  rw [(List.perm_insertionSort _ _).nodup_iff]
  constructor
  · intro hnodup file file' n hfile hfile' hn hn'
    obtain ⟨⟨_, f⟩, hmem, rfl⟩ := List.mem_map.mp hfile
    obtain ⟨⟨_, f'⟩, hmem', rfl⟩ := List.mem_map.mp hfile'
    exact FsPath.root.inj (congrArg Prod.fst (eq_of_nodup_filterMap hnodup hmem hmem' hn hn'))
  · intro hone
    rw [List.Nodup, List.pairwise_filterMap]
    refine (List.pairwise_map.mp hkeys).imp_of_mem ?_
    rintro ⟨p, f⟩ ⟨q, g⟩ hp hq hne n hn m hm rfl
    refine hne ?_
    cases p with
    | prefixDir i file => cases hn
    | fallback file => cases hn
    | root file =>
      cases q with
      | prefixDir i file => cases hm
      | fallback file => cases hm
      | root file' =>
        exact congrArg FsPath.root
          (hone file file' n (Assoc.mem_keys_of_mem hp) (Assoc.mem_keys_of_mem hq) hn hm)

/-! ### Stray files -/

/-- A file in the place of a copy is one under a valid name, if a vmid is read from its name. -/
theorem nameOf_of_snapshotPath (h : vmidOfFile file = some v) (hp : FsPath.root file = snapshotPath v n) :
    NameOf v file := by
  refine Or.inr ⟨n, ?_, hp⟩
  obtain ⟨head, hhead, hfile⟩ := vmidOfFile_eq_some.mp h
  have hdot := dot_not_mem_of_parseU32 hhead
  have hcopy : file.toList = (DocId.decimal v.toNat).toList ++ '.' :: (n.toList ++ ".yaml".toList) := by
    rw [FsPath.root.inj hp]
    simp [diskFormat, Format.ext]
  rw [hcopy] at hfile
  rcases hfile with hfile | ⟨m, hm, hfile⟩
  · have hlen := congrArg List.length (Text.append_cons_inj (dot_not_mem_decimal _) hdot (v := "yaml".toList) hfile).2
    have hyaml : ".yaml".toList.length = "yaml".toList.length + 1 := rfl
    rw [List.length_append] at hlen
    omega
  · have hrest := (Text.append_cons_inj (dot_not_mem_decimal _) hdot hfile).2
    rwa [String.toList_inj.mp (List.append_cancel_right hrest)]

/-- A purge leaves no file of the guest's, of those whose names are the store's. -/
theorem purged (h : s.FaultFree) (hs : ∀ file, FsPath.root file ∈ Assoc.keys s.files → ¬ Stray file) (v : UInt32) :
    ∃ n t vs, s.purge v = (.ok n, t) ∧ t.storedVmids = .ok vs ∧ v ∉ vs := by
  obtain ⟨n, files, hpurge, hdoc, hcopies, hframe⟩ := @purge_eq s v h
  obtain ⟨vs, hvs, hmem⟩ := storedVmids_eq (h.withFiles files)
  refine ⟨n, _, vs, hpurge, hvs, fun hv => ?_⟩
  obtain ⟨file, hfile, hvmid⟩ := (hmem v).mp hv
  rw [← Assoc.get?_isSome_iff] at hfile
  by_cases hname : NameOf v file
  · rcases hname with hname | ⟨m, hm, hname⟩
    · rw [hname, hdoc] at hfile
      cases hfile
    · rw [hname, hcopies m hm] at hfile
      cases hfile
  · -- The purge leaves a file of another name where it was.
    rw [hframe _ (fun hp => hname (Or.inl hp)) fun m hp => hname (nameOf_of_snapshotPath hvmid hp),
      Assoc.get?_isSome_iff] at hfile
    exact hname (nameOf_of_vmidOfFile (hs file hfile) hvmid)

theorem classified_of_no_stray (h : s.FaultFree) (hkeys : (Assoc.keys s.files).Nodup)
    (hs : ∀ file, FsPath.root file ∈ Assoc.keys s.files → ¬ Stray file) : Classified s where
  vmids := by
    obtain ⟨vs, hvs, hmem⟩ := storedVmids_eq h
    refine ⟨vs, hvs, fun v => (hmem v).trans ⟨?_, ?_⟩⟩
    · rintro ⟨file, hfile, hv⟩
      rcases nameOf_of_vmidOfFile (hs file hfile) hv with hname | ⟨n, hn, hname⟩
      · exact Or.inl (hname ▸ hfile)
      · exact Or.inr ⟨n, hn, hname ▸ hfile⟩
    · rintro (hdoc | ⟨n, hn, hcopy⟩)
      · exact ⟨_, hdoc, vmidOfFile_of_nameOf (Or.inl rfl)⟩
      · exact ⟨_, hcopy, vmidOfFile_of_nameOf (Or.inr ⟨n, hn, rfl⟩)⟩
  snapshots := fun v => by
    obtain ⟨names, hnames, hmem⟩ := @listSnapshots_eq s v h
    refine ⟨names, hnames, (nodup_listSnapshots h hkeys hnames).mpr ?_, fun n => (hmem n).trans ⟨?_, ?_⟩⟩
    · intro file file' n hfile hfile' hn hn'
      have hpath := ((snapshotOf_eq_some_iff (hs file hfile)).mp hn).2
      exact FsPath.root.inj (hpath.symm.trans ((snapshotOf_eq_some_iff (hs file' hfile')).mp hn').2)
    · rintro ⟨file, f, hfile, hn⟩
      have hfile := Assoc.mem_keys_of_mem hfile
      obtain ⟨hn, hpath⟩ := (snapshotOf_eq_some_iff (hs file hfile)).mp hn
      exact ⟨hn, hpath ▸ hfile⟩
    · rintro ⟨hn, hcopy⟩
      obtain ⟨⟨_, f⟩, hmem, rfl⟩ := List.mem_map.mp hcopy
      exact ⟨_, f, hmem, snapshotOf_snapshotPath hn rfl⟩
  unknown := by
    obtain ⟨files, hfiles, hmem⟩ := unknownFiles_eq h
    refine ⟨files, hfiles, fun file => (hmem file).trans (and_congr_right fun hfile => and_congr_right fun _ => ?_)⟩
    constructor
    · intro hnone v hname
      rw [vmidOfFile_of_nameOf hname] at hnone
      cases hnone
    · intro hnot
      cases hv : vmidOfFile file with
      | none => rfl
      | some v => exact absurd (nameOf_of_vmidOfFile (hs file hfile) hv) (hnot v)
  purged := purged h hs

theorem not_nameOf_of_respelled (h : Respelled head v)
    (hfile : file.toList = head ++ ".yaml".toList ∨
      ∃ n, isValidSnapshotName n = true ∧ file.toList = head ++ '.' :: (n.toList ++ ".yaml".toList)) :
    ∀ w, ¬ NameOf w file := by
  intro w hname
  have hv : vmidOfFile file = some v := vmidOfFile_eq_some.mpr ⟨head, h.1, hfile⟩
  obtain rfl : w = v := by
    rw [vmidOfFile_of_nameOf hname] at hv
    exact Option.some.inj hv
  obtain ⟨t, ht⟩ : ∃ t, file.toList = head ++ '.' :: t := by
    rcases hfile with hfile | ⟨n, -, hfile⟩
    · exact ⟨"yaml".toList, hfile⟩
    · exact ⟨_, hfile⟩
  obtain ⟨u, hu⟩ : ∃ u, file.toList = (DocId.decimal w.toNat).toList ++ '.' :: u := by
    rcases hname with hname | ⟨n, -, hname⟩
    · exact ⟨"yaml".toList, by rw [FsPath.root.inj hname]; exact toList_fileName_guest w⟩
    · exact ⟨n.toList ++ ".yaml".toList, by rw [FsPath.root.inj hname]; simp [diskFormat, Format.ext]⟩
  exact h.2 (Text.append_cons_inj (dot_not_mem_of_parseU32 h.1) (dot_not_mem_decimal _) (ht.symm.trans hu)).1

/-- The listings are right exactly if no file of the root is stray. -/
theorem classified_iff (h : s.FaultFree) (hkeys : (Assoc.keys s.files).Nodup) :
    Classified s ↔ ∀ file, FsPath.root file ∈ Assoc.keys s.files → ¬ Stray file := by
  refine ⟨fun hc file hfile hstray => ?_, classified_of_no_stray h hkeys⟩
  rcases hstray with ⟨head, v, hhead, hname⟩ | ⟨v, n, ext, hn, hext, hne, rfl⟩
  · -- It is no file of a guest's, and not among the unknown ones.
    have hv : vmidOfFile file = some v := vmidOfFile_eq_some.mpr ⟨head, hhead.1, hname⟩
    obtain ⟨files, hfiles, hmem⟩ := hc.unknown
    obtain ⟨files', hfiles', hmem'⟩ := unknownFiles_eq h
    obtain rfl : files = files' := Except.ok.inj (hfiles.symm.trans hfiles')
    have hunknown := (hmem file).mpr ⟨hfile, not_hidden_of_vmidOfFile hv, not_nameOf_of_respelled hhead hname⟩
    rw [((hmem' file).mp hunknown).2.2] at hv
    cases hv
  · -- Its name is listed, so there is a copy under it; and then it is listed for both.
    have hlisted : snapshotOf v (DocId.decimal v.toNat ++ "." ++ n ++ "." ++ ext) = some n :=
      snapshotOf_of_fromExt hn hext
    obtain ⟨names, hnames, hnodup, hmem⟩ := hc.snapshots v
    obtain ⟨names', hnames', hmem'⟩ := @listSnapshots_eq s v h
    obtain rfl : names = names' := Except.ok.inj (hnames.symm.trans hnames')
    obtain ⟨⟨_, f⟩, hentry, rfl⟩ := List.mem_map.mp hfile
    have hcopy := ((hmem n).mp ((hmem' n).mpr ⟨_, f, hentry, hlisted⟩)).2
    have heq := (nodup_listSnapshots h hkeys hnames).mp hnodup _ _ n hfile hcopy hlisted (snapshotOf_snapshotPath hn rfl)
    refine hne ?_
    simpa [← String.toList_inj] using heq

section Samples

/-- A store with one file, whose vmid has a zero before it. -/
def zeroed : MetaStore := ⟨[(.root "0100.yaml", ⟨Text.encode "a: 1\n".toList, 0⟩)], 0, none, none, none, 1⟩

/-- The file is listed as guest 100's, and a purge of guest 100 leaves it there. -/
theorem zeroed_not_classified : zeroed.FaultFree ∧ (Assoc.keys zeroed.files).Nodup ∧
    zeroed.storedVmids = .ok [100] ∧ (zeroed.purge 100).2.storedVmids = .ok [100] ∧ ¬ Classified zeroed := by
  have hleft : (zeroed.purge 100).2.storedVmids = .ok [100] := Except.toOption_eq_some.mp (by decide)
  refine ⟨⟨rfl, rfl, rfl⟩, by decide, Except.toOption_eq_some.mp (by decide), hleft, fun hc => ?_⟩
  obtain ⟨n, t, vs, hpurge, hvs, hnot⟩ := hc.purged 100
  rw [hpurge, hvs] at hleft
  obtain rfl := Except.ok.inj hleft
  exact hnot List.mem_cons_self

theorem classified_iff_document :
    Classified (Sample.storeOf [(100, "a: 1\n".toList)]) ↔
      ∀ file, FsPath.root file ∈ Assoc.keys (Sample.storeOf [(100, "a: 1\n".toList)]).files → ¬ Stray file :=
  classified_iff ⟨rfl, rfl, rfl⟩ (by decide)

end Samples

end MetaStore
end PveMeta
