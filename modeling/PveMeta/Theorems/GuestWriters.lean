import PveMeta.Guest.Sample
import PveMeta.Theorems.GuestDecided
import PveMeta.Theorems.GuestSync

/-! # Writers of guest files

The document and the operators ask for files of one guest, one after the other. A sync leaves the files that are
recorded for others as they are, as long as no two operators have names that are read back as one. -/

namespace PveMeta
namespace Guest

section

variable [Deps] {w w' : World} {files : GuestFiles} {nodes : Nodes} {q : GuestPath}

/-! ### Files that are there -/

/-- There is something at the path, and at each directory above it. -/
structure There (q : GuestPath) (fs : Fs) : Prop where
  file : fs q.text ≠ .missing
  dirs : ∀ dir ∈ q.directories, fs dir ≠ .missing

/-- It is there when a sync begins, and in whatever the others leave while it runs. -/
structure Stays (q : GuestPath) (w : World) : Prop where
  now : There q w.fs
  meanwhile : ∀ t ∈ w.turns, ∀ fs, t.others = some fs → There q fs

omit [Deps] in
theorem Stays.turn (h : Stays q w) : Stays q w.turn.2 := by
  unfold World.turn
  split
  · exact h
  · next t turns hturns =>
    have hrest : ∀ t' ∈ turns, ∀ fs, t'.others = some fs → There q fs := fun t' ht' =>
      h.meanwhile t' (hturns ▸ List.mem_cons_of_mem t ht')
    cases hothers : t.others with
    | none => exact ⟨h.now, hrest⟩
    | some fs =>
      obtain ⟨hfile, hdirs⟩ := h.meanwhile t (hturns ▸ List.mem_cons_self) fs hothers
      refine ⟨⟨?_, fun dir hdir => ?_⟩, hrest⟩
      · simpa [World.edit, q.ne_manifestPath] using hfile
      · simpa [World.edit, ne_manifestPath_of_mem_directories hdir] using hdirs dir hdir

omit [Deps] in
theorem Stays.read (h : Stays q w) (path : Text) (max : Nat) : Stays q (w.read path max).2 := by
  have hcall : Stays q w.call.2 := h.turn
  unfold World.read
  split
  · next e w₁ heq => rwa [heq] at hcall
  · next w₁ heq =>
    rw [heq] at hcall
    split
    · split <;> exact hcall
    · exact hcall

theorem lstat_ne_missing {node : Inode} (h : node ≠ .missing) : node.lstat ≠ .missing := by
  cases node with
  | missing => exact absurd rfl h
  | _ => rintro ⟨⟩

/-- Every path that leads there is found. -/
theorem Stays.probe (h : Stays q w) {paths : List Text} (hok : (w.probe paths).1 = .ok nodes) {path : Text}
    (hpath : path = q.text ∨ path ∈ q.directories) (hmem : path ∈ paths) : nodes.at path ≠ .missing := by
  unfold World.probe at hok
  induction paths generalizing w nodes with
  | nil => cases hmem
  | cons p paths ih =>
    have hcall : Stays q w.call.2 := h.turn
    unfold World.probeAll at hok
    split at hok
    · cases hok
    · next w₁ heq =>
      rw [heq] at hcall
      split at hok
      · cases hok
      · next rest w₂ heq₂ =>
        cases hok
        unfold Nodes.at
        rw [Assoc.get?_cons]
        split
        · next hp =>
          subst hp
          refine lstat_ne_missing ?_
          rcases hpath with rfl | hdir
          · exact hcall.now.file
          · exact hcall.now.dirs _ hdir
        · next hp =>
          refine ih hcall (by rw [heq₂]) ?_
          exact (List.mem_cons.mp hmem).resolve_left (Ne.symm hp)

omit [Deps] in
theorem isSome_addPath {out : SortedMap Text Unit} {p : GuestPath} {t : Text} :
    ((addPath out p).get? t).isSome = true ↔ (t = p.text ∨ t ∈ p.directories) ∨ (out.get? t).isSome = true := by
  unfold addPath
  rw [SortedMap.get?_insert]
  split
  · next ht => simp [ht]
  · next ht =>
    rw [SortedMap.isSome_get?_foldl]
    simp [ht]

omit [Deps] in
theorem isSome_addPaths {out : SortedMap Text Unit} {ps : List GuestPath} {t : Text} :
    ((ps.foldl addPath out).get? t).isSome = true ↔
      (∃ p ∈ ps, t = p.text ∨ t ∈ p.directories) ∨ (out.get? t).isSome = true := by
  induction ps generalizing out with
  | nil => simp
  | cons p ps ih =>
    rw [List.foldl_cons, ih, isSome_addPath]
    simp only [List.mem_cons, exists_eq_or_imp]
    exact or_left_comm.trans or_assoc.symm

/-- What is probed: the manifest's directories, and every path that leads to a file that is wanted or recorded. -/
theorem mem_probePaths_iff {m : Manifest} {path : Text} : path ∈ probePaths files m ↔
    (∃ q ∈ Assoc.keys m.records.entries, path = q.text ∨ path ∈ q.directories) ∨
      (∃ q ∈ files.desired.map (·.entry.path), path = q.text ∨ path ∈ q.directories) ∨ path ∈ Manifest.directories := by
  unfold probePaths
  rw [SortedMap.mem_keys_iff, isSome_addPaths, isSome_addPaths, SortedMap.isSome_get?_foldl]
  simp

/-- Every path that leads to a file that is recorded is probed. -/
theorem mem_probePaths {m : Manifest} {r : Record} (hr : m.records.get? q = some r) {path : Text}
    (hpath : path = q.text ∨ path ∈ q.directories) : path ∈ probePaths files m :=
  mem_probePaths_iff.mpr (.inl ⟨q, SortedMap.mem_keys_iff.mpr (by rw [hr]; rfl), hpath⟩)

omit [Deps] in
theorem assess_ne_missing (h : ∀ path, path = q.text ∨ path ∈ q.directories → nodes.at path ≠ .missing) :
    assess q nodes ≠ .missing := by
  intro hmissing
  rcases assess_eq_missing.mp hmissing with ⟨before, dir, after, hsplit, -, hdir⟩ | ⟨-, hfile⟩
  · exact h dir (.inr (hsplit ▸ List.mem_append_right _ List.mem_cons_self)) hdir
  · exact h q.text (.inl rfl) hfile

variable [RustDebug] [Serde]

/-- A file that is recorded and there is found. -/
theorem Stays.look (h : Stays q w) {r : Record} (hr : (manifestAt (w.fs manifestPath)).records.get? q = some r)
    {old : Manifest × Option String} (hok : (look files w).1 = .ok (old, nodes)) : assess q nodes ≠ .missing := by
  have hread := h.read manifestPath Manifest.maxBytes
  simp only [Guest.look, Calls.look, World.calls_read, World.calls_probe] at hok
  split at hok
  · cases hok
  · next bytes w₁ heq =>
    rw [heq] at hread
    have hbytes : (w.read manifestPath Manifest.maxBytes).1 = .ok bytes := by rw [heq]
    rw [← manifestAt_of_read hbytes] at hr
    split at hok
    · split at hok
      · cases hok
      · next nodes' w₂ heq₂ =>
        cases hok
        exact assess_ne_missing fun path hpath => hread.probe (by rw [heq₂]) hpath (mem_probePaths hr hpath)
    · next hnothing =>
      have hempty : (trusted bytes).1.isEmpty = true := by
        simp only [Bool.or_eq_true, not_or, Bool.not_eq_true, Bool.not_eq_false'] at hnothing
        exact hnothing.2
      rw [SortedMap.get?_of_isEmpty hempty] at hr
      cases hr

/-! ### What one sync leaves to another writer -/

/-- The file of a record is neither replaced nor removed by a sync that it is not for; who claims it is refused, and
    the record stays as it was, as it does while the file is there. -/
structure Respects (files : GuestFiles) (q : GuestPath) (r : Record) (w : World) (result : Except String Report × World) :
    Prop where
  spared : ∃ added, result.2.log = w.log ++ added ∧ ∀ hash, .wrote q.text hash ∉ added ∧ .destroyed q.text hash ∉ added
  refused : q ∈ files.desired.map (·.entry.path) → ∀ report, result.1 = .ok report →
    ∃ row ∈ report.items, row.item.path = some q ∧ ∃ why, row.item.action = .refused why
  recorded : q ∈ files.desired.map (·.entry.path) ∨ Stays q w →
    (manifestAt (result.2.fs manifestPath)).records.get? q = some r

theorem Synced.respects (hserde : Manifest.SerdeReads) {V : Writer} {r : Record} {force : Bool} (hask : V.Asks files)
    {result : Except String Report × World} {warning : Option String}
    (hforeign : Foreign files (manifestAt (w.fs manifestPath)) q r)
    (hlook : (look files w).1 = .ok ((manifestAt (w.fs manifestPath), warning), nodes))
    (h : Synced files (manifestAt (w.fs manifestPath)) nodes (plan files (manifestAt (w.fs manifestPath)) nodes force) w
      result.1 result.2) : Respects files q r w result := by
  have hpath : r.path = q := (keyed_manifestAt _ q r hforeign.recorded).1
  have huntouched := hforeign.untouched nodes force
  refine ⟨?_, fun hq report hreport => ?_, fun hthere => ?_⟩
  · obtain ⟨added, hlog, hadded⟩ := h.log.forall_added
    refine ⟨added, hlog, fun hash => ⟨fun hwrote => ?_, fun hdestroyed => ?_⟩⟩
    · rcases hadded _ hwrote with hreserved | hmanifest | ⟨op, hop, hpath⟩
      · exact q.not_reserved hreserved
      · exact q.ne_manifestPath hmanifest
      · exact huntouched op hop hpath.symm
    · rcases hadded _ hdestroyed with hreserved | ⟨op, hop, hpath, -⟩ | ⟨hmanifest, -⟩
      · exact q.not_reserved hreserved
      · exact huntouched op hop hpath.symm
      · exact q.ne_manifestPath hmanifest
  · obtain ⟨item, hitem, hrow⟩ := hforeign.refused hpath hq nodes force
    rw [← h.items report hreport] at hitem
    obtain ⟨row, hmem, rfl⟩ := List.mem_map.mp hitem
    exact ⟨row, hmem, hrow⟩
  · rcases h.manifest with hsame | ⟨after, hleft, hafter, -⟩
    · rw [hsame]
      exact hforeign.recorded
    · rw [hafter, manifestAt_render hserde (hleft.keyed hask (keyed_manifestAt _)), hleft.get?_of_not_mem huntouched]
      exact hforeign.kept hask.apart fun hq => (hthere.resolve_left hq).look hforeign.recorded hlook

/-- A sync of `V`: it leaves the others their files, and what it records is its own. -/
structure KeepsApart (writers : Set Writer) (V : Writer) (files : GuestFiles) (force : Bool) (w : World) : Prop where
  respects : ∀ W ∈ writers, W ≠ V → ∀ q r name, (manifestAt (w.fs manifestPath)).records.get? q = some r →
    r.source = W.source name → Respects files q r w (sync files force w)
  own : ∀ q r, (manifestAt ((sync files force w).2.fs manifestPath)).records.get? q = some r →
    (manifestAt (w.fs manifestPath)).records.get? q = some r ∨ ∃ name, r.source = V.source name

variable {writers : Set Writer} {V W : Writer} {force : Bool}

omit [Serde] in
/-- What is recorded for one of the others is claimed in vain, and not this writer's to clear away. -/
theorem Writer.Asks.foreign {old : Manifest} {r : Record} {name : String} (hask : V.Asks files) (hknown : V.known ≠ W.known)
    (hr : old.records.get? q = some r) (hsource : r.source = W.source name) : Foreign files old q r := by
  refine ⟨hr, fun d hd _ => ?_, ?_⟩
  · obtain ⟨name', hd'⟩ := hask.source hd
    rw [hd', hsource]
    exact sourcesConflict_of_ne hknown name' name
  · rw [hsource]
    exact hask.deletionOwner (fun h => hknown (congrArg Writer.known h)) name

theorem sync_keepsApart (hserde : Manifest.SerdeReads) (hapart : writers.InjOn Writer.known) (hV : V ∈ writers)
    (hask : V.Asks files) (w : World) : KeepsApart writers V files force w := by
  rcases sync_spec files force w with
    ⟨hquiet, e, herror⟩ | ⟨warning, nodes, hlook, hsynced⟩
  · refine ⟨fun W _ _ q r name hr _ => ⟨⟨[], ?_, fun hash => ⟨List.not_mem_nil, List.not_mem_nil⟩⟩, ?_, ?_⟩,
      fun q r hr => ?_⟩
    · rw [hquiet.log, List.append_nil]
    · rw [herror]
      rintro - report ⟨⟩
    · rw [hquiet.manifest]
      exact fun _ => hr
    · rw [hquiet.manifest] at hr
      exact Or.inl hr
  · refine ⟨fun W hW hne q r name hr hsource => ?_, fun q r hr => ?_⟩
    · have hknown : V.known ≠ W.known := fun h => hne (hapart hV hW h).symm
      exact hsynced.respects hserde hask (hask.foreign hknown hr hsource) hlook
    · rcases hsynced.manifest with hsame | ⟨after, hleft, hafter, -⟩
      · rw [hsame] at hr
        exact Or.inl hr
      · rw [hafter, manifestAt_render hserde (hleft.keyed hask (keyed_manifestAt _))] at hr
        rcases hleft.recorded hr with hr | ⟨d, hd, -, rfl, -, -⟩
        · exact Or.inl hr
        · exact Or.inr (hask.source hd)

/-! ### Runs -/

/-- Every record is of exactly one of the writers. -/
def Attributed (writers : Set Writer) (m : Manifest) : Prop :=
  ∀ q r, m.records.get? q = some r → ∃! W, W ∈ writers ∧ ∃ name, r.source = W.source name

/-- A sync is one of the writers', and whoever else edits the manifest attributes what is in it to them. -/
def Event.By (writers : Set Writer) : Event → Prop
  | .others _ => True
  | .editManifest node => Attributed writers (manifestAt node)
  | .sync files _ _ => ∃ V ∈ writers, V.Asks files

omit [Deps] [RustDebug] [Serde] in
/-- A source names one of the writers only. -/
theorem attributed_source (hapart : writers.InjOn Writer.known) (hV : V ∈ writers) {source : Text} {name : String}
    (hsource : source = V.source name) : ∃! W, W ∈ writers ∧ ∃ name, source = W.source name := by
  refine ⟨V, ⟨hV, name, hsource⟩, ?_⟩
  rintro W ⟨hW, name', hsource'⟩
  refine hapart hW hV ?_
  rw [← W.managedOperator_source name', ← hsource', hsource, V.managedOperator_source]

theorem step_attributed (hserde : Manifest.SerdeReads) (hapart : writers.InjOn Writer.known) {e : Event} (he : e.By writers)
    (h : Attributed writers (manifestAt (w.fs manifestPath))) :
    Attributed writers (manifestAt ((step w e).fs manifestPath)) := by
  cases e with
  | others fs => rwa [step, (quiet_edit w fs).manifest]
  | editManifest node =>
    simpa [step, World.set, Event.By] using he
  | sync files force turns =>
    obtain ⟨V, hV, hask⟩ := he
    intro q r hr
    rcases (sync_keepsApart hserde hapart hV hask { w with turns }).own q r hr with hold | ⟨name, hsource⟩
    · exact h q r hold
    · exact attributed_source hapart hV hsource

/-- After any events, a record is of one writer, and the next sync leaves the others' files as they are. -/
theorem keeps_apart (hserde : Manifest.SerdeReads) (hapart : writers.InjOn Writer.known) (w : World) (events : List Event) :
    (Attributed writers (manifestAt (w.fs manifestPath)) → (∀ e ∈ events, e.By writers) →
      Attributed writers (manifestAt ((run w events).fs manifestPath))) ∧
    ∀ V ∈ writers, ∀ files, V.Asks files → ∀ force turns, KeepsApart writers V files force { run w events with turns } := by
  refine ⟨fun hw hevents => ?_, fun V hV files hask force turns => sync_keepsApart hserde hapart hV hask _⟩
  exact List.foldlRecOn (motive := fun w : World => Attributed writers (manifestAt (w.fs manifestPath))) events step hw
    fun w hw e he => step_attributed hserde hapart (hevents e he) hw

end

/-! ### Names -/

theorem Writer.known_of_plain {operator : String} (h : '/' ∉ operator.toList) :
    (Writer.managed operator).known = some operator.toList := by
  rw [known, List.splitOn_eq_singleton h]
  rfl

/-- Operators that have no `/` in their names keep apart, and from the document. -/
theorem injOn_known_plain :
    {V : Writer | ∀ operator, V = .managed operator → '/' ∉ operator.toList}.InjOn Writer.known := by
  intro V hV W hW h
  cases V with
  | user =>
    cases W with
    | user => rfl
    | managed operator =>
      rw [Writer.known_of_plain (hW operator rfl)] at h
      cases h
  | managed operator =>
    rw [Writer.known_of_plain (hV operator rfl)] at h
    cases W with
    | user => cases h
    | managed operator' =>
      rw [Writer.known_of_plain (hW operator' rfl), Option.some_inj] at h
      rw [String.toList_inj.mp h]

open GuestSample Sample

/-- The document's file stays when an operator asks for another one at its path. -/
theorem keeps_apart_app :
    let w := run (.start guest) [.sync (asked "a: 1\n") false []]
    KeepsApart {.user, .managed "a/b"} (.managed "a/b") (handed "a/b" two) true { w with turns := [] } ∧
      w.fs appPath.text = .file .root 0o444 one := by
  refine ⟨(keeps_apart serdeReads ?_ _ _).2 _ (by simp) _ (asks_handed _ (by decide +kernel)) true [], by decide +kernel⟩
  intro V hV W hW h
  simp only [Set.mem_insert_iff, Set.mem_singleton_iff] at hV hW
  rcases hV with rfl | rfl <;> rcases hW with rfl | rfl
  · rfl
  · cases h
  · cases h
  · rfl

/-- What the first of two operators left. -/
def taken : World := run (.start guest) [.sync (handed "a/b" one) false []]

/-- The file of `a/b` is replaced by `a/c`, of which as much is read back. -/
theorem operators_collide :
    (Writer.managed "a/b").Asks (handed "a/b" one) ∧ (Writer.managed "a/c").Asks (handed "a/c" two) ∧
      ¬ KeepsApart {.managed "a/b", .managed "a/c"} (.managed "a/c") (handed "a/c" two) false taken := by
  refine ⟨asks_handed _ (by decide +kernel), asks_handed _ (by decide +kernel), fun h => ?_⟩
  obtain ⟨hrecord, hbefore, hafter⟩ :
      (manifestAt (taken.fs manifestPath)).records.get? appPath =
          some ⟨"app", appPath, MetaStore.digest one, managedSource "a/b" "app"⟩ ∧
        .destroyed appPath.text (MetaStore.digest one) ∉ taken.log ∧
        .destroyed appPath.text (MetaStore.digest one) ∈ (sync (handed "a/c" two) false taken).2.log := by
    decide +kernel
  obtain ⟨added, hlog, hspared⟩ :=
    (h.respects (.managed "a/b") (by simp) (by decide) appPath _ "app" hrecord rfl).spared
  rw [hlog] at hafter
  exact (hspared _).2 ((List.mem_append.mp hafter).resolve_left hbefore)

end Guest
end PveMeta
