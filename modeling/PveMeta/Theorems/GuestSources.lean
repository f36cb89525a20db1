import PveMeta.Theorems.GuestManifest
import PveMeta.Theorems.GuestPlan

/-! # Who asks for a file

The guest's document, and each of the operators. An entry's source names its writer, and an operator is read back
from it as far as the first `/`. -/

namespace PveMeta
namespace Guest

/-- The guest's document, or the operator of this name. -/
inductive Writer where
  | user
  | managed (operator : String)
  deriving DecidableEq

namespace Writer

/-- The source of a writer's entry of this name. -/
def source : Writer → String → Text
  | .user, name => userSource name
  | .managed operator, name => managedSource operator name

/-- What of an operator's name is read back from a source. -/
def known : Writer → Option Text
  | .user => none
  | .managed operator => (operator.toList.splitOn '/').head?

theorem not_managed_userSource (name : String) : ¬ "managed/".toList <+: userSource name := by
  rintro ⟨rest, h⟩
  have hhead := congrArg List.head? h
  have hmanaged : "managed/".toList.head? = some 'm' := by decide
  have huser : "user/".toList.head? = some 'u' := by decide
  rw [userSource, List.head?_append, List.head?_append, hmanaged, huser] at hhead
  cases hhead

theorem managedOperator_source (V : Writer) (name : String) : managedOperator (V.source name) = V.known := by
  cases V with
  | user =>
    rw [source, managedOperator]
    cases h : Text.stripPrefix "managed/".toList (userSource name) with
    | none => rfl
    | some rest => exact absurd ⟨rest, (Text.eq_append_of_stripPrefix h).symm⟩ (not_managed_userSource name)
  | managed operator =>
    have hstrip : Text.stripPrefix "managed/".toList (managedSource operator name) =
        some (operator.toList ++ '/' :: name.toList) := Text.stripPrefix_append _ _
    rw [source, managedOperator, hstrip, Option.bind_some, List.splitOn_append_cons_self, known,
      List.head?_append_of_ne_nil _ (List.splitOn_ne_nil _ _)]

theorem isManagedSource_source (V : Writer) (name : String) : isManagedSource (V.source name) = true ↔ V ≠ .user := by
  rw [isManagedSource, List.isPrefixOf_iff_prefix]
  cases V with
  | user => exact ⟨fun h => absurd h (not_managed_userSource name), fun h => absurd rfl h⟩
  | managed operator => exact ⟨by rintro - ⟨⟩, fun _ => List.prefix_append _ _⟩

theorem source_ne_nil (V : Writer) (name : String) : V.source name ≠ [] := by
  cases V with
  | user => exact Manifest.userSource_ne_nil name
  | managed operator => exact List.append_ne_nil_of_left_ne_nil (by decide) _

/-- Writers of whose names not the same is known refuse each other. -/
theorem sourcesConflict_of_ne {V W : Writer} (h : V.known ≠ W.known) (name name' : String) :
    sourcesConflict (V.source name) (W.source name') = true := by
  have hne : V.source name ≠ W.source name' := by
    intro heq
    refine h ?_
    rw [← managedOperator_source V name, heq, managedOperator_source]
  rw [sourcesConflict, if_neg hne, managedOperator_source, managedOperator_source]
  revert h
  cases V.known <;> cases W.known <;> simp

end Writer

variable [Deps] [RustDebug]

/-- The files that a writer asks for: what the guest's document says, whether or not it can be read, or a list of an
    operator's files. -/
inductive Writer.Asks : Writer → GuestFiles → Prop
  | nothing : Asks .user .nothing
  | held (why : String) : Asks .user (.held why)
  | document (doc : Value) : Asks .user (.ofDocument doc)
  | managed (operator : String) (items : List Desired) (files : GuestFiles) (h : GuestFiles.ofManaged items = .ok files)
      (built : ∀ d ∈ items, ∃ name path format mode owner localEdits entry content,
        Entry.managed operator name path format mode owner localEdits = .ok entry ∧ Desired.direct entry content = .ok d) :
      Asks (.managed operator) files

/-! ### The sources of what is asked for -/

omit [Deps] in
theorem parseEntry_source {name : String} {spec : Value} {entry : Entry} (h : parseEntry name spec = .ok entry) :
    entry.source = userSource name := by
  unfold parseEntry at h
  split at h
  · obtain ⟨_, -, h⟩ := Except.bind_eq_ok.mp h
    dsimp only at h
    split at h
    · cases h
    · repeat obtain ⟨_, -, h⟩ := Except.bind_eq_ok.mp h
      cases h
      rfl
  · cases h

theorem resolve_source {doc : Value} {name : String} {spec : Value} {d : Desired} (h : resolve doc name spec = .file d) :
    d.entry.source = userSource name := by
  unfold resolve at h
  split at h
  · cases h
  · next entry hentry =>
    split at h
    · cases h
    · split at h
      · cases h
      · split at h
        · cases h
          exact parseEntry_source hentry
        · cases h

omit [RustDebug] in
theorem mem_of_mem_refuseCollisions {rows : List Resolved} {d : Desired} (h : .file d ∈ refuseCollisions rows) :
    .file d ∈ rows := by
  obtain ⟨i, hi, hget⟩ := List.mem_mapIdx.mp h
  split at hget
  · rw [← hget]
    exact List.getElem_mem hi
  · split at hget
    · rw [← hget]
      exact List.getElem_mem hi
    · cases hget

omit [RustDebug] in
theorem ofManaged_eq_ok {items : List Desired} {files : GuestFiles} (h : GuestFiles.ofManaged items = .ok files) :
    files = .managed items := by
  unfold GuestFiles.ofManaged at h
  split at h
  · cases h
  · cases h
    rfl

omit [Deps] in
theorem managed_source_eq {operator name path : String} {format : FileFormat} {mode owner : String}
    {localEdits : LocalEdits} {entry : Entry}
    (h : Entry.managed operator name path format mode owner localEdits = .ok entry) :
    entry.source = managedSource operator name := by
  unfold Entry.managed at h
  obtain ⟨_, -, h⟩ := Except.bind_eq_ok.mp h
  split at h
  · dsimp only at h
    split at h
    · cases h
      rfl
    · cases h
  · dsimp only at h
    split at h <;> cases h

/-- Everything that a writer asks for has a source of that writer. -/
theorem Writer.Asks.source {V : Writer} {files : GuestFiles} (h : V.Asks files) {d : Desired} (hd : d ∈ files.desired) :
    ∃ name, d.entry.source = V.source name := by
  cases h with
  | nothing => cases hd
  | held why => cases hd
  | document doc =>
    have hrow := GuestFiles.mem_desired.mp hd
    unfold GuestFiles.ofDocument at hrow
    split at hrow
    · cases hrow
    · split at hrow
      · cases hrow
      · obtain ⟨e, -, he⟩ := List.mem_map.mp (mem_of_mem_refuseCollisions hrow)
        exact ⟨e.1, resolve_source he⟩
  | managed operator items files h built =>
    obtain rfl := ofManaged_eq_ok h
    obtain ⟨name, path, format, mode, owner, localEdits, entry, content, hentry, hdirect⟩ := built d hd
    obtain ⟨_, -, hdirect⟩ := Except.bind_eq_ok.mp hdirect
    cases hdirect
    exact ⟨name, managed_source_eq hentry⟩

omit [RustDebug] in
theorem deletionOwner_of_managed {files : GuestFiles} {source : Text} (h : isManagedSource source = true) :
    deletionOwner files source = false := by
  cases files <;> simp [deletionOwner, h]

/-- Only the document's files are removed when they are not wanted any more, and none of an operator's. -/
theorem Writer.Asks.deletionOwner {V W : Writer} {files : GuestFiles} (h : V.Asks files) (hne : V ≠ W) (name : String) :
    deletionOwner files (W.source name) = false := by
  have hmanaged : V = .user → isManagedSource (W.source name) = true := fun hV =>
    (Writer.isManagedSource_source W name).mpr fun hW => hne (hV.trans hW.symm)
  cases h with
  | managed operator items files h built =>
    obtain rfl := ofManaged_eq_ok h
    rfl
  | _ => exact deletionOwner_of_managed (hmanaged rfl)

/-- The document's own files are. -/
theorem Writer.Asks.deletes {files : GuestFiles} (h : Writer.user.Asks files) (name : String) :
    Guest.deletionOwner files (Writer.user.source name) = true := by
  have huser : isManagedSource (Writer.user.source name) = false :=
    Bool.eq_false_iff.mpr fun hmanaged => (isManagedSource_source .user name).mp hmanaged rfl
  cases h with
  | nothing => simp [Guest.deletionOwner, huser]
  | held why => simp [Guest.deletionOwner, huser]
  | document doc =>
    unfold Guest.deletionOwner GuestFiles.ofDocument
    split
    · next hmanaged => split at hmanaged <;> (try split at hmanaged) <;> cases hmanaged
    · simp [huser]

end Guest
end PveMeta
