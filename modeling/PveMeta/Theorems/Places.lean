import PveMeta.Api
import PveMeta.Theorems.Copies

/-! # What a document is in the files

The file a write of a document lands in, the packaged files a read falls back to, and what a read makes
of the file it finds. While reads do not fail, a read is a function of that file alone; and a write of one
document leaves the files of every other as they are. -/

namespace PveMeta
namespace MetaStore

/-- The file where a write of `d` lands. -/
def own (s : MetaStore) (d : DocId) : Option File := Assoc.get? (s.pathFor d) s.files

/-- Where a read looks after that: the directories of lower precedence, the highest of them first. -/
def packagedPaths (s : MetaStore) : DocId → List FsPath
  | .guest _ => []
  | .registry kind name =>
    (List.range (s.prefixDirs - 1)).reverse.map fun i => .prefixDir i (fileName (.registry kind name))

def packaged (s : MetaStore) (d : DocId) : Option File := (s.packagedPaths d).findSome? fun p => Assoc.get? p s.files

def content (s : MetaStore) (d : DocId) : Option File := (s.own d).or (s.packaged d)

def written (s : MetaStore) (d : DocId) (text : Text) : MetaStore :=
  { s with files := Assoc.insert (s.pathFor d) ⟨Text.encode text, s.now⟩ s.files }

def removed (s : MetaStore) (d : DocId) : MetaStore := { s with files := Assoc.erase (s.pathFor d) s.files }

/-- Documents can be read. -/
structure Readable (s : MetaStore) : Prop where
  available : s.unavailable = none
  reads : s.readFault = none

variable {s : MetaStore} {d e : DocId} {p : FsPath} {text : Text}

/-! ### Places -/

theorem pathFor_injective (h : s.pathFor d = s.pathFor e) : d = e := by
  cases d with
  | guest v =>
    cases e with
    | guest w => rw [docPath_injective h]
    | registry kind name =>
      simp only [pathFor, registryWritePath] at h
      split at h <;> cases h
  | registry kind name =>
    cases e with
    | guest w =>
      simp only [pathFor, registryWritePath] at h
      split at h <;> cases h
    | registry kind' name' =>
      have hfile : fileName (.registry kind name) = fileName (.registry kind' name') := by
        simp only [pathFor, registryWritePath] at h
        split at h <;> injection h
      obtain rfl : name = name' := by simpa [fileName, DocId.baseName, ← String.toList_inj] using hfile
      cases kind
      cases kind'
      rfl

/-- No document is written where another is packaged. -/
theorem pathFor_not_mem_packagedPaths : s.pathFor d ∉ s.packagedPaths e := by
  intro h
  cases e with
  | guest w => cases h
  | registry kind name =>
    obtain ⟨i, hi, hp⟩ := List.mem_map.mp h
    rw [List.mem_reverse, List.mem_range] at hi
    cases d with
    | guest v => cases hp
    | registry kind' name' =>
      simp only [pathFor, registryWritePath] at hp
      split at hp
      · cases hp
      · injection hp with hi'
        omega

theorem pathFor_ne_snapshotPath (v : UInt32) (name : String) : snapshotPath v name ≠ s.pathFor d := by
  cases d with
  | guest w => exact snapshotPath_ne_docPath v w name
  | registry kind name' =>
    simp only [pathFor, registryWritePath]
    split <;> exact fun h => by cases h

theorem findSome?_congr {α β : Type} {f g : α → Option β} {l : List α} (h : ∀ a ∈ l, f a = g a) :
    l.findSome? f = l.findSome? g := by
  induction l with
  | nil => rfl
  | cons a l ih =>
    rw [List.findSome?_cons, List.findSome?_cons, h a List.mem_cons_self,
      ih fun b hb => h b (List.mem_cons_of_mem _ hb)]

theorem findSome?_eq_bind_find? {α β : Type} (f : α → Option β) (l : List α) :
    l.findSome? f = (l.find? fun a => (f a).isSome).bind f := by
  induction l with
  | nil => rfl
  | cons a l ih =>
    rw [List.findSome?_cons, List.find?_cons]
    cases hf : f a with
    | none => simpa using ih
    | some b => simp [hf]

/-- A read finds the file of its own, or the first packaged one. -/
theorem get?_readPathFor (h : s.readFault = none) : Assoc.get? (s.readPathFor d) s.files = s.content d := by
  cases d with
  | guest v =>
    show Assoc.get? (docPath v) s.files = (Assoc.get? (docPath v) s.files).or none
    rw [Option.or_none]
  | registry kind name =>
    rw [content, own, packaged, packagedPaths, findSome?_eq_bind_find?, readPathFor, locate]
    have hfile : s.isFileOrUnreadable = fun p => (Assoc.get? p s.files).isSome := by
      funext p
      simp [isFileOrUnreadable, h]
    rw [hfile]
    cases hn : s.prefixDirs with
    | zero => simp
    | succ n =>
      have hown : s.pathFor (.registry kind name) = .prefixDir n (fileName (.registry kind name)) := by
        simp [pathFor, registryWritePath, hn]
      rw [hown, List.range_succ, List.reverse_append, List.reverse_singleton, List.singleton_append, List.map_cons,
        List.find?_cons, Nat.add_sub_cancel]
      cases hget : Assoc.get? (FsPath.prefixDir n (fileName (.registry kind name))) s.files with
      | some f => simp [hget]
      | none =>
        simp only [Option.isSome_none, Option.none_or]
        cases hfind : ((List.range n).reverse.map fun i => FsPath.prefixDir i (fileName (.registry kind name))).find?
            fun p => (Assoc.get? p s.files).isSome with
        | none => simp [hget]
        | some p => simp

/-! ### Writes and the other documents -/

section

variable {files : List (FsPath × File)}

theorem packaged_withFiles (h : ∀ p, p ≠ s.pathFor d → Assoc.get? p files = Assoc.get? p s.files) :
    ({ s with files } : MetaStore).packaged e = s.packaged e :=
  findSome?_congr fun p hp => h p fun heq => pathFor_not_mem_packagedPaths (heq ▸ hp)

end

theorem get?_written (h : p ≠ s.pathFor d) : Assoc.get? p (s.written d text).files = Assoc.get? p s.files :=
  Assoc.get?_insert_ne h

theorem get?_removed (h : p ≠ s.pathFor d) : Assoc.get? p (s.removed d).files = Assoc.get? p s.files :=
  Assoc.get?_erase_ne h

@[simp] theorem own_written : (s.written d text).own d = some ⟨Text.encode text, s.now⟩ := Assoc.get?_insert_self

@[simp] theorem own_removed : (s.removed d).own d = none := Assoc.get?_erase_self

theorem own_written_ne (h : e ≠ d) : (s.written d text).own e = s.own e :=
  Assoc.get?_insert_ne fun heq => h (pathFor_injective heq)

theorem own_removed_ne (h : e ≠ d) : (s.removed d).own e = s.own e :=
  Assoc.get?_erase_ne fun heq => h (pathFor_injective heq)

@[simp] theorem packaged_written : (s.written d text).packaged e = s.packaged e :=
  packaged_withFiles fun _ => get?_written

@[simp] theorem packaged_removed : (s.removed d).packaged e = s.packaged e := packaged_withFiles fun _ => get?_removed

@[simp] theorem content_written : (s.written d text).content d = some ⟨Text.encode text, s.now⟩ := by
  rw [content, own_written, Option.some_or]

@[simp] theorem content_removed : (s.removed d).content d = s.packaged d := by
  rw [content, own_removed, Option.none_or, packaged_removed]

@[simp] theorem packaged_guest (v : UInt32) : s.packaged (.guest v) = none := rfl

theorem content_guest (v : UInt32) : s.content (.guest v) = s.own (.guest v) := by
  rw [content, packaged_guest, Option.or_none]

end MetaStore
end PveMeta
