import PveMeta.Guest.Manifest

/-! # The plan of a sync

What a guest's files ask for, what the manifest says was written and what is in the guest now, in; the file operations
and the manifest they leave, out (`plan.rs`). Nothing here touches a guest. -/

namespace PveMeta
namespace Guest

/-- One path inside the guest, as `lstat` sees it. -/
inductive Node where
  | missing
  | symlink
  | dir
  | file (uid gid : UInt32) (mode : Nat) (sha256 : String)
  | other
  deriving DecidableEq

/-- What a target path holds, judged. -/
inductive FileState where
  | missing
  | present (sha256 : String) (mode : Nat) (owner : Owner)
  | unsafePath (why : String)

/-- What one sync does with one path. -/
inductive Action where
  | inSync
  | create
  | update
  | overwrite
  | keptLocalEdit
  | delete
  | forget
  | left (why : String)
  | refused (why : String)
  deriving DecidableEq

/-- The action changes a file. -/
def Action.writes : Action → Bool
  | .create | .update | .overwrite | .delete => true
  | _ => false

/-- One row of a plan. There is no path for an entry that was refused before it had one. -/
structure Item where
  entry : String
  path : Option GuestPath
  action : Action

/-- What a replace requires of the file at the moment it happens. -/
inductive Expect where
  | missing
  | sha256 (hash : String)
  | any

inductive Op where
  | place (path : Text) (content : ByteArray) (mode : Nat) (owner : Owner) (expect : Expect)
  | remove (path : Text) (sha256 : String)

def Op.path : Op → Text
  | .place path .. | .remove path _ => path

/-- A sync, decided. -/
structure Plan where
  items : List Item
  ops : List Op
  dirs : List Text
  manifest : Manifest

/-- The nodes that were probed. -/
abbrev Nodes := List (Text × Node)

/-- A node that was not probed counts as missing. -/
def Nodes.at (nodes : Nodes) (path : Text) : Node := (Assoc.get? path nodes).getD .missing

namespace Plan

/-- A sync would change something in the guest. -/
def changes (p : Plan) (old : Manifest) : Bool := ! p.ops.isEmpty || decide (p.manifest ≠ old)

/-- The record of a path as it was in `old`. -/
def restored (old : Manifest) (m : Manifest) (path : GuestPath) : Manifest :=
  match old.records.get? path with
  | some r => ⟨m.records.insert path r⟩
  | none => ⟨m.records.erase path⟩

/-- An operation that was not done leaves its path's record as it was. The path of an operation is valid. -/
def undone (old : Manifest) (m : Manifest) (op : Op) : Manifest :=
  match GuestPath.absolute op.path with
  | .ok path => restored old m path
  | .error _ => m

/-- The manifest after a commit. -/
def manifestAfter (p : Plan) (old : Manifest) (done : List Bool) : Manifest :=
  ((p.ops.zip done).filter fun e => ! e.2).foldl (fun m e => undone old m e.1) p.manifest

end Plan

/-! ### Judging a target -/

section

variable [Deps]

def addPath (out : SortedMap Text Unit) (path : GuestPath) : SortedMap Text Unit :=
  (path.directories.foldl (fun out dir => out.insert dir ()) out).insert path.text ()

/-- Every path whose node a plan needs. -/
def probePaths (files : GuestFiles) (manifest : Manifest) : List Text :=
  let out := Manifest.directories.foldl (fun out dir => out.insert dir ()) SortedMap.empty
  let out := (files.desired.map (·.entry.path)).foldl addPath out
  Assoc.keys ((Assoc.keys manifest.records.entries).foldl addPath out).entries

end

def dirProblem (dir : Text) : Node → Option String
  | .missing | .dir => none
  | .symlink => some (String.ofList dir ++ " is a symlink")
  | .file .. | .other => some (String.ofList dir ++ " is not a directory")

/-- What the directories above a target say of it, if they do. -/
def assessDirs (nodes : Nodes) : List Text → Option FileState
  | [] => none
  | dir :: dirs =>
    match dirProblem dir (nodes.at dir) with
    | some why => some (.unsafePath why)
    | none => if nodes.at dir = .missing then some .missing else assessDirs nodes dirs

/-- Judges one target from the nodes of it and its directories. -/
def assess (path : GuestPath) (nodes : Nodes) : FileState :=
  match assessDirs nodes path.directories with
  | some state => state
  | none =>
    match nodes.at path.text with
    | .missing => .missing
    | .symlink => .unsafePath (String.ofList path.text ++ " is a symlink")
    | .dir | .other => .unsafePath (String.ofList path.text ++ " is not a regular file")
    | .file uid gid mode sha256 => .present sha256 mode ⟨uid, gid⟩

/-! ### Deciding -/

section

variable [Deps]

/-- Whether this plane deletes a path that it no longer wants. -/
def deletionOwner (files : GuestFiles) (source : Text) : Bool :=
  match files with
  | .managed _ => false
  | _ => ! isManagedSource source

/-- A plan in the making. -/
structure Draft where
  items : List Item
  ops : List Op
  dirs : SortedMap Text Unit
  manifest : Manifest

def Draft.addItem (p : Draft) (entry : String) (path : Option GuestPath) (action : Action) : Draft :=
  { p with items := p.items ++ [⟨entry, path, action⟩] }

def Draft.record (p : Draft) (path : GuestPath) (r : Record) : Draft :=
  { p with manifest := ⟨p.manifest.records.insert path r⟩ }

def Draft.keep (p : Draft) (path : GuestPath) (record : Option Record) : Draft :=
  match record with
  | some r => p.record path r
  | none => p

def sourceError (e : Entry) (r : Record) : String :=
  "path '" ++ String.ofList e.path.text ++ "' is recorded for source '" ++ String.ofList r.source ++ "', not '" ++
    String.ofList e.source ++ "'"

/-- What is done with a file that is wanted, and what that expects of it. -/
def decideFile (d : Desired) (record : Option Record) (state : FileState) (force : Bool) : Action × Option Expect :=
  match state with
  | .unsafePath why => (.refused why, none)
  | .missing => (.create, some .missing)
  | .present sha256 mode owner =>
    if sha256 = d.sha256 ∧ mode = d.entry.mode ∧ owner = d.entry.owner then (.inSync, none)
    else if record.any (·.sha256 = sha256) then (.update, some (.sha256 sha256))
    else if d.entry.localEdits = .overwrite ∨ force = true then (.overwrite, some (.sha256 sha256))
    else (.keptLocalEdit, none)

/-- The directories of a file that is created which are not there. -/
def missingDirs (nodes : Nodes) (path : GuestPath) : List Text := path.directories.filter fun dir => nodes.at dir ≠ .dir

/-- The record of a file as it is wanted. -/
def Desired.record (d : Desired) : Record := ⟨d.entry.name, d.entry.path, d.sha256, d.entry.source⟩

/-- One file that is wanted, the sources of its record and its own not in conflict. -/
def planTarget (nodes : Nodes) (force : Bool) (d : Desired) (record : Option Record) (p : Draft) : Draft :=
  let (action, expect) := decideFile d record (assess d.entry.path nodes) force
  let p :=
    match action with
    | .inSync | .create | .update | .overwrite => p.record d.entry.path d.record
    | _ => p.keep d.entry.path record
  let p :=
    if action = .create then
      { p with dirs := (missingDirs nodes d.entry.path).foldl (fun dirs dir => dirs.insert dir ()) p.dirs }
    else p
  let p :=
    match expect with
    | some expect => { p with ops := p.ops ++ [Op.place d.entry.path.text d.content d.entry.mode d.entry.owner expect] }
    | none => p
  p.addItem d.entry.name (some d.entry.path) action

/-- One file that is wanted. -/
def planFile (old : Manifest) (nodes : Nodes) (force : Bool) (d : Desired) (p : Draft) : Draft :=
  match old.records.get? d.entry.path with
  | some r =>
    if sourcesConflict d.entry.source r.source then
      (p.addItem d.entry.name (some d.entry.path) (.refused (sourceError d.entry r))).record d.entry.path r
    else planTarget nodes force d (some r) p
  | none => planTarget nodes force d none p

def planEntry (old : Manifest) (nodes : Nodes) (force : Bool) (p : Draft) : Resolved → Draft
  | .file d => planFile old nodes force d p
  | .absent _ => p
  | .refused name reason => p.addItem name none (.refused reason)

/-- What is done with a file that is recorded and not wanted. -/
def decideGone (path : GuestPath) (r : Record) (state : FileState) : Action × Option Op :=
  match state with
  | .missing => (.forget, none)
  | .present sha256 _ _ =>
    if sha256 = r.sha256 then (.delete, some (.remove path.text sha256))
    else (.left "changed since it was written", none)
  | .unsafePath why => (.left why, none)

/-- One record, whose file is wanted no more. -/
def planRecord (files : GuestFiles) (nodes : Nodes) (wanted : List GuestPath) (held : List String) (p : Draft)
    (e : GuestPath × Record) : Draft :=
  if e.1 ∈ wanted then p
  else
    match assess e.1 nodes with
    | .missing => p.addItem e.2.entry (some e.1) .forget
    | state =>
      if ! deletionOwner files e.2.source then p.record e.1 e.2
      else if e.2.entry ∈ held then p.record e.1 e.2
      else
        let (action, op) := decideGone e.1 e.2 state
        { p with ops := p.ops ++ op.toList }.addItem e.2.entry (some e.1) action

/-- Why nothing is to be done. -/
def holdReason (files : GuestFiles) (nodes : Nodes) : Option String :=
  match files with
  | .held why => some why
  | _ => Manifest.directories.findSome? fun dir => dirProblem dir (nodes.at dir)

/-- The entries; files handed over are entries like others. -/
def GuestFiles.rows : GuestFiles → List Resolved
  | .entries rows => rows
  | .managed items => items.map .file
  | .nothing | .held _ => []

/-- The names of the entries that are refused. -/
def heldNames (rows : List Resolved) : List String :=
  rows.filterMap fun
    | .refused name _ => some name
    | _ => none

/-- The entries, and then the records that no entry wants. -/
def draft (files : GuestFiles) (old : Manifest) (nodes : Nodes) (force : Bool) : Draft :=
  let p := files.rows.foldl (planEntry old nodes force) ⟨[], [], .empty, .empty⟩
  let wanted := files.desired.map (·.entry.path)
  old.records.entries.foldl (planRecord files nodes wanted (heldNames files.rows)) p

/-- Decides one sync. `force` overwrites local edits of wanted files; it never deletes one. -/
def plan (files : GuestFiles) (old : Manifest) (nodes : Nodes) (force : Bool) : Plan :=
  match holdReason files nodes with
  | some why =>
    ⟨old.records.entries.map fun e => ⟨e.2.entry, some e.2.path, .refused why⟩, [], [], old⟩
  | none =>
    let p := draft files old nodes force
    let changed := ! p.ops.isEmpty || decide (p.manifest ≠ old)
    let dirs := if changed = true ∧ nodes.at guestRoot ≠ .dir then p.dirs.insert guestRoot () else p.dirs
    ⟨p.items, p.ops, Assoc.keys dirs.entries, p.manifest⟩

end

end Guest
end PveMeta
