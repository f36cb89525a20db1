import PveMeta.Guest.World

/-! # A sync

What a sync asks of a guest and what it makes of the answers (`guest.rs`); and of the guest whose steps are counted, over
runs of syncs. -/

namespace PveMeta
namespace Guest

/-- `trait Guest`, and what is noted of a sync's deeds, which the program does not. -/
structure Calls (σ : Type) where
  probe : List Text → σ → Except String Nodes × σ
  read : Text → Nat → σ → Except String (Option ByteArray) × σ
  commit : List Text → List Op → σ → Except String (List Outcome) × σ
  note : List Deed → σ → σ

section

variable [Deps]

/-- The guest whose steps are counted. -/
def World.calls : Calls World where
  probe paths w := w.probe paths
  read path max w := w.read path max
  commit dirs ops w := w.commit dirs ops
  note deeds w := w.note deeds

namespace World

theorem calls_probe (paths : List Text) (w : World) : calls.probe paths w = w.probe paths := rfl

theorem calls_read (path : Text) (max : Nat) (w : World) : calls.read path max w = w.read path max := rfl

theorem calls_commit (dirs : List Text) (ops : List Op) (w : World) : calls.commit dirs ops w = w.commit dirs ops := rfl

theorem calls_note (deeds : List Deed) (w : World) : calls.note deeds w = w.note deeds := rfl

end World

variable [RustDebug] [Serde]

/-- A plan, with what it was decided from. -/
structure Inspection where
  plan : Plan
  manifest : Manifest
  warning : Option String

/-- The manifest as read: empty when there is none or it is not trusted, and why. -/
def trusted : Option ByteArray → Manifest × Option String
  | none => (.empty, none)
  | some bytes =>
    match Manifest.parse bytes with
    | .ok m => (m, none)
    | .error e => (.empty, some (String.ofList manifestPath ++ ": " ++ e ++ "; nothing in it is trusted"))

/-- The file was probed exactly as it is wanted. -/
def asWanted (nodes : Nodes) (d : Desired) : Bool :=
  match assess d.entry.path nodes with
  | .present sha256 mode owner => sha256 == d.sha256 && mode == d.entry.mode && decide (owner = d.entry.owner)
  | _ => false

/-- One row of a sync's result. -/
structure Done where
  item : Item
  outcome : Option Outcome

structure Report where
  items : List Done
  warning : Option String
  hasRecords : Bool

/-- The outcomes go to the items that write. -/
def zipOutcomes : List Item → List Outcome → List Done
  | [], _ => []
  | item :: items, outcomes =>
    if item.action.writes then ⟨item, outcomes.head?⟩ :: zipOutcomes items outcomes.tail
    else ⟨item, none⟩ :: zipOutcomes items outcomes

def manifestOp (m : Manifest) : Op := .place manifestPath m.render Manifest.mode .root .any

/-! ### Over the calls -/

namespace Calls

variable {σ : Type} (g : Calls σ)

/-- The manifest, whether it is trusted, and the nodes of every path that the plan needs. -/
def look (files : GuestFiles) (s : σ) : Except String ((Manifest × Option String) × Nodes) × σ :=
  match g.read manifestPath Manifest.maxBytes s with
  | (.error e, s) => (.error e, s)
  | (.ok bytes, s) =>
    if files.wantsFiles || ! (trusted bytes).1.isEmpty then
      match g.probe (probePaths files (trusted bytes).1) s with
      | (.error e, s) => (.error e, s)
      | (.ok nodes, s) => (.ok (trusted bytes, nodes), s)
    else (.ok (trusted bytes, []), s)

/-- Reads the manifest and probes the guest, and decides. -/
def inspect (files : GuestFiles) (force : Bool) (s : σ) : Except String Inspection × σ :=
  match g.look files s with
  | (.error e, s) => (.error e, s)
  | (.ok ((manifest, warning), nodes), s) =>
    (.ok ⟨plan files manifest nodes force, manifest, warning⟩,
      g.note ((files.desired.filter (asWanted nodes)).map fun d => .found d.entry.path.text d.sha256) s)

/-- The manifest is written, unless it is as it was. -/
def saveManifest (old after : Manifest) (dirs : List Text) (s : σ) : Except String Unit × σ :=
  if after = old then (.ok (), s)
  else
    match g.commit dirs [manifestOp after] s with
    | (.error e, s) => (.error e, s)
    | (.ok [.failed why], s) => (.error ("writing " ++ String.ofList manifestPath ++ ": " ++ why), s)
    | (.ok _, s) => (.ok (), s)

/-- Runs one sync. -/
def sync (files : GuestFiles) (force : Bool) (s : σ) : Except String Report × σ :=
  match g.inspect files force s with
  | (.error e, s) => (.error e, s)
  | (.ok ins, s) =>
    if ins.plan.changes ins.manifest then
      match if ins.plan.ops.isEmpty then (.ok [], s) else g.commit ins.plan.dirs ins.plan.ops s with
      | (.error e, s) => (.error e, s)
      | (.ok outcomes, s) =>
        let after := ins.plan.manifestAfter ins.manifest (outcomes.map fun o => o == .done)
        match g.saveManifest ins.manifest after (if ins.plan.ops.isEmpty then ins.plan.dirs else []) s with
        | (.error e, s) => (.error e, s)
        | (.ok (), s) => (.ok ⟨zipOutcomes ins.plan.items outcomes, ins.warning, ! after.isEmpty⟩, s)
    else (.ok ⟨zipOutcomes ins.plan.items [], ins.warning, ! ins.manifest.isEmpty⟩, s)

end Calls

/-! ### In the guest whose steps are counted -/

def look (files : GuestFiles) (w : World) : Except String ((Manifest × Option String) × Nodes) × World :=
  World.calls.look files w

def inspect (files : GuestFiles) (force : Bool) (w : World) : Except String Inspection × World :=
  World.calls.inspect files force w

def saveManifest (old after : Manifest) (dirs : List Text) (w : World) : Except String Unit × World :=
  World.calls.saveManifest old after dirs w

def sync (files : GuestFiles) (force : Bool) (w : World) : Except String Report × World := World.calls.sync files force w

namespace World

theorem calls_look (files : GuestFiles) (w : World) : calls.look files w = Guest.look files w := rfl

theorem calls_inspect (files : GuestFiles) (force : Bool) (w : World) :
    calls.inspect files force w = Guest.inspect files force w :=
  rfl

omit [RustDebug] in
theorem calls_saveManifest (old after : Manifest) (dirs : List Text) (w : World) :
    calls.saveManifest old after dirs w = Guest.saveManifest old after dirs w := rfl

end World

/-! ### Runs -/

/-- The others do something to the files, or to the manifest; or a sync runs, which nothing else does meanwhile. -/
inductive Event where
  | others (fs : Fs)
  | editManifest (node : Inode)
  | sync (files : GuestFiles) (force : Bool) (turns : List Turn)

/-- A guest with these files, of which no sync has done anything. -/
def World.start (fs : Fs) : World := ⟨fs, [], []⟩

def step (w : World) : Event → World
  | .others fs => w.edit fs
  | .editManifest node => w.set manifestPath node
  | .sync files force turns => (sync files force { w with turns }).2

def run (w : World) (events : List Event) : World := events.foldl step w

end

end Guest
end PveMeta
