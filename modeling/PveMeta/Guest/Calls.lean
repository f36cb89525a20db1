import PveMeta.Guest.Pct
import PveMeta.Guest.Sync

/-! # A sync over `pct exec`

The guest whose calls are scripts, over runs of syncs of it. -/

namespace PveMeta
namespace Guest

section

variable [Deps] [RustDebug] [Serde]

/-- A guest over `pct exec`. -/
def Pct.calls (vmid : UInt32) : Calls Machine where
  probe := Pct.probe vmid
  read := Pct.read vmid
  commit := Pct.commit vmid
  note _ m := m

/-! ### Runs -/

/-- The others do something to the files, or to the manifest; or a sync runs over `pct exec`, with what the others and the
    programs do meanwhile. -/
inductive Happening where
  | others (fs : Fs)
  | editManifest (node : Inode)
  | sync (files : GuestFiles) (force : Bool) (turns : List (Option Fs)) (fates : List CallFate)

namespace Machine

def step (vmid : UInt32) (m : Machine) : Happening → Machine
  | .others fs => m.edit fs
  | .editManifest node => m.set manifestPath node
  | .sync files force turns fates => ((Pct.calls vmid).sync files force { m with turns, fates }).2

def runs (vmid : UInt32) (m : Machine) (happenings : List Happening) : Machine := happenings.foldl (step vmid) m

end Machine

end

end Guest
end PveMeta
