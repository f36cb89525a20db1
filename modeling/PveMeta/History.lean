import PveMeta.Backup
import PveMeta.Lib.Log
import PveMeta.Request

/-! # Histories of a store

Every call that changes a document or a snapshot copy, made one after the other. Each call meets the file
system as it then is: it may be away, and reads or writes may fail. -/

namespace PveMeta
namespace History
open Backup

/-- The file system as one call meets it. -/
structure Env where
  unavailable : Option String
  readFault : Option String
  writeFault : Option String
  now : Fin (2 ^ 63 * 10 ^ 9)

def Env.meet (env : Env) (s : MetaStore) : MetaStore :=
  { s with unavailable := env.unavailable, readFault := env.readFault, writeFault := env.writeFault, now := env.now }

inductive Call where
  | write (r : Request)
  | putRaw (id : DocId) (text : Text) (expected : Option String)
  | delete (id : DocId)
  | snapshot (vmid : UInt32) (name : String)
  | rollback (vmid : UInt32) (name : String)
  | deleteSnapshot (vmid : UInt32) (name : String)
  | importBlock (vmid : UInt32) (description : Text) (mode : ImportMode)
  | purge (vmid : UInt32)

section

variable [Deps]

/-- Whether the call succeeded, and what it leaves. -/
def Call.run (s : MetaStore) : Call → Bool × MetaStore
  | .write r => ((r.run s).1.toBool, (r.run s).2)
  | .putRaw id text expected => ((s.putRaw id text expected).1.toBool, (s.putRaw id text expected).2)
  | .delete id => ((s.delete id).1.toBool, (s.delete id).2)
  | .snapshot vmid name => ((s.snapshot vmid name).1.toBool, (s.snapshot vmid name).2)
  | .rollback vmid name => ((s.rollback vmid name).1.toBool, (s.rollback vmid name).2)
  | .deleteSnapshot vmid name => ((s.deleteSnapshot vmid name).1.toBool, (s.deleteSnapshot vmid name).2)
  | .importBlock vmid description mode =>
    ((Backup.importBlock s vmid description mode).1.toBool, (Backup.importBlock s vmid description mode).2)
  | .purge vmid => ((s.purge vmid).1.toBool, (s.purge vmid).2)

/-- A call in its environment; the log says whether it succeeded. -/
def step (s : MetaStore) (call : Env × Call) : MetaStore × List Bool :=
  ((call.2.run (call.1.meet s)).2, [(call.2.run (call.1.meet s)).1])

/-- The store after the calls. -/
def run (s : MetaStore) (calls : List (Env × Call)) : MetaStore := (Log.run step s calls).1

/-- The call succeeds on `s`. -/
def Succeeds (s : MetaStore) (call : Env × Call) : Prop := (call.2.run (call.1.meet s)).1 = true

end

end History
end PveMeta
