import PveMeta.Api

/-! # The Perl side of an id

What `PVE::API2::Ext::Meta` and `bin/pve-meta` make of a document id: whether it is a guest's, the lock a
write of it takes, the check that the guest exists, and the tags and node its prefixes are resolved with. -/

namespace PveMeta
namespace Perl
open Api

/-- `$id =~ /^\d+$/`, where `$` also matches before a newline at the end. -/
def isGuestId (id : String) : Bool :=
  let t := id.toList
  let t := if t.getLast? = some '\n' then t.dropLast else t
  ! t.isEmpty && t.all Char.isDigit

/-- `my (undef, $name) = split(m{/}, $id, 2)`, the undefined name being an empty string. -/
def nameOf (id : String) : String :=
  match Text.splitOnce '/' id.toList with
  | some (_, name) => String.ofList name
  | none => ""

/-- The `cfs_lock_domain` of a document's writes; an id that is none is refused first. -/
def lockDomainFor (id : String) : Except ApiError String := do
  let _ ← parseId id
  if isGuestId id then return "pve-meta-" ++ id
  else return "pve-meta-prefix-" ++ nameOf id

/-- The lock the lifecycle hooks take for a guest (`locked_warn`). -/
def hookLock (vmid : UInt32) : String := "pve-meta-" ++ DocId.decimal vmid.toNat

/-- What the cluster says about its guests, by vmid. -/
structure Vmlist where
  ids : List (String × Option NodeName)
  tags : String → List String

/-- `acl_for`: root, and for a guest its own tags and node. -/
def aclFor (vms : Vmlist) (id : String) : CallerAcl :=
  if isGuestId id then
    ⟨"root@pam", true, true, vms.tags id, (Assoc.get? id vms.ids).join⟩
  else ⟨"root@pam", true, true, [], none⟩

/-- `locked`: the lock a write runs under, or why it does not run. -/
def locked (vms : Vmlist) (id : String) : Except String String :=
  match lockDomainFor id with
  | .error e => .error e.msg
  | .ok domain =>
    if isGuestId id && (Assoc.get? id vms.ids).isNone then .error ("guest '" ++ id ++ "' does not exist\n")
    else .ok domain

/-- The ids the endpoint's routes make: a guest's vmid, and `prefixes/<name>`. -/
def isRouted (id : String) : Bool := isGuestId id || "prefixes/".toList.isPrefixOf id.toList

/-- `assert_guest_exists`, which the routes of a guest check; `vms` is the vmlist, keyed by the vmid in decimal. -/
def guestExists (vms : List UInt32) (id : String) : Bool :=
  ! isGuestId id || vms.any fun v => DocId.decimal v.toNat == id

end Perl
end PveMeta
