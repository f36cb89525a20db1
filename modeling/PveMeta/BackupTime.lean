import PveMeta.Backup
import PveMeta.Lib.MachineInt

/-! # The time of a backup, as the machine computes it

`rfc3339_utc` of `backup.rs` in the integers that it has: `u64` for the seconds and `i64` for the days. It gives nothing
where one of its operations overflows or divides by zero. -/

namespace PveMeta
namespace Backup
open MachineInt

/-- `{:0width$}` of a signed number: its sign takes the place of a zero. -/
def padInt (width : Nat) (n : Int) : Text := if n < 0 then '-' :: pad (width - 1) n.natAbs else pad width n.natAbs

def rfc3339UtcChecked (unix : UInt64) : Option Text := do
  let days := asI64 (← u64.div unix.toNat 86400)
  let secs ← u64.rem unix.toNat 86400
  let z ← i64.add days 719468
  let era ← i64.divEuclid z 146097
  let doe ← i64.remEuclid z 146097
  let yoe ← i64.div (← i64.sub (← i64.add (← i64.sub doe (← i64.div doe 1460)) (← i64.div doe 36524))
    (← i64.div doe 146096)) 365
  let y ← i64.add yoe (← i64.mul era 400)
  let doy ← i64.sub doe (← i64.sub (← i64.add (← i64.mul 365 yoe) (← i64.div yoe 4)) (← i64.div yoe 100))
  let mp ← i64.div (← i64.add (← i64.mul 5 doy) 2) 153
  let d ← i64.add (← i64.sub doy (← i64.div (← i64.add (← i64.mul 153 mp) 2) 5)) 1
  let m ← (if mp < 10 then i64.add mp 3 else i64.sub mp 9)
  let y ← (if m ≤ 2 then i64.add y 1 else some y)
  return padInt 4 y ++ ['-'] ++ padInt 2 m ++ ['-'] ++ padInt 2 d ++ ['T'] ++ padInt 2 (← u64.div secs 3600) ++ [':'] ++
    padInt 2 (← u64.div (← u64.rem secs 3600) 60) ++ [':'] ++ padInt 2 (← u64.rem secs 60) ++ ['Z']

end Backup
end PveMeta
