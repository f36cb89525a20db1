import Mathlib.Algebra.Group.Nat.Defs
import Mathlib.Algebra.GroupWithZero.Nat
import Mathlib.Algebra.Order.Group.Int

/-! # Integers of a machine

Arithmetic in an integer type of fixed width. An operation gives nothing where the machine's would overflow or divide by
zero, and else what it gives is that of the integers. -/

/-- An integer type, by the least and the greatest of its values. -/
structure MachineInt where
  least : Int
  greatest : Int

namespace MachineInt

def i64 : MachineInt := ⟨-2 ^ 63, 2 ^ 63 - 1⟩

def u64 : MachineInt := ⟨0, 2 ^ 64 - 1⟩

/-- A value of the type. -/
def Holds (T : MachineInt) (n : Int) : Prop := T.least ≤ n ∧ n ≤ T.greatest

instance (T : MachineInt) (n : Int) : Decidable (T.Holds n) := inferInstanceAs (Decidable (_ ∧ _))

section Operations

variable (T : MachineInt) (a b : Int)

def check (n : Int) : Option Int := if T.Holds n then some n else none

def add : Option Int := T.check (a + b)

def sub : Option Int := T.check (a - b)

def mul : Option Int := T.check (a * b)

/-- The quotient, rounded towards zero. -/
def div : Option Int := if b = 0 then none else T.check (a.tdiv b)

/-- What that division leaves; it overflows where the quotient does. -/
def rem : Option Int := (T.div a b).map fun _ => a.tmod b

/-- The quotient of the division whose remainder is not negative. -/
def divEuclid : Option Int := if b = 0 then none else T.check (a / b)

def remEuclid : Option Int := (T.divEuclid a b).map fun _ => a % b

end Operations

/-- A cast to `i64`, which keeps the lower 64 bits. -/
def asI64 (n : Int) : Int := n.bmod (2 ^ 64)

/-! ### Results that fit -/

variable {T : MachineInt} {a b c : Int}

theorem holds_i64 (h : 0 ≤ c) (hc : c < 2 ^ 63) : i64.Holds c :=
  ⟨h.trans' (by decide), Int.le_sub_one_of_lt hc⟩

theorem holds_u64 (h : 0 ≤ c) (hc : c < 2 ^ 64) : u64.Holds c := ⟨h, Int.le_sub_one_of_lt hc⟩

theorem check_eq_some (hc : T.Holds c) : T.check c = some c := if_pos hc

theorem add_eq_some (h : a + b = c) (hc : T.Holds c) : T.add a b = some c := by
  rw [add, h, check_eq_some hc]

theorem sub_eq_some (h : a - b = c) (hc : T.Holds c) : T.sub a b = some c := by
  rw [sub, h, check_eq_some hc]

theorem mul_eq_some (h : a * b = c) (hc : T.Holds c) : T.mul a b = some c := by
  rw [mul, h, check_eq_some hc]

theorem div_eq_some (ha : 0 ≤ a) (hb : b ≠ 0) (h : a / b = c) (hc : T.Holds c) : T.div a b = some c := by
  rw [div, if_neg hb, Int.tdiv_eq_ediv_of_nonneg ha, h, check_eq_some hc]

theorem divEuclid_eq_some (hb : b ≠ 0) (h : a / b = c) (hc : T.Holds c) : T.divEuclid a b = some c := by
  rw [divEuclid, if_neg hb, h, check_eq_some hc]

theorem rem_eq_some (ha : 0 ≤ a) (hb : b ≠ 0) (hq : T.Holds (a / b)) (h : a % b = c) : T.rem a b = some c := by
  rw [rem, div_eq_some ha hb rfl hq, Option.map_some, Int.tmod_eq_emod_of_nonneg ha, h]

theorem remEuclid_eq_some (hb : b ≠ 0) (hq : T.Holds (a / b)) (h : a % b = c) : T.remEuclid a b = some c := by
  rw [remEuclid, divEuclid_eq_some hb rfl hq, Option.map_some, h]

theorem asI64_of_lt (h : 0 ≤ a) (ha : a < 2 ^ 63) : asI64 a = a := by
  rw [asI64, Int.bmod_eq_of_le]
  · exact h.trans' (by decide)
  · exact ha.trans_le (by decide)

/-! ### Natural numbers that fit -/

theorem bind_of_eq_some {α β : Type} {x : Option α} {a : α} (h : x = some a) (f : α → Option β) : (x >>= f) = f a := by
  rw [h]
  rfl

section Naturals

variable {n m : Nat} (k : Nat)

theorem holds_ediv_u64 (h : n < 2 ^ 64) : u64.Holds ((n / k : Nat) : Int) := by
  have := Nat.div_le_self n k
  exact holds_u64 (Int.natCast_nonneg _) (by omega)

theorem holds_ediv_i64 (h : n < 2 ^ 63) : i64.Holds ((n / k : Nat) : Int) := by
  have := Nat.div_le_self n k
  exact holds_i64 (Int.natCast_nonneg _) (by omega)

variable [NeZero k]

theorem natCast_ne_zero : (k : Int) ≠ 0 := Int.natCast_ne_zero.mpr (NeZero.ne k)

theorem u64_div (h : n < 2 ^ 64) : u64.div n k = some ((n / k : Nat) : Int) :=
  div_eq_some (Int.natCast_nonneg n) (natCast_ne_zero k) rfl (holds_ediv_u64 k h)

theorem u64_rem (h : n < 2 ^ 64) : u64.rem n k = some ((n % k : Nat) : Int) :=
  rem_eq_some (Int.natCast_nonneg n) (natCast_ne_zero k) (holds_ediv_u64 k h) rfl

theorem i64_div (h : n < 2 ^ 63) : i64.div n k = some ((n / k : Nat) : Int) :=
  div_eq_some (Int.natCast_nonneg n) (natCast_ne_zero k) rfl (holds_ediv_i64 k h)

theorem i64_divEuclid (h : n < 2 ^ 63) : i64.divEuclid n k = some ((n / k : Nat) : Int) :=
  divEuclid_eq_some (natCast_ne_zero k) rfl (holds_ediv_i64 k h)

theorem i64_remEuclid (h : n < 2 ^ 63) : i64.remEuclid n k = some ((n % k : Nat) : Int) :=
  remEuclid_eq_some (natCast_ne_zero k) (holds_ediv_i64 k h) rfl

theorem i64_add (h : n + m < 2 ^ 63) : i64.add n m = some ((n + m : Nat) : Int) :=
  add_eq_some rfl (holds_i64 (Int.natCast_nonneg _) (by omega))

theorem i64_sub (hle : m ≤ n) (h : n < 2 ^ 63) : i64.sub n m = some ((n - m : Nat) : Int) :=
  sub_eq_some (Int.ofNat_sub hle).symm (holds_i64 (Int.natCast_nonneg _) (by omega))

theorem i64_mul (h : n * m < 2 ^ 63) : i64.mul n m = some ((n * m : Nat) : Int) :=
  mul_eq_some rfl (holds_i64 (Int.natCast_nonneg _) (by omega))

end Naturals

end MachineInt
