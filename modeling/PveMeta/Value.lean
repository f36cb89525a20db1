import PveMeta.Lib.Assoc
import Mathlib.Tactic.GCongr
import Mathlib.Tactic.NormNum
import Mathlib.Tactic.Positivity

/-! # Document values

The JSON data model a document is held in: numbers as `serde_json` keeps them, maps in insertion
order with each key once. Equality of values is the one the code compares with: maps without regard
to order, doubles as IEEE 754 compares them. -/

namespace PveMeta

/-- A finite IEEE 754 double: its sign bit and the 63 bits below it. `serde_json` keeps no NaN and no
    infinity, so the exponent field is never all ones. -/
structure F64 where
  sign : Bool
  mag : Nat
  finite : mag < 0x7ff * 2 ^ 52
  deriving DecidableEq

namespace F64

/-- Where a double stands in the IEEE order; both zeros stand at `0`. -/
def rank (x : F64) : Int := if x.sign then -(x.mag : Int) else x.mag

/-- `n` shifted right by `s` bits, rounded to nearest, ties to even. -/
def roundShift (n s : Nat) : Nat :=
  let q := n >>> s
  let r := n % 2 ^ s
  if 2 ^ s < 2 * r ∨ (2 * r = 2 ^ s ∧ q % 2 = 1) then q + 1 else q

/-- The low 63 bits of the double nearest to `n`. A mantissa that rounds up to `2 ^ 53` carries into
    the exponent by itself. -/
def magOfNat (n : Nat) : Nat :=
  if n = 0 then 0
  else (n.log2 + 1022) * 2 ^ 52 + if n.log2 ≤ 52 then n <<< (52 - n.log2) else roundShift n (n.log2 - 52)

theorem roundShift_le (n s : Nat) : roundShift n s ≤ n / 2 ^ s + 1 := by
  unfold roundShift
  simp only [Nat.shiftRight_eq_div_pow]
  split <;> omega

theorem magOfNat_lt {n : Nat} (hn : n ≤ 2 ^ 64) : magOfNat n < 0x7ff * 2 ^ 52 := by
  unfold magOfNat
  split
  · norm_num
  · next h0 =>
    have he : n.log2 ≤ 64 := by
      by_contra hlt
      have := (Nat.le_log2 h0).mp (show 65 ≤ n.log2 by omega)
      omega
    have hlt : n < 2 ^ (n.log2 + 1) := Nat.lt_log2_self
    have hmant : (if n.log2 ≤ 52 then n <<< (52 - n.log2) else roundShift n (n.log2 - 52)) ≤ 2 ^ 53 := by
      split
      · next hle =>
        rw [Nat.shiftLeft_eq]
        calc n * 2 ^ (52 - n.log2) ≤ 2 ^ (n.log2 + 1) * 2 ^ (52 - n.log2) := by gcongr
          _ = 2 ^ 53 := by rw [← Nat.pow_add]; congr 1; omega
      · next hgt =>
        refine (roundShift_le _ _).trans (Nat.succ_le_of_lt ?_)
        rw [Nat.div_lt_iff_lt_mul (by positivity), ← Nat.pow_add]
        rwa [show 53 + (n.log2 - 52) = n.log2 + 1 by omega]
    have : (n.log2 + 1022) * 2 ^ 52 ≤ (64 + 1022) * 2 ^ 52 := by gcongr
    omega

/-- The double nearest to `n` (`n as f64`). -/
def ofNat (n : Nat) (hn : n ≤ 2 ^ 64) : F64 := ⟨false, magOfNat n, magOfNat_lt hn⟩

/-- The double nearest to `-n`. -/
def ofNegNat (n : Nat) (hn : n ≤ 2 ^ 64) : F64 := ⟨true, magOfNat n, magOfNat_lt hn⟩

end F64

/-- `serde_json::Number`: an unsigned integer, a negative one (`negInt n` is `-(n + 1)`), or a double. -/
inductive Number where
  | posInt (n : UInt64)
  | negInt (n : Fin (2 ^ 63))
  | float (x : F64)
  deriving DecidableEq

namespace Number

/-- Numbers of different kinds are different, `1` and `1.0` too. -/
protected def beq : Number → Number → Bool
  | .posInt a, .posInt b => a == b
  | .negInt a, .negInt b => a == b
  | .float x, .float y => x.rank == y.rank
  | _, _ => false

instance : BEq Number := ⟨Number.beq⟩

def asF64 : Number → F64
  | .posInt n => F64.ofNat n.toNat (by have := n.toNat_lt; omega)
  | .negInt n => F64.ofNegNat (n.val + 1) (by have := n.isLt; omega)
  | .float x => x

/-- The integer of a number that is one. -/
def asInt : Number → Option Int
  | .posInt n => some n.toNat
  | .negInt n => some (-(n.val + 1 : Int))
  | .float _ => none

theorem beq_refl (a : Number) : (a == a) = true := by
  show Number.beq a a = true
  cases a <;> exact beq_self_eq_true _

end Number

inductive Value where
  | null
  | bool (b : Bool)
  | number (n : Number)
  | string (s : String)
  | array (items : List Value)
  | object (map : List (String × Value))

abbrev Members := List (String × Value)

namespace Value

/-- The number of a value that is one. -/
def asNumber : Value → Option Number
  | .number n => some n
  | _ => none

def isObject : Value → Bool
  | .object _ => true
  | _ => false

def isString : Value → Bool
  | .string _ => true
  | _ => false

def isArray : Value → Bool
  | .array _ => true
  | _ => false

def isNumber : Value → Bool
  | .number _ => true
  | _ => false

def isBool : Value → Bool
  | .bool _ => true
  | _ => false

def get? (key : String) : Value → Option Value
  | .object m => Assoc.get? key m
  | _ => none

def asObject : Value → Option Members
  | .object m => some m
  | _ => none

def asArray : Value → Option (List Value)
  | .array items => some items
  | _ => none

def asStr : Value → Option String
  | .string s => some s
  | _ => none

@[simp] theorem isObject_object (m : Members) : (Value.object m).isObject = true := rfl

theorem isObject_iff {v : Value} : v.isObject = true ↔ ∃ m, v = .object m := by
  cases v <;> simp [isObject]

/-- Induction over a value: its members and items come first. -/
@[elab_as_elim] theorem ind {P : Value → Prop} (null : P .null) (bool : ∀ b, P (.bool b))
    (number : ∀ n, P (.number n)) (string : ∀ s, P (.string s))
    (array : ∀ items, (∀ v ∈ items, P v) → P (.array items))
    (object : ∀ m : Members, (∀ e ∈ m, P e.2) → P (.object m)) (v : Value) : P v := by
  refine Value.rec (motive_1 := P) (motive_2 := fun items => ∀ v ∈ items, P v)
    (motive_3 := fun m => ∀ e ∈ m, P e.2) (motive_4 := fun e => P e.2) null bool number string array object
    (fun _ h => nomatch h) (fun v items hv hitems => ?_) (fun _ h => nomatch h) (fun e m he hm => ?_)
    (fun _ _ h => h) v
  · exact List.forall_mem_cons.mpr ⟨hv, hitems⟩
  · exact List.forall_mem_cons.mpr ⟨he, hm⟩

/-! ### Equality -/

mutual

/-- `==` of two values. -/
protected def beq : Value → Value → Bool
  | .null, .null => true
  | .bool a, .bool b => a == b
  | .number a, .number b => a == b
  | .string a, .string b => a == b
  | .array xs, .array ys => Value.beqItems xs ys
  | .object m, .object n => m.length == n.length && Value.beqMembers m n
  | _, _ => false

def beqItems : List Value → List Value → Bool
  | [], [] => true
  | x :: xs, y :: ys => Value.beq x y && Value.beqItems xs ys
  | _, _ => false

/-- Every member of the first map is in the second, with an equal value. -/
def beqMembers : Members → Members → Bool
  | [], _ => true
  | (k, v) :: m, n =>
    (match Assoc.get? k n with
      | some w => Value.beq v w
      | none => false) && Value.beqMembers m n

end

instance : BEq Value := ⟨Value.beq⟩

/-- Two optional values are both absent, or both there and equal. -/
def OptEq : Option Value → Option Value → Prop
  | none, none => True
  | some v, some w => (v == w) = true
  | _, _ => False

/-! ### Well-formed values -/

/-- No map holds a key twice, at any depth. -/
inductive WF : Value → Prop where
  | null : WF .null
  | bool (b : Bool) : WF (.bool b)
  | number (n : Number) : WF (.number n)
  | string (s : String) : WF (.string s)
  | array {items : List Value} (h : ∀ v ∈ items, WF v) : WF (.array items)
  | object {m : Members} (keys : (Assoc.keys m).Nodup) (h : ∀ e ∈ m, WF e.2) : WF (.object m)

theorem WF.keys {m : Members} (h : WF (.object m)) : (Assoc.keys m).Nodup := by
  cases h; assumption

theorem WF.members {m : Members} (h : WF (.object m)) : ∀ e ∈ m, WF e.2 := by
  cases h; assumption

theorem WF.items {items : List Value} (h : WF (.array items)) : ∀ v ∈ items, WF v := by
  cases h; assumption

theorem WF.of_get? {m : Members} {k : String} {v : Value} (h : WF (.object m))
    (hv : Assoc.get? k m = some v) : WF v :=
  h.members _ (Assoc.mem_of_get? hv)

theorem WF.insert {m : Members} {k : String} {v : Value} (h : WF (.object m)) (hv : WF v) :
    WF (.object (Assoc.insert k v m)) := by
  refine .object (Assoc.nodup_insert h.keys) fun e he => ?_
  rcases Assoc.mem_insert he with rfl | he
  · exact hv
  · exact h.members e he

theorem WF.erase {m : Members} {k : String} (h : WF (.object m)) : WF (.object (Assoc.erase k m)) :=
  .object (Assoc.nodup_erase h.keys) fun e he => h.members e (Assoc.mem_of_mem_erase he)

@[simp] theorem WF.empty : WF (.object []) := .object (by simp) (by simp)

theorem WF.tail {e : String × Value} {m : Members} (h : WF (.object (e :: m))) : WF (.object m) :=
  .object (List.nodup_cons.mp h.keys).2 fun d hd => h.members d (List.mem_cons_of_mem _ hd)

end Value

/-- A value with each key once in every map: what every parser and every operation hands on. -/
def Tree := { v : Value // v.WF }

end PveMeta
