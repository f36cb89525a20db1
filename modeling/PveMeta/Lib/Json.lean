import PveMeta.Lib.Assoc
import PveMeta.Lib.Text

/-! # Structs read from JSON

What a reader of JSON visits, a key as often as it is written, and how the fields of a struct are found in it: in an object
under their names, in any order and with other keys passed over, or in an array in the order of the fields. -/

inductive Json where
  | null
  | bool (b : Bool)
  | integer (n : Int)
  /-- A number that is no 64-bit integer, as it is spelled. -/
  | number (spelling : Text)
  | string (t : Text)
  | array (elems : List Json)
  | object (members : List (Text × Json))

namespace Json

variable {α : Type} {f : Json → Option α}

def string? : Json → Option Text
  | string t => some t
  | _ => none

/-- An unsigned integer of this many bits. -/
def unsigned? (bits : Nat) : Json → Option Nat
  | integer (.ofNat n) => if n < 2 ^ bits then some n else none
  | _ => none

def list? (f : Json → Option α) : Json → Option (List α)
  | array elems => elems.mapM f
  | _ => none

/-- The value of a key. One that is written twice is refused. -/
def member? (members : List (Text × Json)) (name : Text) : Option (Option Json) :=
  match members.filter fun e => e.1 = name with
  | [] => some none
  | [e] => some (some e.2)
  | _ => none

/-- The values of the fields `names` that are there. -/
def fields? (names : List Text) : Json → Option (List (Option Json))
  | object members => names.mapM (member? members)
  | array elems =>
    if elems.length ≤ names.length then some (elems.map some ++ List.replicate (names.length - elems.length) none) else none
  | _ => none

/-- A field that has to be there. -/
def required (f : Json → Option α) : Option Json → Option α
  | some json => f json
  | none => none

/-- A field that is `default` where it is missing. -/
def defaulted (default : α) (f : Json → Option α) : Option Json → Option α
  | some json => f json
  | none => some default

@[simp] theorem string?_string (t : Text) : string? (string t) = some t := rfl

@[simp] theorem required_some (json : Json) : required f (some json) = f json := rfl

@[simp] theorem defaulted_some (default : α) (json : Json) : defaulted default f (some json) = f json := rfl

theorem unsigned?_integer {bits n : Nat} (h : n < 2 ^ bits) : unsigned? bits (integer n) = some n := if_pos h

theorem mapM_some {β γ : Type} {g : β → Option γ} {h : β → γ} {l : List β} (hg : ∀ b ∈ l, g b = some (h b)) :
    l.mapM g = some (l.map h) := by
  induction l with
  | nil => rfl
  | cons b l ih =>
    rw [List.mapM_cons, hg b List.mem_cons_self, ih fun c hc => hg c (List.mem_cons_of_mem b hc)]
    rfl

/-- A list that was written element by element is read back. -/
theorem list?_array {g : α → Json} (hfg : ∀ a, f (g a) = some a) (l : List α) : list? f (array (l.map g)) = some l := by
  rw [list?, List.mapM_map]
  have hread : l.mapM (f ∘ g) = some (l.map id) := mapM_some fun a _ => hfg a
  rwa [List.map_id] at hread

theorem filter_eq_singleton {members : List (Text × Json)} (hnodup : (Assoc.keys members).Nodup) {e : Text × Json}
    (he : e ∈ members) : (members.filter fun d => d.1 = e.1) = [e] := by
  induction members with
  | nil => cases he
  | cons d members ih =>
    obtain ⟨hd, hrest⟩ := List.nodup_cons.mp hnodup
    rcases List.mem_cons.mp he with rfl | he
    · have hnone : (members.filter fun d => d.1 = e.1) = [] := by
        refine List.filter_eq_nil_iff.mpr fun d' hd' heq => hd ?_
        rw [← of_decide_eq_true heq]
        exact Assoc.mem_keys_of_mem hd'
      rw [List.filter_cons_of_pos (by simp), hnone]
    · have hne : d.1 ≠ e.1 := fun heq => hd (heq ▸ Assoc.mem_keys_of_mem he)
      rw [List.filter_cons_of_neg (by simpa using hne), ih hrest he]

/-- The fields of an object that has them in their order and nothing else. -/
theorem fields?_object {members : List (Text × Json)} (hnodup : (Assoc.keys members).Nodup) :
    fields? (Assoc.keys members) (object members) = some (members.map fun e => some e.2) := by
  rw [fields?, Assoc.keys, List.mapM_map]
  refine mapM_some fun e he => ?_
  show member? members e.1 = some (some e.2)
  rw [member?, filter_eq_singleton hnodup he]

end Json
