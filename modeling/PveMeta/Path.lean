import PveMeta.Lib.Text

/-! # Paths

Dotted addressing into a document (`path.rs`). A path is its segments; the root is the empty path. -/

namespace PveMeta

/-- A character of the segment charset `[A-Za-z0-9_@!-]`. -/
def isSegmentChar (c : Char) : Bool := c.isAlphanum || c == '_' || c == '-' || c == '@' || c == '!'

/-- `^[A-Za-z0-9_@!-]+$`. -/
def isValidSegment (s : String) : Bool := ! s.toList.isEmpty && s.toList.all isSegmentChar

abbrev Path := List String

namespace Path

def root : Path := []

def isRoot (p : Path) : Bool := p.isEmpty

def last (p : Path) : Option String := p.getLast?

def parent (p : Path) : Option Path := if p.isEmpty then none else some p.dropLast

def join (p : Path) (segment : String) : Path := p ++ [segment]

def isPrefixOf (p q : Path) : Bool := List.isPrefixOf p q

/-- The dotted form (`Display`). -/
def display (p : Path) : String := String.ofList (['.'].intercalate (p.map String.toList))

/-- Neither path contains the other: they address disjoint subtrees. -/
def Incomparable (p q : Path) : Prop := ¬ p <+: q ∧ ¬ q <+: p

theorem eq_root_or_join (p : Path) : p = root ∨ ∃ q k, p = join q k := by
  induction p using List.reverseRecOn with
  | nil => exact Or.inl rfl
  | append_singleton q k => exact Or.inr ⟨q, k, rfl⟩

@[simp] theorem isRoot_root : isRoot root = true := rfl

@[simp] theorem isRoot_join (p : Path) (k : String) : isRoot (join p k) = false := by
  simp [isRoot, join]

@[simp] theorem parent_join (p : Path) (k : String) : parent (join p k) = some p := by
  simp [parent, join]

@[simp] theorem last_join (p : Path) (k : String) : last (join p k) = some k := by
  simp [last, join]

end Path

end PveMeta
