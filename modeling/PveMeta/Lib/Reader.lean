import Mathlib.Data.List.TakeWhile

/-! # Readers that look no further than they have to

A reader takes items off the front of a list. It cannot find out that the list ends, only want more than there is; so what
it makes of a list it makes of every list that goes on from there. -/

/-- What is read off a list, and what is left of it. -/
structure Reader (τ α : Type) where
  read : List τ → Option (α × List τ)
  read_append : ∀ {l a r}, read l = some (a, r) → ∀ more, read (l ++ more) = some (a, r ++ more)

namespace Reader

variable {τ α β : Type}

/-- Nothing is read. -/
def give (a : α) : Reader τ α where
  read l := some (a, l)
  read_append h more := by
    obtain ⟨rfl, rfl⟩ := Prod.ext_iff.mp (Option.some.inj h)
    rfl

/-- What is there is not of this kind. -/
def fail : Reader τ α where
  read _ := none
  read_append h _ := nomatch h

/-- The next item. -/
def item : Reader τ τ where
  read
    | [] => none
    | t :: l => some (t, l)
  read_append {l a r} h more := by
    cases l with
    | nil => cases h
    | cons t l =>
      cases h
      rfl

/-- The next item, which stays. -/
def peek : Reader τ τ where
  read
    | [] => none
    | t :: l => some (t, t :: l)
  read_append {l a r} h more := by
    cases l with
    | nil => cases h
    | cons t l =>
      cases h
      rfl

/-- One reader, and then the one that its result asks for. -/
def andThen (p : Reader τ α) (f : α → Reader τ β) : Reader τ β where
  read l :=
    match p.read l with
    | none => none
    | some (a, r) => (f a).read r
  read_append {l b r} h more := by
    cases hp : p.read l with
    | none =>
      rw [hp] at h
      cases h
    | some e =>
      rw [hp] at h
      rw [p.read_append hp more]
      exact (f e.1).read_append h more

instance : Monad (Reader τ) where
  pure := give
  bind := andThen

variable {p : Reader τ α} {f : α → Reader τ β} {l r : List τ} {a : α} {t : τ}

@[simp] theorem read_pure (a : α) (l : List τ) : (pure a : Reader τ α).read l = some (a, l) := rfl

@[simp] theorem read_fail (l : List τ) : (fail : Reader τ α).read l = none := rfl

@[simp] theorem read_item_cons (t : τ) (l : List τ) : item.read (t :: l) = some (t, l) := rfl

@[simp] theorem read_peek_cons (t : τ) (l : List τ) : peek.read (t :: l) = some (t, t :: l) := rfl

theorem read_bind (h : p.read l = some (a, r)) : (p >>= f).read l = (f a).read r := by
  show (match p.read l with | none => none | some (a, r) => (f a).read r) = _
  rw [h]

theorem read_bind_none (h : p.read l = none) : (p >>= f).read l = none := by
  show (match p.read l with | none => none | some (a, r) => (f a).read r) = _
  rw [h]

theorem read_peek_bind (t : τ) (l : List τ) (f : τ → Reader τ β) : (peek >>= f).read (t :: l) = (f t).read (t :: l) := rfl

theorem read_item_bind (t : τ) (l : List τ) (f : τ → Reader τ β) : (item >>= f).read (t :: l) = (f t).read l := rfl

section

variable [DecidableEq τ]

/-- This item, which must come next. -/
def expect (t : τ) : Reader τ Unit := do
  let u ← item
  if u = t then pure () else fail

@[simp] theorem read_expect (t : τ) (l : List τ) : (expect t).read (t :: l) = some ((), l) := by
  show (if t = t then pure () else fail : Reader τ Unit).read l = _
  rw [if_pos rfl]
  rfl

end

/-- The items up to the first that does not satisfy `p`, which stays. -/
def takeWhile (p : τ → Bool) : Reader τ (List τ) where
  read l :=
    match l.dropWhile p with
    | [] => none
    | t :: r => some (l.takeWhile p, t :: r)
  read_append {l a r} h more := by
    cases hdrop : l.dropWhile p with
    | nil =>
      rw [hdrop] at h
      cases h
    | cons t r =>
      rw [hdrop] at h
      cases h
      have hsplit := List.takeWhile_append_dropWhile (p := p) (l := l)
      have hpos : ∀ u ∈ l.takeWhile p, p u = true := fun u hu => List.mem_takeWhile_imp hu
      have hneg : p t = false := by
        have := List.head?_dropWhile_not p l
        rw [hdrop] at this
        simpa using this
      have hmore : l ++ more = l.takeWhile p ++ t :: (r ++ more) := by
        have := congrArg (· ++ more) hsplit.symm
        simpa [hdrop] using this
      rw [hmore, List.dropWhile_append_of_pos hpos, List.takeWhile_append_of_pos hpos,
        List.dropWhile_cons_of_neg (by simp [hneg]), List.takeWhile_cons_of_neg (by simp [hneg]), List.append_nil]
      rfl

theorem read_takeWhile {p : τ → Bool} {ts : List τ} (h : ∀ t ∈ ts, p t = true) (ht : p t = false) (l : List τ) :
    (takeWhile p).read (ts ++ t :: l) = some (ts, t :: l) := by
  show (match (ts ++ t :: l).dropWhile p with | [] => none | t' :: r => some ((ts ++ t :: l).takeWhile p, t' :: r)) = _
  rw [List.dropWhile_append_of_pos h, List.takeWhile_append_of_pos h, List.dropWhile_cons_of_neg (by simp [ht]),
    List.takeWhile_cons_of_neg (by simp [ht]), List.append_nil]

theorem read_takeWhile_nil {p : τ → Bool} (ht : p t = false) (l : List τ) :
    (takeWhile p).read (t :: l) = some ([], t :: l) :=
  read_takeWhile (List.forall_mem_nil _) ht l

theorem read_takeWhile_none {p : τ → Bool} (h : ∀ t ∈ l, p t = true) : (takeWhile p).read l = none := by
  show (match l.dropWhile p with | [] => none | t :: r => some (l.takeWhile p, t :: r)) = none
  rw [List.dropWhile_eq_nil_iff.mpr h]

end Reader
