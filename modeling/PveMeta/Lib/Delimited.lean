import Mathlib.Data.List.Basic

/-! # Streams of words that end where they say

A code is delimited if its words can be told from what follows them. A stream of such words is one list of
words and no other. -/

/-- On the words that satisfy `P`, `enc` gives something, and two words that begin one text are the same. -/
structure Delimited {α β : Type} (enc : α → List β) (P : α → Prop) : Prop where
  ne_nil : ∀ {a}, P a → enc a ≠ []
  eq_of_append : ∀ {a b x y}, P a → P b → enc a ++ x = enc b ++ y → a = b

namespace Delimited

variable {α β : Type} {enc : α → List β} {P : α → Prop} {l l' : List α}

theorem flatMap_injective (h : Delimited enc P) (hl : ∀ a ∈ l, P a) (hl' : ∀ a ∈ l', P a)
    (heq : l.flatMap enc = l'.flatMap enc) : l = l' := by
  induction l generalizing l' with
  | nil =>
    cases l' with
    | nil => rfl
    | cons b l' =>
      have hnil := List.append_eq_nil_iff.mp (heq.symm.trans List.flatMap_nil)
      exact absurd hnil.1 (h.ne_nil (hl' b List.mem_cons_self))
  | cons a l ih =>
    have ha := hl a List.mem_cons_self
    cases l' with
    | nil =>
      have hnil := List.append_eq_nil_iff.mp (heq.trans List.flatMap_nil)
      exact absurd hnil.1 (h.ne_nil ha)
    | cons b l' =>
      rw [List.flatMap_cons, List.flatMap_cons] at heq
      obtain rfl := h.eq_of_append ha (hl' b List.mem_cons_self) heq
      rw [ih (fun c hc => hl c (List.mem_cons_of_mem a hc)) (fun c hc => hl' c (List.mem_cons_of_mem a hc))
        (List.append_cancel_left heq)]

/-- A length in a fixed number of digits, that many symbols, and a tail of a fixed length. -/
theorem of_length {len : Nat → List β} {name tail : α → List β} {width : Nat}
    (hwidth : ∀ n, (len n).length = width) (hpos : 0 < width)
    (hlen : ∀ {a b}, P a → P b → len (name a).length = len (name b).length → (name a).length = (name b).length)
    (htail : ∀ {a b}, P a → P b → (tail a).length = (tail b).length)
    (hinj : ∀ {a b}, name a = name b → tail a = tail b → a = b) :
    Delimited (fun a => len (name a).length ++ name a ++ tail a) P where
  ne_nil _ h := by
    have := congrArg List.length h
    simp only [List.length_append, hwidth, List.length_nil] at this
    omega
  eq_of_append {a b x y} ha hb h := by
    simp only [List.append_assoc] at h
    obtain ⟨hn, h⟩ := List.append_inj h (by rw [hwidth, hwidth])
    obtain ⟨hname, h⟩ := List.append_inj h (hlen ha hb hn)
    exact hinj hname (List.append_inj h (htail ha hb)).1

end Delimited
