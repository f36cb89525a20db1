import Mathlib.Data.List.Infix
import Mathlib.Data.List.Pairwise

/-! # Scopes

What holds at a path: of the keys that contain it the longest one's, and of the settings on the way down to
it the nearest. -/

namespace Scope

variable {α β κ : Type} {key : α → List κ} {l : List α} {d e : α} {p q r : List κ}

/-- A longer key comes before a shorter one, and no key comes twice. -/
structure LongestFirst (key : α → List κ) (l : List α) : Prop where
  sorted : l.Pairwise fun a b => (key b).length ≤ (key a).length
  distinct : l.Pairwise fun a b => key a ≠ key b

theorem LongestFirst.tail {a : α} (h : LongestFirst key (a :: l)) : LongestFirst key l :=
  ⟨(List.pairwise_cons.mp h.sorted).2, (List.pairwise_cons.mp h.distinct).2⟩

/-- Two elements of one key are one. -/
theorem LongestFirst.eq_of_key (h : LongestFirst key l) (hd : d ∈ l) (he : e ∈ l) (heq : key d = key e) : d = e := by
  have : Std.Symm fun a b : α => key a ≠ key b := ⟨fun _ _ h => h.symm⟩
  by_contra hne
  exact h.distinct.forall hd he hne heq

section Longest

variable [BEq κ] [LawfulBEq κ]

/-- The element of the longest key that contains a path. -/
def longest (key : α → List κ) (l : List α) (p : List κ) : Option α := l.find? fun d => (key d).isPrefixOf p

theorem LongestFirst.longest_eq_some_iff (h : LongestFirst key l) :
    longest key l p = some d ↔ d ∈ l ∧ key d <+: p ∧ ∀ e ∈ l, key e <+: p → key e <+: key d := by
  induction l with
  | nil => simp [longest]
  | cons a l ih =>
    have hsorted := (List.pairwise_cons.mp h.sorted).1
    rw [longest, List.find?_cons]
    split
    · next ha =>
      rw [List.isPrefixOf_iff_prefix] at ha
      rw [Option.some.injEq]
      constructor
      · intro heq
        subst heq
        refine ⟨List.mem_cons_self, ha, fun e he hep => ?_⟩
        rcases List.mem_cons.mp he with rfl | he
        · exact List.prefix_rfl
        · exact List.prefix_of_prefix_length_le hep ha (hsorted e he)
      · intro ⟨hd, hdp, hmax⟩
        rcases List.mem_cons.mp hd with rfl | hd'
        · rfl
        · -- The two keys contain one another, so they are one.
          have hpre := hmax a List.mem_cons_self ha
          have heq : key a = key d := hpre.eq_of_length (hpre.length_le.antisymm (hsorted d hd'))
          exact h.eq_of_key List.mem_cons_self hd heq
    · next ha =>
      have ha' : ¬ key a <+: p := by
        rw [← List.isPrefixOf_iff_prefix, ha]
        exact Bool.false_ne_true
      rw [← longest, ih h.tail]
      constructor
      · intro ⟨hd, hdp, hmax⟩
        refine ⟨List.mem_cons_of_mem a hd, hdp, fun e he hep => ?_⟩
        rcases List.mem_cons.mp he with rfl | he
        · exact absurd hep ha'
        · exact hmax e he hep
      · intro ⟨hd, hdp, hmax⟩
        refine ⟨(List.mem_cons.mp hd).resolve_left ?_, hdp, fun e he => hmax e (List.mem_cons_of_mem a he)⟩
        intro heq
        exact ha' (heq ▸ hdp)

theorem LongestFirst.longest_key (h : LongestFirst key l) (hd : d ∈ l) : longest key l (key d) = some d :=
  h.longest_eq_some_iff.mpr ⟨hd, List.prefix_rfl, fun _ _ he => he⟩

/-- What is longest at a path is longest at every path between its key and that one. -/
theorem LongestFirst.longest_between (h : LongestFirst key l) (hp : longest key l p = some d) (hd : key d <+: q)
    (hq : q <+: p) : longest key l q = some d := by
  obtain ⟨hmem, -, hmax⟩ := h.longest_eq_some_iff.mp hp
  exact h.longest_eq_some_iff.mpr ⟨hmem, hd, fun e he heq => hmax e he (heq.trans hq)⟩

omit [LawfulBEq κ] in
theorem mem_of_longest (h : longest key l p = some d) : d ∈ l := List.mem_of_find?_eq_some h

theorem key_prefix_of_longest (h : longest key l p = some d) : key d <+: p := by
  have hd := List.find?_some h
  exact List.isPrefixOf_iff_prefix.mp hd

end Longest

/-! ### The nearest setting -/

/-- `b` is the setting nearest to `p` on the paths from `top` down to it, or the default if there is none. -/
def Nearest (setting : List κ → Option β) (top p : List κ) (default b : β) : Prop :=
  (∃ q, top <+: q ∧ q <+: p ∧ setting q = some b ∧ ∀ r, q <+: r → r <+: p → r ≠ q → setting r = none) ∨
    b = default ∧ ∀ q, top <+: q → q <+: p → setting q = none

variable {setting setting' : List κ → Option β} {top : List κ} {default b c : β} {k : κ}

theorem Nearest.root (setting : List κ → Option β) (top : List κ) (default : β) :
    Nearest setting top top default ((setting top).getD default) := by
  cases hs : setting top with
  | some b =>
    refine Or.inl ⟨top, List.prefix_rfl, List.prefix_rfl, hs, fun r hr hr' hne => ?_⟩
    exact absurd (hr'.eq_of_length (hr'.length_le.antisymm hr.length_le)) hne
  | none =>
    refine Or.inr ⟨rfl, fun q hq hq' => ?_⟩
    rw [hq'.eq_of_length (hq'.length_le.antisymm hq.length_le), hs]

/-- One step down, a node's own setting wins over what it inherits. -/
theorem Nearest.child (h : Nearest setting top p default b) (htop : top <+: p) :
    Nearest setting top (p ++ [k]) default ((setting (p ++ [k])).getD b) := by
  have hdown : top <+: p ++ [k] := htop.trans (List.prefix_append p [k])
  cases hs : setting (p ++ [k]) with
  | some c =>
    refine Or.inl ⟨p ++ [k], hdown, List.prefix_rfl, hs, fun r hr hr' hne => ?_⟩
    exact absurd (hr'.eq_of_length (hr'.length_le.antisymm hr.length_le)) hne
  | none =>
    rcases h with ⟨q, hq, hqp, hset, hbelow⟩ | ⟨hb, hnone⟩
    · refine Or.inl ⟨q, hq, hqp.trans (List.prefix_append p [k]), hset, fun r hr hr' hne => ?_⟩
      rcases List.prefix_concat_iff.mp hr' with rfl | hr'
      · exact hs
      · exact hbelow r hr hr' hne
    · refine Or.inr ⟨hb, fun q hq hq' => ?_⟩
      rcases List.prefix_concat_iff.mp hq' with rfl | hq'
      · exact hs
      · exact hnone q hq hq'

theorem Nearest.unique (hb : Nearest setting top p default b) (hc : Nearest setting top p default c) : b = c := by
  rcases hb with ⟨q, hq, hqp, hset, hbelow⟩ | ⟨rfl, hnone⟩ <;> rcases hc with ⟨r, hr, hrp, hset', hbelow'⟩ | ⟨rfl, hnone'⟩
  · have hqr : q = r := by
      by_contra hne
      rcases List.prefix_or_prefix_of_prefix hqp hrp with hpre | hpre
      · rw [hbelow r hpre hrp (Ne.symm hne)] at hset'
        cases hset'
      · rw [hbelow' q hpre hqp hne] at hset
        cases hset
    rw [hqr, hset'] at hset
    exact (Option.some.inj hset).symm
  · rw [hnone' q hq hqp] at hset
    cases hset
  · rw [hnone r hr hrp] at hset'
    cases hset'
  · rfl

end Scope
