import Mathlib.Data.List.Basic

/-! # Machines that keep a log

A machine takes inputs one by one, and each step appends to a log. What every step keeps between the state
and the log so far, every run keeps; and an entry is justified by the log that precedes it. -/

namespace Log

variable {σ ι ε : Type} {step : σ → ι → σ × List ε}

/-- A run over the inputs: the last state, and what the steps logged. -/
def run (step : σ → ι → σ × List ε) (s : σ) : List ι → σ × List ε
  | [] => (s, [])
  | i :: is => ((run step (step s i).1 is).1, (step s i).2 ++ (run step (step s i).1 is).2)

/-- `P` holds of every step of the run. -/
def Along (step : σ → ι → σ × List ε) (P : σ → ι → Prop) (s : σ) : List ι → Prop
  | [] => True
  | i :: is => P s i ∧ Along step P (step s i).1 is

theorem Along.trivial (s : σ) (is : List ι) : Along step (fun _ _ => True) s is := by
  induction is generalizing s with
  | nil => exact True.intro
  | cons i is ih => exact ⟨True.intro, ih _⟩

theorem run_append (s : σ) (is js : List ι) :
    run step s (is ++ js) =
      ((run step (run step s is).1 js).1, (run step s is).2 ++ (run step (run step s is).1 js).2) := by
  induction is generalizing s with
  | nil => rfl
  | cons i is ih => simp only [List.cons_append, run, ih, List.append_assoc]

/-- What every step keeps, the run keeps. -/
theorem run_inv {P : σ → ι → Prop} {Inv : σ → List ε → Prop}
    (hstep : ∀ s log i, P s i → Inv s log → Inv (step s i).1 (log ++ (step s i).2)) {s : σ} {log : List ε} {is : List ι}
    (hP : Along step P s is) (h : Inv s log) : Inv (run step s is).1 (log ++ (run step s is).2) := by
  induction is generalizing s log with
  | nil =>
    rw [run, List.append_nil]
    exact h
  | cons i is ih =>
    obtain ⟨hi, his⟩ := hP
    have := ih his (hstep s log i hi h)
    rwa [List.append_assoc] at this

theorem run_keeps {Inv : σ → List ε → Prop} (hstep : ∀ s log i, Inv s log → Inv (step s i).1 (log ++ (step s i).2)) {s : σ}
    (h : Inv s []) (is : List ι) : Inv (run step s is).1 (run step s is).2 :=
  run_inv (fun s log i _ => hstep s log i) (Along.trivial s is) h

/-! ### Justified entries -/

/-- Every entry is justified by the log before it. -/
def Justified (J : List ε → ε → Prop) (log : List ε) : Prop := ∀ before e after, log = before ++ e :: after → J before e

variable {J : List ε → ε → Prop} {log : List ε} {e : ε}

theorem justified_nil : Justified J [] := by
  intro before e after h
  cases before <;> cases h

theorem concat_split {x : ε} {before after : List ε} (h : log ++ [e] = before ++ x :: after) :
    (log = before ∧ e = x ∧ after = []) ∨ ∃ rest, after = rest ++ [e] ∧ log = before ++ x :: rest := by
  rcases List.eq_nil_or_concat after with rfl | ⟨rest, y, rfl⟩
  · obtain ⟨hlog, he⟩ := List.append_inj' h rfl
    exact Or.inl ⟨hlog, List.singleton_inj.mp he, rfl⟩
  · have hsplit : log ++ [e] = (before ++ x :: rest) ++ [y] := by
      rw [h]
      simp
    obtain ⟨hlog, he⟩ := List.append_inj' hsplit rfl
    exact Or.inr ⟨rest, by rw [List.singleton_inj.mp he, List.concat_eq_append], hlog⟩

theorem Justified.concat (h : Justified J log) (he : J log e) : Justified J (log ++ [e]) := by
  intro before x after hlog
  rcases concat_split hlog with ⟨rfl, rfl, -⟩ | ⟨rest, -, hrest⟩
  · exact he
  · exact h before x rest hrest

theorem Justified.mono {K : List ε → ε → Prop} (h : Justified J log) (himp : ∀ before e, J before e → K before e) :
    Justified K log :=
  fun before e after hlog => himp before e (h before e after hlog)

/-! ### Growing logs -/

/-- The second log is the first and more, each entry justified by what precedes it. -/
inductive Extends (J : List ε → ε → Prop) (log : List ε) : List ε → Prop
  | refl : Extends J log log
  | concat {more : List ε} {e : ε} (h : Extends J log more) (he : J more e) : Extends J log (more ++ [e])

namespace Extends

variable {more last : List ε}

theorem trans (h : Extends J log more) (h' : Extends J more last) : Extends J log last := by
  induction h' with
  | refl => exact h
  | concat _ he ih => exact ih.concat he

theorem subset (h : Extends J log more) : log ⊆ more := by
  induction h with
  | refl => exact List.Subset.refl log
  | concat _ _ ih => exact List.Subset.trans ih (List.subset_append_left _ _)

theorem mono {K : List ε → ε → Prop} (h : Extends J log more) (himp : ∀ before e, log ⊆ before → J before e → K before e) :
    Extends K log more := by
  induction h with
  | refl => exact refl
  | concat hmore he ih => exact ih.concat (himp _ _ hmore.subset he)

theorem justified (h : Extends J log more) (hlog : Justified J log) : Justified J more := by
  induction h with
  | refl => exact hlog
  | concat _ he ih => exact ih.concat he

theorem of_forall {P : ε → Prop} {added : List ε} (h : ∀ e ∈ added, P e) : Extends (fun _ => P) log (log ++ added) := by
  induction added generalizing log with
  | nil => exact (List.append_nil log).symm ▸ refl
  | cons e added ih =>
    rw [List.append_cons]
    exact (refl.concat (h e List.mem_cons_self)).trans (ih fun e' he' => h e' (List.mem_cons_of_mem e he'))

/-- What every entry that is added has, if that does not depend on the log. -/
theorem forall_added {P : ε → Prop} (h : Extends (fun _ => P) log more) :
    ∃ added, more = log ++ added ∧ ∀ e ∈ added, P e := by
  induction h with
  | refl => exact ⟨[], (List.append_nil log).symm, fun _ he => by cases he⟩
  | concat _ he ih =>
    obtain ⟨added, rfl, hadded⟩ := ih
    refine ⟨added ++ [_], List.append_assoc _ _ _, fun e hmem => ?_⟩
    rcases List.mem_append.mp hmem with hmem | hmem
    · exact hadded e hmem
    · rwa [List.mem_singleton.mp hmem]

end Extends

/-! ### Folds that append -/

/-- Where every step appends what its element gives, if anything, a fold appends what all of them give. -/
theorem foldl_filterMap (out : σ → List ε) {f : σ → ι → σ} {g : ι → Option ε}
    (h : ∀ s i, out (f s i) = out s ++ (g i).toList)
    (is : List ι) (s : σ) : out (is.foldl f s) = out s ++ is.filterMap g := by
  induction is generalizing s with
  | nil => exact (List.append_nil _).symm
  | cons i is ih =>
    rw [List.foldl_cons, ih, h, List.append_assoc]
    cases hg : g i with
    | none =>
      rw [List.filterMap_cons_none hg]
      rfl
    | some e =>
      rw [List.filterMap_cons_some hg]
      rfl

/-! ### Crossings -/

/-- A fold that comes to where `P` holds, from where it does not, passes an element at which it begins to. -/
theorem exists_crossing {f : σ → ε → σ} {P : σ → Prop} {s : σ} {l : List ε} (h₀ : ¬ P s) (h₁ : P (l.foldl f s)) :
    ∃ before e after, l = before ++ e :: after ∧ ¬ P (before.foldl f s) ∧ P (f (before.foldl f s) e) := by
  induction l generalizing s with
  | nil => exact absurd h₁ h₀
  | cons e l ih =>
    by_cases h : P (f s e)
    · exact ⟨[], e, l, rfl, h₀, h⟩
    · obtain ⟨before, e', after, hl, hbefore, hafter⟩ := ih h h₁
      exact ⟨e :: before, e', after, by rw [hl, List.cons_append], hbefore, hafter⟩

/-- A fold that passes an element after which `P` holds, and each of which keeps it, comes to where `P` holds. -/
theorem foldl_of_mem {f : σ → ε → σ} {P : σ → Prop} {l : List ε} {e : ε} (hmem : e ∈ l) (hset : ∀ s, P (f s e))
    (hkeep : ∀ s, P s → ∀ e ∈ l, P (f s e)) (s : σ) : P (l.foldl f s) := by
  obtain ⟨before, after, rfl⟩ := List.append_of_mem hmem
  rw [List.foldl_append, List.foldl_cons]
  refine List.foldlRecOn after f (hset _) fun s hs e' he' => hkeep s hs e' ?_
  exact List.mem_append_right _ (List.mem_cons_of_mem _ he')

end Log
