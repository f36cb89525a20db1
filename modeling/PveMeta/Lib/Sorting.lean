import Mathlib.Data.List.Sort

/-! # Sorting and dropping

A stable sort keeps the order of what compares equal; and two ways of dropping and mapping the elements of a list
that come to the same list drop and map each alike, if one drops no more than the other. -/

namespace Sorting

variable {α β : Type} {r : α → α → Prop} [DecidableRel r]

/-- Elements that all compare equal stay in the order they came in. -/
theorem filter_insertionSort [Std.Total r] [IsTrans α r] {p : α → Bool} (hp : ∀ a b, p a → p b → r a b) (l : List α) :
    (l.insertionSort r).filter p = l.filter p := by
  have hsorted : (l.filter p).Pairwise r := by
    refine List.pairwise_of_forall_mem_list fun a ha b hb => ?_
    exact hp a b (List.mem_filter.mp ha).2 (List.mem_filter.mp hb).2
  have hsub : (l.filter p).Sublist ((l.insertionSort r).filter p) := by
    have h := (List.sublist_insertionSort hsorted (List.filter_sublist (p := p) (l := l))).filter p
    rwa [List.filter_filter, show (fun a => p a && p a) = p from funext fun a => Bool.and_self _] at h
  have hlen : (l.filter p).length = ((l.insertionSort r).filter p).length :=
    ((List.perm_insertionSort r l).filter p).length_eq.symm
  exact (hsub.eq_of_length hlen).symm

variable {f g : α → Option β} {l : List α}

theorem length_filterMap_le (hle : ∀ a ∈ l, (f a).isSome → (g a).isSome) :
    (l.filterMap f).length ≤ (l.filterMap g).length := by
  induction l with
  | nil => exact Nat.le_refl 0
  | cons a l ih =>
    have htail := ih fun b hb => hle b (List.mem_cons_of_mem a hb)
    have hhead := hle a List.mem_cons_self
    cases hf : f a <;> cases hg : g a
    · rwa [List.filterMap_cons_none hf, List.filterMap_cons_none hg]
    · rw [List.filterMap_cons_none hf, List.filterMap_cons_some hg, List.length_cons]
      omega
    · rw [hf, hg] at hhead
      cases hhead rfl
    · rw [List.filterMap_cons_some hf, List.filterMap_cons_some hg, List.length_cons, List.length_cons]
      omega

theorem eq_of_filterMap_eq (hle : ∀ a ∈ l, (f a).isSome → (g a).isSome) (h : l.filterMap f = l.filterMap g) :
    ∀ a ∈ l, f a = g a := by
  induction l with
  | nil => simp
  | cons a l ih =>
    have htail : ∀ b ∈ l, (f b).isSome → (g b).isSome := fun b hb => hle b (List.mem_cons_of_mem a hb)
    have hhead := hle a List.mem_cons_self
    cases hf : f a <;> cases hg : g a
    · rw [List.filterMap_cons_none hf, List.filterMap_cons_none hg] at h
      exact List.forall_mem_cons.mpr ⟨hf.trans hg.symm, ih htail h⟩
    · have hlen := length_filterMap_le htail
      rw [List.filterMap_cons_none hf, List.filterMap_cons_some hg] at h
      rw [h, List.length_cons] at hlen
      omega
    · rw [hf, hg] at hhead
      cases hhead rfl
    · rw [List.filterMap_cons_some hf, List.filterMap_cons_some hg, List.cons.injEq] at h
      exact List.forall_mem_cons.mpr ⟨by rw [hf, hg, h.1], ih htail h.2⟩

end Sorting
