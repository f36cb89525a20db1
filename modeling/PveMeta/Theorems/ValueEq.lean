import PveMeta.Value

/-! # Equality of values

Two well-formed maps are equal when they hold the same value under every key; a well-formed value
equals itself. -/

namespace PveMeta
namespace Value

/-! ### Optional values -/

@[simp] theorem optEq_none : OptEq none none := trivial

@[simp] theorem optEq_some {v w : Value} : OptEq (some v) (some w) ↔ (v == w) = true := Iff.rfl

@[simp] theorem not_optEq_none_some {v : Value} : ¬ OptEq none (some v) := id

@[simp] theorem not_optEq_some_none {v : Value} : ¬ OptEq (some v) none := id

theorem OptEq.isSome_eq {o p : Option Value} (h : OptEq o p) : o.isSome = p.isSome := by
  cases o <;> cases p <;> first | rfl | exact h.elim

/-! ### Members and items -/

@[simp] theorem object_beq_object {m n : Members} :
    (Value.object m == Value.object n) = (m.length == n.length && beqMembers m n) := rfl

@[simp] theorem array_beq_array {xs ys : List Value} : (Value.array xs == Value.array ys) = beqItems xs ys := rfl

theorem beqItems_iff {xs ys : List Value} : beqItems xs ys = true ↔ List.Forall₂ (fun x y => (x == y) = true) xs ys := by
  induction xs generalizing ys with
  | nil => cases ys <;> simp [beqItems]
  | cons x xs ih =>
    cases ys with
    | nil => simp [beqItems]
    | cons y ys =>
      rw [beqItems, Bool.and_eq_true, ih, List.forall₂_cons]
      exact Iff.rfl

theorem beqMembers_iff {m n : Members} :
    beqMembers m n = true ↔ ∀ e ∈ m, OptEq (some e.2) (Assoc.get? e.1 n) := by
  induction m with
  | nil => simp [beqMembers]
  | cons e m ih =>
    rw [beqMembers, Bool.and_eq_true, ih, List.forall_mem_cons]
    refine and_congr_left fun _ => ?_
    cases Assoc.get? e.1 n with
    | none => simp
    | some w => exact Iff.rfl

/-- Two maps are equal when every key reads the same in both, in whatever order they hold the keys. -/
theorem object_beq_iff {m n : Members} (hm : WF (.object m)) (hn : WF (.object n)) :
    (Value.object m == Value.object n) = true ↔ ∀ k, OptEq (Assoc.get? k m) (Assoc.get? k n) := by
  rw [object_beq_object, Bool.and_eq_true, beq_iff_eq, beqMembers_iff]
  refine ⟨fun ⟨hlen, hmem⟩ k => ?_, fun h => ⟨?_, fun e he => ?_⟩⟩
  · have hsub : ∀ k ∈ Assoc.keys m, k ∈ Assoc.keys n := fun k hk => by
      obtain ⟨e, he, rfl⟩ := List.mem_map.mp hk
      rw [← Assoc.get?_isSome_iff, ← (hmem e he).isSome_eq]
      rfl
    by_cases hk : k ∈ Assoc.keys m
    · obtain ⟨e, he, rfl⟩ := List.mem_map.mp hk
      rw [Assoc.get?_of_mem hm.keys he]
      exact hmem e he
    · have hkn : k ∉ Assoc.keys n := fun h => hk ((Assoc.mem_keys_iff_of_subset hm.keys hlen hsub).mp h)
      rw [Assoc.get?_eq_none_iff.mpr hk, Assoc.get?_eq_none_iff.mpr hkn]
      trivial
  · refine Assoc.length_eq_of_mem_keys_iff hm.keys hn.keys fun k => ?_
    rw [← Assoc.get?_isSome_iff, ← Assoc.get?_isSome_iff, (h k).isSome_eq]
  · rw [← Assoc.get?_of_mem hm.keys he]
    exact h e.1

/-! ### Reflexivity -/

theorem beq_refl {v : Value} (hv : v.WF) : (v == v) = true := by
  induction v using Value.ind with
  | null => rfl
  | bool b => exact beq_self_eq_true b
  | number n => exact Number.beq_refl n
  | string s => exact beq_self_eq_true s
  | array items ih =>
    rw [array_beq_array, beqItems_iff]
    exact List.forall₂_same.mpr fun v hmem => ih v hmem (hv.items v hmem)
  | object m ih =>
    rw [object_beq_iff hv hv]
    intro k
    cases hk : Assoc.get? k m with
    | none => trivial
    | some v => exact ih _ (Assoc.mem_of_get? hk) (hv.of_get? hk)

theorem OptEq.refl {o : Option Value} (h : ∀ v, o = some v → v.WF) : OptEq o o := by
  cases o with
  | none => trivial
  | some v => exact beq_refl (h v rfl)

end Value
end PveMeta
