import PveMeta.Theorems.WellFormed

/-! # Notes put back

Putting the stored notes back into a payload keeps each key once. -/

namespace PveMeta
namespace View
open Value

variable {whole out om nm m : Members} {k : String} {v : Value}

theorem mem_insertIdx {e d : String × Value} {i : Nat} (h : d ∈ out.insertIdx i e) : d = e ∨ d ∈ out := by
  induction out generalizing i with
  | nil => cases i <;> simp_all
  | cons c out ih =>
    cases i with
    | zero => simpa using h
    | succ i =>
      rw [List.insertIdx_succ_cons] at h
      rcases List.mem_cons.mp h with rfl | h
      · exact Or.inr List.mem_cons_self
      · exact (ih h).imp_right (List.mem_cons_of_mem _)

theorem WF_insertIdx {i : Nat} (hm : (Value.object out).WF) (hv : v.WF) (hk : Assoc.get? k out = none) :
    (Value.object (out.insertIdx i (k, v))).WF := by
  refine .object ?_ fun e he => ?_
  · induction out generalizing i with
    | nil => cases i <;> simp
    | cons c out ih =>
      cases i with
      | zero =>
        exact List.nodup_cons.mpr ⟨Assoc.get?_eq_none_iff.mp hk, hm.keys⟩
      | succ i =>
        rw [List.insertIdx_succ_cons, Assoc.keys_cons]
        rw [Assoc.get?_cons] at hk
        split at hk
        · cases hk
        · next hne =>
          refine List.nodup_cons.mpr ⟨fun hmem => ?_, ih hm.tail hk⟩
          obtain ⟨d, hd, hdc⟩ := List.mem_map.mp hmem
          rcases mem_insertIdx hd with rfl | hd
          · exact hne hdc.symm
          · exact (List.nodup_cons.mp hm.keys).1 (hdc ▸ Assoc.mem_keys_of_mem hd)
  · rcases mem_insertIdx he with rfl | he
    · exact hv
    · exact hm.members e he

theorem placeNotes_wf {before : List String} (hom : ∀ e ∈ om, e.2.WF) (hout : (Value.object out).WF) :
    (Value.object (placeNotes whole before out om)).WF := by
  induction om generalizing before out with
  | nil => exact hout
  | cons e om ih =>
    refine ih (fun d hd => hom d (List.mem_cons_of_mem _ hd)) ?_
    dsimp only
    split
    · exact hout
    · split
      · exact hout
      · next hno =>
        rw [Bool.or_eq_true, not_or] at hno
        exact WF_insertIdx hout (hom e List.mem_cons_self) (Option.not_isSome_iff_eq_none.mp hno.2)

theorem keys_keepMembers : Assoc.keys (keepMembers om nm) = Assoc.keys nm := by
  induction nm with
  | nil => rfl
  | cons e nm ih =>
    rw [keepMembers, Assoc.keys_cons, Assoc.keys_cons, ih]
    congr 1
    split
    · split <;> rfl
    · rfl

theorem keepComments_wf {old new : Value} (hold : old.WF) (hnew : new.WF) : (keepComments old new).WF := by
  induction new using Value.ind generalizing old with
  | object nm ih =>
    cases old
    case object om =>
      refine placeNotes_wf hold.members (.object (by rw [keys_keepMembers]; exact hnew.keys) ?_)
      have hmem : ∀ (es : Members), (∀ e ∈ es, e ∈ nm) → ∀ d ∈ keepMembers om es, d.2.WF := by
        intro es hes
        induction es with
        | nil => simp [keepMembers]
        | cons e es ihes =>
          have he := hes e List.mem_cons_self
          rw [keepMembers, List.forall_mem_cons]
          refine ⟨?_, ihes fun d hd => hes d (List.mem_cons_of_mem _ hd)⟩
          split
          · next ov hov =>
            split
            · exact ih e he (hold.of_get? hov) (hnew.members e he)
            · exact hnew.members e he
          · exact hnew.members e he
      exact hmem nm fun _ h => h
    all_goals exact hnew
  | _ => exact hnew

end View
end PveMeta
