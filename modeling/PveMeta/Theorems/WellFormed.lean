import PveMeta.Theorems.Subtree

/-! # Every operation keeps each key once

No patch, view or note operation ever builds a map that holds a key twice. -/

namespace PveMeta
namespace Value

theorem WF.getD {m : Members} {k : String} (h : WF (.object m)) : WF ((Assoc.get? k m).getD (.object [])) := by
  cases hv : Assoc.get? k m with
  | none => exact WF.empty
  | some v => exact h.of_get? hv

end Value

namespace Patch

variable {whole m q : Members} {path : Path} {k : String} {v : Value}

theorem setKey_wf (hm : (Value.object m).WF) (hv : v.WF) : (Value.object (setKey path k v m).2).WF := by
  unfold setKey
  split
  · exact hm
  · exact hm.insert hv

theorem deleteKey_wf (hm : (Value.object m).WF) : (Value.object (deleteKey whole path k m).2).WF := by
  unfold deleteKey
  dsimp only
  split
  · exact hm.erase.erase
  · exact hm.erase

theorem applyEntries_wf_of {es : Members} (hes : (Value.object es).WF) (hm : (Value.object m).WF)
    (h : ∀ e ∈ es, ∀ {whole m path k}, e.2.WF → (Value.object m).WF →
      (Value.object (applyEntry whole path k m e.2).2).WF) :
    (Value.object (applyEntries whole path m es).2).WF := by
  induction es generalizing m with
  | nil => exact hm
  | cons e es ih =>
    refine ih hes.tail ?_ fun e' he' => h e' (List.mem_cons_of_mem _ he')
    exact h e List.mem_cons_self (hes.members e List.mem_cons_self) hm

theorem applyEntry_wf (hv : v.WF) (hm : (Value.object m).WF) :
    (Value.object (applyEntry whole path k m v).2).WF := by
  induction v using Value.ind generalizing whole m path k with
  | null => exact deleteKey_wf hm
  | bool b => exact setKey_wf hm hv
  | number n => exact setKey_wf hm hv
  | string s => exact setKey_wf hm hv
  | array items => exact setKey_wf hm hv
  | object q ih =>
    have hrec : ∀ {m path}, (Value.object m).WF → (Value.object (applyEntries q path m q).2).WF :=
      fun hm => applyEntries_wf_of hv hm fun e he _ _ _ _ => ih e he
    unfold applyEntry
    split
    · next child hk => exact hm.insert (hrec (hm.of_get? hk))
    · split
      · exact setKey_wf hm .empty
      · dsimp only
        split
        · exact hm.insert (hrec .empty)
        · exact hm

theorem applyEntries_wf (hq : (Value.object q).WF) (hm : (Value.object m).WF) :
    (Value.object (applyEntries whole path m q).2).WF :=
  applyEntries_wf_of hq hm fun _ _ _ _ _ _ => applyEntry_wf

/-- What is no map says nothing of a document. -/
theorem applyObj_of_not_object {patch : Value} (h : ¬ patch.isObject = true) (doc : Value) (path : Path) :
    applyObj doc patch path = ([], doc) := by
  cases patch <;> first | rfl | exact absurd rfl h

theorem applyObj_wf {doc patch : Value} (hd : doc.WF) (hp : patch.WF) : (applyObj doc patch path).2.WF := by
  unfold applyObj
  split
  · exact applyEntries_wf hp hd
  · exact hd

theorem applyPatch_wf {doc patch : Value} (hd : doc.WF) (hp : patch.WF) : (applyPatch doc patch).2.WF := by
  unfold applyPatch
  split
  · exact applyObj_wf hd hp
  · exact hd

end Patch

namespace View
open Patch

variable {d v : Value} {m : Members} {p q : Path}

theorem putAt_wf (hd : d.WF) (hm : (Value.object m).WF) : (putAt m d q).WF := by
  induction q generalizing d with
  | nil => cases d <;> assumption
  | cons seg rest ih =>
    cases d <;> try assumption
    exact hd.insert (ih hd.getD)

theorem mapAt_wf (hd : d.WF) (h : mapAt d q = some m) : (Value.object m).WF := by
  induction q generalizing d with
  | nil =>
    obtain ⟨m₀, rfl⟩ := exists_object_of_mapAt h
    cases h
    exact hd
  | cons seg rest ih =>
    obtain ⟨M, rfl⟩ := exists_object_of_mapAt h
    exact ih hd.getD h

theorem valueAt_wf (hd : d.WF) (h : valueAt d p = some v) : v.WF := by
  induction p generalizing d with
  | nil =>
    rw [valueAt_nil] at h
    cases h
    exact hd
  | cons seg rest ih =>
    cases d <;> try cases h
    next M =>
      obtain ⟨w, hw, hv⟩ := Option.bind_eq_some_iff.mp h
      exact ih (hd.of_get? hw) hv

theorem removeKey_wf {k : String} (hm : (Value.object m).WF) : (Value.object (removeKey q k m).2).WF := hm.erase.erase

theorem scratchOf_wf {o : Option Value} (ho : ∀ v, o = some v → v.WF) : (scratchOf o).WF := by
  unfold scratchOf
  split
  · exact ho _ rfl
  · exact .empty

theorem mergeScratch_wf {o : Option Value} {patch : Value} (ho : ∀ v, o = some v → v.WF) (hp : patch.WF) :
    (mergeScratch p o patch).2.WF := by
  rw [mergeScratch, apply_ite Prod.snd, ite_self]
  exact applyObj_wf (scratchOf_wf ho) hp

/-- No edit makes a map hold a key twice. -/
theorem Edit.run_wf (old : Tree) (edit : Edit) : (edit.run old.val).2.WF := by
  cases edit with
  | replace pre x =>
    rcases pre.eq_root_or_join with rfl | ⟨q, k, rfl⟩
    · exact x.2
    · rw [Edit.run, replace_join]
      split
      · next m hq => exact putAt_wf old.2 ((mapAt_wf old.2 hq).insert x.2)
      · exact old.2
  | merge pre patch =>
    rcases pre.eq_root_or_join with rfl | ⟨q, k, rfl⟩
    · rw [Edit.run, merge_root]
      exact applyPatch_wf old.2 patch.2
    · rw [Edit.run, merge_join]
      split
      · exact old.2
      · next o ho =>
        obtain ⟨m, hq, rfl⟩ := descend_join_ok ho
        have hm := mapAt_wf old.2 hq
        split
        · exact old.2
        · rw [hq]
          exact putAt_wf old.2 (hm.insert (mergeScratch_wf (fun _ => hm.of_get?) patch.2))
  | remove pre =>
    rcases pre.eq_root_or_join with rfl | ⟨q, k, rfl⟩
    · exact .empty
    · rw [Edit.run, remove_join]
      split
      · exact old.2
      · exact old.2
      · next m hq => exact putAt_wf old.2 (removeKey_wf (mapAt_wf old.2 (mapAt_of_descendFrom hq)))
      · exact old.2

end View
end PveMeta
