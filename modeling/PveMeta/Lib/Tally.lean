import Mathlib.Data.List.Sort
import PveMeta.Lib.Assoc

/-! # Counting in a sorted map

A tally is a map from keys to how often each came, its members in the order of the keys. -/

namespace Tally

variable {κ : Type} [LinearOrder κ]

/-- One more of `k`. -/
def bump (k : κ) : List (κ × Nat) → List (κ × Nat)
  | [] => [(k, 1)]
  | e :: m => if k < e.1 then (k, 1) :: e :: m else if k = e.1 then (e.1, e.2 + 1) :: m else e :: bump k m

/-- How often each key is in a list. -/
def ofList (ks : List κ) : List (κ × Nat) := ks.foldl (fun m k => bump k m) []

variable {k j : κ} {m : List (κ × Nat)} {ks : List κ}

/-- The keys of a tally ascend. -/
def Sorted (m : List (κ × Nat)) : Prop := (Assoc.keys m).Pairwise (· < ·)

@[simp] theorem sorted_nil : Sorted ([] : List (κ × Nat)) := List.Pairwise.nil

theorem mem_keys_bump : j ∈ Assoc.keys (bump k m) ↔ j = k ∨ j ∈ Assoc.keys m := by
  induction m with
  | nil => simp [bump]
  | cons e m ih =>
    unfold bump
    split_ifs with hlt heq
    · simp
    · simp [heq]
    · simp only [Assoc.keys_cons, List.mem_cons, ih]
      tauto

theorem Sorted.bump (h : Sorted m) : Sorted (Tally.bump k m) := by
  induction m with
  | nil => exact List.pairwise_singleton _ _
  | cons e m ih =>
    obtain ⟨he, hm⟩ := List.pairwise_cons.mp h
    unfold Tally.bump
    split_ifs with hlt heq
    · refine List.pairwise_cons.mpr ⟨fun j hj => ?_, h⟩
      rcases List.mem_cons.mp hj with rfl | hj
      · exact hlt
      · exact hlt.trans (he j hj)
    · exact h
    · refine List.pairwise_cons.mpr ⟨fun j hj => ?_, ih hm⟩
      rcases mem_keys_bump.mp hj with rfl | hj
      · exact lt_of_le_of_ne (not_lt.mp hlt) (Ne.symm heq)
      · exact he j hj

theorem get?_bump_self (h : Sorted m) : Assoc.get? k (bump k m) = some ((Assoc.get? k m).getD 0 + 1) := by
  induction m with
  | nil => simp [bump]
  | cons e m ih =>
    obtain ⟨he, hm⟩ := List.pairwise_cons.mp h
    unfold bump
    split_ifs with hlt heq
    · have hnone : Assoc.get? k (e :: m) = none := by
        rw [Assoc.get?_eq_none_iff]
        intro hk
        rcases List.mem_cons.mp hk with rfl | hk
        · exact lt_irrefl _ hlt
        · exact lt_irrefl _ (hlt.trans (he k hk))
      rw [Assoc.get?_cons_self, hnone]
      rfl
    · rw [heq, Assoc.get?_cons_self, Assoc.get?_cons, if_pos rfl]
      rfl
    · rw [Assoc.get?_cons, Assoc.get?_cons, if_neg (Ne.symm heq), if_neg (Ne.symm heq), ih hm]

theorem get?_bump_ne (hne : j ≠ k) : Assoc.get? j (bump k m) = Assoc.get? j m := by
  induction m with
  | nil => simp [bump, Assoc.get?_cons, Ne.symm hne]
  | cons e m ih =>
    unfold bump
    split_ifs with hlt heq
    · rw [Assoc.get?_cons, if_neg (Ne.symm hne)]
    · rw [Assoc.get?_cons, Assoc.get?_cons, ← heq, if_neg (Ne.symm hne), if_neg (Ne.symm hne)]
    · rw [Assoc.get?_cons, Assoc.get?_cons, ih]

theorem foldl_bump (h : Sorted m) (ks : List κ) :
    Sorted (ks.foldl (fun m k => bump k m) m) ∧
      ∀ j, (Assoc.get? j (ks.foldl (fun m k => bump k m) m)).getD 0 = (Assoc.get? j m).getD 0 + ks.count j := by
  induction ks generalizing m with
  | nil => exact ⟨h, fun j => by simp⟩
  | cons k ks ih =>
    obtain ⟨hs, hcount⟩ := ih (h.bump (k := k))
    refine ⟨hs, fun j => ?_⟩
    rw [List.foldl_cons, hcount j]
    by_cases hjk : j = k
    · subst hjk
      rw [get?_bump_self h, List.count_cons_self, Option.getD_some]
      omega
    · rw [get?_bump_ne hjk, List.count_cons_of_ne (Ne.symm hjk)]

theorem sorted_ofList (ks : List κ) : Sorted (ofList ks) := (foldl_bump sorted_nil ks).1

theorem nodup_keys_ofList (ks : List κ) : (Assoc.keys (ofList ks)).Nodup :=
  (sorted_ofList ks).imp fun h => ne_of_lt h

theorem mem_keys_foldl : j ∈ Assoc.keys (ks.foldl (fun m k => bump k m) m) ↔ j ∈ ks ∨ j ∈ Assoc.keys m := by
  induction ks generalizing m with
  | nil => simp
  | cons k ks ih =>
    rw [List.foldl_cons, ih, mem_keys_bump, List.mem_cons]
    tauto

theorem mem_keys_ofList : j ∈ Assoc.keys (ofList ks) ↔ j ∈ ks := by
  rw [ofList, mem_keys_foldl]
  simp

/-- The members of a tally are the keys of the list with their counts. -/
theorem mem_ofList {n : Nat} : (j, n) ∈ ofList ks ↔ j ∈ ks ∧ n = ks.count j := by
  have hcount := (foldl_bump sorted_nil ks).2 j
  rw [Assoc.get?_nil, Option.getD_none, Nat.zero_add] at hcount
  constructor
  · intro h
    have hget := Assoc.get?_of_mem (nodup_keys_ofList ks) h
    refine ⟨mem_keys_ofList.mp (Assoc.mem_keys_of_mem h), ?_⟩
    rw [← hcount]
    exact (congrArg (Option.getD · 0) hget).symm
  · rintro ⟨hj, rfl⟩
    obtain ⟨n, hn⟩ := Option.isSome_iff_exists.mp (Assoc.get?_isSome_iff.mpr (mem_keys_ofList.mpr hj))
    have hn' : Assoc.get? j (ks.foldl (fun m k => bump k m) []) = some n := hn
    rw [hn', Option.getD_some] at hcount
    rw [← hcount]
    exact Assoc.mem_of_get? hn

/-! ### Counting in lists -/

theorem count_flatten {α : Type} [DecidableEq α] {ls : List (List α)} (h : ∀ l ∈ ls, l.Nodup) (a : α) :
    ls.flatten.count a = ls.countP fun l => decide (a ∈ l) := by
  induction ls with
  | nil => rfl
  | cons l ls ih =>
    rw [List.flatten_cons, List.count_append, List.countP_cons, ih fun l hl => h l (List.mem_cons_of_mem _ hl),
      (h l List.mem_cons_self).count, Nat.add_comm]
    by_cases ha : a ∈ l <;> simp [ha]

/-- More than one element has the property iff another than the one at `i` has. -/
theorem one_lt_countP_iff {α : Type} {p : α → Bool} {l : List α} {i : Nat} (hi : (l[i]?).any p = true) :
    1 < l.countP p ↔ ∃ j : Nat, j ≠ i ∧ (l[j]?).any p = true := by
  induction l generalizing i with
  | nil => cases hi
  | cons a l ih =>
    have hpos : 0 < l.countP p ↔ ∃ j : Nat, (l[j]?).any p = true := by
      rw [List.countP_pos_iff]
      constructor
      · rintro ⟨b, hb, hp⟩
        obtain ⟨j, hj⟩ := List.mem_iff_getElem?.mp hb
        exact ⟨j, by rw [hj]; exact hp⟩
      · rintro ⟨j, hj⟩
        obtain ⟨b, hb, hp⟩ := Option.any_eq_true _ _ |>.mp hj
        exact ⟨b, List.mem_of_getElem? hb, hp⟩
    cases i with
    | zero =>
      have ha : p a = true := by simpa using hi
      rw [List.countP_cons_of_pos ha, Nat.lt_add_left_iff_pos, hpos]
      constructor
      · rintro ⟨j, hj⟩
        exact ⟨j + 1, by omega, by simpa using hj⟩
      · rintro ⟨j, hne, hj⟩
        obtain ⟨k, rfl⟩ := Nat.exists_eq_succ_of_ne_zero hne
        exact ⟨k, by simpa using hj⟩
    | succ i =>
      have hi' : (l[i]?).any p = true := by simpa using hi
      by_cases ha : p a = true
      · rw [List.countP_cons_of_pos ha, Nat.lt_add_left_iff_pos, hpos]
        exact ⟨fun _ => ⟨0, by omega, by simpa using ha⟩, fun _ => ⟨i, hi'⟩⟩
      · rw [List.countP_cons_of_neg ha, ih hi']
        constructor
        · rintro ⟨j, hne, hj⟩
          exact ⟨j + 1, by omega, by simpa using hj⟩
        · rintro ⟨j, hne, hj⟩
          cases j with
          | zero => exact absurd (by simpa using hj) ha
          | succ j => exact ⟨j, by omega, by simpa using hj⟩

end Tally
