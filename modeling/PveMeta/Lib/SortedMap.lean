import Mathlib.Data.List.Sort
import Mathlib.Order.Basic
import PveMeta.Lib.Assoc

/-! # Sorted maps

A map whose members stand in the order of their keys, each key once. Two of them that say the same are the same. -/

structure SortedMap (κ α : Type) [LinearOrder κ] where
  entries : List (κ × α)
  sorted : (Assoc.keys entries).Pairwise (· < ·)
  deriving DecidableEq

namespace SortedMap

variable {κ α : Type} [LinearOrder κ] {k j : κ} {v : α} {l : List (κ × α)} {m n : SortedMap κ α}

/-- `l` with `k` set to `v`, at the place of `k`. -/
def insertEntry (k : κ) (v : α) : List (κ × α) → List (κ × α)
  | [] => [(k, v)]
  | e :: l => if k < e.1 then (k, v) :: e :: l else if k = e.1 then (k, v) :: l else e :: insertEntry k v l

theorem mem_keys_insertEntry : j ∈ Assoc.keys (insertEntry k v l) ↔ j = k ∨ j ∈ Assoc.keys l := by
  induction l with
  | nil => simp [insertEntry]
  | cons e l ih =>
    unfold insertEntry
    split_ifs with hlt heq
    · simp
    · simp [heq]
    · simp only [Assoc.keys_cons, List.mem_cons, ih]
      tauto

theorem sorted_insertEntry (h : (Assoc.keys l).Pairwise (· < ·)) : (Assoc.keys (insertEntry k v l)).Pairwise (· < ·) := by
  induction l with
  | nil => exact List.pairwise_singleton _ _
  | cons e l ih =>
    obtain ⟨he, hl⟩ := List.pairwise_cons.mp h
    unfold insertEntry
    split_ifs with hlt heq
    · refine List.pairwise_cons.mpr ⟨fun j hj => ?_, h⟩
      rcases List.mem_cons.mp hj with rfl | hj
      · exact hlt
      · exact hlt.trans (he j hj)
    · exact List.pairwise_cons.mpr ⟨fun j hj => heq ▸ he j hj, hl⟩
    · refine List.pairwise_cons.mpr ⟨fun j hj => ?_, ih hl⟩
      rcases mem_keys_insertEntry.mp hj with rfl | hj
      · exact lt_of_le_of_ne (not_lt.mp hlt) (Ne.symm heq)
      · exact he j hj

theorem get?_insertEntry (h : (Assoc.keys l).Pairwise (· < ·)) :
    Assoc.get? j (insertEntry k v l) = if j = k then some v else Assoc.get? j l := by
  induction l with
  | nil => simp [insertEntry, Assoc.get?_cons, eq_comm]
  | cons e l ih =>
    obtain ⟨he, hl⟩ := List.pairwise_cons.mp h
    unfold insertEntry
    by_cases hj : j = k
    · rw [if_pos hj]
      split_ifs with hlt heq
      · rw [hj, Assoc.get?_cons_self]
      · rw [hj, Assoc.get?_cons_self]
      · rw [Assoc.get?_cons, if_neg (by rw [hj]; exact Ne.symm heq), ih hl, if_pos hj]
    · rw [if_neg hj]
      split_ifs with hlt heq
      · rw [Assoc.get?_cons, if_neg (Ne.symm hj)]
      · rw [Assoc.get?_cons, if_neg (Ne.symm hj), Assoc.get?_cons, if_neg (heq ▸ Ne.symm hj)]
      · rw [Assoc.get?_cons, ih hl, if_neg hj, Assoc.get?_cons]

/-! ### The operations -/

def empty : SortedMap κ α := ⟨[], List.Pairwise.nil⟩

def get? (m : SortedMap κ α) (k : κ) : Option α := Assoc.get? k m.entries

def insert (m : SortedMap κ α) (k : κ) (v : α) : SortedMap κ α := ⟨insertEntry k v m.entries, sorted_insertEntry m.sorted⟩

theorem sorted_erase (h : (Assoc.keys l).Pairwise (· < ·)) : (Assoc.keys (Assoc.erase k l)).Pairwise (· < ·) := by
  rw [Assoc.keys_erase]
  exact h.filter _

def erase (m : SortedMap κ α) (k : κ) : SortedMap κ α := ⟨Assoc.erase k m.entries, sorted_erase m.sorted⟩

def isEmpty (m : SortedMap κ α) : Bool := m.entries.isEmpty

@[simp] theorem get?_empty : (empty : SortedMap κ α).get? k = none := rfl

theorem get?_of_isEmpty (h : m.isEmpty = true) : m.get? k = none := by
  rw [get?, List.isEmpty_iff.mp h]
  rfl

theorem get?_insert : (m.insert k v).get? j = if j = k then some v else m.get? j := get?_insertEntry m.sorted

@[simp] theorem get?_insert_self : (m.insert k v).get? k = some v := by rw [get?_insert, if_pos rfl]

theorem get?_insert_ne (h : j ≠ k) : (m.insert k v).get? j = m.get? j := by rw [get?_insert, if_neg h]

theorem get?_erase : (m.erase k).get? j = if j = k then none else m.get? j := Assoc.get?_erase

theorem get?_erase_ne (h : j ≠ k) : (m.erase k).get? j = m.get? j := by rw [get?_erase, if_neg h]

theorem isSome_get?_foldl {ks : List κ} {f : κ → α} :
    ((ks.foldl (fun m k => m.insert k (f k)) m).get? j).isSome = true ↔ j ∈ ks ∨ (m.get? j).isSome = true := by
  induction ks generalizing m with
  | nil => simp
  | cons k ks ih =>
    rw [List.foldl_cons, ih, get?_insert, List.mem_cons]
    by_cases hj : j = k <;> simp [hj]

/-! ### Members -/

theorem nodup_keys : (Assoc.keys m.entries).Nodup := m.sorted.imp fun h => h.ne

theorem mem_entries_iff : (k, v) ∈ m.entries ↔ m.get? k = some v :=
  ⟨fun h => Assoc.get?_of_mem nodup_keys h, fun h => Assoc.mem_of_get? h⟩

theorem mem_keys_iff : k ∈ Assoc.keys m.entries ↔ (m.get? k).isSome = true := Assoc.get?_isSome_iff.symm

theorem perm_insertEntry (h : k ∉ Assoc.keys l) : (insertEntry k v l).Perm ((k, v) :: l) := by
  induction l with
  | nil => exact .refl _
  | cons e l ih =>
    obtain ⟨he, hl⟩ := List.ne_and_not_mem_of_not_mem_cons h
    unfold insertEntry
    split_ifs
    · exact .refl _
    · exact ((ih hl).cons e).trans (.swap (k, v) e l)

theorem perm_insert (h : m.get? k = none) : (m.insert k v).entries.Perm ((k, v) :: m.entries) :=
  perm_insertEntry (Assoc.get?_eq_none_iff.mp h)

theorem ext_get? (h : ∀ k, m.get? k = n.get? k) : m = n := by
  have hmem : ∀ e, e ∈ m.entries ↔ e ∈ n.entries := fun (k, v) => by rw [mem_entries_iff, mem_entries_iff, h]
  have hirrefl : Std.Irrefl fun d e : κ × α => d.1 < e.1 := ⟨fun e => lt_irrefl e.1⟩
  have hasymm : Std.Asymm fun d e : κ × α => d.1 < e.1 := ⟨fun d e hlt => hlt.asymm⟩
  have heq : m.entries = n.entries :=
    List.Pairwise.eq_of_mem_iff (List.pairwise_map.mp m.sorted) (List.pairwise_map.mp n.sorted) hmem
  cases m
  cases n
  cases heq
  rfl

end SortedMap
