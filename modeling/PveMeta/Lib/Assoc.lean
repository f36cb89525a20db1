import Mathlib.Data.List.Nodup
import Mathlib.Data.List.Perm.Subperm

/-! # Maps in insertion order

An ordered map is the list of its members, each key once. `insert` writes a key where it stands or
appends it, `erase` closes the gap it leaves: the order of a map is the order its keys came in. -/

namespace Assoc

variable {κ α : Type} [DecidableEq κ]

def keys (m : List (κ × α)) : List κ := m.map Prod.fst

/-- The value of `k`. -/
def get? (k : κ) : List (κ × α) → Option α
  | [] => none
  | e :: m => if e.1 = k then some e.2 else get? k m

/-- `m` with `k` set to `v`: in place if `m` has `k`, else as the last member. -/
def insert (k : κ) (v : α) : List (κ × α) → List (κ × α)
  | [] => [(k, v)]
  | e :: m => if e.1 = k then (k, v) :: m else e :: insert k v m

/-- `m` without `k`, the other members in the order they had. -/
def erase (k : κ) : List (κ × α) → List (κ × α)
  | [] => []
  | e :: m => if e.1 = k then erase k m else e :: erase k m

variable {k j : κ} {v w : α} {m n : List (κ × α)}

omit [DecidableEq κ] in
@[simp] theorem keys_nil : keys ([] : List (κ × α)) = [] := rfl

omit [DecidableEq κ] in
@[simp] theorem keys_cons (e : κ × α) : keys (e :: m) = e.1 :: keys m := rfl

omit [DecidableEq κ] in
@[simp] theorem keys_append : keys (m ++ n) = keys m ++ keys n := List.map_append

@[simp] theorem get?_nil : get? k ([] : List (κ × α)) = none := rfl

@[simp] theorem insert_nil : insert k v ([] : List (κ × α)) = [(k, v)] := rfl

@[simp] theorem erase_nil : erase k ([] : List (κ × α)) = [] := rfl

theorem get?_cons (e : κ × α) : get? k (e :: m) = if e.1 = k then some e.2 else get? k m := rfl

@[simp] theorem get?_cons_self : get? k ((k, v) :: m) = some v := by simp [get?_cons]

/-! ### Reading -/

theorem get?_eq_none_iff : get? k m = none ↔ k ∉ keys m := by
  induction m with
  | nil => simp
  | cons e m ih =>
    by_cases h : e.1 = k
    · simp [get?_cons, h]
    · simp [get?_cons, h, ih, Ne.symm h]

theorem get?_isSome_iff : (get? k m).isSome ↔ k ∈ keys m := by
  rw [← not_iff_not, Option.not_isSome_iff_eq_none, get?_eq_none_iff]

theorem mem_of_get? (h : get? k m = some v) : (k, v) ∈ m := by
  induction m with
  | nil => simp at h
  | cons e m ih =>
    rw [get?_cons] at h
    split at h
    · next he =>
      cases h
      exact he ▸ List.mem_cons_self
    · exact List.mem_cons_of_mem _ (ih h)

omit [DecidableEq κ] in
theorem mem_keys_of_mem {e : κ × α} (h : e ∈ m) : e.1 ∈ keys m := List.mem_map_of_mem h

theorem get?_of_mem (hm : (keys m).Nodup) {e : κ × α} (h : e ∈ m) : get? e.1 m = some e.2 := by
  induction m with
  | nil => cases h
  | cons d m ih =>
    obtain ⟨hd, hm⟩ := List.nodup_cons.mp hm
    rcases List.mem_cons.mp h with rfl | h
    · simp [get?_cons]
    · have hne : d.1 ≠ e.1 := fun he => hd (he ▸ mem_keys_of_mem h)
      rw [get?_cons, if_neg hne]
      exact ih hm h

/-! ### Writing -/

@[simp] theorem get?_insert_self : get? k (insert k v m) = some v := by
  induction m with
  | nil => simp
  | cons e m ih =>
    unfold insert
    split
    · simp
    · next h => simp [get?_cons, h, ih]

@[simp] theorem get?_insert_ne (h : j ≠ k) : get? j (insert k v m) = get? j m := by
  induction m with
  | nil => simp [get?_cons, Ne.symm h]
  | cons e m ih =>
    unfold insert
    split
    · next he => simp [get?_cons, he, Ne.symm h]
    · simp [get?_cons, ih]

theorem get?_insert : get? j (insert k v m) = if j = k then some v else get? j m := by
  split
  · next h => rw [h, get?_insert_self]
  · next h => rw [get?_insert_ne h]

@[simp] theorem get?_erase_self : get? k (erase k m) = none := by
  induction m with
  | nil => rfl
  | cons e m ih =>
    unfold erase
    split
    · exact ih
    · next h => simp [get?_cons, h, ih]

@[simp] theorem get?_erase_ne (h : j ≠ k) : get? j (erase k m) = get? j m := by
  induction m with
  | nil => rfl
  | cons e m ih =>
    unfold erase
    split
    · next he => simp [get?_cons, he, Ne.symm h, ih]
    · simp [get?_cons, ih]

theorem get?_erase : get? j (erase k m) = if j = k then none else get? j m := by
  split
  · next h => rw [h, get?_erase_self]
  · next h => rw [get?_erase_ne h]

theorem get?_foldl_erase (ks : List κ) :
    get? j (ks.foldl (fun m k => erase k m) m) = if j ∈ ks then none else get? j m := by
  induction ks generalizing m with
  | nil => simp
  | cons k ks ih =>
    rw [List.foldl_cons, ih, get?_erase]
    by_cases hj : j ∈ ks
    · rw [if_pos hj, if_pos (List.mem_cons_of_mem _ hj)]
    · rw [if_neg hj]
      by_cases hk : j = k
      · rw [if_pos hk, if_pos (hk ▸ List.mem_cons_self)]
      · rw [if_neg hk, if_neg (by simp [hj, hk])]

theorem keys_insert : keys (insert k v m) = if k ∈ keys m then keys m else keys m ++ [k] := by
  induction m with
  | nil => simp
  | cons e m ih =>
    unfold insert
    by_cases he : e.1 = k
    · simp [he]
    · simp only [he, if_false, keys_cons, ih, List.mem_cons, Ne.symm he, false_or]
      split <;> simp

theorem keys_erase : keys (erase k m) = (keys m).filter (· ≠ k) := by
  induction m with
  | nil => rfl
  | cons e m ih =>
    unfold erase
    by_cases he : e.1 = k <;> simp [he, ih]

theorem nodup_insert (hm : (keys m).Nodup) : (keys (insert k v m)).Nodup := by
  rw [keys_insert]
  split
  · exact hm
  · next h => exact hm.append (List.nodup_singleton k) (by simpa using h)

theorem nodup_erase (hm : (keys m).Nodup) : (keys (erase k m)).Nodup := by
  rw [keys_erase]
  exact hm.filter _

theorem mem_insert {e : κ × α} (h : e ∈ insert k v m) : e = (k, v) ∨ e ∈ m := by
  induction m with
  | nil => exact Or.inl (by simpa using h)
  | cons d m ih =>
    unfold insert at h
    split at h
    · rcases List.mem_cons.mp h with h | h
      · exact Or.inl h
      · exact Or.inr (List.mem_cons_of_mem _ h)
    · rcases List.mem_cons.mp h with h | h
      · exact Or.inr (h ▸ List.mem_cons_self)
      · exact (ih h).imp_right (List.mem_cons_of_mem _)

theorem mem_of_mem_erase {e : κ × α} (h : e ∈ erase k m) : e ∈ m := by
  induction m with
  | nil => exact h
  | cons d m ih =>
    unfold erase at h
    split at h
    · exact List.mem_cons_of_mem _ (ih h)
    · rcases List.mem_cons.mp h with rfl | h
      · exact List.mem_cons_self
      · exact List.mem_cons_of_mem _ (ih h)

/-- Writing what is there changes nothing, the order included. -/
theorem insert_eq_self (h : get? k m = some v) : insert k v m = m := by
  induction m with
  | nil => simp at h
  | cons e m ih =>
    rw [get?_cons] at h
    unfold insert
    split
    · next he =>
      rw [if_pos he, Option.some.injEq] at h
      rw [← h, ← he]
    · next he =>
      rw [if_neg he] at h
      rw [ih h]

@[simp] theorem insert_insert : insert k w (insert k v m) = insert k w m := by
  induction m with
  | nil => simp [insert]
  | cons e m ih =>
    by_cases he : e.1 = k
    · simp [insert, he]
    · simp [insert, he, ih]

theorem erase_eq_self (h : get? k m = none) : erase k m = m := by
  induction m with
  | nil => rfl
  | cons e m ih =>
    rw [get?_cons] at h
    unfold erase
    split
    · next he => simp [he] at h
    · next he =>
      rw [if_neg he] at h
      rw [ih h]

/-! ### Two maps with the same keys -/

omit [DecidableEq κ] in
/-- Lists of distinct keys of one length, one inside the other, have the same keys. -/
theorem mem_keys_iff_of_subset (hm : (keys m).Nodup) (hlen : m.length = n.length)
    (hsub : ∀ k ∈ keys m, k ∈ keys n) : k ∈ keys n ↔ k ∈ keys m := by
  have hperm : List.Perm (keys m) (keys n) :=
    (hm.subperm hsub).perm_of_length_le (by simp [keys, hlen])
  exact hperm.mem_iff.symm

omit [DecidableEq κ] in
theorem length_eq_of_mem_keys_iff (hm : (keys m).Nodup) (hn : (keys n).Nodup)
    (h : ∀ k, k ∈ keys m ↔ k ∈ keys n) : m.length = n.length := by
  have := ((List.perm_ext_iff_of_nodup hm hn).mpr h).length_eq
  simpa [keys] using this

end Assoc
