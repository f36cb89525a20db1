import PveMeta.Theorems.MergeDiff

/-! # What a merge makes of each key

A merge patch goes through its entries one after the other, and an entry that deletes a key looks at the rest of the
patch for the note of it. What becomes of a key is still a function of what the key held: of the entry for it, or of
whether the entry for its subject deletes that. So a second merge finds everything as it wants it. -/

namespace PveMeta
namespace Patch
open View Value

/-- What is at a key after a value that is no map is set there. -/
def setLeaf (o : Option Value) (v : Value) : Option Value := if o.any (· == v) then o else some v

/-- What an entry with this value makes of what is at the key at `path`. -/
def mergedValue (path : Path) (o : Option Value) : Value → Option Value
  | .null => none
  | .object q =>
    match o with
    | some (.object child) => some (.object (applyEntries q path child q).2)
    | o =>
      if q.isEmpty then some (.object [])
      else if o.isSome || ! (applyEntries q path [] q).1.isEmpty then some (.object (applyEntries q path [] q).2)
      else none
  | v => setLeaf o v

/-- The entry deletes the key that `j` is the note of. -/
def dropsNote (j : String) : String × Value → Bool
  | (k, .null) => k ++ commentSuffix == j
  | _ => false

/-- What the patch map `q` makes of what is at the key `j` of the map at `path`. -/
def mergedKey (q : Members) (path : Path) (j : String) (o : Option Value) : Option Value :=
  match Assoc.get? j q with
  | some v => mergedValue (path.join j) o v
  | none => if q.any (dropsNote j) then none else o

variable {path : Path} {o : Option Value} {v : Value} {m whole q child es : Members} {j k : String}

/-! ### One entry -/

theorem applyEntry_child (h : Assoc.get? k m = some (.object child)) : applyEntry whole path k m (.object q) =
    ((applyEntries q (path.join k) child q).1,
      Assoc.insert k (.object (applyEntries q (path.join k) child q).2) m) := by
  rw [applyEntry, h]

theorem applyEntry_scratch (h : ¬ IsMap (Assoc.get? k m)) : applyEntry whole path k m (.object q) =
    if q.isEmpty then setKey path k (.object []) m
    else if (Assoc.get? k m).isSome || ! (applyEntries q (path.join k) [] q).1.isEmpty then
      ([⟨path.join k, .set⟩], Assoc.insert k (.object (applyEntries q (path.join k) [] q).2) m)
    else ([], m) := by
  unfold applyEntry
  split
  · next child hk => exact absurd ⟨child, hk⟩ h
  · rfl

theorem mergedValue_child : mergedValue path (some (.object child)) (.object q) =
    some (.object (applyEntries q path child q).2) := by
  rw [mergedValue]

theorem mergedValue_scratch (h : ¬ IsMap o) : mergedValue path o (.object q) =
    if q.isEmpty then some (.object [])
    else if o.isSome || ! (applyEntries q path [] q).1.isEmpty then some (.object (applyEntries q path [] q).2)
    else none := by
  unfold mergedValue
  dsimp only
  split
  · next child => exact absurd ⟨child, rfl⟩ h
  · rfl

theorem get?_setKey : Assoc.get? k (setKey path k v m).2 = setLeaf (Assoc.get? k m) v := by
  unfold setKey setLeaf
  split
  · rfl
  · exact Assoc.get?_insert_self

theorem get?_setKey_ne (hj : j ≠ k) : Assoc.get? j (setKey path k v m).2 = Assoc.get? j m := by
  unfold setKey
  split
  · rfl
  · exact Assoc.get?_insert_ne hj

theorem get?_deleteKey : Assoc.get? k (deleteKey whole path k m).2 = none := by
  unfold deleteKey
  dsimp only
  split
  · rw [Assoc.get?_erase_ne (note_ne k).symm, Assoc.get?_erase_self]
  · exact Assoc.get?_erase_self

theorem get?_deleteKey_ne (hj : j ≠ k) : Assoc.get? j (deleteKey whole path k m).2 =
    if (Assoc.get? j whole).isNone && dropsNote j (k, .null) then none else Assoc.get? j m := by
  unfold deleteKey
  dsimp only
  by_cases hnote : k ++ commentSuffix = j
  · have hdrops : dropsNote j (k, .null) = true := beq_iff_eq.mpr hnote
    rw [hnote, hdrops, Bool.and_true]
    cases hwhole : (Assoc.get? j whole).isNone with
    | false => exact Assoc.get?_erase_ne hj
    | true =>
      cases hthere : Assoc.get? j (Assoc.erase k m) with
      | none => exact hthere
      | some v => exact Assoc.get?_erase_self
  · have hdrops : dropsNote j (k, .null) = false := beq_eq_false_iff_ne.mpr hnote
    rw [hdrops, Bool.and_false]
    split
    · rw [Assoc.get?_erase_ne (Ne.symm hnote), Assoc.get?_erase_ne hj]
      rfl
    · exact Assoc.get?_erase_ne hj

/-- An empty map is written over anything but a map: nothing else equals it. -/
theorem any_beq_empty (h : ¬ IsMap o) : o.any (· == .object []) = false := by
  rcases o with _ | w
  · rfl
  · cases w <;> first | rfl | exact absurd ⟨_, rfl⟩ h

theorem get?_applyEntry :
    Assoc.get? k (applyEntry whole path k m v).2 = mergedValue (path.join k) (Assoc.get? k m) v := by
  cases v with
  | null => exact get?_deleteKey
  | object q =>
    by_cases hmap : IsMap (Assoc.get? k m)
    · obtain ⟨child, hk⟩ := hmap
      rw [applyEntry_child hk, hk, mergedValue_child, Assoc.get?_insert_self]
    · rw [applyEntry_scratch hmap, mergedValue_scratch hmap]
      split
      · rw [get?_setKey, setLeaf, any_beq_empty hmap]
        rfl
      · split
        · exact Assoc.get?_insert_self
        · next hno =>
          rw [Bool.or_eq_true, not_or] at hno
          exact Option.not_isSome_iff_eq_none.mp hno.1
  | _ => exact get?_setKey

theorem get?_applyEntry_ne (hj : j ≠ k) : Assoc.get? j (applyEntry whole path k m v).2 =
    if (Assoc.get? j whole).isNone && dropsNote j (k, v) then none else Assoc.get? j m := by
  cases v with
  | null => exact get?_deleteKey_ne hj
  | object q =>
    rw [show dropsNote j (k, .object q) = false from rfl, Bool.and_false]
    by_cases hmap : IsMap (Assoc.get? k m)
    · obtain ⟨child, hk⟩ := hmap
      rw [applyEntry_child hk]
      exact Assoc.get?_insert_ne hj
    · rw [applyEntry_scratch hmap]
      split
      · exact get?_setKey_ne hj
      · split
        · exact Assoc.get?_insert_ne hj
        · rfl
  | _ =>
    simp only [dropsNote, Bool.and_false, Bool.false_eq_true, if_false]
    exact get?_setKey_ne hj

/-! ### All entries -/

/-- The entries for other keys leave a key as it is, unless one of them deletes its subject and the patch does not
    name it. -/
theorem get?_applyEntries_of (hes : (Assoc.keys es).Nodup) (hsub : ∀ k ∈ Assoc.keys es, k ∈ Assoc.keys whole) :
    Assoc.get? j (applyEntries whole path m es).2 =
      match Assoc.get? j es with
      | some v => mergedValue (path.join j) (Assoc.get? j m) v
      | none => if (Assoc.get? j whole).isNone && es.any (dropsNote j) then none else Assoc.get? j m := by
  induction es generalizing m with
  | nil => simp [applyEntries]
  | cons e es ih =>
    obtain ⟨hout, hes⟩ := List.nodup_cons.mp hes
    have hwhole : ∀ k ∈ Assoc.keys es, k ∈ Assoc.keys whole := fun k hk => hsub k (List.mem_cons_of_mem _ hk)
    have hrest := ih (m := (applyEntry whole path e.1 m e.2).2) hes hwhole
    have hcons : Assoc.get? j (applyEntries whole path m (e :: es)).2 =
        Assoc.get? j (applyEntries whole path (applyEntry whole path e.1 m e.2).2 es).2 := rfl
    rw [hcons, hrest, Assoc.get?_cons]
    by_cases hj : e.1 = j
    · subst hj
      have hnamed : (Assoc.get? e.1 whole).isNone = false := by
        rw [Option.isNone_eq_false_iff, Assoc.get?_isSome_iff]
        exact hsub _ List.mem_cons_self
      rw [if_pos rfl, Assoc.get?_eq_none_iff.mpr hout, hnamed]
      exact get?_applyEntry
    · rw [if_neg hj, get?_applyEntry_ne (Ne.symm hj)]
      cases hk : Assoc.get? j es with
      | some v =>
        have hnamed : (Assoc.get? j whole).isNone = false := by
          rw [Option.isNone_eq_false_iff, Assoc.get?_isSome_iff]
          exact hwhole _ (Assoc.get?_isSome_iff.mp (by rw [hk]; rfl))
        rw [hnamed]
        rfl
      | none =>
        dsimp only
        rw [List.any_cons]
        cases (Assoc.get? j whole).isNone <;> cases dropsNote j (e.1, e.2) <;> cases es.any (dropsNote j) <;> rfl

theorem get?_applyEntries (hq : (Assoc.keys q).Nodup) :
    Assoc.get? j (applyEntries q path m q).2 = mergedKey q path j (Assoc.get? j m) := by
  rw [get?_applyEntries_of hq fun _ h => h, mergedKey]
  cases hj : Assoc.get? j q with
  | some v => rfl
  | none => rfl

/-! ### A second merge -/

theorem setKey_eq_self (h : (setKey path k v m).1 = []) : (setKey path k v m).2 = m := by
  unfold setKey at h ⊢
  split at h
  · next hc => rw [if_pos hc]
  · cases h

theorem deleteKey_eq_self (h : (deleteKey whole path k m).1 = []) : (deleteKey whole path k m).2 = m := by
  unfold deleteKey at h ⊢
  dsimp only at h ⊢
  split at h
  · exact absurd h (by simp)
  · next hno =>
    rw [if_neg hno]
    dsimp only at h ⊢
    split at h
    · cases h
    · next hk => exact Assoc.erase_eq_self (Option.not_isSome_iff_eq_none.mp hk)

theorem applyEntries_eq_self_of (hentry : ∀ e ∈ es, ∀ m, (applyEntry whole path e.1 m e.2).1 = [] →
    (applyEntry whole path e.1 m e.2).2 = m) (h : (applyEntries whole path m es).1 = []) :
    (applyEntries whole path m es).2 = m := by
  induction es generalizing m with
  | nil => rfl
  | cons e es ih =>
    obtain ⟨hfirst, hothers⟩ := List.append_eq_nil_iff.mp h
    have hsame := hentry e List.mem_cons_self m hfirst
    have hrest := ih (fun e' he' => hentry e' (List.mem_cons_of_mem _ he')) hothers
    exact hrest.trans hsame

/-- A merge that reports nothing leaves the map as it is, its order included. -/
theorem applyEntry_eq_self (h : (applyEntry whole path k m v).1 = []) : (applyEntry whole path k m v).2 = m := by
  induction v using Value.ind generalizing whole m path k with
  | null => exact deleteKey_eq_self h
  | object q ih =>
    by_cases hmap : IsMap (Assoc.get? k m)
    · obtain ⟨child, hk⟩ := hmap
      rw [applyEntry_child hk] at h ⊢
      have hsame := applyEntries_eq_self_of (fun e he m => ih e he) h
      rw [hsame]
      exact Assoc.insert_eq_self hk
    · rw [applyEntry_scratch hmap] at h ⊢
      split at h
      · next hempty =>
        rw [if_pos hempty]
        exact setKey_eq_self h
      · next hempty =>
        rw [if_neg hempty]
        split at h
        · cases h
        · next hno => rw [if_neg hno]
  | _ => exact setKey_eq_self h

theorem applyEntries_eq_self (h : (applyEntries whole path m es).1 = []) : (applyEntries whole path m es).2 = m :=
  applyEntries_eq_self_of (fun _ _ _ => applyEntry_eq_self) h

/-- A second run of the entries finds each key as it leaves it: `hkey` says so of the entries' values. -/
theorem applyEntries_again_of (hq : (Value.object q).WF) (hm : (Value.object m).WF)
    (hkey : ∀ e ∈ q, ∀ path o, (∀ w, o = some w → w.WF) →
      mergedValue path (mergedValue path o e.2) e.2 = mergedValue path o e.2) :
    applyEntries q path (applyEntries q path m q).2 q = ([], (applyEntries q path m q).2) := by
  have hm₁ : (Value.object (applyEntries q path m q).2).WF := applyEntries_wf hq hm
  have hm₂ : (Value.object (applyEntries q path (applyEntries q path m q).2 q).2).WF := applyEntries_wf hq hm₁
  have hsame : ∀ j, Assoc.get? j (applyEntries q path (applyEntries q path m q).2 q).2 =
      Assoc.get? j (applyEntries q path m q).2 := by
    intro j
    rw [get?_applyEntries hq.keys, get?_applyEntries hq.keys, mergedKey, mergedKey]
    cases hj : Assoc.get? j q with
    | some v => exact hkey _ (Assoc.mem_of_get? hj) _ _ fun _ => hm.of_get?
    | none =>
      dsimp only
      split <;> rfl
  have hnil : (applyEntries q path (applyEntries q path m q).2 q).1 = [] := by
    have hon : ExactOn path _ _ _ _ := applyEntries_exactOn hq hm₁
    have hexact : Exact path _ _ _ := hon.exact hm₁ hm₂
    refine (hexact.nil_iff (fun _ h => Option.some.inj h ▸ hm₁) (fun _ h => Option.some.inj h ▸ hm₂)).mpr ?_
    refine optEq_some.mpr ((object_beq_iff hm₁ hm₂).mpr fun j => ?_)
    rw [hsame j]
    exact OptEq.refl fun _ => hm₁.of_get?
  exact Prod.ext hnil (applyEntries_eq_self hnil)

theorem setLeaf_again (hv : (v == v) = true) : setLeaf (setLeaf o v) v = setLeaf o v := by
  unfold setLeaf
  by_cases h : o.any (· == v) = true
  · rw [if_pos h, if_pos h]
  · rw [if_neg h]
    exact if_pos hv

theorem mergedValue_again (hv : v.WF) (ho : ∀ w, o = some w → w.WF) :
    mergedValue path (mergedValue path o v) v = mergedValue path o v := by
  induction v using Value.ind generalizing path o with
  | null => rfl
  | object q ih =>
    have hagain : ∀ {m}, (Value.object m).WF →
        mergedValue path (some (.object (applyEntries q path m q).2)) (.object q) =
          some (.object (applyEntries q path m q).2) := by
      intro m hm
      rw [mergedValue_child, applyEntries_again_of hv hm fun e he path o => ih e he (hv.members e he)]
    by_cases hmap : IsMap o
    · obtain ⟨child, rfl⟩ := hmap
      rw [mergedValue_child]
      exact hagain (ho _ rfl)
    · rw [mergedValue_scratch hmap]
      split
      · next hempty =>
        obtain rfl := List.isEmpty_iff.mp hempty
        rfl
      · next hempty =>
        split
        · exact hagain .empty
        · next hno =>
          have hnone : o = none := by
            rw [Bool.or_eq_true, not_or] at hno
            exact Option.not_isSome_iff_eq_none.mp hno.1
          subst hnone
          rw [mergedValue_scratch hmap, if_neg hempty, if_neg hno]
  | _ => exact setLeaf_again (beq_refl hv)

/-- A second merge of the same patch touches nothing. -/
theorem applyEntries_again (hq : (Value.object q).WF) (hm : (Value.object m).WF) :
    applyEntries q path (applyEntries q path m q).2 q = ([], (applyEntries q path m q).2) :=
  applyEntries_again_of hq hm fun e he _ _ ho => mergedValue_again (hq.members e he) ho

end Patch
end PveMeta
