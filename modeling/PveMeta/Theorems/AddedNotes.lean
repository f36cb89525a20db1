import PveMeta.Theorems.KeptNotes
import PveMeta.Theorems.Gate

/-! # What keeping notes adds to a payload

The notes are inserted one after the other into a list of members that grows with them, each only where its key is
missing. So a key of the payload keeps its value and its place among the keys of the payload, and a key that is there
now and then is not is a stored note of something that is there. -/

namespace PveMeta
namespace View
open Value

mutual

/-- The value without the keys that `new` does not have, at every level of maps. -/
def restrict (new : Value) : Value → Value
  | .object rm =>
    match new with
    | .object nm => .object (restrictMembers nm rm)
    | _ => .object rm
  | .null => .null
  | .bool b => .bool b
  | .number n => .number n
  | .string s => .string s
  | .array items => .array items

def restrictMembers (nm : Members) : Members → Members
  | [] => []
  | (k, v) :: rm =>
    match Assoc.get? k nm with
    | some w => (k, restrict w v) :: restrictMembers nm rm
    | none => restrictMembers nm rm

end

/-- A note that is there for a reason: about its map, or about a key that the stored map and the new one have. -/
def Alive (whole out : Members) (k : String) : Prop :=
  ∃ subject, noteSubject k = some subject ∧
    (subject = "" ∨ (Assoc.get? subject whole).isSome ∧ (Assoc.get? subject out).isSome)

variable {old new v w : Value} {whole out om nm m n rest : Members} {before : List String} {k j : String} {p : Path}

/-! ### One note -/

theorem placeNote_cases (whole : Members) (before : List String) (out : Members) (e : String × Value) :
    placeNote whole before out e = out ∨
    (Alive whole out e.1 ∧ Assoc.get? e.1 out = none ∧ ∃ i, placeNote whole before out e = out.insertIdx i e) := by
  unfold placeNote
  split
  · exact Or.inl rfl
  · next subject hsubject =>
    dsimp only
    split
    · exact Or.inl rfl
    · next hplaced =>
      rw [Bool.or_eq_true, not_or, Bool.not_eq_true', Bool.not_eq_false, Bool.or_eq_true, Bool.and_eq_true] at hplaced
      refine Or.inr ⟨⟨subject, hsubject, ?_⟩, Option.not_isSome_iff_eq_none.mp hplaced.2, _, rfl⟩
      exact hplaced.1.imp_left fun hempty => String.isEmpty_iff.mp hempty

theorem Alive.mono {out' : Members} (h : Alive whole out k)
    (hout : ∀ j, (Assoc.get? j out).isSome → (Assoc.get? j out').isSome) : Alive whole out' k := by
  obtain ⟨subject, hsubject, hthere⟩ := h
  exact ⟨subject, hsubject, hthere.imp_right fun h => ⟨h.1, hout _ h.2⟩⟩

theorem get?_placeNote_of_isSome {e : String × Value} (h : (Assoc.get? k out).isSome) :
    Assoc.get? k (placeNote whole before out e) = Assoc.get? k out := by
  rcases placeNote_cases whole before out e with heq | ⟨-, hnone, i, heq⟩
  · rw [heq]
  · have hne : k ≠ e.1 := by
      intro hk
      rw [hk, hnone] at h
      cases h
    rw [heq, get?_insertIdx_ne hne]

theorem get?_placeNotes_of_isSome (h : (Assoc.get? k out).isSome) :
    Assoc.get? k (placeNotes whole before out rest) = Assoc.get? k out := by
  induction rest generalizing before out with
  | nil => rfl
  | cons e rest ih =>
    have hnext : Assoc.get? k (placeNote whole before out e) = Assoc.get? k out := get?_placeNote_of_isSome h
    rw [placeNotes_cons, ih (by rw [hnext]; exact h), hnext]

/-- What is there after the notes were put back was there before, or is one of them. -/
theorem get?_placeNotes_cases (h : Assoc.get? k (placeNotes whole before out rest) = some v) :
    Assoc.get? k out = some v ∨ ((k, v) ∈ rest ∧ Alive whole (placeNotes whole before out rest) k) := by
  induction rest generalizing before out with
  | nil => exact Or.inl h
  | cons e rest ih =>
    rw [placeNotes_cons] at h ⊢
    have hgrows : ∀ j, (Assoc.get? j out).isSome →
        (Assoc.get? j (placeNotes whole (e.1 :: before) (placeNote whole before out e) rest)).isSome := by
      intro j hj
      have hnext : Assoc.get? j (placeNote whole before out e) = Assoc.get? j out := get?_placeNote_of_isSome hj
      rw [get?_placeNotes_of_isSome (by rw [hnext]; exact hj), hnext]
      exact hj
    rcases ih h with hthere | ⟨hmem, halive⟩
    · rcases placeNote_cases whole before out e with heq | ⟨halive, hnone, i, heq⟩
      · rw [heq] at hthere
        exact Or.inl hthere
      · by_cases hk : k = e.1
        · rcases mem_insertIdx (heq ▸ Assoc.mem_of_get? hthere) with he | hout
          · exact Or.inr ⟨he ▸ List.mem_cons_self, hk ▸ halive.mono hgrows⟩
          · rw [hk] at hout
            exact absurd (Assoc.mem_keys_of_mem hout) (Assoc.get?_eq_none_iff.mp hnone)
        · rw [heq, get?_insertIdx_ne hk] at hthere
          exact Or.inl hthere
    · exact Or.inr ⟨List.mem_cons_of_mem _ hmem, halive⟩

/-! ### Without what was added -/

theorem restrictMembers_insertIdx {e : String × Value} {i : Nat} (h : Assoc.get? e.1 nm = none) :
    restrictMembers nm (out.insertIdx i e) = restrictMembers nm out := by
  induction out generalizing i with
  | nil =>
    cases i with
    | zero => simp [restrictMembers, h]
    | succ i => rfl
  | cons d out ih =>
    cases i with
    | zero => simp [restrictMembers, h]
    | succ i => simp only [List.insertIdx_succ_cons, restrictMembers, ih]

theorem restrictMembers_placeNotes (h : ∀ k, (Assoc.get? k nm).isSome → (Assoc.get? k out).isSome) :
    restrictMembers nm (placeNotes whole before out rest) = restrictMembers nm out := by
  induction rest generalizing before out with
  | nil => rfl
  | cons e rest ih =>
    rw [placeNotes_cons, ih fun k hk => by rw [get?_placeNote_of_isSome (h k hk)]; exact h k hk]
    rcases placeNote_cases whole before out e with heq | ⟨-, hnone, i, heq⟩
    · rw [heq]
    · have hnew : Assoc.get? e.1 nm = none := by
        rw [← Option.not_isSome_iff_eq_none]
        intro hsome
        have hout := h _ hsome
        rw [hnone] at hout
        cases hout
      rw [heq, restrictMembers_insertIdx hnew]

theorem restrictMembers_keepMembers {part : Members} (hpart : ∀ e ∈ part, Assoc.get? e.1 nm = some e.2)
    (h : ∀ e ∈ part, restrict e.2 (keptValue om e.1 e.2) = e.2) : restrictMembers nm (keepMembers om part) = part := by
  induction part with
  | nil => rfl
  | cons e part ih =>
    have hrest := ih (fun e he => hpart e (List.mem_cons_of_mem _ he)) fun e he => h e (List.mem_cons_of_mem _ he)
    rw [keepMembers_cons, restrictMembers, hpart e List.mem_cons_self]
    simp only [hrest, h e List.mem_cons_self]

theorem keepComments_of_not_maps (h : ¬ (old.isObject = true ∧ new.isObject = true)) : keepComments old new = new := by
  cases new <;> try rfl
  cases old <;> first | rfl | exact absurd ⟨rfl, rfl⟩ h

/-- What a payload value becomes under a stored map is what it becomes under one value. -/
theorem keptValue_eq (om : Members) (k : String) (v : Value) :
    keptValue om k v = keepComments ((Assoc.get? k om).getD .null) v := by
  unfold keptValue
  cases Assoc.get? k om with
  | none => exact (keepComments_of_not_maps (by simp [isObject])).symm
  | some ov =>
    dsimp only [Option.getD_some]
    split
    · rfl
    · next hno =>
      rw [Bool.and_eq_true] at hno
      exact (keepComments_of_not_maps hno).symm

theorem keepMembers_nil : keepMembers [] nm = nm := by
  induction nm with
  | nil => rfl
  | cons e nm ih =>
    rw [keepMembers_cons, ih]
    rfl

/-- Without the keys that the payload does not have, it is the payload again. -/
theorem restrict_keepComments (hn : new.WF) : restrict new (keepComments old new) = new := by
  induction new using Value.ind generalizing old with
  | object nm ih =>
    have hkept : ∀ om, ∀ e ∈ nm, restrict e.2 (keptValue om e.1 e.2) = e.2 := by
      intro om e he
      rw [keptValue_eq]
      exact ih e he (hn.members e he)
    have hmembers : ∀ om, restrictMembers nm (keepMembers om nm) = nm := fun om =>
      restrictMembers_keepMembers (fun e he => Assoc.get?_of_mem hn.keys he) (hkept om)
    by_cases hobj : old.isObject = true
    · obtain ⟨om, rfl⟩ := isObject_iff.mp hobj
      rw [keepComments, restrict, restrictMembers_placeNotes, hmembers]
      intro k hk
      rw [Assoc.get?_isSome_iff, keys_keepMembers, ← Assoc.get?_isSome_iff]
      exact hk
    · rw [keepComments_of_not_maps fun h => hobj h.1, restrict]
      have hnm := hmembers []
      rw [keepMembers_nil] at hnm
      rw [hnm]
  | _ => rfl

/-! ### What was added -/

/-- Below a key of the payload stands what the payload and the stored value under that key make. -/
theorem valueAt_keepComments_key (h : Assoc.get? j nm = some v) :
    valueAt (keepComments (.object om) (.object nm)) (j :: p) = valueAt (keptValue om j v) p := by
  have hkept : Assoc.get? j (keepMembers om nm) = some (keptValue om j v) := by
    rw [get?_keepMembers, h, Option.map_some]
  rw [keepComments, valueAt_object_cons, get?_placeNotes_of_isSome (by rw [hkept]; rfl), hkept, Option.bind_some]

/-- A list, a value that is no map and one that was no map stay as the payload has them. -/
theorem valueAt_keepComments (h : valueAt new p = some v) (hno : ¬ (IsMap (valueAt old p) ∧ v.isObject = true)) :
    valueAt (keepComments old new) p = some v := by
  induction p generalizing old new with
  | nil =>
    rw [valueAt_nil, Option.some.injEq] at h
    rw [valueAt_nil, isMap_iff, ← h] at hno
    rw [keepComments_of_not_maps hno, valueAt_nil, h]
  | cons j p ih =>
    by_cases hmaps : old.isObject = true ∧ new.isObject = true
    · obtain ⟨⟨om, rfl⟩, nm, rfl⟩ := hmaps.imp isObject_iff.mp isObject_iff.mp
      obtain ⟨u, hu, hrest⟩ := Option.bind_eq_some_iff.mp h
      rw [valueAt_keepComments_key hu, keptValue_eq]
      refine ih hrest fun hmap => hno ⟨?_, hmap.2⟩
      rw [valueAt_object_cons]
      cases hom : Assoc.get? j om with
      | none =>
        rw [hom] at hmap
        obtain ⟨m, hm⟩ := hmap.1
        cases p <;> cases hm
      | some ov =>
        rw [hom] at hmap
        exact hmap.1
    · rw [keepComments_of_not_maps hmaps, h]

/-- A key that is there and not in the payload is a note that was there with its value, about something that was
    there and is. -/
theorem added_is_note (hold : old.WF) (hn : valueAt new p = some (.object n))
    (hm : valueAt (keepComments old new) p = some (.object m)) (hk : Assoc.get? k m = some v)
    (hnot : Assoc.get? k n = none) :
    ∃ whole, valueAt old p = some (.object whole) ∧ Assoc.get? k whole = some v ∧ Alive whole m k := by
  have hsame : keepComments old new ≠ new := by
    intro heq
    rw [heq, hn] at hm
    cases hm
    rw [hk] at hnot
    cases hnot
  induction p generalizing old new with
  | nil =>
    by_cases hmaps : old.isObject = true ∧ new.isObject = true
    · obtain ⟨⟨om, rfl⟩, nm, rfl⟩ := hmaps.imp isObject_iff.mp isObject_iff.mp
      rw [valueAt_nil, Option.some.injEq, Value.object.injEq] at hn
      rw [keepComments, valueAt_nil, Option.some.injEq, Value.object.injEq] at hm
      subst hn hm
      rcases get?_placeNotes_cases hk with hthere | ⟨hmem, halive⟩
      · rw [get?_keepMembers, hnot] at hthere
        cases hthere
      · exact ⟨om, valueAt_nil, Assoc.get?_of_mem hold.keys hmem, halive⟩
    · exact absurd (keepComments_of_not_maps hmaps) hsame
  | cons j p ih =>
    by_cases hmaps : old.isObject = true ∧ new.isObject = true
    · obtain ⟨⟨om, rfl⟩, nm, rfl⟩ := hmaps.imp isObject_iff.mp isObject_iff.mp
      obtain ⟨u, hu, hrest⟩ := Option.bind_eq_some_iff.mp hn
      rw [valueAt_keepComments_key hu, keptValue_eq] at hm
      have hdiff : keepComments ((Assoc.get? j om).getD .null) u ≠ u := by
        intro heq
        rw [heq, hrest] at hm
        cases hm
        rw [hk] at hnot
        cases hnot
      cases hom : Assoc.get? j om with
      | none =>
        rw [hom] at hdiff
        exact absurd (keepComments_of_not_maps (by simp [isObject])) hdiff
      | some ov =>
        rw [hom] at hm hdiff
        rw [valueAt_object_cons, hom, Option.bind_some]
        exact ih (hold.of_get? hom) hrest hm hdiff
    · exact absurd (keepComments_of_not_maps hmaps) hsame

/-- Keeping notes only adds notes. Without the keys the payload lacks, the result is the payload, its order included.
    Whatever key it has where the payload has a map without it is a note that the stored document has there with the
    same value, and its subject, if it is not the map itself, is there both in the stored document and in the result.
    And all that is not a map on both sides, lists too, is as in the payload. -/
theorem keepComments_adds_notes (old new : Tree) :
    let r := keepComments old.val new.val
    restrict new.val r = new.val ∧
      (∀ p n m k v, valueAt new.val p = some (.object n) → valueAt r p = some (.object m) → Assoc.get? k m = some v →
        Assoc.get? k n = none →
        isCommentKey k = true ∧ valueAt old.val (p.join k) = some v ∧ ∃ subject, noteSubject k = some subject ∧
          (subject = "" ∨ (valueAt old.val (p.join subject)).isSome ∧ (valueAt r (p.join subject)).isSome)) ∧
      ∀ p v, valueAt new.val p = some v → ¬ (IsMap (valueAt old.val p) ∧ v.isObject = true) → valueAt r p = some v := by
  refine ⟨restrict_keepComments new.2, fun p n m k v hn hm hk hnot => ?_, fun p v h hno => valueAt_keepComments h hno⟩
  obtain ⟨whole, hwhole, hkey, subject, hsubject, hthere⟩ := added_is_note old.2 hn hm hk hnot
  have hbelow : ∀ {d : Value} {l : Members} (j : String), valueAt d p = some (.object l) →
      valueAt d (p.join j) = Assoc.get? j l := by
    intro d l j hd
    rw [Path.join, valueAt_append hd, valueAt_object_key, optAt_nil]
  refine ⟨isCommentKey_iff_noteSubject.mpr ⟨subject, hsubject⟩, by rw [hbelow k hwhole, hkey], subject, hsubject, ?_⟩
  rw [hbelow subject hwhole, hbelow subject hm]
  exact hthere

end View
end PveMeta
