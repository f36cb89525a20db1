import PveMeta.Theorems.Exact

/-! # The touched list

What a diff, a merge patch and the three writes of a view report is exact: it is empty when nothing
changed, each entry is true, and every difference is at, above or below an entry. -/

namespace PveMeta
open View Patch Value

variable {path pre : Path} {v w old new : Value} {m m' whole om nm : Members} {k : String} {T : List Touched}

/-! ### Diffs -/

/-- The part of a diff that is about the key `k` of the new map. -/
def diffKey (path : Path) (om : Members) (k : String) (nv : Value) : List Touched :=
  match Assoc.get? k om with
  | some ov =>
    if ov.isObject && nv.isObject then diffAt (path.join k) ov nv
    else if ov == nv then [] else [⟨path.join k, .set⟩]
  | none => [⟨path.join k, .set⟩]

theorem diffMembers_eq : diffMembers path om nm = nm.flatMap fun e => diffKey path om e.1 e.2 := by
  induction nm with
  | nil => rfl
  | cons e nm ih =>
    rw [diffMembers, List.flatMap_cons, ih]
    rfl

/-- Values that are not both maps are compared as a whole. -/
theorem diffAt_leaf (h : ¬ (old.isObject = true ∧ new.isObject = true)) :
    diffAt path old new = if old == new then [] else [⟨path, .set⟩] := by
  cases new <;> try rfl
  cases old <;> first | rfl | exact absurd ⟨rfl, rfl⟩ h

theorem Exact.leaf (hv : v.WF) (hw : w.WF) : Exact path (some v) (some w) (if v == w then [] else [⟨path, .set⟩]) := by
  split
  · next heq =>
    refine ⟨by simp, fun r hne => absurd (optEq_optAt (optEq_some.mpr heq) ?_ ?_ r) hne⟩ <;> rintro _ ⟨⟩ <;> assumption
  · next hne => exact Exact.set hne

/-- Two maps differ where their keys do; `hkey` is the induction hypothesis, for the keys of the new map. -/
theorem diffAt_object_exactOn (hn : (Value.object nm).WF)
    (hkey : ∀ e ∈ nm, Exact (path.join e.1) (Assoc.get? e.1 om) (some e.2) (diffKey path om e.1 e.2)) :
    ExactOn path (fun _ => True) om nm (diffAt path (.object om) (.object nm)) where
  frame k hk := absurd trivial hk
  sound t ht := by
    rw [diffAt, diffMembers_eq] at ht
    rcases List.mem_append.mp ht with ht | ht
    · obtain ⟨e, he, ht⟩ := List.mem_flatMap.mp ht
      refine ⟨e.1, trivial, ?_⟩
      rw [Assoc.get?_of_mem hn.keys he]
      exact (hkey e he).sound t ht
    · obtain ⟨k, hk, rfl⟩ := List.mem_map.mp ht
      obtain ⟨hk, hnone⟩ := List.mem_filter.mp hk
      refine ⟨k, trivial, [], by simp, ?_⟩
      rw [optAt_nil, optAt_nil]
      exact ⟨Assoc.get?_isSome_iff.mpr hk, Option.isNone_iff_eq_none.mp hnone⟩
  covers k r hne := by
    rw [diffAt, diffMembers_eq]
    cases hk : Assoc.get? k nm with
    | some nv =>
      have he := Assoc.mem_of_get? hk
      rw [hk] at hne
      obtain ⟨t, ht, hs⟩ := (hkey _ he).covers r hne
      exact ⟨t, List.mem_append_left _ (List.mem_flatMap.mpr ⟨_, he, ht⟩), hs⟩
    | none =>
      have hmem : k ∈ Assoc.keys om := by
        rw [← Assoc.get?_isSome_iff]
        by_contra hnone
        rw [Option.not_isSome_iff_eq_none] at hnone
        simp [hk, hnone] at hne
      refine ⟨⟨path.join k, .delete⟩, List.mem_append_right _ (List.mem_map.mpr ⟨k, ?_, rfl⟩), [], by simp⟩
      exact List.mem_filter.mpr ⟨hmem, by simp [hk]⟩

theorem diffAt_exact (hold : old.WF) (hnew : new.WF) : Exact path (some old) (some new) (diffAt path old new) := by
  induction new using Value.ind generalizing path old with
  | object nm ih =>
    cases old
    case object om =>
      refine (diffAt_object_exactOn hnew fun e he => ?_).exact hold hnew
      have hew := hnew.members e he
      unfold diffKey
      cases hk : Assoc.get? e.1 om with
      | none => exact Exact.set not_optEq_none_some
      | some ov =>
        dsimp only
        split
        · exact ih e he (hold.of_get? hk) hew
        · exact Exact.leaf (hold.of_get? hk) hew
    all_goals
      rw [diffAt_leaf (by simp [isObject])]
      exact Exact.leaf hold hnew
  | _ =>
    rw [diffAt_leaf (by simp [isObject])]
    exact Exact.leaf hold hnew

theorem diffAt_object_keys (ho : (Value.object om).WF) (hn : (Value.object nm).WF) :
    ExactOn path (fun _ => True) om nm (diffAt path (.object om) (.object nm)) := by
  refine diffAt_object_exactOn hn fun e he => ?_
  have hew := hn.members e he
  unfold diffKey
  cases hk : Assoc.get? e.1 om with
  | none => exact Exact.set not_optEq_none_some
  | some ov =>
    dsimp only
    split
    · exact diffAt_exact (ho.of_get? hk) hew
    · exact Exact.leaf (ho.of_get? hk) hew

/-! ### Merge patches -/

/-- The keys that an entry for `k` of the patch map `whole` can change: its own, and its note unless the
    patch has an entry for the note. -/
def Changes (whole : Members) (k j : String) : Prop :=
  j = k ∨ (j = k ++ commentSuffix ∧ Assoc.get? j whole = none)

theorem note_ne (k : String) : k ++ commentSuffix ≠ k := by
  intro h
  have := congrArg String.length h
  simp [commentSuffix] at this

theorem note_injective {j k : String} (h : j ++ commentSuffix = k ++ commentSuffix) : j = k := by
  have := congrArg String.toList h
  simpa [String.toList_inj] using this

/-- Entries for different keys of one patch change different keys of the map. -/
theorem Changes.disjoint {k l j : String} (hkl : k ≠ l) (hk : k ∈ Assoc.keys whole) (hl : l ∈ Assoc.keys whole)
    (h₁ : Changes whole k j) : ¬ Changes whole l j := by
  rintro (rfl | ⟨rfl, hnone⟩)
  · rcases h₁ with rfl | ⟨-, hnone⟩
    · exact hkl rfl
    · exact Assoc.get?_eq_none_iff.mp hnone hl
  · rcases h₁ with rfl | ⟨heq, -⟩
    · exact Assoc.get?_eq_none_iff.mp hnone hk
    · exact hkl (note_injective heq).symm

theorem setKey_frame {j : String} (hj : j ≠ k) : Assoc.get? j (setKey path k v m).2 = Assoc.get? j m := by
  unfold setKey
  split
  · rfl
  · exact Assoc.get?_insert_ne hj

theorem deleteKey_frame {j : String} (hj : ¬ Changes whole k j) :
    Assoc.get? j (deleteKey whole path k m).2 = Assoc.get? j m := by
  have hne : j ≠ k := fun h => hj (Or.inl h)
  unfold deleteKey
  dsimp only
  split
  · next hnote =>
    rw [Bool.and_eq_true, Option.isNone_iff_eq_none] at hnote
    rw [Assoc.get?_erase_ne fun h => hj (Or.inr ⟨h, h ▸ hnote.1⟩), Assoc.get?_erase_ne hne]
  · exact Assoc.get?_erase_ne hne

theorem applyEntry_frame {j : String} (hj : ¬ Changes whole k j) :
    Assoc.get? j (applyEntry whole path k m v).2 = Assoc.get? j m := by
  have hne : j ≠ k := fun h => hj (Or.inl h)
  cases v with
  | null => exact deleteKey_frame hj
  | object q =>
    unfold applyEntry
    split
    · exact Assoc.get?_insert_ne hne
    · split
      · exact setKey_frame hne
      · dsimp only
        split
        · exact Assoc.get?_insert_ne hne
        · rfl
  | _ => exact setKey_frame hne

theorem applyEntries_frame {es : Members} {j : String} (hj : ∀ k ∈ Assoc.keys es, ¬ Changes whole k j) :
    Assoc.get? j (applyEntries whole path m es).2 = Assoc.get? j m := by
  induction es generalizing m with
  | nil => rfl
  | cons e es ih =>
    rw [applyEntries]
    dsimp only
    rw [ih fun k hk => hj k (List.mem_cons_of_mem _ hk), applyEntry_frame (hj e.1 List.mem_cons_self)]

/-- What can be said, by keys, of a change of the map at a path and of the report of it: it holds of a change of one key,
    and of changes of different keys together. -/
structure KeyWise (R : Path → (String → Prop) → Members → Members → List Touched → Prop) : Prop where
  nil : ∀ {path K m}, (Value.object m).WF → R path K m m []
  mono : ∀ {path K K' m m' T}, R path K m m' T → (∀ k, K k → K' k) → R path K' m m' T
  trans : ∀ {path K₁ K₂ m m₁ m₂ T₁ T₂}, R path K₁ m m₁ T₁ → R path K₂ m₁ m₂ T₂ →
    (∀ k, ¬ K₁ k → Assoc.get? k m₁ = Assoc.get? k m) → (∀ k, ¬ K₂ k → Assoc.get? k m₂ = Assoc.get? k m₁) →
    (∀ k, K₁ k → ¬ K₂ k) → R path (fun k => K₁ k ∨ K₂ k) m m₂ (T₁ ++ T₂)
  delete : ∀ {path k m}, (Value.object m).WF → (Assoc.get? k m).isSome = true →
    R path (· = k) m (Assoc.erase k m) [⟨path.join k, .delete⟩]
  set : ∀ {path k v m}, (Value.object m).WF → ¬ (Assoc.get? k m).any (· == v) = true →
    (∀ n, Assoc.get? k m = some (.object n) → ¬ v.isObject = true) →
    R path (· = k) m (Assoc.insert k v m) [⟨path.join k, .set⟩]
  child : ∀ {path K k m child child' T}, (Value.object m).WF → Assoc.get? k m = some (.object child) →
    (Value.object child').WF → R (path.join k) K child child' T →
    R path (· = k) m (Assoc.insert k (.object child') m) T

namespace KeyWise

variable {R : Path → (String → Prop) → Members → Members → List Touched → Prop}

theorem setKey (hR : KeyWise R) (hm : (Value.object m).WF)
    (hmaps : ∀ n, Assoc.get? k m = some (.object n) → ¬ v.isObject = true) :
    R path (· = k) m (setKey path k v m).2 (setKey path k v m).1 := by
  unfold Patch.setKey
  split
  · exact hR.nil hm
  · next hne => exact hR.set hm hne hmaps

theorem erase (hR : KeyWise R) (hm : (Value.object m).WF) : R path (· = k) m (Assoc.erase k m)
    (if (Assoc.get? k m).isSome then [⟨path.join k, .delete⟩] else []) := by
  split
  · next hsome => exact hR.delete hm hsome
  · next hnone =>
    rw [Assoc.erase_eq_self (Option.not_isSome_iff_eq_none.mp hnone)]
    exact hR.nil hm

theorem deleteKey (hR : KeyWise R) (hm : (Value.object m).WF) :
    R path (Changes whole k) m (deleteKey whole path k m).2 (deleteKey whole path k m).1 := by
  unfold Patch.deleteKey
  dsimp only
  split
  · next hnote =>
    rw [Bool.and_eq_true, Option.isNone_iff_eq_none] at hnote
    have h₂ : R path (· = k ++ commentSuffix) (Assoc.erase k m) _ _ := hR.erase hm.erase
    rw [if_pos hnote.2] at h₂
    refine hR.mono (hR.trans (hR.erase hm) h₂ (fun j hj => Assoc.get?_erase_ne hj) (fun j hj => Assoc.get?_erase_ne hj)
      ?_) ?_
    · rintro j rfl
      exact (note_ne j).symm
    · rintro j (rfl | rfl)
      · exact Or.inl rfl
      · exact Or.inr ⟨rfl, hnote.1⟩
  · exact hR.mono (hR.erase hm) fun j hj => Or.inl hj

/-- A run of entries: it holds of each by itself, and no two change one key. -/
theorem applyEntries_of (hR : KeyWise R) {es : Members} (hes : (Value.object es).WF) (hm : (Value.object m).WF)
    (hsub : ∀ k ∈ Assoc.keys es, k ∈ Assoc.keys whole)
    (h : ∀ e ∈ es, ∀ {m}, (Value.object m).WF →
      R path (Changes whole e.1) m (applyEntry whole path e.1 m e.2).2 (applyEntry whole path e.1 m e.2).1) :
    R path (fun j => ∃ k ∈ Assoc.keys es, Changes whole k j) m (applyEntries whole path m es).2
      (applyEntries whole path m es).1 := by
  induction es generalizing m with
  | nil => exact hR.nil hm
  | cons e es ih =>
    have hhead := h e List.mem_cons_self hm
    have hm₁ : (Value.object (applyEntry whole path e.1 m e.2).2).WF :=
      applyEntry_wf (hes.members e List.mem_cons_self) hm
    have htail := ih hes.tail hm₁ (fun k hk => hsub k (List.mem_cons_of_mem _ hk)) fun e' he' =>
      h e' (List.mem_cons_of_mem _ he')
    refine hR.mono (hR.trans hhead htail ?_ ?_ ?_) ?_
    · exact fun j hj => applyEntry_frame hj
    · exact fun j hj => applyEntries_frame fun k hk hkj => hj ⟨k, hk, hkj⟩
    · rintro j hj ⟨k, hk, hkj⟩
      have hne : e.1 ≠ k := fun heq => (List.nodup_cons.mp hes.keys).1 (heq ▸ hk)
      exact hj.disjoint hne (hsub _ List.mem_cons_self) (hsub _ (List.mem_cons_of_mem _ hk)) hkj
    · rintro j (hj | ⟨k, hk, hj⟩)
      · exact ⟨e.1, List.mem_cons_self, hj⟩
      · exact ⟨k, List.mem_cons_of_mem _ hk, hj⟩

theorem applyEntry (hR : KeyWise R) (hv : v.WF) (hm : (Value.object m).WF) :
    R path (Changes whole k) m (applyEntry whole path k m v).2 (applyEntry whole path k m v).1 := by
  induction v using Value.ind generalizing whole m path k with
  | null => exact hR.deleteKey hm
  | object q ih =>
    have hown : ∀ j, j = k → Changes whole k j := fun j hj => Or.inl hj
    unfold Patch.applyEntry
    split
    · next child hk =>
      have hchild := hm.of_get? hk
      have hrec : R (path.join k) _ child (applyEntries q (path.join k) child q).2 _ :=
        hR.applyEntries_of hv hchild (fun _ h => h) fun e he _ hm => ih e he (hv.members e he) hm
      exact hR.mono (hR.child hm hk (applyEntries_wf hv hchild) hrec) hown
    · next hno =>
      have hmaps : ∀ {w : Value} n, Assoc.get? k m = some (.object n) → ¬ w.isObject = true := fun n hn => absurd hn (hno n)
      split
      · exact hR.mono (hR.setKey hm hmaps) hown
      · dsimp only
        split
        · refine hR.mono (hR.set hm (fun heq => ?_) hmaps) hown
          -- What is there is no map, and what is set is one.
          obtain ⟨w, hw, heq⟩ := (Option.any_eq_true _ _).mp heq
          cases w <;> first | exact hno _ hw | cases heq
        · exact hR.nil hm
  | _ => exact hR.mono (hR.setKey hm (by simp [isObject])) fun j hj => Or.inl hj

theorem applyEntries (hR : KeyWise R) {q : Members} (hq : (Value.object q).WF) (hm : (Value.object m).WF) :
    R path (fun j => ∃ k ∈ Assoc.keys q, Changes q k j) m (applyEntries q path m q).2 (applyEntries q path m q).1 :=
  hR.applyEntries_of hq hm (fun _ h => h) fun e he _ hm => hR.applyEntry (hq.members e he) hm

end KeyWise

theorem keyWise_exactOn : KeyWise ExactOn where
  nil hm := .refl hm
  mono h hK := h.mono hK
  trans h₁ h₂ _ _ hdisj := h₁.trans h₂ hdisj
  delete {path k m} hm hsome := by
    refine ExactOn.of_key hm ?_ fun j hj => Assoc.get?_erase_ne hj
    obtain ⟨v, hv⟩ := Option.isSome_iff_exists.mp hsome
    rw [Assoc.get?_erase_self, hv]
    exact Exact.delete
  set {path k v m} hm hne _ := by
    refine ExactOn.of_key hm ?_ fun j hj => Assoc.get?_insert_ne hj
    rw [Assoc.get?_insert_self]
    refine Exact.set fun heq => hne ?_
    cases hk : Assoc.get? k m with
    | none => simp [hk] at heq
    | some w => simpa [hk] using heq
  child {path K k m child child' T} hm hk hchild' h := by
    refine ExactOn.of_key hm ?_ fun j hj => Assoc.get?_insert_ne hj
    rw [hk, Assoc.get?_insert_self]
    exact h.exact (hm.of_get? hk) hchild'

theorem applyEntries_exactOn {q : Members} (hq : (Value.object q).WF) (hm : (Value.object m).WF) :
    ExactOn path (fun j => ∃ k ∈ Assoc.keys q, Changes q k j) m (applyEntries q path m q).2
      (applyEntries q path m q).1 :=
  keyWise_exactOn.applyEntries hq hm

theorem applyPatch_exact {doc patch : Value} (hd : doc.WF) (hp : patch.WF) :
    Exact Path.root (some doc) (some (applyPatch doc patch).2) (applyPatch doc patch).1 := by
  unfold applyPatch
  split
  · next h =>
    rw [Bool.and_eq_true, isObject_iff, isObject_iff] at h
    obtain ⟨⟨m, rfl⟩, p, rfl⟩ := h
    exact (applyEntries_exactOn hp hd).exact hd (applyEntries_wf hp hd)
  · exact Exact.same (by rintro _ ⟨⟩; exact hd)

/-! ### Views -/

theorem removeKey_exactOn {q : Path} (hm : (Value.object m).WF) :
    ExactOn q (fun j => j = k ++ commentSuffix ∨ j = k) m (removeKey q k m).2 (removeKey q k m).1 := by
  refine (keyWise_exactOn.erase hm).trans (ExactOn.of_key hm.erase ?_ fun j hj => Assoc.get?_erase_ne hj) ?_
  · show Exact _ _ (Assoc.get? k (Assoc.erase k (Assoc.erase (k ++ commentSuffix) m))) _
    rw [Assoc.get?_erase_self]
    split
    · next o ho =>
      have hwf := hm.erase.of_get? ho
      rw [ho]
      dsimp only
      split
      · exact Exact.delete
      · next hne =>
        exact (diffAt_object_keys hwf .empty).exact_of_ne_nil (by simpa using hne) (fun _ _ => rfl) (fun _ _ => rfl)
    · next v _ hv =>
      rw [hv]
      exact Exact.delete
    · next hnone =>
      rw [hnone]
      exact Exact.same (by simp)
  · rintro j rfl
    exact note_ne k

theorem replaceTouched_exact {o : Option Value} (ho : ∀ v, o = some v → v.WF) (hv : v.WF) :
    Exact pre o (some v) (replaceTouched pre o v) := by
  unfold replaceTouched
  cases o with
  | some old => exact diffAt_exact (ho _ rfl) hv
  | none =>
    dsimp only
    split
    · exact Exact.set not_optEq_none_some
    · next hne =>
      by_cases hobj : v.isObject = true
      · obtain ⟨nm, rfl⟩ := isObject_iff.mp hobj
        exact (diffAt_object_keys .empty hv).exact_of_ne_nil (by simpa using hne) (fun _ _ => rfl) (fun _ _ => rfl)
      · have hleaf : (Value.object [] == v) = false := by
          cases v <;> first | rfl | exact absurd rfl hobj
        rw [diffAt_leaf (by simp [hobj]), hleaf]
        exact Exact.set not_optEq_none_some

theorem applyObj_exactOn {patch : Value} (pre : Path) (hm : (Value.object m).WF) (hp : patch.WF) :
    ∃ K m', (applyObj (.object m) patch pre).2 = .object m' ∧ (Value.object m').WF ∧
      ExactOn pre K m m' (applyObj (.object m) patch pre).1 := by
  by_cases hobj : patch.isObject = true
  · obtain ⟨p, rfl⟩ := isObject_iff.mp hobj
    exact ⟨_, _, rfl, applyEntries_wf hp hm, applyEntries_exactOn hp hm⟩
  · rw [applyObj_of_not_object hobj]
    exact ⟨fun _ => False, m, rfl, hm, ExactOn.refl hm⟩

/-- What a merge makes of what is at its path is a map, and it says so exactly. -/
theorem mergeScratch_exact {o : Option Value} {patch : Value} (ho : ∀ v, o = some v → v.WF) (hp : patch.WF)
    (hT : (mergeScratch pre o patch).1 ≠ []) :
    ∃ m', (mergeScratch pre o patch).2 = .object m' ∧ (Value.object m').WF ∧
      Exact pre o (some (.object m')) (mergeScratch pre o patch).1 := by
  by_cases hobj : ∃ m, o = some (.object m)
  · obtain ⟨m, rfl⟩ := hobj
    have hm := ho _ rfl
    obtain ⟨K, m', hsnd, hwf, hex⟩ := applyObj_exactOn pre hm hp
    exact ⟨m', hsnd, hwf, hex.exact hm hwf⟩
  · obtain ⟨K, m', hsnd, hwf, hex⟩ := applyObj_exactOn pre (m := []) .empty hp
    have hne : ¬ OptEq o (some (.object m')) := by
      rintro h
      cases o with
      | none => exact h
      | some v => cases v <;> first | exact hobj ⟨_, rfl⟩ | cases h
    have hbelow : ∀ k r, optAt o (k :: r) = optAt (Assoc.get? k []) r := by
      intro k r
      cases o with
      | none => rfl
      | some v => cases v <;> first | exact absurd ⟨_, rfl⟩ hobj | rfl
    have hscratch : mergeScratch pre o patch =
        if o.isSome && (applyObj (.object []) patch pre).1.isEmpty then
          ([⟨pre, .set⟩], (applyObj (.object []) patch pre).2)
        else applyObj (.object []) patch pre := by
      cases o with
      | none => rfl
      | some v => cases v <;> first | exact absurd ⟨_, rfl⟩ hobj | simp [mergeScratch, scratchOf, isObject]
    rw [hscratch] at hT ⊢
    split at hT
    · next hc =>
      rw [if_pos hc]
      exact ⟨m', hsnd, hwf, Exact.set hne⟩
    · next hc =>
      rw [if_neg hc]
      exact ⟨m', hsnd, hwf, hex.exact_of_ne_nil hT hbelow fun _ _ => rfl⟩

/-! ### The three edits -/

theorem Exact.lift_insert {d : Value} {q : Path} (hd : d.WF) (hv : v.WF) (hq : mapAt d q = some m)
    (h : Exact (q.join k) (Assoc.get? k m) (some v) T) :
    Exact Path.root (some d) (some (putAt (Assoc.insert k v m) d q)) T := by
  have hm := mapAt_wf hd hq
  have hon : ExactOn q (· = k) m (Assoc.insert k v m) T := by
    refine ExactOn.of_key hm ?_ fun j hj => Assoc.get?_insert_ne hj
    rwa [Assoc.get?_insert_self]
  refine hon.lift hd (hm.insert hv) hq fun hnil => ?_
  have heq : OptEq (Assoc.get? k m) (some v) :=
    (h.nil_iff (fun _ => hm.of_get?) (by rintro _ ⟨⟩; exact hv)).mp hnil
  have hne : m ≠ [] := by
    rintro rfl
    exact heq
  refine beq_putAt hd (hm.insert hv) (valueAt_of_mapAt hq hne) ?_
  refine (object_beq_iff hm (hm.insert hv)).mpr fun j => ?_
  by_cases hj : j = k
  · rw [hj, Assoc.get?_insert_self]
    exact heq
  · rw [Assoc.get?_insert_ne hj]
    exact OptEq.refl fun _ => hm.of_get?

theorem replace_exact {d x new : Value} (hd : d.WF) (hx : x.WF) (h : replace d pre x = (.ok T, new)) :
    Exact Path.root (some d) (some new) T := by
  rcases pre.eq_root_or_join with rfl | ⟨q, k, rfl⟩
  · cases h
    exact diffAt_exact hd hx
  · rw [replace_join] at h
    split at h
    · next m hq =>
      cases h
      have hm := mapAt_wf hd hq
      exact Exact.lift_insert hd hx hq (replaceTouched_exact (fun _ => hm.of_get?) hx)
    · cases h

theorem merge_exact {d patch new : Value} (hd : d.WF) (hp : patch.WF) (h : merge d pre patch = (.ok T, new)) :
    Exact Path.root (some d) (some new) T := by
  have hsame : Exact Path.root (some d) (some d) [] := Exact.same (by rintro _ ⟨⟩; exact hd)
  rcases pre.eq_root_or_join with rfl | ⟨q, k, rfl⟩
  · cases h
    exact applyPatch_exact hd hp
  · rw [merge_join] at h
    split at h
    · cases h
    · next o ho =>
      obtain ⟨m, hq, rfl⟩ := descend_join_ok ho
      split at h
      · cases h
        exact hsame
      · next hT =>
        cases h
        have hm := mapAt_wf hd hq
        obtain ⟨m', hsnd, hwf, hex⟩ := mergeScratch_exact (fun _ => hm.of_get?) hp (by simpa using hT)
        rw [hq, hsnd]
        exact Exact.lift_insert hd hwf hq hex

theorem remove_exact {d new : Value} (hd : d.WF) (h : remove d pre = (.ok T, new)) :
    Exact Path.root (some d) (some new) T := by
  have hsame : Exact Path.root (some d) (some d) [] := Exact.same (by rintro _ ⟨⟩; exact hd)
  rcases pre.eq_root_or_join with rfl | ⟨q, k, rfl⟩
  · cases h
    exact diffAt_exact hd .empty
  · rw [remove_join] at h
    split at h
    · cases h
    · cases h
      exact hsame
    · next m hq =>
      cases h
      have hq' := mapAt_of_descendFrom hq
      have hm := mapAt_wf hd hq'
      have hm' : (Value.object (removeKey q k m).2).WF := hm.erase.erase
      refine (removeKey_exactOn hm).lift hd hm' hq' fun hnil => ?_
      refine beq_putAt hd hm' (valueAt_of_descend hq) ?_
      have hex := (removeKey_exactOn (q := q) (k := k) hm).exact hm hm'
      exact (hex.nil_iff (by rintro _ ⟨⟩; exact hm) (by rintro _ ⟨⟩; exact hm')).mp hnil
    · cases h

theorem View.Edit.run_exact {old : Tree} {edit : Edit} {new : Value} (h : edit.run old.val = (.ok T, new)) :
    Exact Path.root (some old.val) (some new) T := by
  cases edit with
  | replace pre x => exact replace_exact old.2 x.2 h
  | merge pre patch => exact merge_exact old.2 patch.2 h
  | remove pre => exact remove_exact old.2 h

/-- The value at a path of a document, as a view reads it: nothing where a segment is missing or the path
    runs into anything but a map. -/
def readAt (doc : Value) (p : Path) : Option Value := (extract doc p).toOption.join

theorem readAt_eq (d : Value) (p : Path) : readAt d p = valueAt d p := (valueAt_eq p d p).symm

/-- The touched list of a replace, a merge or a remove is empty exactly when nothing changed; a path
    reported as set holds a value it did not hold, one reported as deleted is gone; and where two
    documents differ, a touched path is at, above or below. -/
theorem touched_list_exact {old : Tree} {edit : Edit} {touched : List Touched} {new : Value}
    (h : edit.run old.val = (.ok touched, new)) :
    (touched = [] ↔ (old.val == new) = true) ∧
      (∀ t ∈ touched, t.op = .set → ∃ v, readAt new t.path = some v ∧ ¬ OptEq (readAt old.val t.path) (some v)) ∧
      (∀ t ∈ touched, t.op = .delete → (readAt old.val t.path).isSome ∧ readAt new t.path = none) ∧
      (∀ q, ¬ OptEq (readAt old.val q) (readAt new q) → ∃ t ∈ touched, q <+: t.path ∨ t.path <+: q) ∧
      (∀ q, (∀ t ∈ touched, Path.Incomparable q t.path) → OptEq (readAt old.val q) (readAt new q)) := by
  have hex := edit.run_exact h
  have hnew : new.WF := by
    have hwf := edit.run_wf old
    rwa [h] at hwf
  have hold : ∀ v, some old.val = some v → v.WF := by
    rintro _ ⟨⟩
    exact old.2
  have hcovers : ∀ q, ¬ OptEq (readAt old.val q) (readAt new q) → ∃ t ∈ touched, q <+: t.path ∨ t.path <+: q := by
    intro q hne
    rw [readAt_eq, readAt_eq] at hne
    obtain ⟨t, ht, s, hs, hc⟩ := hex.covers q hne
    obtain rfl : t.path = s := hs
    exact ⟨t, ht, hc⟩
  refine ⟨hex.nil_iff hold (by rintro _ ⟨⟩; exact hnew), fun t ht hop => ?_, fun t ht hop => ?_, hcovers,
    fun q hq => ?_⟩
  · obtain ⟨r, hr, hholds⟩ := hex.sound t ht
    obtain rfl : t.path = r := hr
    rw [hop] at hholds
    rw [readAt_eq, readAt_eq]
    exact hholds
  · obtain ⟨r, hr, hholds⟩ := hex.sound t ht
    obtain rfl : t.path = r := hr
    rw [hop] at hholds
    rw [readAt_eq, readAt_eq]
    exact hholds
  · by_contra hne
    obtain ⟨t, ht, hc⟩ := hcovers q hne
    exact hc.elim (hq t ht).1 (hq t ht).2

/-- One merge that sets, deletes and takes a note along: `{"a": 1, "b": 2, "b__": "n"}` under
    `{"a": 3, "b": null}`. -/
theorem touched_list_exact_merge :
    let old := Value.object [("a", .number (.posInt 1)), ("b", .number (.posInt 2)), ("b__", .string "n")]
    let new := Value.object [("a", .number (.posInt 3))]
    (readAt old ["b__"]).isSome ∧ readAt new ["b__"] = none :=
  let old : Tree := ⟨.object [("a", .number (.posInt 1)), ("b", .number (.posInt 2)), ("b__", .string "n")],
    .object (by decide) (by simp [WF.number, WF.string])⟩
  let patch : Tree := ⟨.object [("a", .number (.posInt 3)), ("b", .null)],
    .object (by decide) (by simp [WF.number, WF.null])⟩
  have h : (Edit.merge Path.root patch).run old.val = (.ok [⟨["a"], .set⟩, ⟨["b"], .delete⟩, ⟨["b__"], .delete⟩], _) :=
    rfl
  (touched_list_exact h).2.2.1 ⟨["b__"], .delete⟩ (by simp) rfl

end PveMeta
