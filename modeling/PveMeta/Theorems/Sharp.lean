import PveMeta.Theorems.Touched

/-! # Where a touched path stops

Two reports of one change can name different places: a merge onto a scalar names the keys it puts there, a diff
the scalar. What all of them keep to is that a map that stays a map is not named itself, and that a key is only
named as deleted in a map. This is what tells that whatever stands at, above or below an entry of one report
stands so to one of the other. -/

namespace PveMeta
open View Patch Value

def IsMap (o : Option Value) : Prop := ∃ m, o = some (.object m)

/-- What is set at `r` is not a map instead of a map; what is deleted at `r` was deleted from a map that is
    still there. -/
def Op.Sharp (o n : Option Value) (r : Path) : Op → Prop
  | .set => ¬ (IsMap (optAt o r) ∧ IsMap (optAt n r))
  | .delete => ∀ q, q <+: r → q ≠ r → IsMap (optAt n q)

/-- The entries of a report of the change of the value at `path` are sharp. -/
def Sharp (path : Path) (o n : Option Value) (T : List Touched) : Prop :=
  ∀ t ∈ T, ∃ r, t.path = path ++ r ∧ t.op.Sharp o n r

/-- The entries of a report of the change of the map at `path`, in keys of `K`, are sharp. -/
def SharpOn (path : Path) (K : String → Prop) (m m' : Members) (T : List Touched) : Prop :=
  ∀ t ∈ T, ∃ k, K k ∧ ∃ r, t.path = path.join k ++ r ∧ t.op.Sharp (Assoc.get? k m) (Assoc.get? k m') r

variable {path pre : Path} {o n : Option Value} {v w old new : Value} {m m' m₁ m₂ whole om nm : Members} {k : String}
  {T T₁ T₂ : List Touched} {K K₁ K₂ : String → Prop}

/-! ### Single entries -/

theorem Sharp.nil : Sharp path o n [] := fun t ht => by cases ht

theorem SharpOn.nil : SharpOn path K m m' [] := fun t ht => by cases ht

theorem Sharp.set (h : ¬ (IsMap o ∧ IsMap n)) : Sharp path o n [⟨path, .set⟩] := by
  intro t ht
  obtain rfl := List.mem_singleton.mp ht
  exact ⟨[], by simp, by simpa [Op.Sharp] using h⟩

theorem Sharp.delete : Sharp path o n [⟨path, .delete⟩] := by
  intro t ht
  obtain rfl := List.mem_singleton.mp ht
  exact ⟨[], by simp, fun q hq hne => absurd (List.prefix_nil.mp hq) hne⟩

theorem SharpOn.mono (h : SharpOn path K₁ m m' T) (hK : ∀ k, K₁ k → K₂ k) : SharpOn path K₂ m m' T := fun t ht => by
  obtain ⟨k, hk, hr⟩ := h t ht
  exact ⟨k, hK k hk, hr⟩

theorem SharpOn.of_key (h : Sharp (path.join k) (Assoc.get? k m) (Assoc.get? k m') T) :
    SharpOn path (· = k) m m' T := fun t ht => ⟨k, rfl, h t ht⟩

theorem SharpOn.trans (h₁ : SharpOn path K₁ m m₁ T₁) (h₂ : SharpOn path K₂ m₁ m₂ T₂)
    (hf₁ : ∀ k, ¬ K₁ k → Assoc.get? k m₁ = Assoc.get? k m) (hf₂ : ∀ k, ¬ K₂ k → Assoc.get? k m₂ = Assoc.get? k m₁)
    (hdisj : ∀ k, K₁ k → ¬ K₂ k) : SharpOn path (fun k => K₁ k ∨ K₂ k) m m₂ (T₁ ++ T₂) := by
  intro t ht
  rcases List.mem_append.mp ht with ht | ht
  · obtain ⟨k, hk, r, hr⟩ := h₁ t ht
    rw [← hf₂ k (hdisj k hk)] at hr
    exact ⟨k, Or.inl hk, r, hr⟩
  · obtain ⟨k, hk, r, hr⟩ := h₂ t ht
    rw [hf₁ k fun h => hdisj k h hk] at hr
    exact ⟨k, Or.inr hk, r, hr⟩

/-- A report about the keys of a map is one about the map, and about whatever became it and reads as `m` does
    below its own place. -/
theorem SharpOn.sharp_of_below (h : SharpOn path K m m' T) (ho : ∀ k r, optAt o (k :: r) = optAt (Assoc.get? k m) r) :
    Sharp path o (some (.object m')) T := by
  intro t ht
  obtain ⟨k, -, r, hr, hop⟩ := h t ht
  refine ⟨k :: r, by rw [hr, Path.join_append], ?_⟩
  cases hc : t.op with
  | set =>
    rw [hc] at hop
    rw [Op.Sharp, ho]
    exact hop
  | delete =>
    rw [hc] at hop
    intro q hq hne
    cases q with
    | nil => exact ⟨m', optAt_nil⟩
    | cons j q =>
      obtain ⟨rfl, hrest⟩ := List.cons_prefix_cons.mp hq
      exact hop q hrest fun heq => hne (by rw [heq])

theorem SharpOn.sharp (h : SharpOn path K m m' T) : Sharp path (some (.object m)) (some (.object m')) T :=
  h.sharp_of_below fun _ _ => rfl

theorem isMap_putAt {d : Value} {q r : Path} (h : mapAt d q = some m) (hr : r <+: q) :
    IsMap (valueAt (putAt m' d q) r) := by
  induction q generalizing d r with
  | nil =>
    obtain ⟨m₀, rfl⟩ := exists_object_of_mapAt h
    rw [List.prefix_nil.mp hr, putAt_object_nil]
    exact ⟨m', valueAt_nil⟩
  | cons seg q ih =>
    obtain ⟨m₀, rfl⟩ := exists_object_of_mapAt h
    rw [putAt_object_cons]
    cases r with
    | nil => exact ⟨_, valueAt_nil⟩
    | cons j r =>
      obtain ⟨rfl, hrest⟩ := List.cons_prefix_cons.mp hr
      rw [valueAt_object_key, Assoc.get?_insert_self, optAt_some]
      exact ih h hrest

theorem SharpOn.lift {d : Value} {q : Path} (h : SharpOn q K m m' T) (hq : mapAt d q = some m) :
    Sharp Path.root (some d) (some (putAt m' d q)) T := by
  intro t ht
  obtain ⟨k, -, r, hr, hop⟩ := h t ht
  refine ⟨t.path, rfl, ?_⟩
  rw [hr, Path.join_append]
  cases hc : t.op with
  | set =>
    rw [hc] at hop
    rw [Op.Sharp, optAt_some, optAt_some, valueAt_below hq, valueAt_below (mapAt_putAt hq)]
    exact hop
  | delete =>
    rw [hc] at hop
    intro s hs hne
    rw [optAt_some]
    rcases List.prefix_or_prefix_of_prefix hs (List.prefix_append q (k :: r)) with hsq | ⟨u, rfl⟩
    · exact isMap_putAt hq hsq
    · cases u with
      | nil => exact isMap_putAt hq (by simp)
      | cons j u =>
        obtain ⟨rfl, hu⟩ := List.cons_prefix_cons.mp ((List.prefix_append_right_inj q).mp hs)
        rw [valueAt_below (mapAt_putAt hq)]
        exact hop u hu fun heq => hne (by rw [heq])

/-! ### Diffs -/

theorem isMap_iff : IsMap (some v) ↔ v.isObject = true := by
  rw [isObject_iff]
  exact ⟨fun ⟨m, hm⟩ => ⟨m, Option.some.inj hm⟩, fun ⟨m, hm⟩ => ⟨m, congrArg some hm⟩⟩

theorem Sharp.leaf (h : ¬ (old.isObject = true ∧ new.isObject = true)) :
    Sharp path (some old) (some new) (if old == new then [] else [⟨path, .set⟩]) := by
  split
  · exact Sharp.nil
  · exact Sharp.set (by rwa [isMap_iff, isMap_iff])

/-- The keys of a diff of maps: `hkey` is the induction hypothesis, for the keys of the new map. -/
theorem diffAt_object_sharpOn (hn : (Value.object nm).WF)
    (hkey : ∀ e ∈ nm, Sharp (path.join e.1) (Assoc.get? e.1 om) (some e.2) (diffKey path om e.1 e.2)) :
    SharpOn path (fun _ => True) om nm (diffAt path (.object om) (.object nm)) := by
  intro t ht
  rw [diffAt, diffMembers_eq] at ht
  rcases List.mem_append.mp ht with ht | ht
  · obtain ⟨e, he, ht⟩ := List.mem_flatMap.mp ht
    obtain ⟨r, hr, hop⟩ := hkey e he t ht
    exact ⟨e.1, trivial, r, hr, by rwa [Assoc.get?_of_mem hn.keys he]⟩
  · obtain ⟨k, -, rfl⟩ := List.mem_map.mp ht
    exact ⟨k, trivial, [], by simp, fun q hq hne => absurd (List.prefix_nil.mp hq) hne⟩

theorem diffAt_sharp (hnew : new.WF) : Sharp path (some old) (some new) (diffAt path old new) := by
  induction new using Value.ind generalizing path old with
  | object nm ih =>
    cases old
    case object om =>
      refine (diffAt_object_sharpOn hnew fun e he => ?_).sharp
      unfold diffKey
      cases hk : Assoc.get? e.1 om with
      | none => exact Sharp.set fun h => nomatch h.1
      | some ov =>
        dsimp only
        split
        · exact ih e he (hnew.members e he)
        · next hno => exact Sharp.leaf (by simpa using hno)
    all_goals
      rw [diffAt_leaf (by simp [isObject])]
      exact Sharp.leaf (by simp [isObject])
  | _ =>
    rw [diffAt_leaf (by simp [isObject])]
    exact Sharp.leaf (by simp [isObject])

/-- A diff from the empty map is one from nothing. -/
theorem diffAt_empty_sharp (hv : v.WF) : Sharp path none (some v) (diffAt path (.object []) v) := by
  have hnone : ¬ IsMap none := fun ⟨_, h⟩ => nomatch h
  by_cases hobj : v.isObject = true
  · obtain ⟨nm, rfl⟩ := isObject_iff.mp hobj
    refine (diffAt_object_sharpOn hv fun e he => ?_).sharp_of_below fun _ _ => rfl
    exact Sharp.set fun h => hnone h.1
  · rw [diffAt_leaf (by simp [hobj])]
    split
    · exact Sharp.nil
    · exact Sharp.set fun h => hnone h.1

/-! ### Merge patches -/

theorem keyWise_sharpOn : KeyWise SharpOn where
  nil _ := .nil
  mono h hK := h.mono hK
  trans h₁ h₂ hf₁ hf₂ hdisj := h₁.trans h₂ hf₁ hf₂ hdisj
  delete _ _ := .of_key .delete
  set {path k v m} _ _ hmaps := by
    refine SharpOn.of_key (Sharp.set ?_)
    rintro ⟨⟨n, hn⟩, hv⟩
    rw [Assoc.get?_insert_self, isMap_iff] at hv
    exact hmaps n hn hv
  child {path K k m child child' T} _ hk _ h := by
    refine SharpOn.of_key ?_
    rw [hk, Assoc.get?_insert_self]
    exact h.sharp

theorem applyEntries_sharpOn {q : Members} (hq : (Value.object q).WF) (hm : (Value.object m).WF) :
    SharpOn path (fun j => ∃ k ∈ Assoc.keys q, Changes q k j) m (applyEntries q path m q).2
      (applyEntries q path m q).1 :=
  keyWise_sharpOn.applyEntries hq hm

/-! ### Views -/

theorem replaceTouched_sharp {o : Option Value} (hv : v.WF) : Sharp pre o (some v) (replaceTouched pre o v) := by
  unfold replaceTouched
  cases o with
  | some old => exact diffAt_sharp hv
  | none =>
    dsimp only
    split
    · exact Sharp.set fun h => nomatch h.1
    · exact diffAt_empty_sharp hv

theorem applyObj_sharpOn {patch : Value} (pre : Path) (hm : (Value.object m).WF) (hp : patch.WF) :
    ∃ K m', (applyObj (.object m) patch pre).2 = .object m' ∧ SharpOn pre K m m' (applyObj (.object m) patch pre).1 := by
  by_cases hobj : patch.isObject = true
  · obtain ⟨p, rfl⟩ := isObject_iff.mp hobj
    exact ⟨_, _, rfl, applyEntries_sharpOn hp hm⟩
  · rw [applyObj_of_not_object hobj]
    exact ⟨fun _ => False, m, rfl, SharpOn.nil⟩

theorem mergeScratch_sharp {o : Option Value} {patch : Value} (ho : ∀ v, o = some v → v.WF) (hp : patch.WF) :
    Sharp pre o (some (mergeScratch pre o patch).2) (mergeScratch pre o patch).1 := by
  by_cases hobj : ∃ m, o = some (.object m)
  · obtain ⟨m, rfl⟩ := hobj
    obtain ⟨K, m', hsnd, hsharp⟩ := applyObj_sharpOn pre (ho _ rfl) hp
    have hscratch : mergeScratch pre (some (.object m)) patch = applyObj (.object m) patch pre := rfl
    rw [hscratch, hsnd]
    exact hsharp.sharp
  · obtain ⟨K, m', hsnd, hsharp⟩ := applyObj_sharpOn (m := []) pre .empty hp
    have hof : scratchOf o = .object [] := by
      cases o with
      | none => rfl
      | some v => cases v <;> first | rfl | exact absurd ⟨_, rfl⟩ hobj
    have hbelow : ∀ k r, optAt o (k :: r) = optAt (Assoc.get? k []) r := by
      intro k r
      cases o with
      | none => rfl
      | some v => cases v <;> first | exact absurd ⟨_, rfl⟩ hobj | rfl
    unfold mergeScratch
    rw [hof]
    dsimp only
    split
    · exact Sharp.set fun h => hobj h.1
    · dsimp only
      rw [hsnd]
      exact hsharp.sharp_of_below hbelow

/-! ### The edits of a put -/

theorem Sharp.lift_insert {d : Value} {q : Path} (hq : mapAt d q = some m)
    (h : Sharp (q.join k) (Assoc.get? k m) (some v) T) :
    Sharp Path.root (some d) (some (putAt (Assoc.insert k v m) d q)) T := by
  have hon : SharpOn q (· = k) m (Assoc.insert k v m) T := SharpOn.of_key (by rwa [Assoc.get?_insert_self])
  exact hon.lift hq

theorem applyPatch_sharp {doc patch : Value} (hd : doc.WF) (hp : patch.WF) :
    Sharp Path.root (some doc) (some (applyPatch doc patch).2) (applyPatch doc patch).1 := by
  unfold applyPatch
  split
  · next h =>
    rw [Bool.and_eq_true, isObject_iff, isObject_iff] at h
    obtain ⟨⟨m, rfl⟩, p, rfl⟩ := h
    exact (applyEntries_sharpOn hp hd).sharp
  · exact Sharp.nil

theorem replace_sharp {d x new : Value} (hx : x.WF) (h : replace d pre x = (.ok T, new)) :
    Sharp Path.root (some d) (some new) T := by
  rcases pre.eq_root_or_join with rfl | ⟨q, k, rfl⟩
  · cases h
    exact diffAt_sharp hx
  · rw [replace_join] at h
    split at h
    · next m hq =>
      cases h
      exact Sharp.lift_insert hq (replaceTouched_sharp hx)
    · cases h

theorem merge_sharp {d patch new : Value} (hd : d.WF) (hp : patch.WF) (h : merge d pre patch = (.ok T, new)) :
    Sharp Path.root (some d) (some new) T := by
  rcases pre.eq_root_or_join with rfl | ⟨q, k, rfl⟩
  · cases h
    exact applyPatch_sharp hd hp
  · rw [merge_join] at h
    split at h
    · cases h
    · next o ho =>
      obtain ⟨m, hq, rfl⟩ := descend_join_ok ho
      split at h
      · cases h
        exact Sharp.nil
      · next hT =>
        cases h
        rw [hq]
        exact Sharp.lift_insert hq (mergeScratch_sharp (fun _ => (mapAt_wf hd hq).of_get?) hp)

end PveMeta
