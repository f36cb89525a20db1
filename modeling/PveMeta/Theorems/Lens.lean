import PveMeta.Theorems.Touched

/-! # A view is a lens on its document

Reading what was written, writing what was read, writing twice; and the frame: a write of one view is
invisible in a view that neither contains it nor lies in it. -/

namespace PveMeta
namespace View
open Patch Value

variable {d d' v : Value} {m : Members} {p q : Path} {k : String} {x y : Value} {T : List Touched}

theorem diffAt_self (hx : x.WF) : diffAt p x x = [] :=
  ((diffAt_exact hx hx).nil_iff (by rintro _ ⟨⟩; exact hx) (by rintro _ ⟨⟩; exact hx)).mpr (beq_refl hx)

/-- A path that leads through the map at `q` but not below its key `k` leaves the key alone. -/
theorem extract_putAt (hq : mapAt d q = some m) {m' : Members} {r : Path}
    (hframe : ∀ j s, r = q ++ j :: s → Assoc.get? j m' = Assoc.get? j m) (hr : ¬ r <+: q) :
    extract (putAt m' d q) r = extract d r := by
  by_cases hqr : q <+: r
  · obtain ⟨s, rfl⟩ := hqr
    cases s with
    | nil => exact absurd (by simp) hr
    | cons j s =>
      rw [extract, extract, descend, descend, descendFrom_below hq, descendFrom_below (mapAt_putAt hq),
        descendFrom_object_cons, descendFrom_object_cons, hframe j s rfl]
  · exact descendFrom_putAt_of_not_prefix hq hqr hr

/-! ### The laws -/

theorem extract_replace (h : replace d p x = (.ok T, d')) : extract d' p = .ok (some x) := by
  rcases p.eq_root_or_join with rfl | ⟨q, k, rfl⟩
  · cases h
    rfl
  · rw [replace_join] at h
    split at h
    · next m hq =>
      cases h
      rw [extract, descend, Path.join, descendFrom_below (mapAt_putAt hq), descendFrom_object_cons,
        Assoc.get?_insert_self]
      rfl
    · cases h

theorem replace_extract (hd : d.WF) (h : extract d p = .ok (some x)) : replace d p x = (.ok [], d) := by
  have hx : x.WF := valueAt_wf hd (valueAt_of_descend h)
  rcases p.eq_root_or_join with rfl | ⟨q, k, rfl⟩
  · cases h
    simp only [replace_root, diff, diffAt_self hx]
  · obtain ⟨m, hq, hk⟩ := descend_join_ok h
    have hne : m ≠ [] := by
      rintro rfl
      cases hk
    rw [replace_join, hq]
    simp only [replaceTouched, ← hk, diffAt_self hx, Assoc.insert_eq_self hk.symm]
    rw [putAt_of_valueAt (valueAt_of_mapAt hq hne)]

theorem replace_replace (h : replace d p x = (.ok T, d')) :
    ∃ T₁ T₂ d'', replace d' p y = (.ok T₁, d'') ∧ replace d p y = (.ok T₂, d'') := by
  rcases p.eq_root_or_join with rfl | ⟨q, k, rfl⟩
  · exact ⟨_, _, y, rfl, rfl⟩
  · rw [replace_join] at h
    split at h
    · next m hq =>
      cases h
      refine ⟨replaceTouched (q.join k) (some x) y, replaceTouched (q.join k) (Assoc.get? k m) y,
        putAt (Assoc.insert k y m) d q, ?_, ?_⟩
      · simp only [replace_join, mapAt_putAt hq, Assoc.get?_insert_self, putAt_putAt hq, Assoc.insert_insert]
      · simp only [replace_join, hq]
    · cases h

theorem extract_replace_of_incomparable (h : replace d p x = (.ok T, d')) (hpq : Path.Incomparable q p) :
    extract d' q = extract d q := by
  rcases p.eq_root_or_join with rfl | ⟨r, k, rfl⟩
  · exact absurd List.nil_prefix hpq.2
  · rw [replace_join] at h
    split at h
    · next m hr =>
      cases h
      refine extract_putAt hr (fun j s hq => Assoc.get?_insert_ne ?_) fun hq => hpq.1 (hq.trans (List.prefix_append _ _))
      rintro rfl
      exact hpq.2 (hq ▸ by simp [Path.join])
    · cases h

theorem extract_remove (h : remove d (q.join k) = (.ok T, d')) : extract d' (q.join k) = .ok none := by
  rw [remove_join] at h
  split at h
  · cases h
  · next hq =>
    cases h
    exact descendFrom_append_of_none hq
  · next m hq =>
    cases h
    rw [extract, descend, Path.join, descendFrom_below (mapAt_putAt (mapAt_of_descendFrom hq)),
      descendFrom_object_cons, removeKey, Assoc.get?_erase_self]
  · cases h

/-- A remove takes the note of its key along, and that is all it takes. -/
theorem extract_remove_of_incomparable (h : remove d (q.join k) = (.ok T, d')) {r : Path}
    (hr : Path.Incomparable r (q.join k)) (hnote : ¬ q.join (k ++ commentSuffix) <+: r) :
    extract d' r = extract d r := by
  rw [remove_join] at h
  split at h
  · cases h
  · cases h
    rfl
  · next m hq =>
    cases h
    refine extract_putAt (mapAt_of_descendFrom hq) (fun j s hj => ?_) fun hrq =>
      hr.1 (hrq.trans (List.prefix_append _ _))
    rw [removeKey, Assoc.get?_erase_ne, Assoc.get?_erase_ne]
    · rintro rfl
      exact hnote (hj ▸ by simp [Path.join])
    · rintro rfl
      exact hr.2 (hj ▸ by simp [Path.join])
  · cases h

/-- An error leaves the document as it was. -/
theorem Edit.run_error {edit : Edit} {e : Error} (h : edit.run d = (.error e, d')) : d' = d := by
  cases edit with
  | replace pre x =>
    rcases pre.eq_root_or_join with rfl | ⟨q, k, rfl⟩
    · cases h
    · rw [Edit.run, replace_join] at h
      split at h <;> cases h
      rfl
  | merge pre patch =>
    rcases pre.eq_root_or_join with rfl | ⟨q, k, rfl⟩
    · cases h
    · rw [Edit.run, merge_join] at h
      split at h
      · cases h
        rfl
      · split at h <;> cases h
  | remove pre =>
    rcases pre.eq_root_or_join with rfl | ⟨q, k, rfl⟩
    · cases h
    · rw [Edit.run, remove_join] at h
      split at h <;> cases h <;> rfl

/-- What is read at a path is what was last written there, a write of what is there changes nothing, the
    last of two writes counts, other views see neither writes nor removes, and an error changes nothing. -/
theorem view_lawful_lens (d x y : Tree) (p q : Path) :
    (∀ T d', replace d.val p x.val = (.ok T, d') → extract d' p = .ok (some x.val)) ∧
      (extract d.val p = .ok (some x.val) → replace d.val p x.val = (.ok [], d.val)) ∧
      (∀ T d', replace d.val p x.val = (.ok T, d') →
        ∃ T₁ T₂ d'', replace d' p y.val = (.ok T₁, d'') ∧ replace d.val p y.val = (.ok T₂, d'')) ∧
      (∀ T d', replace d.val p x.val = (.ok T, d') → Path.Incomparable q p → extract d' q = extract d.val q) ∧
      (∀ r k T d', p = Path.join r k → remove d.val p = (.ok T, d') →
        extract d' p = .ok none ∧
          (Path.Incomparable q p → ¬ Path.join r (k ++ commentSuffix) <+: q → extract d' q = extract d.val q)) ∧
      (∀ (edit : Edit) e d', edit.run d.val = (.error e, d') → d' = d.val) := by
  refine ⟨fun _ _ => extract_replace, replace_extract d.2, fun _ _ => replace_replace,
    fun _ _ => extract_replace_of_incomparable, ?_, fun _ _ _ => Edit.run_error⟩
  rintro r k T d' rfl h
  exact ⟨extract_remove h, extract_remove_of_incomparable h⟩

end View
end PveMeta
