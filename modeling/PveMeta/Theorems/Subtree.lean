import PveMeta.View

/-! # The map a view's last segment is in

Every write through a view lands in one map, the one its parent path leads to, created where it is
missing. `mapAt` is that map and `putAt` the document with another map in its place; the two descents
of the code are stated in them, and what a read sees after a write is read off them. -/

namespace PveMeta
namespace View

/-- The map a write below `q` lands in: the one there, an empty one if a segment of `q` is missing,
    none if `q` runs into anything but a map. -/
def mapAt : Value → Path → Option Members
  | .object m, [] => some m
  | .object m, seg :: rest => mapAt ((Assoc.get? seg m).getD (.object [])) rest
  | _, _ => none

/-- The document with the map `m'` at `q`. -/
def putAt (m' : Members) : Value → Path → Value
  | .object _, [] => .object m'
  | .object m, seg :: rest =>
    .object (Assoc.insert seg (putAt m' ((Assoc.get? seg m).getD (.object [])) rest) m)
  | v, _ => v

/-- The value at `p`, where `p` leads through maps to one. -/
def valueAt : Value → Path → Option Value
  | v, [] => some v
  | .object m, seg :: rest => (Assoc.get? seg m).bind fun v => valueAt v rest
  | _, _ :: _ => none

variable {full : Path} {d v : Value} {m m' m₁ m₂ : Members} {q r p : Path} {k seg : String}

@[simp] theorem mapAt_object_nil : mapAt (.object m) [] = some m := rfl

@[simp] theorem mapAt_object_cons :
    mapAt (.object m) (seg :: r) = mapAt ((Assoc.get? seg m).getD (.object [])) r := rfl

@[simp] theorem putAt_object_nil : putAt m' (.object m) [] = .object m' := rfl

@[simp] theorem putAt_object_cons : putAt m' (.object m) (seg :: r) =
    .object (Assoc.insert seg (putAt m' ((Assoc.get? seg m).getD (.object [])) r) m) := rfl

@[simp] theorem descendFrom_nil : descendFrom full d [] = .ok (some d) := rfl

theorem descendFrom_object_cons : descendFrom full (.object m) (seg :: r) =
    match Assoc.get? seg m with
    | some v => descendFrom full v r
    | none => .ok none := rfl

@[simp] theorem valueAt_nil : valueAt d [] = some d := by cases d <;> rfl

@[simp] theorem valueAt_object_cons :
    valueAt (.object m) (k :: r) = (Assoc.get? k m).bind fun v => valueAt v r := rfl

theorem exists_object_of_mapAt (h : mapAt d q = some m) : ∃ m₀, d = .object m₀ := by
  cases d <;> first | exact ⟨_, rfl⟩ | cases q <;> cases h

/-- Below an empty map every segment is missing, so no write is refused there. -/
theorem mapAt_empty (q : Path) : mapAt (.object []) q = some [] := by
  induction q with
  | nil => rfl
  | cons seg rest ih => exact ih

/-! ### Reads against `mapAt` and `putAt` -/

theorem valueAt_eq (full : Path) (d : Value) (p : Path) : valueAt d p = (descendFrom full d p).toOption.join := by
  induction p generalizing d with
  | nil => simp [Except.toOption]
  | cons seg rest ih =>
    cases d <;> try rfl
    next m =>
      rw [descendFrom_object_cons, valueAt_object_cons]
      cases Assoc.get? seg m with
      | none => rfl
      | some v => exact ih v

theorem valueAt_of_descend (h : descend d q = .ok (some v)) : valueAt d q = some v := by
  rw [valueAt_eq q, ← descend, h]
  rfl

theorem mapAt_of_descendFrom (h : descendFrom full d q = .ok (some (.object m))) : mapAt d q = some m := by
  induction q generalizing d with
  | nil =>
    cases h
    rfl
  | cons seg rest ih =>
    cases d <;> try cases h
    next M =>
      rw [descendFrom_object_cons] at h
      rw [mapAt_object_cons]
      split at h
      · next v hv => rw [hv]; exact ih h
      · cases h

/-- A descent below the map a write lands in starts over in that map. -/
theorem descendFrom_below (h : mapAt d q = some m) :
    descendFrom full d (q ++ k :: r) = descendFrom full (.object m) (k :: r) := by
  induction q generalizing d with
  | nil =>
    obtain ⟨m₀, rfl⟩ := exists_object_of_mapAt h
    cases h
    rfl
  | cons seg rest ih =>
    obtain ⟨M, rfl⟩ := exists_object_of_mapAt h
    rw [mapAt_object_cons] at h
    rw [List.cons_append, descendFrom_object_cons]
    cases hv : Assoc.get? seg M with
    | some v =>
      rw [hv] at h
      exact ih h
    | none =>
      rw [hv, Option.getD_none, mapAt_empty] at h
      cases h
      rfl

theorem exists_mapAt_of_descendFrom {o : Option Value} (h : descendFrom full d (q ++ k :: r) = .ok o) :
    ∃ m, mapAt d q = some m := by
  induction q generalizing d with
  | nil =>
    cases d <;> first | exact ⟨_, rfl⟩ | cases h
  | cons seg rest ih =>
    cases d <;> try cases h
    next M =>
      rw [List.cons_append, descendFrom_object_cons] at h
      rw [mapAt_object_cons]
      cases hv : Assoc.get? seg M with
      | some v =>
        rw [hv] at h
        exact ih h
      | none => exact ⟨[], mapAt_empty rest⟩

/-- Below a missing segment everything is missing. -/
theorem descendFrom_append_of_none {full' : Path} (h : descendFrom full d q = .ok none) :
    descendFrom full' d (q ++ r) = .ok none := by
  induction q generalizing d with
  | nil => cases h
  | cons seg rest ih =>
    cases d <;> try cases h
    next M =>
      rw [descendFrom_object_cons] at h
      rw [List.cons_append, descendFrom_object_cons]
      split at h
      · exact ih h
      · rfl

theorem mapAt_putAt (h : mapAt d q = some m) : mapAt (putAt m' d q) q = some m' := by
  induction q generalizing d with
  | nil =>
    obtain ⟨m₀, rfl⟩ := exists_object_of_mapAt h
    rfl
  | cons seg rest ih =>
    obtain ⟨M, rfl⟩ := exists_object_of_mapAt h
    simp only [putAt_object_cons, mapAt_object_cons, Assoc.get?_insert_self, Option.getD_some]
    exact ih h

/-- The second write of a map is the one that stays. -/
theorem putAt_putAt (h : mapAt d q = some m) : putAt m₂ (putAt m₁ d q) q = putAt m₂ d q := by
  induction q generalizing d with
  | nil =>
    obtain ⟨m₀, rfl⟩ := exists_object_of_mapAt h
    rfl
  | cons seg rest ih =>
    obtain ⟨M, rfl⟩ := exists_object_of_mapAt h
    rw [mapAt_object_cons] at h
    simp only [putAt_object_cons, Assoc.get?_insert_self, Option.getD_some, Assoc.insert_insert, ih h]

theorem putAt_of_valueAt (h : valueAt d q = some (.object m)) : putAt m d q = d := by
  induction q generalizing d with
  | nil =>
    rw [valueAt_nil] at h
    cases h
    rfl
  | cons seg rest ih =>
    cases d <;> try cases h
    next M =>
      obtain ⟨v, hv, h⟩ := Option.bind_eq_some_iff.mp h
      rw [putAt_object_cons, hv, Option.getD_some, ih h, Assoc.insert_eq_self hv]

/-- A write is invisible at a path that parts from the written one above its map. -/
theorem descendFrom_putAt_of_not_prefix (h : mapAt d q = some m) (hq : ¬ q <+: p) (hp : ¬ p <+: q) :
    descendFrom full (putAt m' d q) p = descendFrom full d p := by
  induction q generalizing d p with
  | nil => exact absurd List.nil_prefix hq
  | cons seg rest ih =>
    cases p with
    | nil => exact absurd List.nil_prefix hp
    | cons s p =>
      obtain ⟨M, rfl⟩ := exists_object_of_mapAt h
      rw [putAt_object_cons, descendFrom_object_cons, descendFrom_object_cons]
      by_cases hs : s = seg
      · subst hs
        rw [List.cons_prefix_cons, not_and] at hq hp
        rw [mapAt_object_cons] at h
        rw [Assoc.get?_insert_self]
        cases hv : Assoc.get? s M with
        | some v =>
          rw [hv] at h
          exact ih h (hq rfl) (hp rfl)
        | none =>
          rw [hv] at h
          refine (ih h (hq rfl) (hp rfl)).trans ?_
          cases p with
          | nil => exact absurd List.nil_prefix (hp rfl)
          | cons s' p => rfl
      · rw [Assoc.get?_insert_ne hs]

theorem valueAt_of_mapAt (h : mapAt d q = some m) (hne : m ≠ []) : valueAt d q = some (.object m) := by
  induction q generalizing d with
  | nil =>
    obtain ⟨m₀, rfl⟩ := exists_object_of_mapAt h
    cases h
    exact valueAt_nil
  | cons seg rest ih =>
    obtain ⟨M, rfl⟩ := exists_object_of_mapAt h
    rw [mapAt_object_cons] at h
    cases hv : Assoc.get? seg M with
    | none =>
      rw [hv, Option.getD_none, mapAt_empty] at h
      cases h
      exact absurd rfl hne
    | some v =>
      rw [hv] at h
      rw [valueAt_object_cons, hv]
      exact ih h

/-! ### The two mutable descents -/

theorem descendCreatingFrom_eq {α : Type} (act : Members → α × Members) :
    descendCreatingFrom full act d q =
      match mapAt d q with
      | some m => (.ok (act m).1, putAt (act m).2 d q)
      | none => (.error (blocked full), d) := by
  induction q generalizing d with
  | nil => cases d <;> rfl
  | cons seg rest ih =>
    cases d <;> try rfl
    next M =>
      simp only [descendCreatingFrom, ih, mapAt_object_cons, putAt_object_cons]
      cases hv : Assoc.get? seg M with
      | none => rw [Option.getD_none, mapAt_empty]
      | some v =>
        rw [Option.getD_some]
        cases mapAt v rest with
        | some m => rfl
        | none => simp only [Assoc.insert_eq_self hv]

/-- A descent that is refused, or ends early, leaves the document as it is. -/
theorem descendMutFrom_none {α : Type} {act : Value → Except Error α × Value} {e : Except Error (Option α)}
    (h : descendFrom full d q = (.ok none : Except Error (Option Value)) ∧ e = .ok none ∨
      ∃ err, descendFrom full d q = .error err ∧ e = .error err) : descendMutFrom full act d q = (e, d) := by
  induction q generalizing d with
  | nil => rcases h with ⟨h, -⟩ | ⟨_, h, -⟩ <;> cases h
  | cons seg rest ih =>
    cases d
    case object M =>
      rw [descendFrom_object_cons] at h
      cases hv : Assoc.get? seg M with
      | none =>
        rw [hv] at h
        rcases h with ⟨-, rfl⟩ | ⟨_, h, -⟩
        · simp only [descendMutFrom, hv]
        · cases h
      | some v =>
        rw [hv] at h
        simp only [descendMutFrom, hv, ih h, Assoc.insert_eq_self hv]
    all_goals
      rcases h with ⟨h, -⟩ | ⟨_, h, rfl⟩
      · cases h
      · cases h; rfl

theorem descendMutFrom_object {α : Type} {act : Value → Except Error α × Value} {e : Except Error α}
    (h : descendFrom full d q = .ok (some (.object m))) (hact : act (.object m) = (e, .object m')) :
    descendMutFrom full act d q = (e.map some, putAt m' d q) := by
  induction q generalizing d with
  | nil =>
    cases h
    simp [descendMutFrom, hact]
  | cons seg rest ih =>
    cases d <;> try cases h
    next M =>
      rw [descendFrom_object_cons] at h
      split at h
      · next v hv => simp only [descendMutFrom, hv, ih h, putAt_object_cons, Option.getD_some]
      · cases h

theorem descendMutFrom_same {α : Type} {act : Value → Except Error α × Value} {e : Except Error α}
    (h : descendFrom full d q = .ok (some v)) (hact : act v = (e, v)) :
    descendMutFrom full act d q = (e.map some, d) := by
  induction q generalizing d with
  | nil =>
    cases h
    simp [descendMutFrom, hact]
  | cons seg rest ih =>
    cases d <;> try cases h
    next M =>
      rw [descendFrom_object_cons] at h
      split at h
      · next w hv => simp only [descendMutFrom, hv, ih h, Assoc.insert_eq_self hv]
      · cases h

/-! ### The three writes below a key -/

theorem replace_root (d x : Value) : replace d Path.root x = (.ok (Patch.diff d x), x) := rfl

theorem remove_root (d : Value) : remove d Path.root = (.ok (Patch.diff d (.object [])), .object []) := rfl

theorem replace_join (d : Value) (q : Path) (k : String) (x : Value) : replace d (q.join k) x =
    match mapAt d q with
    | some m => (.ok (replaceTouched (q.join k) (Assoc.get? k m) x), putAt (Assoc.insert k x m) d q)
    | none => (.error (blocked q), d) := by
  simp only [replace, Path.parent_join, Path.last_join, descendCreating, descendCreatingFrom_eq]
  cases mapAt d q <;> rfl

/-- Where a read below a key is not refused, a write is not either, and the read sees the key. -/
theorem descend_join_ok {o : Option Value} (h : descend d (q.join k) = .ok o) :
    ∃ m, mapAt d q = some m ∧ o = Assoc.get? k m := by
  obtain ⟨m, hm⟩ := exists_mapAt_of_descendFrom (k := k) (r := []) h
  refine ⟨m, hm, ?_⟩
  rw [descend, Path.join, descendFrom_below hm, descendFrom_object_cons] at h
  split at h
  · next v hv =>
    cases h
    exact hv.symm
  · next hv =>
    cases h
    exact hv.symm

theorem merge_root (d patch : Value) : merge d Path.root patch =
    (.ok (Patch.applyPatch d patch).1, (Patch.applyPatch d patch).2) := rfl

theorem merge_join (d : Value) (q : Path) (k : String) (patch : Value) : merge d (q.join k) patch =
    match descend d (q.join k) with
    | .error e => (.error e, d)
    | .ok o =>
      if (mergeScratch (q.join k) o patch).1.isEmpty then (.ok [], d)
      else (.ok (mergeScratch (q.join k) o patch).1,
        putAt (Assoc.insert k (mergeScratch (q.join k) o patch).2 ((mapAt d q).getD [])) d q) := by
  simp only [merge, Path.parent_join, Path.last_join, descendCreating, descendCreatingFrom_eq]
  cases h : descend d (q.join k) with
  | error e => rfl
  | ok o =>
    obtain ⟨m, hm, -⟩ := descend_join_ok h
    simp only [hm]
    rfl

theorem remove_join (d : Value) (q : Path) (k : String) : remove d (q.join k) =
    match descend d q with
    | .error e => (.error e, d)
    | .ok none => (.ok [], d)
    | .ok (some (.object m)) => (.ok (removeKey q k m).1, putAt (removeKey q k m).2 d q)
    | .ok (some _) => (.error (blocked (q.join k)), d) := by
  simp only [remove, Path.parent_join, Path.last_join, descendMut]
  unfold descend
  split
  · next e h => rw [descendMutFrom_none (Or.inr ⟨e, h, rfl⟩)]; rfl
  · next h => rw [descendMutFrom_none (Or.inl ⟨h, rfl⟩)]; rfl
  · next m h =>
    have hact : removeIn q k (.object m) = (.ok (removeKey q k m).1, .object (removeKey q k m).2) := rfl
    rw [descendMutFrom_object h hact]
    rfl
  · next v hno h =>
    have hact : removeIn q k v = (.error (blocked (q.join k)), v) := by
      cases v <;> first | rfl | exact absurd rfl (hno _)
    rw [descendMutFrom_same h hact]
    rfl

end View
end PveMeta
