import PveMeta.Sample
import PveMeta.Lib.Decimal
import PveMeta.Theorems.Gate
import PveMeta.Theorems.Ids
import PveMeta.Theorems.Reads

/-! # The listing's filter and the read

The filter takes an index for a segment where the document has a list; a read refuses a view that leads
through one. They disagree there and nowhere else. -/

namespace PveMeta
open View Value

/-- `p` leads into a list of `v`, by an index, to an item or to something in one. -/
def IntoList (v : Value) (p : Path) : Prop :=
  ∃ q r items, p = q ++ r ∧ r ≠ [] ∧ valueAt v q = some (.array items) ∧ (getPath (.array items) r).isSome = true

section

variable {v : Value} {m : Members} {p : Path} {k : String}

theorem IntoList.cons_iff : IntoList (.object m) (k :: p) ↔ ∃ w, Assoc.get? k m = some w ∧ IntoList w p := by
  constructor
  · rintro ⟨q, r, items, happ, hr, hq, hget⟩
    cases q with
    | nil => cases hq
    | cons j q =>
      obtain ⟨rfl, rfl⟩ := List.cons.inj happ
      obtain ⟨w, hw, hq⟩ := Option.bind_eq_some_iff.mp hq
      exact ⟨w, hw, q, r, items, rfl, hr, hq, hget⟩
  · rintro ⟨w, hw, q, r, items, rfl, hr, hq, hget⟩
    exact ⟨k :: q, r, items, rfl, hr, by rw [valueAt_object_cons, hw]; exact hq, hget⟩

theorem IntoList.array_iff {items : List Value} :
    IntoList (.array items) p ↔ p ≠ [] ∧ (getPath (.array items) p).isSome = true := by
  constructor
  · rintro ⟨q, r, items', rfl, hr, hq, hget⟩
    cases q with
    | nil =>
      cases hq
      exact ⟨hr, hget⟩
    | cons j q => cases hq
  · rintro ⟨hp, hget⟩
    exact ⟨[], p, items, rfl, hp, rfl, hget⟩

/-- Where no list is on the way the two descents are one. -/
theorem getPath_isSome_iff : (getPath v p).isSome = true ↔ (valueAt v p).isSome = true ∨ IntoList v p := by
  induction p generalizing v with
  | nil => simp [getPath]
  | cons k p ih =>
    cases v with
    | object m =>
      rw [valueAt_object_cons, IntoList.cons_iff, getPath]
      cases Assoc.get? k m with
      | none => simp
      | some w => simpa using ih
    | array items =>
      rw [IntoList.array_iff]
      simp [valueAt]
    | _ =>
      simp only [getPath, valueAt, Option.isSome_none, Bool.false_eq_true, false_or, false_iff]
      rintro ⟨q, r, items, -, -, hq, -⟩
      cases q <;> cases hq

theorem IntoList.valueAt_eq_none (h : IntoList v p) : valueAt v p = none := by
  obtain ⟨q, r, items, rfl, hr, hq, -⟩ := h
  rw [valueAt_append hq]
  cases r with
  | nil => exact absurd rfl hr
  | cons k r => rfl

end

namespace Api
open MetaStore

theorem map_filter_eq_iff {α β : Type} {P Q : α → Bool} {f : α → β} {l : List α} (h : ∀ a ∈ l, Q a = true → P a = true) :
    (l.filter P).map f = (l.filter Q).map f ↔ ∀ a ∈ l, P a = true → Q a = true := by
  constructor
  · intro heq a ha hPa
    have hlen := congrArg List.length heq
    have hsub : l.filter Q = (l.filter P).filter Q := by
      rw [List.filter_filter]
      exact List.filter_congr fun a ha => by
        cases hQ : Q a with
        | true => simp [h a ha hQ]
        | false => rfl
    rw [List.length_map, List.length_map, hsub, eq_comm, List.length_filter_eq_length_iff] at hlen
    exact hlen a (List.mem_filter.mpr ⟨ha, hPa⟩)
  · intro hPQ
    rw [List.filter_congr fun a ha => Bool.eq_iff_iff.mpr ⟨hPQ a ha, h a ha⟩]

section

variable [Deps] {s : MetaStore} {guests : List GuestInput} {has : String} {p : Path}

/-- A guest's stored document as a plain read shows it, notes left out; none if it is not readable. -/
def shown (s : MetaStore) (vmid : UInt32) : Option Value :=
  match readStored s (.guest vmid) with
  | .ok stored => if stored.unrecoverable.isNone then some (stripComments stored.value.val) else none
  | .error _ => none

/-- A plain read of the guest's document at `p` has a value there. -/
def hasValue (s : MetaStore) (p : Path) (vmid : UInt32) : Bool :=
  (shown s vmid).any fun v => (extract v p).toOption.join.isSome

/-- The rows that a listing answers, none if it fails. -/
def listed (s : MetaStore) (guests : List GuestInput) (has : String) : List GuestListEntry :=
  (listGuests s guests (some has)).toOption.getD []

/-- The rows that a listing with `has` should have. -/
def readable (s : MetaStore) (guests : List GuestInput) (p : Path) : List GuestListEntry :=
  (guests.filter fun g => g.read && hasValue s p g.vmid).map fun g => g.entry (s.identity (.guest g.vmid))

theorem hasValue_iff {vmid : UInt32} :
    hasValue s p vmid = true ↔ ∃ v, shown s vmid = some v ∧ (valueAt v p).isSome = true := by
  rw [hasValue, Option.any_eq_true]
  exact exists_congr fun v => and_congr_right fun _ => by rw [valueAt_eq p]; rfl

theorem value_storedOf {o : Option File} (h : (storedOf o).unrecoverable.isNone = false) :
    (storedOf o).value.val = .object [] := by
  cases o with
  | none => cases h
  | some f =>
    rcases storedOf_cases f with ⟨raw, w, hobj, -, -, -, hst⟩ | ⟨raw, err, hst, -⟩
    · rw [hst] at h
      cases h
    · rw [hst]
      rfl

/-- What the filter finds: what a read has, or something in a list. -/
theorem isSome_getPath_stored {vmid : UInt32} (hread : s.Readable) (hp : p ≠ Path.root) :
    (getPath (stripComments (storedOf (s.content (.guest vmid))).value.val) p).isSome = true ↔
      hasValue s p vmid = true ∨ ∃ v, shown s vmid = some v ∧ IntoList v p := by
  have hshown : shown s vmid = if (storedOf (s.content (.guest vmid))).unrecoverable.isNone then
      some (stripComments (storedOf (s.content (.guest vmid))).value.val) else none := by
    rw [shown, readStored_of_readable hread]
  rw [getPath_isSome_iff, hasValue_iff, hshown]
  cases hnone : (storedOf (s.content (.guest vmid))).unrecoverable.isNone with
  | true => simp
  | false =>
    obtain ⟨k, r, rfl⟩ := List.exists_cons_of_ne_nil hp
    simp [value_storedOf hnone, stripComments, stripMembers, IntoList.cons_iff]

theorem listGuest_eq (hread : s.Readable) (g : GuestInput) : listGuest s (some p) g = .ok
    (if g.read && (getPath (stripComments (storedOf (s.content (.guest g.vmid))).value.val) p).isSome then
      some (g.entry (s.identity (.guest g.vmid))) else none) := by
  rw [listGuest]
  cases g.read with
  | false => rfl
  | true =>
    simp only [readStored_of_readable hread, Except.ok_bind, digest_storedOf_content]
    cases getPath (stripComments (storedOf (s.content (.guest g.vmid))).value.val) p <;> rfl

theorem listed_of_readable (hparse : Path.parse has = .ok p) (hread : s.Readable) : listed s guests has =
    (guests.filter fun g =>
      g.read && (getPath (stripComments (storedOf (s.content (.guest g.vmid))).value.val) p).isSome).map
        fun g => g.entry (s.identity (.guest g.vmid)) := by
  have hrows := Except.mapM_of_ok (listGuest_eq hread (p := p)) guests
  rw [listed, listGuests, hparse]
  simp only [lift, Except.mapError, Except.map, Except.ok_bind, hrows, Except.toOption, pure, Except.pure,
    Option.getD_some, List.filterMap_map]
  rw [← List.filterMap_eq_filter, List.map_filterMap]
  refine List.filterMap_congr fun g _ => ?_
  simp only [Function.comp_apply, id_eq, Option.guard]
  split <;> simp_all

/-- Without a readable store nobody has a document, and nobody is listed. -/
theorem shown_of_not_readable (hread : ¬ s.Readable) (vmid : UInt32) : shown s vmid = none := by
  rw [shown]
  split
  · next h => exact absurd (readStored_eq_ok h).1 hread
  · rfl

theorem listed_of_not_readable (hparse : Path.parse has = .ok p) (hread : ¬ s.Readable) :
    listed s guests has = [] := by
  rw [listed, listGuests, hparse]
  cases hrows : guests.mapM (listGuest s (some p)) with
  | error e =>
    simp only [lift, Except.mapError, Except.map, Except.ok_bind, hrows]
    rfl
  | ok rows =>
    simp only [lift, Except.mapError, Except.map, Except.ok_bind, hrows]
    refine List.filterMap_eq_nil_iff.mpr fun row hrow => ?_
    obtain ⟨g, -, hg⟩ := Except.exists_of_mapM hrows hrow
    rw [listGuest] at hg
    split at hg
    · cases hg
      rfl
    · obtain ⟨stored, hstored, -⟩ := Except.bind_eq_ok.mp hg
      exact absurd (readStored_eq_ok hstored).1 hread

/-- A listing has the guests that a read has a value for, exactly when no list is in the way. -/
theorem listGuests_agrees_iff (hparse : Path.parse has = .ok p) (hp : p ≠ Path.root) :
    listed s guests has = readable s guests p ↔
      ∀ g ∈ guests, g.read = true → ∀ v, shown s g.vmid = some v → ¬ IntoList v p := by
  by_cases hread : s.Readable
  · rw [listed_of_readable hparse hread, readable, map_filter_eq_iff]
    · refine forall₂_congr fun g hg => ?_
      simp only [Bool.and_eq_true, isSome_getPath_stored hread hp]
      constructor
      · rintro h hr v hv hinto
        obtain ⟨w, hw, hval⟩ := hasValue_iff.mp (h ⟨hr, Or.inr ⟨v, hv, hinto⟩⟩).2
        cases hv.symm.trans hw
        rw [hinto.valueAt_eq_none] at hval
        cases hval
      · rintro h ⟨hr, hval | ⟨v, hv, hinto⟩⟩
        · exact ⟨hr, hval⟩
        · exact absurd hinto (h hr v hv)
    · intro g _ hg
      rw [Bool.and_eq_true] at hg ⊢
      exact ⟨hg.1, (isSome_getPath_stored hread hp).mpr (Or.inl hg.2)⟩
  · rw [listed_of_not_readable hparse hread]
    have hnone : readable s guests p = [] := by
      simp [readable, hasValue, shown_of_not_readable hread]
    simp only [hnone, true_iff]
    intro g _ _ v hv
    rw [shown_of_not_readable hread] at hv
    cases hv

end

/-- The store, the guests and the filter of the results below. -/
def itemsStore : MetaStore := Sample.storeOf [(100, "a:\n- a\n".toList), (101, "a: 1\n".toList)]

def itemsGuests : List GuestInput :=
  [⟨100, some "n1", some "qemu", some "g", [], true⟩, ⟨101, none, none, none, ["web"], true⟩]

open Sample in
/-- A guest whose document has a list of one item is listed for the index of that item, which a read refuses. -/
theorem list_item_listed : ¬ ∀ (s : MetaStore) (guests : List GuestInput) (has : String) (p : Path),
    Path.parse has = .ok p → p ≠ Path.root → listed s guests has = readable s guests p := by
  intro h
  have hrows := h itemsStore itemsGuests "a.0" ["a", "0"] (by decide +kernel) (by decide)
  revert hrows
  decide +kernel

open Sample in
theorem listGuests_agrees_scalar :
    listed itemsStore itemsGuests "a" = readable itemsStore itemsGuests ["a"] ↔
      ∀ g ∈ itemsGuests, g.read = true → ∀ v, shown itemsStore g.vmid = some v → ¬ IntoList v ["a"] :=
  listGuests_agrees_iff (by decide +kernel) (by decide)

end Api
end PveMeta
