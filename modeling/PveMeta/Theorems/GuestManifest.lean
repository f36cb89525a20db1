import PveMeta.Guest.Manifest
import PveMeta.Lib.Except

/-! # Reading a manifest back

A manifest whose records are kept under their own paths is read back as it was written. -/

namespace PveMeta
namespace Guest
namespace Manifest

/-- Every record is kept under its own path, and has a source. -/
def Keyed (m : Manifest) : Prop := ∀ p r, m.records.get? p = some r → r.path = p ∧ r.source ≠ []

theorem Keyed.empty : Keyed .empty := by rintro _ _ ⟨⟩

theorem Keyed.insert {m : Manifest} (h : m.Keyed) {p : GuestPath} {r : Record} (hpath : r.path = p)
    (hsource : r.source ≠ []) :
    Keyed ⟨m.records.insert p r⟩ := by
  intro q s hs
  rw [SortedMap.get?_insert] at hs
  split at hs
  · next hq =>
    cases hs
    exact ⟨hpath.trans hq.symm, hsource⟩
  · exact h q s hs

theorem Keyed.erase {m : Manifest} (h : m.Keyed) (p : GuestPath) : Keyed ⟨m.records.erase p⟩ := by
  intro q s hs
  rw [SortedMap.get?_erase] at hs
  split at hs
  · cases hs
  · exact h q s hs

theorem userSource_ne_nil (name : String) : userSource name ≠ [] := by
  rw [userSource]
  exact List.append_ne_nil_of_left_ne_nil (by decide) _

theorem sourceOf_ne_nil (r : RawRecord) : sourceOf r ≠ [] := by
  unfold sourceOf
  split
  · exact userSource_ne_nil _
  · assumption

theorem absolute_text (p : GuestPath) : GuestPath.absolute p.text = .ok p := by
  unfold GuestPath.absolute
  split
  · rfl
  · next h => cases h.symm.trans p.valid

theorem text_of_absolute {t : Text} {p : GuestPath} (h : GuestPath.absolute t = .ok p) : p.text = t := by
  unfold GuestPath.absolute at h
  split at h
  · cases h
    rfl
  · cases h

variable [RustDebug]

theorem addRaw_eq_ok {m n : Manifest} {r : RawRecord} (h : addRaw m r = .ok n) : ∃ p, p.text = r.path ∧
    m.records.get? p = none ∧ n = ⟨m.records.insert p ⟨r.entry, p, r.sha256, sourceOf r⟩⟩ := by
  obtain ⟨p, hp, h⟩ := Except.bind_eq_ok.mp h
  split at h
  · cases h
  · next hnone =>
    cases h
    exact ⟨p, text_of_absolute (Except.mapError_eq_ok.mp hp), by simpa using hnone, rfl⟩

theorem Keyed.addRaw {m n : Manifest} {r : RawRecord} (hm : m.Keyed) (h : addRaw m r = .ok n) : n.Keyed := by
  obtain ⟨p, -, -, rfl⟩ := addRaw_eq_ok h
  exact hm.insert rfl (sourceOf_ne_nil r)

theorem Keyed.foldlM {m n : Manifest} {rs : List RawRecord} (hm : m.Keyed) (h : rs.foldlM Manifest.addRaw m = .ok n) :
    n.Keyed := by
  induction rs generalizing m with
  | nil =>
    cases h
    exact hm
  | cons r rs ih =>
    obtain ⟨m', hm', h⟩ := Except.bind_eq_ok.mp h
    exact ih (hm.addRaw hm') h

variable [Serde]

theorem Keyed.parse {bytes : ByteArray} {m : Manifest} (h : Manifest.parse bytes = .ok m) : m.Keyed := by
  obtain ⟨raw, -, h⟩ := Except.bind_eq_ok.mp h
  split at h
  · cases h
  · exact Keyed.empty.foldlM h

/-! ### The round trip -/

def rawOf (r : Record) : RawRecord := ⟨r.entry, r.path.text, r.sha256, r.source⟩

omit [Serde] in
theorem addRaw_rawOf {m : Manifest} {r : Record} (hsource : r.source ≠ []) (hnone : m.records.get? r.path = none) :
    addRaw m (rawOf r) = .ok ⟨m.records.insert r.path r⟩ := by
  have hown : sourceOf (rawOf r) = r.source := if_neg hsource
  rw [Manifest.addRaw, hown]
  simp only [rawOf, absolute_text, Except.mapError, Except.ok_bind, hnone, Option.isSome_none, Bool.false_eq_true, if_false]

omit [Serde] in
/-- The records of a file come to what was there and all of theirs. -/
theorem foldlM_rawOf {l : List (GuestPath × Record)} (hl : ∀ e ∈ l, e.2.path = e.1 ∧ e.2.source ≠ [])
    (hnodup : (Assoc.keys l).Nodup) {m : Manifest} (hm : ∀ p ∈ Assoc.keys l, m.records.get? p = none) :
    ∃ n, (l.map fun e => rawOf e.2).foldlM addRaw m = .ok n ∧
      ∀ p, n.records.get? p = (Assoc.get? p l).or (m.records.get? p) := by
  induction l generalizing m with
  | nil => exact ⟨m, rfl, fun p => rfl⟩
  | cons e l ih =>
    obtain ⟨p, r⟩ := e
    obtain ⟨⟨hpath, hsource⟩, hrest⟩ := List.forall_mem_cons.mp hl
    obtain ⟨hp, hrestNodup⟩ := List.nodup_cons.mp hnodup
    obtain rfl : r.path = p := hpath
    have hfresh : ∀ q ∈ Assoc.keys l, (m.records.insert r.path r).get? q = none := by
      intro q hq
      have hne : q ≠ r.path := fun h => hp (h ▸ hq)
      rw [SortedMap.get?_insert_ne hne]
      exact hm q (List.mem_cons_of_mem _ hq)
    obtain ⟨n, hn, hget⟩ := ih hrest hrestNodup (m := ⟨m.records.insert r.path r⟩) hfresh
    refine ⟨n, ?_, fun q => ?_⟩
    · rw [List.map_cons, List.foldlM_cons, addRaw_rawOf hsource (hm r.path List.mem_cons_self)]
      exact hn
    · rw [hget, Assoc.get?_cons, SortedMap.get?_insert]
      by_cases hq : q = r.path
      · have hnone : Assoc.get? q l = none := Assoc.get?_eq_none_iff.mpr (hq ▸ hp)
        rw [if_pos hq, if_pos hq.symm, hnone, Option.none_or, Option.some_or]
      · rw [if_neg hq, if_neg (Ne.symm hq)]

/-- A manifest whose own rows are read back from its text is read back itself. -/
theorem parse_render_of_reads {m : Manifest} (hm : m.Keyed) (hreads : Serde.fromSlice m.render = .ok m.toRaw) :
    Manifest.parse m.render = .ok m := by
  have hl : ∀ e ∈ m.records.entries, e.2.path = e.1 ∧ e.2.source ≠ [] :=
    fun (p, r) he => hm p r (SortedMap.mem_entries_iff.mp he)
  obtain ⟨n, hn, hget⟩ := foldlM_rawOf hl SortedMap.nodup_keys (m := .empty) fun _ _ => rfl
  have hnm : n = m := by
    have hrecords : n.records = m.records := by
      refine SortedMap.ext_get? fun p => ?_
      rw [hget, show (Manifest.empty.records.get? p) = none from rfl, Option.or_none]
      rfl
    cases n
    cases m
    cases hrecords
    rfl
  rw [Manifest.parse, hreads]
  rw [hnm] at hn
  exact hn

/-- What is assumed of `serde_json`: the text of a raw manifest of this version is read back as that. -/
def SerdeReads : Prop :=
  ∀ raw : RawManifest, raw.version = version → Serde.fromSlice (Text.encode (Serde.toStringPretty raw ++ ['\n'])) = .ok raw

theorem parse_render (hserde : SerdeReads) {m : Manifest} (hm : m.Keyed) : Manifest.parse m.render = .ok m :=
  parse_render_of_reads hm (hserde m.toRaw rfl)

end Manifest
end Guest
end PveMeta
