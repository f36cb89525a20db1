import PveMeta.Guest.ManifestJson
import PveMeta.Guest.Sample
import PveMeta.Theorems.GuestManifest

/-! # The records of a manifest

What is read from a file is the records of that file, those from before there were sources with their own, and is written
and read again as it is. -/

namespace PveMeta
namespace Guest
namespace Manifest

/-- A record of a file as it is kept. -/
def withSource (r : RawRecord) : RawRecord := { r with source := sourceOf r }

theorem files_insert {m : Manifest} {p : GuestPath} {r : Record} (hnone : m.records.get? p = none) :
    (toRaw ⟨m.records.insert p r⟩).files.Perm (rawOf r :: m.toRaw.files) :=
  (SortedMap.perm_insert hnone).map _

theorem Keyed.nodup_paths {m : Manifest} (hm : m.Keyed) : (m.toRaw.files.map RawRecord.path).Nodup := by
  have hpaths : m.toRaw.files.map RawRecord.path = (Assoc.keys m.records.entries).map GuestPath.text := by
    rw [toRaw, Assoc.keys, List.map_map, List.map_map]
    refine List.map_congr_left fun (p, r) he => ?_
    exact congrArg GuestPath.text (hm p r (SortedMap.mem_entries_iff.mp he)).1
  rw [hpaths]
  refine SortedMap.nodup_keys.map fun p q hpq => ?_
  have hq := absolute_text q
  rw [← hpq, absolute_text p] at hq
  cases hq
  rfl

section

variable [RustDebug]

theorem files_addRaw {m n : Manifest} {r : RawRecord} (h : addRaw m r = .ok n) :
    n.toRaw.files.Perm (withSource r :: m.toRaw.files) := by
  obtain ⟨p, hp, hnone, rfl⟩ := addRaw_eq_ok h
  have hrow : rawOf ⟨r.entry, p, r.sha256, sourceOf r⟩ = withSource r := by rw [rawOf, hp, withSource]
  exact hrow ▸ files_insert hnone

theorem files_foldlM {m n : Manifest} {rs : List RawRecord} (h : rs.foldlM addRaw m = .ok n) :
    n.toRaw.files.Perm (rs.map withSource ++ m.toRaw.files) := by
  induction rs generalizing m with
  | nil =>
    cases h
    exact .refl _
  | cons r rs ih =>
    obtain ⟨m', hm', h⟩ := Except.bind_eq_ok.mp h
    have hfirst := (files_addRaw hm').append_left (rs.map withSource)
    exact ((ih h).trans hfirst).trans List.perm_middle

/-- A file that is read has this version, and its records are those of the manifest. -/
theorem files_of_parse [Serde] {bytes : ByteArray} {m : Manifest} (h : Manifest.parse bytes = .ok m) :
    ∃ raw, Serde.fromSlice bytes = .ok raw ∧ raw.version = version ∧ m.toRaw.files.Perm (raw.files.map withSource) := by
  obtain ⟨raw, hraw, h⟩ := Except.bind_eq_ok.mp h
  split at h
  · cases h
  · next hversion =>
    have hfiles := files_foldlM h
    rw [show (toRaw empty).files = [] from rfl, List.append_nil] at hfiles
    exact ⟨raw, Except.mapError_eq_ok.mp hraw, not_not.mp hversion, hfiles⟩

/-! ### By way of JSON -/

variable [SerdeJson]

omit [RustDebug] in
theorem fromSlice_render (hjson : JsonReads) (m : Manifest) : Serde.fromSlice m.render = .ok m.toRaw := by
  have hread : RawManifest.ofJson m.toRaw.toJson = some m.toRaw :=
    RawManifest.ofJson_toJson (show version < 2 ^ 32 by decide)
  show SerdeJson.fromSlice (Text.encode (SerdeJson.toStringPretty m.toRaw.toJson ++ ['\n'])) >>= _ = _
  rw [hjson m.toRaw rfl, Except.ok_bind, hread]

/-- A manifest whose records are under their own paths, each with a source, is read back from its text. What is read at all
    is such a manifest, with the records of the file. -/
theorem manifest_reads_back (hjson : JsonReads) :
    (∀ m : Manifest, m.Keyed → Manifest.parse m.render = .ok m) ∧
      ∀ (bytes : ByteArray) (m : Manifest), Manifest.parse bytes = .ok m →
        (∃ raw, Serde.fromSlice bytes = .ok raw ∧ m.toRaw.files.Perm (raw.files.map withSource) ∧
          (raw.files.map RawRecord.path).Nodup) ∧
        (Assoc.keys m.records.entries).Nodup ∧
        (∀ p r, m.records.get? p = some r → GuestPath.absolute p.text = .ok p ∧ r.path = p ∧ r.source ≠ []) ∧
        Manifest.parse m.render = .ok m := by
  refine ⟨fun m hm => parse_render_of_reads hm (fromSlice_render hjson m), fun bytes m h => ?_⟩
  have hm : m.Keyed := .parse h
  obtain ⟨raw, hraw, -, hfiles⟩ := files_of_parse h
  have hpaths : (raw.files.map RawRecord.path).Nodup := by
    have hperm := hfiles.map RawRecord.path
    rw [List.map_map] at hperm
    exact hperm.nodup_iff.mp hm.nodup_paths
  refine ⟨⟨raw, hraw, hfiles, hpaths⟩, SortedMap.nodup_keys, fun p r hr => ⟨absolute_text p, hm p r hr⟩, ?_⟩
  exact parse_render_of_reads hm (fromSlice_render hjson m)

end

/-- The manifest from before there were sources. -/
theorem manifest_reads_back_kept :
    @Manifest.parse GuestSample.rustDebug (@serdeOfJson GuestSample.serdeJson) (Text.encode GuestSample.oldText) =
        .ok GuestSample.kept ∧
      @Manifest.parse GuestSample.rustDebug (@serdeOfJson GuestSample.serdeJson)
          (@render (@serdeOfJson GuestSample.serdeJson) GuestSample.kept) = .ok GuestSample.kept := by
  have hold : @Manifest.parse GuestSample.rustDebug (@serdeOfJson GuestSample.serdeJson) (Text.encode GuestSample.oldText) =
      .ok GuestSample.kept := by
    decide +kernel
  obtain ⟨-, hread⟩ := @manifest_reads_back GuestSample.rustDebug GuestSample.serdeJson GuestSample.jsonReads
  obtain ⟨-, -, -, hagain⟩ := hread (Text.encode GuestSample.oldText) GuestSample.kept hold
  exact ⟨hold, hagain⟩

end Manifest
end Guest
end PveMeta
