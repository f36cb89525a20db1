import PveMeta.Theorems.Notes
import PveMeta.Theorems.Copies
import PveMeta.Theorems.DryRun
import PveMeta.Sample

/-! # What an import does, and the round trip through the notes

An import in restore mode is the block found and then a write like any other. With the canonical dump of a
document the block found is the one rendered, so what is written is the file that was exported. -/

namespace PveMeta
namespace Backup
open MetaStore

theorem normalize_newline (text : Text) : normalizeTrailingNewline (text ++ ['\n']) = normalizeTrailingNewline text := by
  have h := Text.trimNewlines_append_replicate text 1
  exact congrArg (· ++ ['\n']) h

section

variable [Deps] {s : MetaStore} {vmid : UInt32} {description : Text} {found : Found}

/-! ### An import in restore mode -/

theorem importBlock_of_ok (h : s.FaultFree) (hfind : find description = .ok (some found)) {n : Text} {w : Tree}
    (hcheck : s.checkRaw (.guest vmid) (found.yaml ++ ['\n']) none = .ok (n, w)) :
    ∃ files, importBlock s vmid description .restore =
        (.ok ⟨.imported, some (stripAll (strip description found))⟩, { s with files }) ∧
      Assoc.get? (docPath vmid) files = some ⟨Text.encode n, s.now⟩ ∧ NoCopies vmid files ∧
      ∀ p, p ≠ docPath vmid → (∀ name, p ≠ snapshotPath vmid name) → Assoc.get? p files = Assoc.get? p s.files := by
  have hput := putRaw_of_ok h hcheck
  obtain ⟨names, n', files, hlist, hdelete, hcopies, hframe⟩ :=
    @deleteListed _ vmid (h.withFiles (Assoc.insert (docPath vmid) ⟨Text.encode n, s.now⟩ s.files)) 0
  refine ⟨files, ?_, ?_, hcopies, fun p hp hname => ?_⟩
  · simp only [importBlock, hfind, existing, hput, dropCopies, pathFor_guest, hlist, hdelete, Except.map]
  · rw [hframe _ fun name heq => snapshotPath_ne_docPath vmid vmid name heq.symm, Assoc.get?_insert_self]
  · rw [hframe p hname, Assoc.get?_insert_ne hp]

theorem importBlock_of_error {e : Error} (hfind : find description = .ok (some found))
    (hcheck : s.checkRaw (.guest vmid) (found.yaml ++ ['\n']) none = .error e) :
    importBlock s vmid description .restore = (.error e, s) := by
  simp only [importBlock, hfind, existing, putRaw_of_error hcheck]

theorem exportBlock_eq_ok {now : Nat} {block : Text} (h : exportBlock s vmid now = .ok (some block)) :
    ∃ doc, s.read (.guest vmid) = .ok doc ∧ doc.parseError = none ∧ render vmid doc.raw doc.digest now = .ok block := by
  rw [exportBlock] at h
  split at h
  · cases h
  · cases h
  · next doc hread =>
    split at h
    · cases h
    · next herror =>
      obtain ⟨b, hb, heq⟩ := Except.map_eq_ok.mp h
      cases heq
      exact ⟨doc, hread, herror, hb⟩

theorem noSpace_digest (b : ByteArray) : NoSpace (digest b).toList := by
  intro c hc
  have hdigit := List.all_eq_true.mp (Deps.sha256Hex_digits b) c hc
  simp only [Bool.or_eq_true, Bool.and_eq_true, decide_eq_true_eq] at hdigit
  rcases hdigit with hdigit | ⟨hlo, hhi⟩
  · have hnoSpace : NoSpace [c] := noSpace_of_isDigit (by simp [hdigit])
    exact hnoSpace c List.mem_cons_self
  · have hlo' : 97 ≤ c.toNat := hlo
    have hhi' : c.toNat ≤ 102 := hhi
    simp [Text.isSpace]
    omega

end

/-! ### The notes a backup carries -/

/-- The notes before the block: nothing, or the guest's own and a blank line. -/
def notesBefore (notes : Text) : Text :=
  if (Text.trimEnd notes).isEmpty then [] else Text.trimEnd notes ++ ['\n', '\n']

theorem composeNotes_eq (notes block : Text) : composeNotes notes block = notesBefore notes ++ block := rfl

theorem endsLine_notesBefore (notes : Text) : Text.EndsLine (notesBefore notes) := by
  unfold notesBefore
  split
  · exact Or.inl rfl
  · exact Or.inr (by simp)

theorem trimEnd_notesBefore (notes : Text) : Text.trimEnd (notesBefore notes) = Text.trimEnd notes := by
  unfold notesBefore
  split
  · next h =>
    rw [List.isEmpty_iff.mp h]
    rfl
  · rw [Text.trimEnd_append_of_space (by decide), Text.trimEnd_trimEnd]

/-- Notes that had no block are back as they were, white space at the end aside. -/
theorem stripAll_strip_composed {notes block : Text} {found : Found} (hfree : BlockFree notes)
    (hstart : found.start = Text.byteLen (notesBefore notes))
    (hstop : found.stop = Text.byteLen (composeNotes notes block)) :
    stripAll (strip (composeNotes notes block) found) = Text.trimEnd notes := by
  have hafter : Text.dropBytes found.stop (composeNotes notes block) = [] := by
    have := Text.dropBytes_byteLen (composeNotes notes block) []
    rwa [List.append_nil, ← hstop] at this
  have hstrip : strip (composeNotes notes block) found = Text.trimEnd notes := by
    simp only [strip, hafter, hstart]
    rw [composeNotes_eq, Text.takeBytes_byteLen, trimEnd_notesBefore]
    simp [Text.isBlank, Text.trimEnd_trimEnd]
  rw [hstrip]
  exact hfree.trimEnd.stripBlocks _

/-! ### The canonical dump -/

section

variable [Deps]

/-- What is assumed of the dump of a document: it can be read if the document is lint-clean, and no line of
    it starts with a bracket (a line is a key, a list item, blank, or indented). -/
structure Dumps (v : Tree) : Prop where
  reads : lint v.val = [] → ∃ w, Format.yaml.parse (Format.yaml.dump v.val) = .ok w
  plain : ∀ l ∈ Text.lines (Format.yaml.dump v.val), l.head? ≠ some '['

theorem trimNewlines_dump (v : Value) : Text.trimNewlines (Format.yaml.dump v) ++ ['\n'] = Format.yaml.dump v :=
  normalize_dump .yaml v

theorem mem_lines_dump {v : Value} {l : Text} (h : l ∈ Text.lines (Text.trimNewlines (Format.yaml.dump v))) :
    l ∈ Text.lines (Format.yaml.dump v) := by
  rw [← trimNewlines_dump, Text.lines_append_newline]
  exact List.mem_append_left _ h

variable {vmid vmid' : UInt32} {now : Nat} {v : Tree} {d : String} {block notes : Text}

/-- The block of a dump is found after any notes. -/
theorem find_composed (hv : Dumps v) (hd : NoSpace d.toList)
    (hblock : render vmid (Format.yaml.dump v.val) d now = .ok block) :
    find (composeNotes notes block) =
      .ok (some ⟨Text.byteLen (notesBefore notes), Text.byteLen (composeNotes notes block),
        ⟨version, some vmid, some (rfc3339Utc now), some d.toList⟩, Text.trimNewlines (Format.yaml.dump v.val)⟩) := by
  obtain ⟨-, rfl⟩ := render_eq_ok hblock
  have hplain := fun l hl => not_delimiter (hv.plain l (mem_lines_dump hl))
  rw [composeNotes_eq, find_rendered (endsLine_notesBefore notes) hd (fun l => Text.not_mem_of_mem_lines) hplain,
    Text.unlines_lines]

/-- The document of a lint-clean dump small enough for a block is one the store takes. -/
theorem checkRaw_dump {s : MetaStore} {id : DocId} (h : s.FaultFree) (hv : Dumps v) (hlint : lint v.val = [])
    (hblock : render vmid (Format.yaml.dump v.val) d now = .ok block) :
    ∃ w, s.checkRaw id (Text.trimNewlines (Format.yaml.dump v.val) ++ ['\n']) none = .ok (Format.yaml.dump v.val, w) := by
  obtain ⟨w, hparse⟩ := hv.reads hlint
  obtain ⟨hsize, -⟩ := render_eq_ok hblock
  refine ⟨w, (checkRaw_eq_ok h).mpr ⟨?_, ?_, hparse⟩⟩
  · rw [trimNewlines_dump, normalize_dump]
  · have hlen : Text.byteLen (Format.yaml.dump v.val) = Text.byteLen (Text.trimNewlines (Format.yaml.dump v.val)) + 1 := by
      conv_lhs => rw [← trimNewlines_dump]
      rw [Text.byteLen_append]
      rfl
    have hcap : maxYamlBytes + 1 ≤ maxBytes := by decide
    omega

/-- A lint-clean document stored as its dump goes through the notes of a backup: the block is found where it
    is, the import writes the file that was exported, and notes that had no block are given back. -/
theorem notes_roundTrip (s s' : MetaStore) (vmid vmid' : UInt32) (now : Nat) (notes block : Text) (v : Tree)
    (file : File) (hlint : lint v.val = []) (hv : Dumps v) (hfile : Assoc.get? (docPath vmid) s.files = some file)
    (hbytes : file.bytes = Text.encode (Format.yaml.dump v.val))
    (hexport : exportBlock s vmid now = .ok (some block)) (hs' : s'.FaultFree) :
    (∃ found, find (composeNotes notes block) = .ok (some found) ∧
        found.yaml ++ ['\n'] = Format.yaml.dump v.val ∧ found.header.vmid = some vmid ∧
        composeNotes notes block = Text.takeBytes found.start (composeNotes notes block) ++ block ∧
        found.stop = found.start + Text.byteLen block) ∧
      (∃ description, (importBlock s' vmid' (composeNotes notes block) .restore).1 = .ok ⟨.imported, description⟩ ∧
        (BlockFree notes → description = some (Text.trimEnd notes))) ∧
      (Assoc.get? (docPath vmid') (importBlock s' vmid' (composeNotes notes block) .restore).2.files).map File.bytes =
        some file.bytes := by
  obtain ⟨doc, hread, -, hrender⟩ := exportBlock_eq_ok hexport
  obtain ⟨f, hf, hraw, hdigest, -⟩ := read_guest_eq_ok hread
  obtain rfl : file = f := Option.some.inj (hfile.symm.trans hf)
  rw [hbytes, Text.decode?_encode, Option.some.injEq] at hraw
  rw [← hraw] at hrender
  have hd : NoSpace doc.digest.toList := hdigest ▸ noSpace_digest file.bytes
  have hfind := @find_composed _ vmid now v doc.digest block notes hv hd hrender
  obtain ⟨w, hcheck⟩ := @checkRaw_dump _ _ _ _ _ _ s' (.guest vmid') hs' hv hlint hrender
  obtain ⟨files, himport, hget, -, -⟩ := importBlock_of_ok hs' hfind hcheck
  refine ⟨⟨_, hfind, trimNewlines_dump v.val, rfl, ?_, ?_⟩, ⟨_, by rw [himport], fun hfree => ?_⟩, ?_⟩
  · rw [composeNotes_eq, Text.takeBytes_byteLen]
  · rw [composeNotes_eq, Text.byteLen_append]
  · rw [stripAll_strip_composed hfree rfl rfl]
  · rw [himport, hget, hbytes]
    rfl

end

end Backup

/-! ### Samples -/

namespace Sample
open Backup MetaStore

theorem faultFree_storeOf (docs : List (UInt32 × Text)) : (storeOf docs).FaultFree := ⟨rfl, rfl, rfl⟩

theorem read_storeOf {vmid : UInt32} {t : Text} {w : Tree} (hsize : Text.byteLen t ≤ maxReadBytes)
    (hparse : Format.yaml.parseRaw t = .ok w) :
    (storeOf [(vmid, t)]).read (.guest vmid) = .ok ⟨.guest vmid, docPath vmid, t, w, none, digest (Text.encode t), 0⟩ := by
  have hfile : Assoc.get? (docPath vmid) (storeOf [(vmid, t)]).files = some ⟨Text.encode t, 0⟩ := by
    simp [storeOf, docPath]
  exact read_guest (faultFree_storeOf _) hfile (by rw [Text.size_encode]; exact hsize) (Text.decode?_encode t) hparse

theorem exportBlock_storeOf {vmid : UInt32} {t : Text} {w : Tree} (now : Nat) (hsize : Text.byteLen t ≤ maxYamlBytes)
    (htrim : Text.byteLen (Text.trimNewlines t) ≤ maxYamlBytes) (hparse : Format.yaml.parseRaw t = .ok w) :
    ∃ block, exportBlock (storeOf [(vmid, t)]) vmid now = .ok (some block) := by
  have hcap : maxYamlBytes ≤ maxReadBytes := by decide
  have hread := @read_storeOf vmid t w (hsize.trans hcap) hparse
  simp only [exportBlock, hread, render, if_neg (Nat.not_lt.mpr htrim)]
  exact ⟨_, rfl⟩

theorem dumps_docA : Dumps (docA 1) where
  reads := parse_dump (docA 1)
  plain := by decide

end Sample

namespace Backup
open MetaStore

open Sample in
theorem notes_roundTrip_docA :
    ∃ block, exportBlock (storeOf [(100, "a: 1\n".toList)]) 100 0 = .ok (some block) ∧
      (∃ found, find (composeNotes "web\n".toList block) = .ok (some found) ∧
          found.yaml ++ ['\n'] = Format.yaml.dump (docA 1).val ∧ found.header.vmid = some 100 ∧
          composeNotes "web\n".toList block =
            Text.takeBytes found.start (composeNotes "web\n".toList block) ++ block ∧
          found.stop = found.start + Text.byteLen block) ∧
        (∃ description, (importBlock (storeOf []) 101 (composeNotes "web\n".toList block) .restore).1 =
            .ok ⟨.imported, description⟩ ∧
          (BlockFree "web\n".toList → description = some (Text.trimEnd "web\n".toList))) ∧
        (Assoc.get? (docPath 101) (importBlock (storeOf []) 101 (composeNotes "web\n".toList block) .restore).2.files).map
          File.bytes = some (Text.encode "a: 1\n".toList) := by
  obtain ⟨block, hblock⟩ := @exportBlock_storeOf 100 "a: 1\n".toList (docA 1) 0 (by decide) (by decide) rfl
  exact ⟨block, hblock, notes_roundTrip (storeOf [(100, "a: 1\n".toList)]) (storeOf []) 100 101 0 "web\n".toList block
    (docA 1) ⟨Text.encode "a: 1\n".toList, 0⟩ (by decide) dumps_docA (by simp [storeOf, docPath]) rfl hblock
    (faultFree_storeOf _)⟩

end Backup
end PveMeta
