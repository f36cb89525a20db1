import PveMeta.Theorems.Import
import PveMeta.Theorems.RoundTrip

/-! # What an export promises and a restore keeps

An export takes any file that parses; a restore takes the lint-clean mappings, and reads the text that the
scan of the lines picks between the fences. The two agree exactly on the documents that are carried. -/

namespace PveMeta
namespace Backup
open MetaStore

/-! ### The text that is carried -/

/-- The text read back from the block around a document with the lines `ls`: between the block's own fences,
    or those after the last of the lines that is itself a header line. -/
inductive Carries (ls : List Text) : Text → Prop where
  | own {body : List Text} (hplain : ∀ l ∈ ls, isHeaderLine l = false)
      (hbody : Fenced (ls ++ [fenceClose, endLine]) body) : Carries ls (Text.unlines body)
  | inner {before after rest body : List Text} {h fence : Text} {header : Header} (hls : ls = before ++ h :: after)
      (hh : isHeaderLine h = true) (hafter : ∀ l ∈ after, isHeaderLine l = false)
      (hheader : parseHeader h = some header) (hversion : header.version = version)
      (hrest : after ++ [fenceClose, endLine] = fence :: rest) (hopen : Text.trimEnd fence = fenceOpen)
      (hbody : Fenced rest body) : Carries ls (Text.unlines body)

/-- Without a line that looks like a delimiter, the text is the document's own. -/
theorem carries_of_plain {ls : List Text} (h : ∀ l ∈ ls, isHeaderLine l = false ∧ isEndLine l = false) :
    Carries ls (Text.unlines ls) := by
  refine .own (fun l hl => (h l hl).1) ⟨fenceClose, endLine, [], rfl, by decide, by decide, fun l hl he => ?_⟩
  have := isEndLine_iff.mpr he
  rw [(h l hl).2] at this
  cases this

theorem last_header (ls : List Text) :
    (∀ l ∈ ls, isHeaderLine l = false) ∨
      ∃ before h after, ls = before ++ h :: after ∧ isHeaderLine h = true ∧ ∀ l ∈ after, isHeaderLine l = false := by
  induction ls with
  | nil => exact Or.inl fun _ h => nomatch h
  | cons l ls ih =>
    rcases ih with hnone | ⟨before, h, after, rfl, hh, hafter⟩
    · cases hl : isHeaderLine l with
      | false => exact Or.inl (List.forall_mem_cons.mpr ⟨hl, hnone⟩)
      | true => exact Or.inr ⟨[], l, ls, rfl, hl, hnone⟩
    · exact Or.inr ⟨l :: before, h, after, rfl, hh, hafter⟩

section

variable {pre header : Text} {ls : List Text}

theorem find_own (hpre : Text.EndsLine pre) (hheader : isHeaderLine header = true)
    (hlines : ∀ l ∈ header :: (fenceOpen :: (ls ++ [fenceClose])), '\n' ∉ l)
    (hplain : ∀ l ∈ ls, isHeaderLine l = false) :
    ∃ stop : List Text → Nat, find (pre ++ Text.unlines (blockLines header ls)) =
      (readBlock (blockLines header ls)).map fun r => some ⟨Text.byteLen pre, stop r.2, r.1, Text.unlines r.2⟩ := by
  have hnot : ∀ l ∈ fenceOpen :: (ls ++ [fenceClose]), isHeaderLine l = false := by
    refine List.forall_mem_cons.mpr ⟨by decide, List.forall_mem_append.mpr ⟨hplain, ?_⟩⟩
    exact List.forall_mem_singleton.mpr (by decide)
  rw [blockLines_eq, find_of_last hpre hheader hnot hlines]
  exact ⟨fun body => blockStop _ _ (2 + body.length + 2), rfl⟩

theorem find_inner {before after : List Text} {h : Text}
    (hlines : ∀ l ∈ header :: (fenceOpen :: (before ++ h :: after ++ [fenceClose])), '\n' ∉ l)
    (hh : isHeaderLine h = true) (hafter : ∀ l ∈ after, isHeaderLine l = false) :
    ∃ (start : Nat) (stop : List Text → Nat),
      find (pre ++ Text.unlines (blockLines header (before ++ h :: after))) =
        (readBlock (h :: (after ++ [fenceClose, endLine]))).map fun r => some ⟨start, stop r.2, r.1, Text.unlines r.2⟩ := by
  have hsplit : pre ++ Text.unlines (blockLines header (before ++ h :: after)) =
      (pre ++ Text.unlines (header :: fenceOpen :: before) ++ ['\n']) ++
        Text.unlines (h :: ((after ++ [fenceClose]) ++ [endLine])) := by
    have hlist : blockLines header (before ++ h :: after) =
        (header :: fenceOpen :: before) ++ (h :: ((after ++ [fenceClose]) ++ [endLine])) := by
      simp [blockLines]
    rw [hlist, Text.unlines_append (List.cons_ne_nil _ _) (List.cons_ne_nil _ _)]
    simp only [List.append_assoc, List.singleton_append]
  have hends : Text.EndsLine (pre ++ Text.unlines (header :: fenceOpen :: before) ++ ['\n']) :=
    Text.endsLine_append_newline _
  have hnot : ∀ l ∈ after ++ [fenceClose], isHeaderLine l = false :=
    List.forall_mem_append.mpr ⟨hafter, List.forall_mem_singleton.mpr (by decide)⟩
  have hinner : ∀ l ∈ h :: (after ++ [fenceClose]), '\n' ∉ l := by
    intro l hl
    refine hlines l (List.mem_cons_of_mem _ (List.mem_cons_of_mem _ ?_))
    rw [List.append_assoc]
    exact List.mem_append_right _ hl
  have hread : readBlock (h :: (after ++ [fenceClose, endLine])) =
      readBlock (h :: (after ++ [fenceClose] ++ [endLine])) := by
    simp
  rw [hsplit, find_of_last hends hh hnot hinner, hread]
  exact ⟨_, fun body => blockStop _ _ (2 + body.length + 2), rfl⟩

theorem carries_of_find (hpre : Text.EndsLine pre) (hheader : isHeaderLine header = true)
    (hlines : ∀ l ∈ header :: (fenceOpen :: (ls ++ [fenceClose])), '\n' ∉ l) {r : Option Found}
    (h : find (pre ++ Text.unlines (blockLines header ls)) = .ok r) : ∃ found, r = some found ∧ Carries ls found.yaml := by
  rcases last_header ls with hplain | ⟨before, l, after, rfl, hl, hafter⟩
  · obtain ⟨stop, hfind⟩ := find_own hpre hheader hlines hplain
    rw [hfind] at h
    obtain ⟨⟨hd, body⟩, hread, rfl⟩ := Except.map_eq_ok.mp h
    obtain ⟨-, -, fence, rest, heq, -, hbody⟩ := readBlock_eq_ok.mp hread
    cases heq
    exact ⟨_, rfl, .own hplain hbody⟩
  · obtain ⟨start, stop, hfind⟩ := find_inner hlines hl hafter
    rw [hfind] at h
    obtain ⟨⟨hd, body⟩, hread, rfl⟩ := Except.map_eq_ok.mp h
    obtain ⟨hparse, hversion, fence, rest, heq, hopen, hbody⟩ := readBlock_eq_ok.mp hread
    exact ⟨_, rfl, .inner rfl hl hafter hparse hversion heq hopen hbody⟩

/-- The text that is carried is found in the notes, if the block's own header can be read. -/
theorem find_of_carries (hpre : Text.EndsLine pre) (hheader : isHeaderLine header = true) {hd : Header}
    (hparse : parseHeader header = some hd) (hversion : hd.version = version)
    (hlines : ∀ l ∈ header :: (fenceOpen :: (ls ++ [fenceClose])), '\n' ∉ l) {text : Text} (h : Carries ls text) :
    ∃ found, find (pre ++ Text.unlines (blockLines header ls)) = .ok (some found) ∧ found.yaml = text := by
  cases h with
  | @own body hplain hbody =>
    obtain ⟨stop, hfind⟩ := find_own hpre hheader hlines hplain
    have hread : readBlock (blockLines header ls) = .ok (hd, body) :=
      readBlock_eq_ok.mpr ⟨hparse, hversion, fenceOpen, _, rfl, by decide, hbody⟩
    rw [hfind, hread]
    exact ⟨_, rfl, rfl⟩
  | @inner before after rest body l fence hd' hls hh hafter hparse' hversion' hrest hopen hbody =>
    subst hls
    obtain ⟨start, stop, hfind⟩ := find_inner hlines hh hafter
    have hread : readBlock (l :: (after ++ [fenceClose, endLine])) = .ok (hd', body) :=
      readBlock_eq_ok.mpr ⟨hparse', hversion', fence, rest, hrest, hopen, hbody⟩
    rw [hfind, hread]
    exact ⟨_, rfl, rfl⟩

end

/-! ### Sizes -/

def linesLen (ls : List Text) : Nat := (ls.map fun l => Text.byteLen l + 1).sum

theorem byteLen_unlines {ls : List Text} (h : ls ≠ []) : Text.byteLen (Text.unlines ls) + 1 = linesLen ls := by
  induction ls with
  | nil => exact absurd rfl h
  | cons l ls ih =>
    by_cases hls : ls = []
    · subst hls
      simp [linesLen]
    · have := ih hls
      rw [Text.unlines_cons l hls, Text.byteLen_append, Text.byteLen_cons, linesLen, List.map_cons, List.sum_cons,
        ← linesLen, ← this]
      have hnl : '\n'.utf8Size = 1 := by decide
      omega

theorem byteLen_unlines_le (ls : List Text) : Text.byteLen (Text.unlines ls) ≤ linesLen ls := by
  by_cases h : ls = []
  · subst h
    exact Nat.le_refl 0
  · have := byteLen_unlines h
    omega

theorem linesLen_append (as bs : List Text) : linesLen (as ++ bs) = linesLen as + linesLen bs := by
  simp [linesLen]

theorem linesLen_fenced {ls body : List Text} (h : Fenced ls body) : linesLen body ≤ linesLen ls := by
  obtain ⟨close, stop, more, rfl, -⟩ := h
  rw [linesLen_append]
  exact Nat.le_add_right _ _

/-- The text that is carried is hardly longer than the document. -/
theorem byteLen_le_of_carries {ls : List Text} {text : Text} (hne : ls ≠ []) (h : Carries ls text) :
    Text.byteLen text ≤ Text.byteLen (Text.unlines ls) + 20 := by
  have hls := byteLen_unlines hne
  have htail : linesLen [fenceClose, endLine] = 17 := by decide
  cases h with
  | own hplain hbody =>
    have hle := (byteLen_unlines_le _).trans (linesLen_fenced hbody)
    rw [linesLen_append, htail] at hle
    omega
  | @inner before after rest body l fence hd' heq hh hafter hparse' hversion' hrest hopen hbody =>
    have hle := (byteLen_unlines_le _).trans (linesLen_fenced hbody)
    have hrestlen := congrArg linesLen hrest
    have hlen : linesLen ls = linesLen before + (Text.byteLen l + 1 + linesLen after) := by
      rw [heq, linesLen_append]
      simp [linesLen]
    have hcons : linesLen (fence :: rest) = Text.byteLen fence + 1 + linesLen rest := by simp [linesLen]
    rw [linesLen_append, htail, hcons] at hrestlen
    omega

/-! ### Restoring an export -/

section

variable [Deps]

/-- The import in restore mode succeeds, and the document stored then is equal to `v` as a value. -/
def Restores (s : MetaStore) (vmid : UInt32) (description : Text) (v : Value) : Prop :=
  (∃ d, (importBlock s vmid description .restore).1 = .ok ⟨.imported, d⟩) ∧
    ∃ doc, (importBlock s vmid description .restore).2.read (.guest vmid) = .ok doc ∧ doc.parseError = none ∧
      (doc.value.val == v) = true

/-- The text that is carried of a document, with one newline at its end, is lint-clean and equal to it. -/
def Carried (raw : Text) (v : Value) : Prop :=
  ∃ text w, Carries (Text.lines (Text.trimNewlines raw)) text ∧
    Format.yaml.parse (normalizeTrailingNewline text) = .ok w ∧ (w.val == v) = true

variable {s : MetaStore} {vmid : UInt32} {description : Text} {found : Found} {v : Value}

theorem restores_of_parse (h : s.FaultFree) (hfind : find description = .ok (some found))
    (hsize : Text.byteLen (normalizeTrailingNewline found.yaml) ≤ maxBytes) {w : Tree}
    (hparse : Format.yaml.parse (normalizeTrailingNewline found.yaml) = .ok w) (heq : (w.val == v) = true) :
    Restores s vmid description v := by
  have hcheck : s.checkRaw (.guest vmid) (found.yaml ++ ['\n']) none = .ok (normalizeTrailingNewline found.yaml, w) :=
    (checkRaw_eq_ok h).mpr ⟨(normalize_newline _).symm, hsize, hparse⟩
  obtain ⟨files, himport, hget, -, -⟩ := importBlock_of_ok h hfind hcheck
  have hcap : maxBytes ≤ maxReadBytes := by decide
  have hread := read_guest (h.withFiles files) hget (by rw [Text.size_encode]; exact hsize.trans hcap)
    (Text.decode?_encode _) (parse_eq_ok_iff.mp hparse).1
  rw [Restores, himport]
  exact ⟨⟨_, rfl⟩, _, hread, rfl, heq⟩

theorem parse_of_restores (h : s.FaultFree) (hr : Restores s vmid description v) :
    ∃ found w, find description = .ok (some found) ∧ Format.yaml.parse (normalizeTrailingNewline found.yaml) = .ok w ∧
      (w.val == v) = true := by
  obtain ⟨⟨d, hd⟩, doc, hread, hnone, heq⟩ := hr
  cases hfind : find description with
  | error e =>
    rw [importBlock, hfind] at hd
    cases hd
  | ok r =>
    cases r with
    | none =>
      rw [importBlock, hfind] at hd
      cases hd
    | some found =>
      cases hcheck : s.checkRaw (.guest vmid) (found.yaml ++ ['\n']) none with
      | error e =>
        rw [importBlock_of_error hfind hcheck] at hd
        cases hd
      | ok r =>
        obtain ⟨n, w⟩ := r
        obtain ⟨files, himport, hget, -, -⟩ := importBlock_of_ok h hfind hcheck
        obtain ⟨rfl, -, hparse⟩ := (checkRaw_eq_ok h).mp hcheck
        rw [normalize_newline] at hparse
        rw [himport] at hread
        obtain ⟨f, hf, hraw, -, hvalue⟩ := read_guest_eq_ok hread
        obtain rfl := Option.some.inj (hget.symm.trans hf)
        rw [Text.decode?_encode, normalize_newline, Option.some.injEq] at hraw
        have hvalue := hvalue hnone
        rw [← hraw] at hvalue
        have hw : w = doc.value := Except.ok.inj ((parse_eq_ok_iff.mp hparse).1.symm.trans hvalue)
        exact ⟨found, w, rfl, hparse, hw ▸ heq⟩

theorem isObject_of_restores (h : s.FaultFree) (hr : Restores s vmid description v) : v.isObject = true := by
  obtain ⟨found, w, -, hparse, heq⟩ := parse_of_restores h hr
  have hlint := (parse_eq_ok_iff.mp hparse).2
  have hobj : w.val.isObject = true := by
    by_contra hobj
    rw [lint, if_neg hobj] at hlint
    cases hlint
  obtain ⟨m, hm⟩ := Value.isObject_iff.mp hobj
  rw [hm] at heq
  revert heq
  cases v <;> first | exact fun _ => rfl | rintro ⟨⟩

/-- Where an export gives a block, a restore of notes that end in it, after any lines, stores an equal document
    exactly if the document is carried. -/
theorem export_restores_iff (s s' : MetaStore) (vmid vmid' : UInt32) (now : Nat) (notes block : Text) (doc : Document)
    (hread : s.read (.guest vmid) = .ok doc) (hexport : exportBlock s vmid now = .ok (some block))
    (hs' : s'.FaultFree) (hends : Text.EndsLine notes) :
    Restores s' vmid' (notes ++ block) doc.value.val ↔ Carried doc.raw doc.value.val := by
  obtain ⟨doc', hread', -, hrender⟩ := exportBlock_eq_ok hexport
  obtain rfl : doc = doc' := Except.ok.inj (hread.symm.trans hread')
  obtain ⟨f, -, -, hdigest, -⟩ := read_guest_eq_ok hread
  have hd : NoSpace doc.digest.toList := hdigest ▸ noSpace_digest f.bytes
  obtain ⟨hsize, rfl⟩ := render_eq_ok hrender
  have hlines : ∀ l ∈ headerLine vmid doc.digest now ::
      (fenceOpen :: (Text.lines (Text.trimNewlines doc.raw) ++ [fenceClose])), '\n' ∉ l :=
    not_newline_blockLines hd fun l => Text.not_mem_of_mem_lines
  constructor
  · intro hr
    obtain ⟨found, w, hfind, hparse, heq⟩ := parse_of_restores hs' hr
    obtain ⟨found', hsome, hcarries⟩ := carries_of_find hends isHeaderLine_headerLine hlines hfind
    cases hsome
    exact ⟨found.yaml, w, hcarries, hparse, heq⟩
  · rintro ⟨text, w, hcarries, hparse, heq⟩
    obtain ⟨found, hfind, rfl⟩ :=
      find_of_carries hends isHeaderLine_headerLine (parseHeader_headerLine hd) rfl hlines hcarries
    refine restores_of_parse hs' hfind ?_ hparse heq
    have hle := byteLen_le_of_carries (Text.lines_ne_nil _) hcarries
    rw [Text.unlines_lines] at hle
    have htrim : Text.byteLen (Text.trimNewlines found.yaml) ≤ Text.byteLen found.yaml := by
      obtain ⟨n, hn⟩ := Text.eq_trimNewlines_append found.yaml
      conv_rhs => rw [hn]
      rw [Text.byteLen_append]
      exact Nat.le_add_right _ _
    have hnl : Text.byteLen ['\n'] = 1 := by decide
    have hcap : maxYamlBytes + 21 ≤ maxBytes := by decide
    rw [normalizeTrailingNewline, Text.byteLen_append, hnl]
    omega

end

open Sample in
theorem export_restores_iff_docA :
    ∃ block, exportBlock (storeOf [(100, "a: 1\n".toList)]) 100 0 = .ok (some block) ∧
      (Restores (storeOf []) 101 ("web\n".toList ++ block) (docA 1).val ↔ Carried "a: 1\n".toList (docA 1).val) := by
  obtain ⟨block, hblock⟩ := @exportBlock_storeOf 100 "a: 1\n".toList (docA 1) 0 (by decide) (by decide) rfl
  have hread := @read_storeOf 100 "a: 1\n".toList (docA 1) (by decide) rfl
  exact ⟨block, hblock, export_restores_iff (storeOf [(100, "a: 1\n".toList)]) (storeOf []) 100 101 0 "web\n".toList block
    _ hread hblock (faultFree_storeOf _) (by decide)⟩

open Sample in
/-- A list parses and is exported, and no restore takes it. -/
theorem exported_list_not_restored :
    ∃ block, exportBlock (storeOf [(100, "- a\n".toList)]) 100 0 = .ok (some block) ∧
      ¬ Restores (storeOf []) 100 ([] ++ block) docList.val := by
  obtain ⟨block, hblock⟩ := @exportBlock_storeOf 100 "- a\n".toList docList 0 (by decide) (by decide) rfl
  exact ⟨block, hblock, fun hr => nomatch isObject_of_restores (faultFree_storeOf []) hr⟩

end Backup
end PveMeta
