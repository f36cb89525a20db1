import PveMeta.Backup
import PveMeta.Lib.Except

/-! # The block in the notes

Where the scan for a block stops, and what is read there. A rendered block after notes whose lines are
complete is the last of its lines' headers, whatever the notes are. -/

namespace PveMeta
namespace Backup

/-! ### Lines -/

theorem trimBreaks_newline (l : Text) : trimBreaks (l ++ ['\n']) = trimBreaks l :=
  List.rdropWhile_concat_pos _ _ _ rfl

/-- The newline of a line does not matter to what the line is. -/
@[simp] theorem isHeaderLine_newline (l : Text) : isHeaderLine (l ++ ['\n']) = isHeaderLine l := by
  simp only [isHeaderLine, trimBreaks_newline]

@[simp] theorem isEndLine_newline (l : Text) : isEndLine (l ++ ['\n']) = isEndLine l := by
  simp only [isEndLine, trimBreaks_newline]

/-- White space takes line breaks with it. -/
theorem trimEnd_trimBreaks (l : Text) : Text.trimEnd (trimBreaks l) = Text.trimEnd l := by
  induction l using List.reverseRecOn with
  | nil => rfl
  | append_singleton l c ih =>
    by_cases hc : isBreak c = true
    · have hspace : Text.isSpace c = true := by
        simp only [isBreak, Bool.or_eq_true, beq_iff_eq] at hc
        rcases hc with rfl | rfl <;> decide
      rw [trimBreaks, List.rdropWhile_concat_pos _ _ _ hc, ← trimBreaks, ih, Text.trimEnd, Text.trimEnd,
        List.rdropWhile_concat_pos _ _ _ hspace]
    · rw [trimBreaks, List.rdropWhile_concat_neg _ _ _ hc]

theorem isEndLine_iff {l : Text} : isEndLine l = true ↔ Text.trimEnd l = endLine := by
  rw [isEndLine, trimEnd_trimBreaks, beq_iff_eq]

theorem prefix_trimEnd (l : Text) : Text.trimEnd l <+: l := List.rdropWhile_prefix _ _

theorem prefix_of_isHeaderLine {l : Text} (h : isHeaderLine l = true) : beginPrefix <+: l := by
  simp only [isHeaderLine, Bool.and_eq_true] at h
  exact (List.isPrefixOf_iff_prefix.mp h.1).trans (List.rdropWhile_prefix _ _)

theorem prefix_of_isEndLine {l : Text} (h : isEndLine l = true) : endLine <+: l :=
  isEndLine_iff.mp h ▸ prefix_trimEnd l

/-- No line is both. -/
theorem not_isHeaderLine_of_isEndLine {l : Text} (h : isEndLine l = true) : isHeaderLine l = false := by
  rw [← Bool.not_eq_true]
  intro hh
  have hpre : beginPrefix <+: endLine :=
    List.prefix_of_prefix_length_le (prefix_of_isHeaderLine hh) (prefix_of_isEndLine h) (by decide)
  exact absurd hpre (by decide)

/-- A line that starts with no bracket is neither. -/
theorem not_delimiter {l : Text} (h : l.head? ≠ some '[') : isHeaderLine l = false ∧ isEndLine l = false := by
  constructor
  · rw [← Bool.not_eq_true]
    intro hh
    obtain ⟨a, ha⟩ := prefix_of_isHeaderLine hh
    exact h (by rw [← ha]; rfl)
  · rw [← Bool.not_eq_true]
    intro he
    obtain ⟨a, ha⟩ := prefix_of_isEndLine he
    exact h (by rw [← ha]; rfl)

/-! ### The scan -/

theorem foldl_scanLine_offset (s : Scan) (ls : List Text) :
    (ls.foldl scanLine s).offset = s.offset + Text.byteLen ls.flatten := by
  induction ls generalizing s with
  | nil => rfl
  | cons l ls ih =>
    have hstep : (scanLine s l).offset = s.offset + Text.byteLen l := by
      unfold scanLine
      dsimp only
      split
      · rfl
      · split <;> rfl
    rw [List.foldl_cons, ih, hstep, List.flatten_cons, Text.byteLen_append, Nat.add_assoc]

/-- The last header line stays the last until the next one. -/
theorem foldl_scanLine_header {s : Scan} {ls : List Text} (h : ∀ l ∈ ls, isHeaderLine l = false) :
    (ls.foldl scanLine s).header = s.header := by
  induction ls generalizing s with
  | nil => rfl
  | cons l ls ih =>
    have hstep : (scanLine s l).header = s.header := by
      unfold scanLine
      dsimp only
      rw [h l List.mem_cons_self, if_neg Bool.false_ne_true]
      split <;> rfl
    rw [List.foldl_cons, ih fun m hm => h m (List.mem_cons_of_mem _ hm), hstep]

theorem foldl_scanLine_block {s : Scan} {ls : List Text} (h : s.block.isSome = true) :
    (ls.foldl scanLine s).block.isSome = true := by
  induction ls generalizing s with
  | nil => exact h
  | cons l ls ih =>
    refine ih ?_
    unfold scanLine
    dsimp only
    split
    · exact h
    · split
      · next hend => exact (Bool.and_eq_true _ _ ▸ hend).2
      · exact h

/-- In no pair of the text's lines the first is a header line and the second an end line. -/
def BlockFree (t : Text) : Prop :=
  (Text.splitInclusive t).Pairwise fun h e => ¬ (isHeaderLine h = true ∧ isEndLine e = true)

theorem foldl_scanLine_block_eq_none {s : Scan} {ls : List Text} (h : s.block = none) :
    (ls.foldl scanLine s).block = none ↔
      (s.header.isSome = true → ∀ e ∈ ls, isEndLine e = false) ∧
        ls.Pairwise fun h e => ¬ (isHeaderLine h = true ∧ isEndLine e = true) := by
  induction ls generalizing s with
  | nil => simp [h]
  | cons l ls ih =>
    rw [List.foldl_cons, List.pairwise_cons]
    by_cases hhead : isHeaderLine l = true
    · have hend : isEndLine l = false := by
        by_contra he
        have := not_isHeaderLine_of_isEndLine (Bool.not_eq_false _ ▸ he)
        rw [hhead] at this
        cases this
      have hstep : scanLine s l = ⟨s.offset + Text.byteLen l, some s.offset, none⟩ := by
        simp [scanLine, hhead, h]
      rw [hstep, ih rfl]
      simp only [Option.isSome_some, forall_const, hhead, true_and, Bool.not_eq_true, List.forall_mem_cons, hend]
      tauto
    · by_cases hend : (isEndLine l && s.header.isSome) = true
      · have hstep : (scanLine s l).block.isSome = true := by
          simp only [scanLine, hhead, hend, if_true, if_false, Bool.false_eq_true]
          exact (Bool.and_eq_true _ _ ▸ hend).2
        have hsome : (ls.foldl scanLine (scanLine s l)).block.isSome = true := foldl_scanLine_block hstep
        have hne : (ls.foldl scanLine (scanLine s l)).block ≠ none := by
          intro hnone
          rw [hnone] at hsome
          cases hsome
        simp only [Bool.and_eq_true] at hend
        simp only [hne, false_iff, not_and]
        intro hfree
        have := hfree hend.2 l List.mem_cons_self
        rw [hend.1] at this
        cases this
      · have hstep : scanLine s l = ⟨s.offset + Text.byteLen l, s.header, none⟩ := by
          simp [scanLine, hhead, hend, h]
        rw [hstep, ih rfl]
        simp only [hhead, Bool.false_eq_true, false_and, not_false_eq_true, implies_true, true_and,
          List.forall_mem_cons]
        simp only [Bool.and_eq_true, not_and, Bool.not_eq_true] at hend
        cases hh : s.header.isSome with
        | false => simp
        | true =>
          have : isEndLine l = false := by
            by_contra he
            exact absurd (hend (Bool.not_eq_false _ ▸ he)) (by simp [hh])
          simp [this]

theorem lastHeader_eq_none_iff {t : Text} : lastHeader t = none ↔ BlockFree t := by
  rw [lastHeader, foldl_scanLine_block_eq_none rfl]
  simp [BlockFree]

/-- The block is that of the last header line, where an end line is the last line of all. -/
theorem foldl_scanLine_last {s : Scan} {a b : List Text} {h e : Text} (hh : isHeaderLine h = true)
    (hb : ∀ l ∈ b, isHeaderLine l = false) (he : isEndLine e = true) :
    ((a ++ h :: (b ++ [e])).foldl scanLine s).block = some (s.offset + Text.byteLen a.flatten) := by
  rw [List.foldl_append, List.foldl_cons, List.foldl_append]
  have hoff := foldl_scanLine_offset s a
  have hhead : (scanLine (a.foldl scanLine s) h).header = some (s.offset + Text.byteLen a.flatten) := by
    simp only [scanLine, hh, if_true, hoff]
  have hmid := (foldl_scanLine_header (s := scanLine (a.foldl scanLine s) h) hb).trans hhead
  simp only [List.foldl_cons, List.foldl_nil, scanLine, not_isHeaderLine_of_isEndLine he, he, Bool.true_and]
  rw [scanLine] at hmid
  simp only [hmid, Option.isSome_some, if_true, Bool.false_eq_true, if_false]

/-! ### Reading the block -/

theorem takeBody_eq_some {ls body : List Text} :
    takeBody ls = some body ↔
      ∃ stop more, ls = body ++ stop :: more ∧ Text.trimEnd stop = endLine ∧ ∀ l ∈ body, Text.trimEnd l ≠ endLine := by
  induction ls generalizing body with
  | nil => simp [takeBody]
  | cons l ls ih =>
    rw [takeBody]
    by_cases hl : Text.trimEnd l = endLine
    · rw [if_pos hl]
      constructor
      · intro h
        cases h
        exact ⟨l, ls, rfl, hl, fun _ h => nomatch h⟩
      · rintro ⟨stop, more, heq, -, hbody⟩
        cases body with
        | nil => rfl
        | cons m body =>
          cases heq
          exact absurd hl (hbody l List.mem_cons_self)
    · rw [if_neg hl, Option.map_eq_some_iff]
      constructor
      · rintro ⟨b, hb, rfl⟩
        obtain ⟨stop, more, rfl, hstop, hbody⟩ := ih.mp hb
        exact ⟨stop, more, rfl, hstop, List.forall_mem_cons.mpr ⟨hl, hbody⟩⟩
      · rintro ⟨stop, more, heq, hstop, hbody⟩
        cases body with
        | nil =>
          cases heq
          exact absurd hstop hl
        | cons m body =>
          cases heq
          exact ⟨body, ih.mpr ⟨stop, more, rfl, hstop, (List.forall_mem_cons.mp hbody).2⟩, rfl⟩

/-- `body` are the lines of `ls` before a closing fence and an end line, which is the first. -/
def Fenced (ls body : List Text) : Prop :=
  ∃ close stop more, ls = body ++ close :: stop :: more ∧ Text.trimEnd close = fenceClose ∧
    Text.trimEnd stop = endLine ∧ ∀ l ∈ body, Text.trimEnd l ≠ endLine

theorem readBody_eq_ok {ls body : List Text} : readBody ls = .ok body ↔ Fenced ls body := by
  constructor
  · intro h
    rw [readBody] at h
    split at h
    · cases h
    · next lines htake =>
      split at h
      · next hlast =>
        obtain ⟨close, hclose, hfence⟩ := Option.map_eq_some_iff.mp hlast
        obtain ⟨stop, more, rfl, hstop, hbody⟩ := takeBody_eq_some.mp htake
        have hsplit := List.dropLast_append_getLast? close hclose
        cases h
        refine ⟨close, stop, more, ?_, hfence, hstop, fun l hl => hbody l (List.mem_of_mem_dropLast hl)⟩
        conv_lhs => rw [← hsplit]
        simp
      · cases h
  · rintro ⟨close, stop, more, rfl, hclose, hstop, hbody⟩
    have htake : takeBody (body ++ close :: stop :: more) = some (body ++ [close]) := by
      refine takeBody_eq_some.mpr ⟨stop, more, by simp, hstop, ?_⟩
      rw [List.forall_mem_append]
      exact ⟨hbody, by simp [hclose, show fenceClose ≠ endLine by decide]⟩
    simp only [readBody, htake, List.getLast?_concat, Option.map_some, hclose, if_true, List.dropLast_concat]

theorem readBlock_cons (h : Text) (ls : List Text) :
    readBlock (h :: ls) =
      match parseHeader h with
      | none => .error (malformed "unreadable header line")
      | some header =>
        if header.version ≠ version then
          .error (malformed ("unsupported version v" ++ DocId.decimal header.version.toNat))
        else if (ls.head?).map Text.trimEnd ≠ some fenceOpen then
          .error (malformed "the header is not followed by the opening fence")
        else (readBody ls.tail).map (header, ·) :=
  rfl

/-- What a block is read as: its header line, the opening fence, and the lines up to the closing one. -/
theorem readBlock_eq_ok {h : Text} {ls body : List Text} {header : Header} :
    readBlock (h :: ls) = .ok (header, body) ↔
      parseHeader h = some header ∧ header.version = version ∧
        ∃ fence rest, ls = fence :: rest ∧ Text.trimEnd fence = fenceOpen ∧ Fenced rest body := by
  rw [readBlock_cons]
  cases hp : parseHeader h with
  | none => simp
  | some hd =>
    dsimp only
    constructor
    · intro heq
      split at heq
      · cases heq
      · next hv =>
        split at heq
        · cases heq
        · next hf =>
          obtain ⟨b, hb, heq⟩ := Except.map_eq_ok.mp heq
          cases heq
          obtain ⟨fence, hfence, hopen⟩ := Option.map_eq_some_iff.mp (not_not.mp hf)
          obtain ⟨rest, rfl⟩ := List.head?_eq_some_iff.mp hfence
          exact ⟨rfl, not_not.mp hv, fence, rest, rfl, hopen, readBody_eq_ok.mp hb⟩
    · rintro ⟨heq, hv, fence, rest, rfl, hopen, hbody⟩
      cases heq
      have hhead : ((fence :: rest).head?).map Text.trimEnd = some fenceOpen := congrArg some hopen
      rw [if_neg (not_not.mpr hv), if_neg (not_not.mpr hhead)]
      exact Except.map_eq_ok.mpr ⟨body, readBody_eq_ok.mpr hbody, rfl⟩

/-! ### Finding the block -/

section

variable {pre h : Text} {b : List Text}

/-- The scan stops at the last header line, where an end line is the last line of all. -/
theorem lastHeader_of_last (hpre : Text.EndsLine pre) (hh : isHeaderLine h = true)
    (hb : ∀ l ∈ b, isHeaderLine l = false) (hlines : ∀ l ∈ h :: b, '\n' ∉ l) :
    lastHeader (pre ++ Text.unlines (h :: (b ++ [endLine]))) = some (Text.byteLen pre) := by
  have hne : endLine ≠ [] := by decide
  rw [lastHeader, Text.splitInclusive_append hpre, ← List.cons_append, Text.splitInclusive_unlines hlines (by decide) hne,
    List.map_cons, List.cons_append, foldl_scanLine_last (by rw [isHeaderLine_newline, hh]) _ (by decide)]
  · simp [Text.flatten_splitInclusive]
  · intro l hl
    obtain ⟨m, hm, rfl⟩ := List.mem_map.mp hl
    rw [isHeaderLine_newline, hb m hm]

/-- What is found there is what is read from there on. -/
theorem find_of_last (hpre : Text.EndsLine pre) (hh : isHeaderLine h = true)
    (hb : ∀ l ∈ b, isHeaderLine l = false) (hlines : ∀ l ∈ h :: b, '\n' ∉ l) :
    find (pre ++ Text.unlines (h :: (b ++ [endLine]))) =
      (readBlock (h :: (b ++ [endLine]))).map fun r =>
        some ⟨Text.byteLen pre,
          blockStop (pre ++ Text.unlines (h :: (b ++ [endLine]))) (Text.byteLen pre) (2 + r.2.length + 2), r.1,
          Text.unlines r.2⟩ := by
  have hall : ∀ l ∈ h :: (b ++ [endLine]), '\n' ∉ l := by
    rw [← List.cons_append, List.forall_mem_append]
    exact ⟨hlines, List.forall_mem_singleton.mpr (by decide)⟩
  rw [find, lastHeader_of_last hpre hh hb hlines]
  simp only [Text.dropBytes_byteLen, Text.lines_unlines (List.cons_ne_nil _ _) hall]
  cases readBlock (h :: (b ++ [endLine])) <;> rfl

theorem blockStop_of_last {n : Nat} (hlines : ∀ l ∈ h :: b, '\n' ∉ l) (hn : (h :: b).length + 1 ≤ n) :
    blockStop (pre ++ Text.unlines (h :: (b ++ [endLine]))) (Text.byteLen pre) n =
      Text.byteLen (pre ++ Text.unlines (h :: (b ++ [endLine]))) := by
  have hne : endLine ≠ [] := by decide
  have hlen : (Text.splitInclusive (Text.unlines (h :: (b ++ [endLine])))).length ≤ n := by
    rw [← List.cons_append, Text.splitInclusive_unlines hlines (by decide) hne, List.length_append, List.length_map]
    exact hn
  have hlast : (pre ++ Text.unlines (h :: (b ++ [endLine]))).getLast? = some ']' := by
    rw [← List.cons_append, Text.unlines_append (List.cons_ne_nil _ _) (List.cons_ne_nil _ _), Text.unlines_singleton,
      show endLine = "[/pve-meta".toList ++ [']'] from rfl, ← List.cons_append, ← List.append_assoc,
      ← List.append_assoc, List.getLast?_concat]
  have htake := Text.takeBytes_byteLen (pre ++ Text.unlines (h :: (b ++ [endLine]))) []
  rw [List.append_nil] at htake
  simp only [blockStop, Text.dropBytes_byteLen, List.take_of_length_le hlen, Text.flatten_splitInclusive,
    ← Text.byteLen_append, htake, hlast]
  rfl

end

/-! ### A rendered block -/

def NoSpace (t : Text) : Prop := ∀ c ∈ t, Text.isSpace c = false

theorem noSpace_of_all {t : Text} (h : (t.all fun c => ! Text.isSpace c) = true) : NoSpace t := fun c hc =>
  Bool.not_eq_true' _ ▸ List.all_eq_true.mp h c hc

theorem NoSpace.append {a b : Text} (ha : NoSpace a) (hb : NoSpace b) : NoSpace (a ++ b) :=
  List.forall_mem_append.mpr ⟨ha, hb⟩

theorem NoSpace.not_newline {t : Text} (h : NoSpace t) : '\n' ∉ t := fun hm => nomatch h _ hm

theorem noSpace_of_isDigit {t : Text} (h : t.all Char.isDigit = true) : NoSpace t := by
  intro c hc
  have hdigit := List.all_eq_true.mp h c hc
  simp only [Char.isDigit, Bool.and_eq_true, decide_eq_true_eq, UInt32.le_iff_toNat_le] at hdigit
  have hlo : 48 ≤ c.toNat := hdigit.1
  have hhi : c.toNat ≤ 57 := hdigit.2
  simp [Text.isSpace]
  omega

theorem noSpace_toDigits (n : Nat) : NoSpace (Nat.toDigits 10 n) :=
  noSpace_of_isDigit (Decimal.all_isDigit_toDigits n)

theorem noSpace_pad (width n : Nat) : NoSpace (pad width n) := by
  refine NoSpace.append (fun c hc => ?_) (noSpace_toDigits n)
  rw [(List.mem_replicate.mp hc).2]
  decide

theorem noSpace_formatUtc (y m d secs : Nat) : NoSpace (formatUtc y m d secs) := by
  have hpad : ∀ width n c, Text.isSpace c = false → NoSpace (pad width n ++ [c]) :=
    fun width n c hc => (noSpace_pad width n).append (List.forall_mem_singleton.mpr hc)
  have heq : formatUtc y m d secs =
      (pad 4 y ++ ['-']) ++ (pad 2 m ++ ['-']) ++ (pad 2 d ++ ['T']) ++ (pad 2 (secs / 3600) ++ [':']) ++
        (pad 2 (secs % 3600 / 60) ++ [':']) ++ (pad 2 (secs % 60) ++ ['Z']) := by
    simp only [formatUtc, List.append_assoc]
  rw [heq]
  exact (((((hpad _ _ _ (by decide)).append (hpad _ _ _ (by decide))).append (hpad _ _ _ (by decide))).append
    (hpad _ _ _ (by decide))).append (hpad _ _ _ (by decide))).append (hpad _ _ _ (by decide))

theorem noSpace_rfc3339Utc (unix : Nat) : NoSpace (rfc3339Utc unix) := noSpace_formatUtc _ _ _ _

section

variable {w v t d : Text}

theorem headerText_eq :
    headerText w v t d = beginPrefix ++ ((w ++ ' ' :: ("vmid".toList ++ '=' :: v ++ ' ' :: ("time".toList ++ '=' :: t ++
      ' ' :: ("sha256".toList ++ '=' :: d)))) ++ [']']) := by
  simp [headerText]

theorem isHeaderLine_headerText : isHeaderLine (headerText w v t d) = true := by
  have htrim : trimBreaks (headerText w v t d) = headerText w v t d :=
    List.rdropWhile_concat_neg _ _ _ (by decide)
  rw [isHeaderLine, htrim, Bool.and_eq_true, List.isPrefixOf_iff_prefix]
  constructor
  · rw [headerText_eq]
    exact List.prefix_append _ _
  · rw [headerText, List.getLast?_concat]
    rfl

theorem words_header (hne : w ≠ []) (hw : NoSpace w) (hv : NoSpace v) (ht : NoSpace t) (hd : NoSpace d) :
    Text.words (w ++ ' ' :: ("vmid".toList ++ '=' :: v ++ ' ' :: ("time".toList ++ '=' :: t ++
      ' ' :: ("sha256".toList ++ '=' :: d)))) =
      [w, "vmid".toList ++ '=' :: v, "time".toList ++ '=' :: t, "sha256".toList ++ '=' :: d] := by
  have hspace : Text.isSpace ' ' = true := by decide
  have hfield : ∀ {k v : Text}, NoSpace k → NoSpace v → Text.words (k ++ '=' :: v) = [k ++ '=' :: v] := by
    intro k v hk hv
    refine Text.words_single (by simp) (hk.append ?_)
    exact List.forall_mem_cons.mpr ⟨by decide, hv⟩
  rw [Text.words_append_space hspace, Text.words_append_space hspace, Text.words_append_space hspace,
    Text.words_single hne hw, hfield (noSpace_of_all rfl) hv, hfield (noSpace_of_all rfl) ht,
    hfield (noSpace_of_all rfl) hd]
  rfl

theorem parseHeader_headerText {n m : UInt32} (hne : w ≠ []) (hw : NoSpace w) (hv : NoSpace v) (ht : NoSpace t)
    (hd : NoSpace d) (hn : Text.parseU32 w = some n) (hm : Text.parseU32 v = some m) :
    parseHeader (headerText w v t d) = some ⟨n, some m, some t, some d⟩ := by
  have htrim : Text.trimEnd (headerText w v t d) = headerText w v t d := Text.trimEnd_concat (by decide)
  have hsplit : ∀ k v : Text, '=' ∉ k → Text.splitOnce '=' (k ++ '=' :: v) = some (k, v) :=
    fun k v hk => Text.splitOnce_append hk v
  rw [parseHeader, htrim, headerText_eq, Text.stripPrefix_append]
  simp only [Option.bind_eq_bind, Option.bind_some, Text.stripSuffix_append, words_header hne hw hv ht hd, hn,
    List.foldl_cons, List.foldl_nil, headerField]
  rw [hsplit _ _ (by decide), hsplit _ _ (by decide), hsplit _ _ (by decide)]
  simp [hm]

theorem not_newline_headerText (hw : NoSpace w) (hv : NoSpace v) (ht : NoSpace t) (hd : NoSpace d) :
    '\n' ∉ headerText w v t d := by
  have happend : ∀ {a b : Text}, '\n' ∉ a → '\n' ∉ b → '\n' ∉ a ++ b := fun ha hb h =>
    (List.mem_append.mp h).elim ha hb
  refine happend (happend (happend (happend (happend (happend (happend (happend ?_ hw.not_newline) ?_) hv.not_newline)
    ?_) ht.not_newline) ?_) hd.not_newline) ?_ <;> decide

end

def blockLines (header : Text) (ls : List Text) : List Text := header :: fenceOpen :: (ls ++ [fenceClose, endLine])

theorem render_eq_ok {vmid : UInt32} {yaml block : Text} {digest : String} {now : Nat}
    (h : render vmid yaml digest now = .ok block) :
    Text.byteLen (Text.trimNewlines yaml) ≤ maxYamlBytes ∧
      block = Text.unlines (blockLines (headerLine vmid digest now) (Text.lines (Text.trimNewlines yaml))) := by
  rw [render] at h
  split at h
  · cases h
  · next hsize =>
    refine ⟨Nat.le_of_not_lt hsize, ?_⟩
    cases h
    have hne := Text.lines_ne_nil (Text.trimNewlines yaml)
    rw [blockLines, Text.unlines_cons _ (List.cons_ne_nil _ _), Text.unlines_cons _ (by simp),
      Text.unlines_append hne (List.cons_ne_nil _ _), Text.unlines_lines, Text.unlines_cons _ (List.cons_ne_nil _ _),
      Text.unlines_singleton]
    simp only [List.append_assoc, List.cons_append, List.nil_append]

section

variable {vmid : UInt32} {digest : String} {now : Nat} {pre : Text} {ls : List Text}

theorem isHeaderLine_headerLine : isHeaderLine (headerLine vmid digest now) = true := isHeaderLine_headerText

theorem parseHeader_headerLine (hd : NoSpace digest.toList) :
    parseHeader (headerLine vmid digest now) = some ⟨version, some vmid, some (rfc3339Utc now), some digest.toList⟩ :=
  parseHeader_headerText Nat.toDigits_ne_nil (noSpace_toDigits _) (noSpace_toDigits _) (noSpace_rfc3339Utc _) hd
    (Decimal.parseU32_toDigits _) (Decimal.parseU32_toDigits _)

theorem not_newline_blockLines (hd : NoSpace digest.toList) (hls : ∀ l ∈ ls, '\n' ∉ l) :
    ∀ l ∈ headerLine vmid digest now :: (fenceOpen :: (ls ++ [fenceClose])), '\n' ∉ l := by
  have hheader : '\n' ∉ headerLine vmid digest now :=
    not_newline_headerText (noSpace_toDigits _) (noSpace_toDigits _) (noSpace_rfc3339Utc _) hd
  refine List.forall_mem_cons.mpr ⟨hheader, List.forall_mem_cons.mpr ⟨by decide, ?_⟩⟩
  exact List.forall_mem_append.mpr ⟨hls, List.forall_mem_singleton.mpr (by decide)⟩

theorem blockLines_eq (header : Text) (ls : List Text) :
    blockLines header ls = header :: (fenceOpen :: (ls ++ [fenceClose]) ++ [endLine]) := by
  simp [blockLines]

/-- A rendered block is found after whatever notes there are, if no line of the document looks like one of
    the block's delimiters. -/
theorem find_rendered (hpre : Text.EndsLine pre) (hd : NoSpace digest.toList)
    (hlines : ∀ l ∈ ls, '\n' ∉ l) (hplain : ∀ l ∈ ls, isHeaderLine l = false ∧ isEndLine l = false) :
    find (pre ++ Text.unlines (blockLines (headerLine vmid digest now) ls)) =
      .ok (some ⟨Text.byteLen pre, Text.byteLen (pre ++ Text.unlines (blockLines (headerLine vmid digest now) ls)),
        ⟨version, some vmid, some (rfc3339Utc now), some digest.toList⟩, Text.unlines ls⟩) := by
  have hall : ∀ l ∈ headerLine vmid digest now :: (fenceOpen :: (ls ++ [fenceClose])), '\n' ∉ l :=
    not_newline_blockLines hd hlines
  have hnot : ∀ l ∈ fenceOpen :: (ls ++ [fenceClose]), isHeaderLine l = false := by
    refine List.forall_mem_cons.mpr ⟨by decide, List.forall_mem_append.mpr ⟨fun l hl => (hplain l hl).1, ?_⟩⟩
    exact List.forall_mem_singleton.mpr (by decide)
  have hfenced : Fenced (ls ++ [fenceClose] ++ [endLine]) ls := by
    refine ⟨fenceClose, endLine, [], by simp, by decide, by decide, fun l hl he => ?_⟩
    have := isEndLine_iff.mpr he
    rw [(hplain l hl).2] at this
    cases this
  have hread : readBlock (headerLine vmid digest now :: (fenceOpen :: (ls ++ [fenceClose]) ++ [endLine])) =
      .ok (⟨version, some vmid, some (rfc3339Utc now), some digest.toList⟩, ls) :=
    readBlock_eq_ok.mpr ⟨parseHeader_headerLine hd, rfl, fenceOpen, _, rfl, by decide, hfenced⟩
  rw [blockLines_eq, find_of_last hpre isHeaderLine_headerLine hnot hall, hread]
  simp only [Except.map]
  rw [blockStop_of_last hall (by simp; omega)]

end

/-! ### Notes without a block -/

theorem eq_trimEnd_append (t : Text) : ∃ u : Text, t = Text.trimEnd t ++ u ∧ u.all Text.isSpace = true := by
  induction t using List.reverseRecOn with
  | nil => exact ⟨[], rfl, rfl⟩
  | append_singleton t c ih =>
    by_cases hc : Text.isSpace c = true
    · obtain ⟨u, hu, hspace⟩ := ih
      refine ⟨u ++ [c], ?_, by simp [hspace, hc]⟩
      rw [Text.trimEnd_append_of_space (by simpa using hc), ← List.append_assoc, ← hu]
    · exact ⟨[], by rw [Text.trimEnd_concat (Bool.not_eq_true _ ▸ hc), List.append_nil], rfl⟩

/-- Trimming the notes makes no block of what was none. -/
theorem BlockFree.trimEnd {t : Text} (h : BlockFree t) : BlockFree (Text.trimEnd t) := by
  obtain ⟨u, hu, hspace⟩ := eq_trimEnd_append t
  by_cases hne : Text.trimEnd t = []
  · rw [hne]
    exact List.Pairwise.nil
  · obtain ⟨init, last, x, more, hsplit, hfull, hx⟩ := Text.splitInclusive_append_of_ne_nil hne u
    rw [BlockFree, hu, hfull, List.pairwise_append, List.pairwise_cons] at h
    obtain ⟨hinit, -, hcross⟩ := h
    have hxspace : x.all Text.isSpace = true :=
      List.all_eq_true.mpr fun c hc => List.all_eq_true.mp hspace c (hx.subset hc)
    have hend : isEndLine (last ++ x) = isEndLine last := by
      rw [Bool.eq_iff_iff, isEndLine_iff, isEndLine_iff, Text.trimEnd_append_of_space hxspace]
    rw [BlockFree, hsplit, List.pairwise_append]
    refine ⟨hinit, List.pairwise_singleton _ _, fun l hl e he => ?_⟩
    obtain rfl := List.mem_singleton.mp he
    rw [← hend]
    exact hcross l hl _ List.mem_cons_self

theorem BlockFree.find {t : Text} (h : BlockFree t) : find t = .ok none := by
  rw [Backup.find, lastHeader_eq_none_iff.mpr h]

theorem BlockFree.stripBlocks {t : Text} (h : BlockFree t) (fuel : Nat) : stripBlocks fuel t = t := by
  cases fuel with
  | zero => rfl
  | succ fuel => rw [Backup.stripBlocks, h.find]

/-! ### Stripping block after block -/

theorem foldl_scanLine_some {s : Scan} {ls : List Text} {n : Nat} (hs : s.header ≠ some n) (hb : s.block ≠ some n)
    (h : (ls.foldl scanLine s).block = some n) :
    ∃ a h b, ls = a ++ h :: b ∧ isHeaderLine h = true ∧ n = s.offset + Text.byteLen a.flatten := by
  induction ls generalizing s with
  | nil => exact absurd h hb
  | cons l ls ih =>
    by_cases hhere : isHeaderLine l = true ∧ n = s.offset
    · exact ⟨[], l, ls, rfl, hhere.1, by simp [hhere.2]⟩
    · have hstep : (scanLine s l).header ≠ some n ∧ (scanLine s l).block ≠ some n := by
        unfold scanLine
        dsimp only
        split
        · next hl => exact ⟨fun heq => hhere ⟨hl, (Option.some.inj heq).symm⟩, hb⟩
        · split
          · exact ⟨hs, hs⟩
          · exact ⟨hs, hb⟩
      obtain ⟨a, h', b, rfl, hh, hn⟩ := ih hstep.1 hstep.2 h
      have hoff := foldl_scanLine_offset s [l]
      simp only [List.foldl_cons, List.foldl_nil, List.flatten_cons, List.flatten_nil, List.append_nil] at hoff
      refine ⟨l :: a, h', b, rfl, hh, ?_⟩
      rw [hn, hoff, List.flatten_cons, Text.byteLen_append, Nat.add_assoc]

theorem lastHeader_eq_some {t : Text} {n : Nat} (h : lastHeader t = some n) :
    ∃ pre rest, t = pre ++ rest ∧ n = Text.byteLen pre ∧ beginPrefix <+: rest := by
  obtain ⟨a, l, b, hsplit, hl, hn⟩ := foldl_scanLine_some (by simp) (by simp) h
  refine ⟨a.flatten, (l :: b).flatten, ?_, by simpa using hn, ?_⟩
  · rw [← List.flatten_append, ← hsplit, Text.flatten_splitInclusive]
  · exact (prefix_of_isHeaderLine hl).trans (List.prefix_append _ _)

/-- A line that starts as a header line is longer than its newline. -/
theorem two_le_length_take {rest : Text} (h : beginPrefix <+: rest) {n : Nat} (hn : n ≠ 0) :
    2 ≤ ((Text.splitInclusive rest).take n).flatten.length := by
  obtain ⟨n, rfl⟩ := Nat.exists_eq_succ_of_ne_zero hn
  obtain ⟨u, rfl⟩ := h
  have hcons : beginPrefix ++ u = '[' :: 'p' :: ("ve-meta v".toList ++ u) := rfl
  rw [hcons, Text.splitInclusive, if_neg (by decide), Text.splitInclusive, if_neg (by decide)]
  split
  · next heq => split at heq <;> cases heq
  · next l ls heq =>
    split at heq <;> cases heq <;> simp

theorem blockStop_spec {pre rest : Text} (h : beginPrefix <+: rest) {n : Nat} (hn : n ≠ 0) :
    ∃ x y, rest = x ++ y ∧ 2 ≤ x.length ∧
      ((Text.dropBytes (blockStop (pre ++ rest) (Text.byteLen pre) n) (pre ++ rest)).dropWhile (· == '\n')).length
        ≤ y.length := by
  have htwo := two_le_length_take h hn
  have hrest : rest = ((Text.splitInclusive rest).take n).flatten ++ ((Text.splitInclusive rest).drop n).flatten := by
    rw [← List.flatten_append, List.take_append_drop, Text.flatten_splitInclusive]
  refine ⟨_, _, hrest, htwo, ?_⟩
  generalize hx : ((Text.splitInclusive rest).take n).flatten = x at *
  generalize ((Text.splitInclusive rest).drop n).flatten = y at *
  simp only [blockStop, Text.dropBytes_byteLen, hx]
  have htake : Text.takeBytes (Text.byteLen pre + Text.byteLen x) (pre ++ rest) = pre ++ x := by
    rw [hrest, ← List.append_assoc, ← Text.byteLen_append, Text.takeBytes_byteLen]
  rw [htake]
  split
  · next hlast =>
    -- The newline of the end line is left, and then dropped with those after it.
    obtain ⟨x', hx'⟩ := List.getLast?_eq_some_iff.mp hlast
    have hbytes : Text.byteLen pre + Text.byteLen x - 1 = Text.byteLen x' := by
      rw [← Text.byteLen_append, hx', Text.byteLen_append]
      rfl
    have hdrop : Text.dropBytes (Text.byteLen pre + Text.byteLen x - 1) (pre ++ rest) = '\n' :: y := by
      rw [hbytes, hrest, ← List.append_assoc, hx', List.append_assoc, Text.dropBytes_byteLen]
      rfl
    rw [hdrop, List.dropWhile_cons_of_pos (by rfl)]
    exact (List.dropWhile_suffix _).length_le
  · have hdrop : Text.dropBytes (Text.byteLen pre + Text.byteLen x) (pre ++ rest) = y := by
      rw [hrest, ← List.append_assoc, ← Text.byteLen_append, Text.dropBytes_byteLen]
    rw [hdrop]
    exact (List.dropWhile_suffix _).length_le

theorem strip_length_lt {t : Text} {f : Found} (h : find t = .ok (some f)) : (strip t f).length < t.length := by
  rw [find] at h
  split at h
  · cases h
  · next start hstart =>
    obtain ⟨⟨header, body⟩, -, hf⟩ := Except.bind_eq_ok.mp h
    cases hf
    obtain ⟨pre, rest, rfl, rfl, hrest⟩ := lastHeader_eq_some hstart
    have hlines : 2 + body.length + 2 ≠ 0 := Nat.succ_ne_zero _
    obtain ⟨x, y, hxy, htwo, hafter⟩ := @blockStop_spec pre rest hrest _ hlines
    have hbefore : (Text.trimEnd (Text.takeBytes (Text.byteLen pre) (pre ++ rest))).length ≤ pre.length := by
      rw [Text.takeBytes_byteLen]
      exact (prefix_trimEnd pre).length_le
    have hlen := congrArg List.length hxy
    rw [List.length_append] at hlen
    refine (prefix_trimEnd _).length_le.trans_lt ?_
    rw [List.length_append, List.length_append, List.length_append]
    dsimp only
    split <;> simp only [List.length_singleton, List.length_nil] <;> omega

/-- As many blocks are stripped as there are. -/
theorem find_stripAll (t : Text) (f : Found) : find (stripAll t) ≠ .ok (some f) := by
  have hfuel : ∀ (fuel : Nat) (t : Text), t.length ≤ fuel → find (stripBlocks fuel t) ≠ .ok (some f) := by
    intro fuel
    induction fuel with
    | zero =>
      intro t ht
      obtain rfl := List.length_eq_zero_iff.mp (Nat.le_zero.mp ht)
      exact fun h => nomatch h
    | succ fuel ih =>
      intro t ht
      rw [stripBlocks]
      split
      · next found hfound =>
        have := strip_length_lt hfound
        exact ih _ (by omega)
      · next hnone => exact hnone f
  exact hfuel _ t le_rfl

end Backup
end PveMeta
