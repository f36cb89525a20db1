import PveMeta.Theorems.Notes

/-! # The notes line by line

Where the scan for a block stops, in terms of the lines: at the last header line that has an end line after it. What is
found there is a run of lines from that header to the first end line. -/

namespace PveMeta
namespace Backup

/-! ### The last header with an end line after it -/

/-- The lines before the last header line that has an end line after it, that line, and those after it. -/
def lastBlock : List Text → Option (List Text × Text × List Text)
  | [] => none
  | l :: ls =>
    match lastBlock ls with
    | some (before, header, rest) => some (l :: before, header, rest)
    | none => if isHeaderLine l && ls.any isEndLine then some ([], l, ls) else none

theorem lastBlock_eq_some {ls before rest : List Text} {h : Text} :
    lastBlock ls = some (before, h, rest) ↔
      ls = before ++ h :: rest ∧ isHeaderLine h = true ∧ rest.any isEndLine = true ∧ lastBlock rest = none := by
  induction ls generalizing before h rest with
  | nil => simp [lastBlock]
  | cons l ls ih =>
    rw [lastBlock]
    cases hls : lastBlock ls with
    | some found =>
      obtain ⟨before', h', rest'⟩ := found
      obtain ⟨heq, hh, hend, hnone⟩ := ih.mp hls
      constructor
      · intro hsome
        cases hsome
        exact ⟨by rw [heq, List.cons_append], hh, hend, hnone⟩
      · rintro ⟨hcons, hh', hend', hnone'⟩
        cases before with
        | nil =>
          cases hcons
          rw [hls] at hnone'
          cases hnone'
        | cons k before =>
          cases hcons
          have hsame := ih.mpr ⟨rfl, hh', hend', hnone'⟩
          rw [hls] at hsame
          cases hsame
          rfl
    | none =>
      dsimp only
      constructor
      · intro hsome
        split at hsome
        · next hcond =>
          cases hsome
          rw [Bool.and_eq_true] at hcond
          exact ⟨rfl, hcond.1, hcond.2, hls⟩
        · cases hsome
      · rintro ⟨hcons, hh', hend', hnone'⟩
        cases before with
        | nil =>
          cases hcons
          rw [if_pos (by rw [hh', hend']; rfl)]
        | cons k before =>
          cases hcons
          have hsame := ih.mpr ⟨rfl, hh', hend', hnone'⟩
          rw [hls] at hsame
          cases hsame

theorem lastBlock_eq_none {ls : List Text} : lastBlock ls = none ↔
    ls.Pairwise fun h e => ¬ (isHeaderLine h = true ∧ isEndLine e = true) := by
  induction ls with
  | nil => simp [lastBlock]
  | cons l ls ih =>
    rw [lastBlock, List.pairwise_cons, ← ih]
    cases hls : lastBlock ls with
    | some found => simp
    | none =>
      dsimp only
      rw [ite_eq_right_iff]
      simp only [reduceCtorEq, imp_false, Bool.and_eq_true, List.any_eq_true, not_and, not_exists, and_true]
      exact ⟨fun h e he hl => h hl e he, fun h hl e he => h e he hl⟩

/-- Part of what has no block has none. -/
theorem lastBlock_of_sublist {as bs : List Text} (h : List.Sublist as bs) (hb : lastBlock bs = none) :
    lastBlock as = none :=
  lastBlock_eq_none.mpr ((lastBlock_eq_none.mp hb).sublist h)

/-! ### The scan -/

/-- The bytes of lines with their newlines. -/
def linesBytes (ls : List Text) : Nat := Text.byteLen (ls.flatMap (· ++ ['\n']))

theorem linesBytes_cons (l : Text) (ls : List Text) :
    linesBytes (l :: ls) = Text.byteLen (l ++ ['\n']) + linesBytes ls := by
  rw [linesBytes, List.flatMap_cons, Text.byteLen_append, ← linesBytes]

/-- The block of a scan, from any state: the last header with an end line after it, else the header before, else the
    block before. -/
theorem foldl_scanLine_block_eq (s : Scan) (ls : List Text) :
    ((ls.map (· ++ ['\n'])).foldl scanLine s).block = ((lastBlock ls).map fun found => s.offset + linesBytes found.1).or
      (if s.header.isSome && ls.any isEndLine then s.header else s.block) := by
  induction ls generalizing s with
  | nil => simp [lastBlock]
  | cons l ls ih =>
    have hstep : scanLine s (l ++ ['\n']) = ⟨s.offset + Text.byteLen (l ++ ['\n']),
        if isHeaderLine l then some s.offset else s.header,
        if ! isHeaderLine l && (isEndLine l && s.header.isSome) then s.header else s.block⟩ := by
      unfold scanLine
      rw [isHeaderLine_newline, isEndLine_newline]
      cases isHeaderLine l <;> cases isEndLine l <;> cases s.header <;> rfl
    rw [List.map_cons, List.foldl_cons, ih, hstep, lastBlock, List.any_cons]
    cases hls : lastBlock ls with
    | some found =>
      obtain ⟨before, h, rest⟩ := found
      simp only [Option.map_some, Option.some_or]
      rw [linesBytes_cons, Nat.add_assoc]
    | none =>
      -- No header below has an end line after it, so what counts is whether there is an end line at all.
      have hnot : isHeaderLine l = true → isEndLine l = false := fun hl => by
        cases hend : isEndLine l with
        | false => rfl
        | true => rw [not_isHeaderLine_of_isEndLine hend] at hl; cases hl
      cases hl : isHeaderLine l with
      | true =>
        rw [hnot hl]
        cases ls.any isEndLine <;> simp [linesBytes]
      | false => cases isEndLine l <;> cases ls.any isEndLine <;> cases s.header <;> simp

theorem block_scanLine_newline (s : Scan) (l : Text) : (scanLine s (l ++ ['\n'])).block = (scanLine s l).block := by
  unfold scanLine
  rw [isHeaderLine_newline, isEndLine_newline]
  dsimp only
  split
  · rfl
  · split <;> rfl

theorem block_scanLine_nil (s : Scan) : (scanLine s []).block = s.block := rfl

/-- The scan stops at the block of the lines: a newline after the last one makes no difference. -/
theorem lastHeader_eq (t : Text) : lastHeader t = (lastBlock (Text.lines t)).map fun found => linesBytes found.1 := by
  obtain ⟨init, last, hlines⟩ := List.eq_nil_or_concat' (Text.lines t) |>.resolve_left (Text.lines_ne_nil t)
  have hmem : ∀ l ∈ init ++ [last], '\n' ∉ l := fun l hl => Text.not_mem_of_mem_lines (hlines ▸ hl)
  have hsplit := Text.splitInclusive_concat (fun m hm => hmem m (List.mem_append_left _ hm))
    (hmem last (List.mem_append_right _ (List.mem_singleton_self _)))
  have hscan : ((Text.splitInclusive t).foldl scanLine ⟨0, none, none⟩).block =
      (((init ++ [last]).map (· ++ ['\n'])).foldl scanLine ⟨0, none, none⟩).block := by
    rw [← Text.unlines_lines t, hlines, hsplit, List.map_append, List.foldl_append, List.foldl_append, List.map_singleton,
      List.foldl_cons, List.foldl_nil, block_scanLine_newline]
    split
    · next hnil => rw [hnil, List.foldl_nil, block_scanLine_nil]
    · rw [List.foldl_cons, List.foldl_nil]
  rw [lastHeader, hscan, foldl_scanLine_block_eq, ← hlines]
  cases lastBlock (Text.lines t) <;> simp

/-! ### A block as its lines -/

/-- A well-formed block: the header line, the opening fence, the document's lines, the closing fence and the end line. -/
def IsBlock (header : Header) (body block : List Text) : Prop :=
  ∃ h fence close stop, block = h :: fence :: (body ++ [close, stop]) ∧ isHeaderLine h = true ∧
    parseHeader h = some header ∧ header.version = version ∧ Text.trimEnd fence = fenceOpen ∧
      Text.trimEnd close = fenceClose ∧ Text.trimEnd stop = endLine ∧
        ∀ l ∈ body, isHeaderLine l = false ∧ isEndLine l = false

variable {header : Header} {body block : List Text}

theorem length_block (h : IsBlock header body block) : block.length = 2 + body.length + 2 := by
  obtain ⟨_, _, _, _, rfl, -⟩ := h
  simp only [List.length_cons, List.length_append, List.length_nil]
  omega

theorem block_ne_nil (h : IsBlock header body block) : block ≠ [] := by
  obtain ⟨_, _, _, _, rfl, -⟩ := h
  exact List.cons_ne_nil _ _

theorem getLast?_block (h : IsBlock header body block) :
    ∃ stop, block.getLast? = some stop ∧ Text.trimEnd stop = endLine := by
  obtain ⟨_, _, _, stop, rfl, -, -, -, -, -, hstop, -⟩ := h
  exact ⟨stop, by simp [List.getLast?_cons, List.getLast?_append], hstop⟩

theorem not_isHeaderLine_fence {l : Text} (h : Text.trimEnd l = fenceOpen ∨ Text.trimEnd l = fenceClose) :
    isHeaderLine l = false ∧ isEndLine l = false := by
  refine not_delimiter ?_
  obtain ⟨u, hu⟩ := prefix_trimEnd l
  rw [← hu]
  rcases h with h | h <;> rw [h] <;> exact fun hhead => by cases hhead

/-- What is read at the last header that has an end line after it is a well-formed block. -/
theorem isBlock_of_read {ls before rest : List Text} {h : Text} (hlast : lastBlock ls = some (before, h, rest))
    (hread : readBlock (h :: rest) = .ok (header, body)) :
    ∃ block after, h :: rest = block ++ after ∧ IsBlock header body block := by
  obtain ⟨-, hh, -, hnone⟩ := lastBlock_eq_some.mp hlast
  obtain ⟨hparse, hversion, fence, rest', rfl, hopen, close, stop, more, rfl, hclose, hstop, hbody⟩ :=
    readBlock_eq_ok.mp hread
  refine ⟨h :: fence :: (body ++ [close, stop]), more, by simp, h, fence, close, stop, rfl, hh, hparse, hversion,
    hopen, hclose, hstop, fun l hl => ⟨?_, ?_⟩⟩
  · have hpairs := (List.pairwise_append.mp (List.pairwise_cons.mp (lastBlock_eq_none.mp hnone)).2).2.2
    have hnot := hpairs l hl stop (by simp)
    cases hhead : isHeaderLine l with
    | false => rfl
    | true => exact absurd ⟨hhead, isEndLine_iff.mpr hstop⟩ hnot
  · rw [← Bool.not_eq_true, isEndLine_iff]
    exact hbody l hl

/-- No line of a block but its first is a header line. -/
theorem not_isHeaderLine_tail (h : IsBlock header body block) : ∀ l ∈ block.tail, isHeaderLine l = false := by
  obtain ⟨_, fence, close, stop, rfl, -, -, -, hopen, hclose, hstop, hbody⟩ := h
  intro l hl
  simp only [List.tail_cons, List.mem_cons, List.mem_append, List.not_mem_nil, or_false] at hl
  rcases hl with rfl | hl | rfl | rfl
  · exact (not_isHeaderLine_fence (.inl hopen)).1
  · exact (hbody l hl).1
  · exact (not_isHeaderLine_fence (.inr hclose)).1
  · exact not_isHeaderLine_of_isEndLine (isEndLine_iff.mpr hstop)

/-- A well-formed block is read, whatever comes after it. -/
theorem readBlock_block (h : IsBlock header body block) (after : List Text) :
    readBlock (block ++ after) = .ok (header, body) := by
  obtain ⟨l, fence, close, stop, rfl, -, hparse, hversion, hopen, hclose, hstop, hbody⟩ := h
  refine readBlock_eq_ok.mpr ⟨hparse, hversion, fence, _, rfl, hopen, close, stop, after, by simp, hclose, hstop,
    fun m hm => ?_⟩
  rw [ne_eq, ← isEndLine_iff, (hbody m hm).2]
  exact Bool.false_ne_true

/-- A well-formed block is the last one among its own lines. -/
theorem lastBlock_block (h : IsBlock header body block) :
    ∃ l rest, block = l :: rest ∧ lastBlock block = some ([], l, rest) := by
  have htail := not_isHeaderLine_tail h
  obtain ⟨l, fence, close, stop, rfl, hl, -, -, -, -, hstop, -⟩ := h
  refine ⟨l, _, rfl, lastBlock_eq_some.mpr ⟨rfl, hl, ?_, ?_⟩⟩
  · exact List.any_eq_true.mpr ⟨stop, by simp, isEndLine_iff.mpr hstop⟩
  · exact lastBlock_eq_none.mpr (List.pairwise_of_forall_mem_list fun a ha b _ hab => by
      rw [htail a ha] at hab
      cases hab.1)

/-! ### What is found -/

theorem find_eq_none {t : Text} : find t = .ok none ↔ lastBlock (Text.lines t) = none := by
  rw [find, lastHeader_eq]
  cases lastBlock (Text.lines t) with
  | none => simp
  | some found =>
    simp only [Option.map_some, reduceCtorEq, iff_false]
    intro h
    obtain ⟨r, -, h⟩ := Except.bind_eq_ok.mp h
    cases h

theorem unlines_append_flatMap (before ls : List Text) (hne : ls ≠ []) :
    Text.unlines (before ++ ls) = before.flatMap (· ++ ['\n']) ++ Text.unlines ls := by
  obtain ⟨init, last, rfl⟩ := List.eq_nil_or_concat' ls |>.resolve_left hne
  rw [← List.append_assoc, Text.unlines_concat, Text.unlines_concat, List.flatMap_append, List.append_assoc]

/-- The lines of a text taken up to the end of a block, the newline after it with them if there is one. -/
theorem flatten_take_block (after : List Text) (hblock : block ≠ []) (hlast : block.getLast? ≠ some [])
    (hmem : ∀ l ∈ block, '\n' ∉ l) :
    ((Text.splitInclusive (Text.unlines (block ++ after))).take block.length).flatten =
      Text.unlines block ++ (if after = [] then [] else ['\n']) := by
  obtain ⟨init, last, rfl⟩ := List.eq_nil_or_concat' block |>.resolve_left hblock
  have hne : last ≠ [] := fun hnil => hlast (by rw [hnil, List.getLast?_concat])
  have hinit : ∀ l ∈ init, '\n' ∉ l := fun l hl => hmem l (List.mem_append_left _ hl)
  cases hcase : after with
  | nil =>
    rw [if_pos rfl, List.append_nil, List.append_nil,
      Text.splitInclusive_concat hinit (hmem last (List.mem_append_right _ (List.mem_singleton_self _))), if_neg hne,
      List.take_of_length_le (by simp), Text.unlines_concat, List.flatten_append, List.flatMap_def, List.flatten_singleton]
  | cons a after' =>
    rw [← hcase, if_neg (by rw [hcase]; exact List.cons_ne_nil _ _)]
    have hends : Text.EndsLine ((init ++ [last]).flatMap (· ++ ['\n'])) := by
      rw [List.flatMap_append, List.flatMap_singleton, ← List.append_assoc]
      exact Text.endsLine_append_newline _
    have hwhole := Text.splitInclusive_concat hmem (List.not_mem_nil (a := '\n'))
    rw [if_pos rfl, List.append_nil, Text.unlines_concat, List.append_nil] at hwhole
    rw [unlines_append_flatMap _ after (by rw [hcase]; exact List.cons_ne_nil _ _), Text.splitInclusive_append hends,
      hwhole,
      List.take_left' (by simp), ← List.flatMap_def, List.flatMap_append, List.flatMap_singleton, Text.unlines_concat,
      List.append_assoc]

theorem blockStop_lines (before after : List Text) (hb : IsBlock header body block)
    (hmem : ∀ l ∈ before ++ (block ++ after), '\n' ∉ l) :
    blockStop (Text.unlines (before ++ (block ++ after))) (linesBytes before) block.length =
      linesBytes before + Text.byteLen (Text.unlines block) := by
  have hblock : block ≠ [] := block_ne_nil hb
  obtain ⟨stop, hstop, hend⟩ := getLast?_block hb
  have hne : block.getLast? ≠ some [] := by
    rw [hstop]
    intro hnil
    cases hnil
    cases hend
  have hmemBlock : ∀ l ∈ block, '\n' ∉ l := fun l hl => hmem l (by simp [hl])
  have htext : Text.unlines (before ++ (block ++ after)) =
      before.flatMap (· ++ ['\n']) ++ Text.unlines (block ++ after) := unlines_append_flatMap _ _ (by simp [hblock])
  have htake := flatten_take_block after hblock hne hmemBlock
  have hpart : Text.unlines (block ++ after) = (Text.unlines block ++ (if after = [] then [] else ['\n'])) ++
      ((Text.splitInclusive (Text.unlines (block ++ after))).drop block.length).flatten := by
    rw [← htake, ← List.flatten_append, List.take_append_drop, Text.flatten_splitInclusive]
  have htaken : Text.takeBytes (Text.byteLen (before.flatMap (· ++ ['\n'])) +
      Text.byteLen (Text.unlines block ++ (if after = [] then [] else ['\n'])))
        (before.flatMap (· ++ ['\n']) ++ Text.unlines (block ++ after)) =
      before.flatMap (· ++ ['\n']) ++ (Text.unlines block ++ (if after = [] then [] else ['\n'])) := by
    have htake' := Text.takeBytes_byteLen
      (before.flatMap (· ++ ['\n']) ++ (Text.unlines block ++ (if after = [] then [] else ['\n'])))
      ((Text.splitInclusive (Text.unlines (block ++ after))).drop block.length).flatten
    rwa [List.append_assoc, ← hpart, Text.byteLen_append] at htake'
  simp only [blockStop, htext, linesBytes, Text.dropBytes_byteLen, htake, htaken]
  cases after with
  | nil =>
    -- The end line is the last of all, and its last character is its own.
    obtain ⟨init, rfl⟩ := List.getLast?_eq_some_iff.mp hstop
    have hnot : (before.flatMap (· ++ ['\n']) ++ (Text.unlines (init ++ [stop]) ++ [])).getLast? ≠ some '\n' := by
      rw [List.append_nil, Text.unlines_concat, ← List.append_assoc, List.getLast?_append]
      intro hchar
      cases hlast : stop.getLast? with
      | none =>
        rw [List.getLast?_eq_none_iff] at hlast
        rw [hlast] at hend
        cases hend
      | some c =>
        rw [hlast, Option.some_or] at hchar
        cases hchar
        exact hmemBlock stop (by simp) (List.mem_of_getLast? hlast)
    rw [if_pos rfl, if_neg hnot, List.append_nil]
  | cons a after =>
    rw [if_neg (List.cons_ne_nil a after), ← List.append_assoc, List.getLast?_concat, if_pos rfl, Text.byteLen_append]
    show _ + (_ + 1) - 1 = _
    omega

/-- What is found is the block at the last header line that has an end line after it. -/
theorem lastBlock_of_find {t : Text} {f : Found} (h : find t = .ok (some f)) :
    ∃ before l rest block after body, lastBlock (Text.lines t) = some (before, l, rest) ∧ l :: rest = block ++ after ∧
      IsBlock f.header body block ∧ f.yaml = Text.unlines body ∧ f.start = linesBytes before ∧
        f.stop = linesBytes before + Text.byteLen (Text.unlines block) := by
  rw [find, lastHeader_eq] at h
  cases hlast : lastBlock (Text.lines t) with
  | none =>
    rw [hlast] at h
    cases h
  | some found =>
    obtain ⟨before, l, rest⟩ := found
    rw [hlast] at h
    simp only [Option.map_some] at h
    obtain ⟨⟨header, body⟩, hread, h⟩ := Except.bind_eq_ok.mp h
    obtain ⟨hlines, -, -, -⟩ := lastBlock_eq_some.mp hlast
    have hmem : ∀ m ∈ before ++ l :: rest, '\n' ∉ m := fun m hm => Text.not_mem_of_mem_lines (hlines ▸ hm)
    have htext : t = before.flatMap (· ++ ['\n']) ++ Text.unlines (l :: rest) := by
      rw [← unlines_append_flatMap before _ (List.cons_ne_nil l rest), ← hlines, Text.unlines_lines]
    have hrest : Text.lines (Text.dropBytes (linesBytes before) t) = l :: rest := by
      rw [htext, linesBytes, Text.dropBytes_byteLen]
      exact Text.lines_unlines (List.cons_ne_nil _ _) fun m hm => hmem m (List.mem_append_right _ hm)
    rw [hrest] at hread
    obtain ⟨block, after, hsplit, hb⟩ := isBlock_of_read hlast hread
    cases h
    refine ⟨before, l, rest, block, after, body, rfl, hsplit, hb, rfl, rfl, ?_⟩
    have hstop := blockStop_lines before after hb (hsplit ▸ hmem)
    rw [← hsplit, ← hlines, Text.unlines_lines, length_block hb] at hstop
    exact hstop

theorem find_eq_some {t : Text} {f : Found} (h : find t = .ok (some f)) :
    ∃ before block after body, Text.lines t = before ++ (block ++ after) ∧ IsBlock f.header body block ∧
      f.yaml = Text.unlines body ∧ f.start = linesBytes before ∧
        f.stop = linesBytes before + Text.byteLen (Text.unlines block) := by
  obtain ⟨before, l, rest, block, after, body, hlast, hsplit, hb, hyaml, hstart, hstop⟩ := lastBlock_of_find h
  exact ⟨before, block, after, body, hsplit ▸ (lastBlock_eq_some.mp hlast).1, hb, hyaml, hstart, hstop⟩

end Backup
end PveMeta
