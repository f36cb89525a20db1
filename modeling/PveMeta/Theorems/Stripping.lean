import Mathlib.Logic.Relation
import PveMeta.Theorems.NoteLines

/-! # What stripping keeps

A block is taken out of the notes with the blank lines around it and nothing else. The loop takes out block after block
until what comes last is no well-formed one. -/

namespace PveMeta
namespace Backup

/-! ### Lines with something in them -/

/-- The lines of a text that are not blank. -/
def notedLines (t : Text) : List Text := (Text.lines t).filter fun l => ! Text.isBlank l

/-- The white space at the end of the last line goes. -/
def trimLast (ls : List Text) : List Text := ls.dropLast ++ (ls.getLast?.map Text.trimEnd).toList

@[simp] theorem trimLast_nil : trimLast [] = [] := rfl

@[simp] theorem trimLast_concat (ls : List Text) (l : Text) : trimLast (ls ++ [l]) = ls ++ [Text.trimEnd l] := by
  simp [trimLast]

@[simp] theorem notedLines_nil : notedLines [] = [] := rfl

theorem notedLines_append_newline (a b : Text) : notedLines (a ++ '\n' :: b) = notedLines a ++ notedLines b := by
  rw [notedLines, Text.lines_append_newline, List.filter_append]
  rfl

/-- A character more on the last line. -/
theorem lines_concat (t : Text) {c : Char} (hc : c ≠ '\n') :
    ∃ init last, Text.lines t = init ++ [last] ∧ Text.lines (t ++ [c]) = init ++ [last ++ [c]] := by
  obtain ⟨init, last, hlines⟩ := List.eq_nil_or_concat' (Text.lines t) |>.resolve_left (Text.lines_ne_nil t)
  have hmem : ∀ l ∈ init ++ [last], '\n' ∉ l := fun l hl => Text.not_mem_of_mem_lines (hlines ▸ hl)
  refine ⟨init, last, hlines, ?_⟩
  have htext : t ++ [c] = Text.unlines (init ++ [last ++ [c]]) := by
    rw [Text.unlines_concat, ← List.append_assoc, ← Text.unlines_concat, ← hlines, Text.unlines_lines]
  rw [htext, Text.lines_unlines (by simp)]
  intro l hl
  rcases List.mem_append.mp hl with hl | hl
  · exact hmem l (List.mem_append_left _ hl)
  · rw [List.mem_singleton.mp hl, List.mem_append, List.mem_singleton, not_or]
    exact ⟨hmem last (by simp), Ne.symm hc⟩

theorem notedLines_concat (t : Text) {c : Char} (hc : c ≠ '\n') :
    ∃ noted last, notedLines t = noted ++ (if Text.isBlank last then [] else [last]) ∧
      notedLines (t ++ [c]) = noted ++ (if Text.isBlank last && Text.isSpace c then [] else [last ++ [c]]) := by
  obtain ⟨init, last, ht, htc⟩ := lines_concat t hc
  refine ⟨init.filter fun l => ! Text.isBlank l, last, ?_, ?_⟩
  · rw [notedLines, ht, List.filter_append]
    cases h : Text.isBlank last <;> simp [h]
  · have hblank : Text.isBlank (last ++ [c]) = (Text.isBlank last && Text.isSpace c) := by
      simp [Text.isBlank, List.all_append]
    rw [notedLines, htc, List.filter_append, ← hblank]
    cases h : Text.isBlank (last ++ [c]) <;> simp [h]

theorem notedLines_newline (t : Text) : notedLines (t ++ ['\n']) = notedLines t := by
  rw [notedLines_append_newline, notedLines_nil, List.append_nil]

theorem notedLines_of_blank {t : Text} (h : Text.isBlank t = true) : notedLines t = [] := by
  induction t using List.reverseRecOn with
  | nil => rfl
  | append_singleton t c ih =>
    rw [Text.isBlank, List.all_append, Bool.and_eq_true] at h
    have hnone := ih h.1
    by_cases hc : c = '\n'
    · rw [hc, notedLines_newline, hnone]
    · obtain ⟨noted, last, ht, htc⟩ := notedLines_concat t hc
      rw [hnone, eq_comm, List.append_eq_nil_iff] at ht
      have hspace : Text.isSpace c = true := by simpa using h.2
      have hblank : Text.isBlank last = true := by
        by_contra hnot
        rw [if_neg hnot] at ht
        cases ht.2
      rw [htc, ht.1, hblank, hspace]
      rfl

theorem notedLines_dropWhile (t : Text) : notedLines (t.dropWhile (· == '\n')) = notedLines t := by
  induction t with
  | nil => rfl
  | cons c t ih =>
    by_cases hc : c = '\n'
    · subst hc
      rw [List.dropWhile_cons_of_pos rfl, ih]
      exact (notedLines_append_newline [] t).symm
    · rw [List.dropWhile_cons_of_neg (by simpa using hc)]

/-- Trimming a text trims its last line that is not blank, and takes off blank ones only. -/
theorem notedLines_trimEnd (t : Text) : notedLines (Text.trimEnd t) = trimLast (notedLines t) := by
  induction t using List.reverseRecOn with
  | nil => rfl
  | append_singleton t c ih =>
    by_cases hspace : Text.isSpace c = true
    · have htrim : Text.trimEnd (t ++ [c]) = Text.trimEnd t := Text.trimEnd_append_of_space (by simpa using hspace)
      rw [htrim, ih]
      by_cases hc : c = '\n'
      · rw [hc, notedLines_newline]
      · obtain ⟨noted, last, ht, htc⟩ := notedLines_concat t hc
        rw [ht, htc, hspace, Bool.and_true]
        split
        · rfl
        · rw [trimLast_concat, trimLast_concat, Text.trimEnd_append_of_space (by simpa using hspace)]
    · have hc : c ≠ '\n' := by
        rintro rfl
        exact hspace (by decide)
      have hnot : Text.isSpace c = false := Bool.not_eq_true _ ▸ hspace
      obtain ⟨noted, last, -, htc⟩ := notedLines_concat t hc
      rw [Text.trimEnd_concat hnot, htc, hnot, Bool.and_false, if_neg Bool.false_ne_true, trimLast_concat,
        Text.trimEnd_concat hnot]

/-! ### One block -/

/-- What stripping a block leaves: the lines before and after it that are not blank, each part's last one trimmed. -/
theorem notedLines_strip {pre mid post : Text} {f : Found} (hstart : f.start = Text.byteLen pre)
    (hstop : f.stop = Text.byteLen (pre ++ mid)) :
    notedLines (strip (pre ++ (mid ++ post)) f) = trimLast (trimLast (notedLines pre) ++ notedLines post) := by
  have hbefore : Text.takeBytes f.start (pre ++ (mid ++ post)) = pre := by rw [hstart, Text.takeBytes_byteLen]
  have hafter : Text.dropBytes f.stop (pre ++ (mid ++ post)) = post := by
    rw [hstop, ← List.append_assoc, Text.dropBytes_byteLen]
  rw [strip, hbefore, hafter, ← notedLines_trimEnd pre, ← notedLines_dropWhile post]
  generalize Text.trimEnd pre = before
  generalize post.dropWhile (· == '\n') = after
  cases hblank : Text.isBlank after with
  | true =>
    rw [Bool.not_true, Bool.and_false, if_neg Bool.false_ne_true, List.append_nil, Text.trimEnd_append_of_space hblank,
      notedLines_of_blank hblank, List.append_nil, notedLines_trimEnd]
  | false =>
    rw [notedLines_trimEnd]
    cases before with
    | nil => rfl
    | cons c before =>
      rw [if_pos (by rfl), List.append_assoc, List.singleton_append, notedLines_append_newline]

/-- What is found in a text as a text of its own: what comes before the block, the block and what comes after it. -/
theorem text_of_find {t : Text} {f : Found} (h : find t = .ok (some f)) :
    ∃ pre block post : Text, t = pre ++ (block ++ post) ∧ f.start = Text.byteLen pre ∧
      f.stop = Text.byteLen (pre ++ block) ∧
      Text.EndsLine pre ∧ (post = [] ∨ post.head? = some '\n') ∧
        ∃ body, f.yaml = Text.unlines body ∧ IsBlock f.header body (Text.lines block) := by
  obtain ⟨before, block, after, body, hlines, hb, hyaml, hstart, hstop⟩ := find_eq_some h
  have hne : block ≠ [] := block_ne_nil hb
  have hmem : ∀ l ∈ block, '\n' ∉ l := by
    intro l hl
    have hline : l ∈ Text.lines t := by rw [hlines]; simp [hl]
    exact Text.not_mem_of_mem_lines hline
  have hends : Text.EndsLine (before.flatMap (· ++ ['\n'])) := by
    rcases List.eq_nil_or_concat' before with rfl | ⟨init, last, rfl⟩
    · exact .inl rfl
    · rw [List.flatMap_append, List.flatMap_singleton, ← List.append_assoc]
      exact Text.endsLine_append_newline _
  have htext : t = before.flatMap (· ++ ['\n']) ++ Text.unlines (block ++ after) := by
    rw [← unlines_append_flatMap before _ (by simp [hne]), ← hlines, Text.unlines_lines]
  have hbody : f.yaml = Text.unlines body ∧ IsBlock f.header body (Text.lines (Text.unlines block)) :=
    ⟨hyaml, (Text.lines_unlines hne hmem).symm ▸ hb⟩
  rw [linesBytes, ← Text.byteLen_append] at hstop
  rcases eq_or_ne after [] with rfl | hafter
  · refine ⟨_, Text.unlines block, [], ?_, hstart, hstop, hends, .inl rfl, body, hbody⟩
    rw [htext, List.append_nil, List.append_nil]
  · refine ⟨_, Text.unlines block, '\n' :: Text.unlines after, ?_, hstart, hstop, hends, .inr rfl, body, hbody⟩
    rw [htext, Text.unlines_append hne hafter]

/-! ### The loop -/

/-- One round of the loop. -/
def Strips (t u : Text) : Prop := ∃ f, find t = .ok (some f) ∧ u = strip t f

theorem stripBlocks_reached (fuel : Nat) (t : Text) : Relation.ReflTransGen Strips t (stripBlocks fuel t) := by
  induction fuel generalizing t with
  | zero => exact .refl
  | succ fuel ih =>
    rw [stripBlocks]
    split
    · next f hf => exact .head ⟨f, hf, rfl⟩ (ih _)
    · exact .refl

theorem strips_wellFounded : WellFounded (fun u t => Strips t u) := by
  refine Subrelation.wf ?_ (measure List.length).wf
  rintro u t ⟨f, hf, rfl⟩
  exact strip_length_lt hf

theorem not_strips_stripAll (t u : Text) : ¬ Strips (stripAll t) u := by
  rintro ⟨f, hf, -⟩
  exact find_stripAll t f hf

/-- A block that is found is a run of whole lines of the text, and stripping it leaves the lines outside it that are not
    blank, in order: the last one before it and the last one of all lose the white space at their end. The loop does this
    and no more, as long as a block is found, which cannot go on for ever. -/
theorem strip_keeps_notes (t : Text) :
    (∀ f, find t = .ok (some f) → ∃ pre block post : Text, t = pre ++ (block ++ post) ∧ f.start = Text.byteLen pre ∧
      f.stop = Text.byteLen (pre ++ block) ∧ Text.EndsLine pre ∧ (post = [] ∨ post.head? = some '\n') ∧
        (∃ body, f.yaml = Text.unlines body ∧ IsBlock f.header body (Text.lines block)) ∧
          notedLines (strip t f) = trimLast (trimLast (notedLines pre) ++ notedLines post)) ∧
      Relation.ReflTransGen Strips t (stripAll t) ∧ (∀ u, ¬ Strips (stripAll t) u) ∧ Acc (fun v u => Strips u v) t := by
  refine ⟨fun f hf => ?_, stripBlocks_reached _ t, not_strips_stripAll t, strips_wellFounded.apply t⟩
  obtain ⟨pre, block, post, htext, hstart, hstop, hpre, hpost, hblock⟩ := text_of_find hf
  refine ⟨pre, block, post, htext, hstart, hstop, hpre, hpost, hblock, ?_⟩
  rw [htext]
  exact notedLines_strip hstart hstop

def noted : Text := "hi\n\n[pve-meta v1]\n````yaml\na: 1\n````\n[/pve-meta]\n\nbye\n".toList

theorem strip_keeps_notes_noted : ∃ f, find noted = .ok (some f) ∧ ∃ pre block post : Text, noted = pre ++ (block ++ post) ∧
    f.start = Text.byteLen pre ∧ notedLines (strip noted f) = trimLast (trimLast (notedLines pre) ++ notedLines post) := by
  have hfind : find noted = .ok (some ⟨4, 48, ⟨1, none, none, none⟩, "a: 1".toList⟩) := by rfl
  obtain ⟨pre, block, post, htext, hstart, -, -, -, -, hlines⟩ := (strip_keeps_notes noted).1 _ hfind
  exact ⟨_, hfind, pre, block, post, htext, hstart, hlines⟩

end Backup
end PveMeta
