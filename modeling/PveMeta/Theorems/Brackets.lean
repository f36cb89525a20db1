import PveMeta.Theorems.Stripping

/-! # Header lines and end lines as brackets

The lines of the notes read once, from the last to the first: a header line goes with the first end line after it that no
later header line goes with. What the loop strips is not run here; a block it takes out leaves this reading as it is. -/

namespace PveMeta
namespace Backup

/-- What is read of the lines after some line: whether they begin with a pair of brackets, and, for each end line that no
    header line goes with, the lines from there or from the end line before up to it, without the pairs among them. -/
@[ext] structure Reading where
  pair : Bool
  inside : List (List Text)
  deriving DecidableEq

namespace Reading

/-- White space at the end of a line goes where a block is taken out after it. -/
def line (r : Reading) (l : Text) : Text := if r.pair then Text.trimEnd l else l

/-- The reading from a line on; blank lines around a pair go with it. -/
def read (l : Text) (r : Reading) : Reading :=
  if isEndLine (r.line l) then ⟨false, [] :: r.inside⟩
  else
    match r.inside with
    | [] => ⟨false, []⟩
    | body :: outer =>
      if isHeaderLine (r.line l) then ⟨true, outer.modifyHead (·.dropWhile (·.isEmpty))⟩
      else if r.pair && (r.line l).isEmpty then r
      else ⟨false, (r.line l :: body) :: outer⟩

end Reading

def readBack (ls : List Text) : Reading := ls.foldr Reading.read ⟨false, []⟩

/-- The line is a header line with an end line, and the two with what is between them are no block. -/
def Misread (h : Text) (r : Reading) : Prop :=
  ∃ body outer, r.inside = body :: outer ∧ isHeaderLine (r.line h) = true ∧
    ¬ ∃ header doc, IsBlock header doc (r.line h :: (body ++ [endLine]))

/-- Some whole lines are a well-formed block. -/
def HoldsBlock (ls : List Text) : Prop :=
  ∃ before block after header doc, ls = before ++ (block ++ after) ∧ IsBlock header doc block

/-- A pair of brackets that is no block has a well-formed one before it. -/
def Barred (ls : List Text) : Prop :=
  ∃ before h after, ls = before ++ h :: after ∧ Misread h (readBack after) ∧ HoldsBlock before

variable {ls before block after doc : List Text} {h l : Text} {header : Header} {r : Reading}

/-! ### Reading a line -/

@[simp] theorem line_mk_true (inside : List (List Text)) (l : Text) :
    (Reading.mk true inside).line l = Text.trimEnd l := rfl

@[simp] theorem line_mk_false (inside : List (List Text)) (l : Text) : (Reading.mk false inside).line l = l := rfl

@[simp] theorem readBack_nil : readBack [] = ⟨false, []⟩ := rfl

@[simp] theorem readBack_cons (l : Text) (ls : List Text) : readBack (l :: ls) = (readBack ls).read l := rfl

theorem readBack_append (as bs : List Text) : readBack (as ++ bs) = as.foldr Reading.read (readBack bs) := List.foldr_append

theorem isEndLine_trimEnd (l : Text) : isEndLine (Text.trimEnd l) = isEndLine l := by
  rw [Bool.eq_iff_iff, isEndLine_iff, isEndLine_iff, Text.trimEnd_trimEnd]

theorem isEndLine_line (r : Reading) (l : Text) : isEndLine (r.line l) = isEndLine l := by
  rw [Reading.line]
  split
  · exact isEndLine_trimEnd l
  · rfl

theorem read_endLine (h : isEndLine l = true) (r : Reading) : r.read l = ⟨false, [] :: r.inside⟩ := by
  rw [Reading.read, isEndLine_line, h, if_pos rfl]

theorem read_outside (h : isEndLine l = false) (hr : r.inside = []) : r.read l = ⟨false, []⟩ := by
  rw [Reading.read, isEndLine_line, h, if_neg Bool.false_ne_true, hr]

/-- A line that is neither bracket. -/
theorem read_plain (hh : isHeaderLine l = false) (he : isEndLine l = false) (body : List Text) (outer : List (List Text)) :
    Reading.read l ⟨false, body :: outer⟩ = ⟨false, (l :: body) :: outer⟩ := by
  rw [Reading.read, isEndLine_line, he, if_neg Bool.false_ne_true]
  dsimp only
  rw [line_mk_false, hh, if_neg Bool.false_ne_true, Bool.false_and, if_neg Bool.false_ne_true]

theorem read_header (hh : isHeaderLine l = true) (body : List Text) (outer : List (List Text)) :
    Reading.read l ⟨false, body :: outer⟩ = ⟨true, outer.modifyHead (·.dropWhile (·.isEmpty))⟩ := by
  have he : isEndLine l = false := by
    cases he : isEndLine l with
    | false => rfl
    | true => rw [not_isHeaderLine_of_isEndLine he] at hh; cases hh
  rw [Reading.read, isEndLine_line, he, if_neg Bool.false_ne_true]
  dsimp only
  rw [line_mk_false, hh, if_pos rfl]

theorem foldr_read_plain (h : ∀ l ∈ ls, isHeaderLine l = false ∧ isEndLine l = false) (body : List Text)
    (outer : List (List Text)) : ls.foldr Reading.read ⟨false, body :: outer⟩ = ⟨false, (ls ++ body) :: outer⟩ := by
  induction ls with
  | nil => rfl
  | cons l ls ih =>
    obtain ⟨hh, he⟩ := h l List.mem_cons_self
    rw [List.foldr_cons, ih fun m hm => h m (List.mem_cons_of_mem _ hm), read_plain hh he, List.cons_append]

/-! ### Lines without a pair -/

theorem takeBody_eq_none : takeBody ls = none ↔ ls.any isEndLine = false := by
  induction ls with
  | nil => simp [takeBody]
  | cons l ls ih =>
    rw [takeBody, List.any_cons, Bool.or_eq_false_iff, ← ih, ← Bool.not_eq_true, isEndLine_iff]
    split
    · next h => simp [h]
    · next h => simp [h]

/-- With no header line that has an end line after it, what is inside is what comes before the first end line. -/
theorem readBack_unpaired (h : lastBlock ls = none) :
    (readBack ls).pair = false ∧ (readBack ls).inside.head? = takeBody ls := by
  induction ls with
  | nil => exact ⟨rfl, rfl⟩
  | cons l ls ih =>
    rw [lastBlock_eq_none, List.pairwise_cons, ← lastBlock_eq_none] at h
    obtain ⟨hpair, hinside⟩ := ih h.2
    rcases hr : readBack ls with ⟨pair, inside⟩
    rw [hr] at hpair hinside
    cases hpair
    rw [readBack_cons, hr, takeBody]
    by_cases hend : isEndLine l = true
    · rw [read_endLine hend, if_pos (isEndLine_iff.mp hend)]
      exact ⟨rfl, rfl⟩
    · rw [if_neg (mt isEndLine_iff.mpr hend), ← hinside]
      rw [Bool.not_eq_true] at hend
      cases inside with
      | nil =>
        rw [read_outside hend rfl]
        exact ⟨rfl, rfl⟩
      | cons body outer =>
        have hplain : isHeaderLine l = false := by
          by_contra hhead
          rw [Bool.not_eq_false] at hhead
          have hnone : takeBody ls = none := takeBody_eq_none.mpr <| by
            rw [List.any_eq_false]
            exact fun e he hstop => h.1 e he ⟨hhead, hstop⟩
          rw [hnone] at hinside
          cases hinside
        rw [read_plain hplain hend]
        exact ⟨rfl, rfl⟩

/-- No line is misread. -/
def Legible (ls : List Text) : Prop := ∀ before h after, ls = before ++ h :: after → ¬ Misread h (readBack after)

theorem legible_of_unpaired (hnone : lastBlock ls = none) : Legible ls := by
  rintro before h after hls ⟨body, outer, hinside, hhead, -⟩
  have hpairs := lastBlock_eq_none.mp hnone
  rw [hls] at hpairs
  obtain ⟨-, hpairs, -⟩ := List.pairwise_append.mp hpairs
  obtain ⟨hafter, hpairs⟩ := List.pairwise_cons.mp hpairs
  obtain ⟨hpair, htake⟩ := readBack_unpaired (lastBlock_eq_none.mpr hpairs)
  rw [hinside, List.head?_cons, eq_comm, takeBody_eq_some] at htake
  obtain ⟨stop, more, hafter', hstop, -⟩ := htake
  rw [Reading.line, hpair, if_neg Bool.false_ne_true] at hhead
  exact hafter stop (by simp [hafter']) ⟨hhead, isEndLine_iff.mpr hstop⟩

/-! ### The last pair -/

/-- One end line is as good as another. -/
theorem isBlock_stop {stop stop' : Text} (hb : IsBlock header doc (h :: (ls ++ [stop])))
    (hstop : Text.trimEnd stop' = endLine) :
    IsBlock header doc (h :: (ls ++ [stop'])) := by
  obtain ⟨h', fence, close, stop'', heq, hhead, hparse, hversion, hopen, hclose, -, hdoc⟩ := hb
  obtain ⟨rfl, htail⟩ := List.cons.inj heq
  have hconcat : ls ++ [stop] = (fence :: (doc ++ [close])) ++ [stop''] := by simpa using htail
  obtain rfl : ls = fence :: (doc ++ [close]) := List.append_inj_left' hconcat rfl
  exact ⟨h, fence, close, stop', by simp, hhead, hparse, hversion, hopen, hclose, hstop, hdoc⟩

/-- The last header line that has an end line after it is read as the scan reads it. -/
theorem misread_iff (hlast : lastBlock ls = some (before, h, after)) :
    Misread h (readBack after) ↔ ∀ found, readBlock (h :: after) ≠ .ok found := by
  obtain ⟨-, hhead, hend, hnone⟩ := lastBlock_eq_some.mp hlast
  obtain ⟨hpair, htake⟩ := readBack_unpaired hnone
  have hline : (readBack after).line h = h := by rw [Reading.line, hpair, if_neg Bool.false_ne_true]
  obtain ⟨body, hbody⟩ : ∃ body, takeBody after = some body := by
    rw [← Option.isSome_iff_exists, Option.isSome_iff_ne_none, ne_eq, takeBody_eq_none, hend]
    exact Bool.true_eq_false_eq_False
  obtain ⟨stop, more, hafter, hstop, hbefore⟩ := takeBody_eq_some.mp hbody
  rw [hbody] at htake
  have hblock : (∃ found, readBlock (h :: after) = .ok found) ↔
      ∃ header doc, IsBlock header doc (h :: (body ++ [endLine])) := by
    constructor
    · rintro ⟨⟨header, doc⟩, hread⟩
      obtain ⟨block, rest, hsplit, hb⟩ := isBlock_of_read hlast hread
      obtain ⟨h', fence, close, stop', hblock, hh', hparse, hversion, hopen, hclose, hstop', hdoc⟩ := hb
      rw [hblock, List.cons_append, List.cons.injEq] at hsplit
      obtain ⟨rfl, hrest⟩ := hsplit
      have hsame : takeBody after = some (fence :: (doc ++ [close])) := by
        refine takeBody_eq_some.mpr ⟨stop', rest, by simpa using hrest, hstop', fun m hm => ?_⟩
        rw [ne_eq, ← isEndLine_iff, Bool.not_eq_true]
        simp only [List.mem_cons, List.mem_append, List.not_mem_nil, or_false] at hm
        rcases hm with rfl | hm | rfl
        · exact (not_isHeaderLine_fence (.inl hopen)).2
        · exact (hdoc m hm).2
        · exact (not_isHeaderLine_fence (.inr hclose)).2
      obtain rfl : body = fence :: (doc ++ [close]) := Option.some.inj (hbody.symm.trans hsame)
      exact ⟨header, doc, h, fence, close, endLine, by simp, hh', hparse, hversion, hopen, hclose, by decide, hdoc⟩
    · rintro ⟨header, doc, hb⟩
      have hread := readBlock_block (isBlock_stop hb hstop) more
      refine ⟨(header, doc), ?_⟩
      rw [← hread, hafter]
      simp only [List.cons_append, List.append_assoc, List.nil_append]
  rw [Misread, hline]
  constructor
  · rintro ⟨body', outer, hinside, -, hnot⟩ found hread
    rw [hinside, List.head?_cons, Option.some.injEq] at htake
    rw [htake] at hnot
    exact hnot (hblock.mp ⟨found, hread⟩)
  · intro hread
    obtain ⟨outer, hinside⟩ := List.head?_eq_some_iff.mp htake
    exact ⟨body, outer, hinside, hhead, fun hb => (hblock.mpr hb).elim hread⟩

/-- The lines from a well-formed block on: those after it, less the empty ones that they begin with. -/
theorem readBack_block (hb : IsBlock header doc block) (after : List Text) :
    readBack (block ++ after) = ⟨true, (readBack after).inside.modifyHead (·.dropWhile (·.isEmpty))⟩ := by
  obtain ⟨h, fence, close, stop, rfl, hhead, -, -, hopen, hclose, hstop, hdoc⟩ := hb
  have hplain : ∀ l ∈ fence :: (doc ++ [close]), isHeaderLine l = false ∧ isEndLine l = false := by
    intro l hl
    simp only [List.mem_cons, List.mem_append, List.not_mem_nil, or_false] at hl
    rcases hl with rfl | hl | rfl
    · exact not_isHeaderLine_fence (.inl hopen)
    · exact hdoc l hl
    · exact not_isHeaderLine_fence (.inr hclose)
  have hlines : h :: fence :: (doc ++ [close, stop]) ++
    after = h :: ((fence :: (doc ++ [close])) ++ stop :: after) := by simp
  rw [hlines, readBack_cons, readBack_append, readBack_cons, read_endLine (isEndLine_iff.mpr hstop),
    foldr_read_plain hplain, read_header hhead]

/-- Empty lines in front of lines without a pair. -/
theorem readBack_dropWhile (hnone : lastBlock ls = none) :
    readBack (ls.dropWhile (·.isEmpty)) = ⟨false, (readBack ls).inside.modifyHead (·.dropWhile (·.isEmpty))⟩ := by
  induction ls with
  | nil => rfl
  | cons l ls ih =>
    have htail := lastBlock_of_sublist (List.sublist_cons_self l ls) hnone
    obtain ⟨hpair, -⟩ := readBack_unpaired htail
    rcases hr : readBack ls with ⟨pair, inside⟩
    rw [hr] at ih hpair
    cases hpair
    have hwhole := readBack_unpaired hnone
    rw [readBack_cons, hr] at hwhole ⊢
    cases l with
    | nil =>
      rw [List.dropWhile_cons_of_pos rfl, ih htail]
      cases inside with
      | nil => rfl
      | cons body outer => rfl
    | cons c l =>
      rw [List.dropWhile_cons_of_neg (by simp), readBack_cons, hr]
      refine Reading.ext hwhole.1 ?_
      by_cases hend : isEndLine (c :: l) = true
      · rw [read_endLine hend]
        rfl
      · rw [Bool.not_eq_true] at hend
        cases inside with
        | nil =>
          rw [read_outside hend rfl]
          rfl
        | cons body outer =>
          cases hhead : isHeaderLine (c :: l) with
          | false =>
            rw [read_plain hhead hend]
            rfl
          | true =>
            rw [read_header hhead] at hwhole
            cases hwhole.1

/-! ### Misread lines -/

theorem legible_cons : Legible (l :: ls) ↔ ¬ Misread l (readBack ls) ∧ Legible ls := by
  constructor
  · exact fun h => ⟨h [] l ls rfl, fun before k after hls => h (l :: before) k after (by rw [hls, List.cons_append])⟩
  · rintro ⟨hl, h⟩ before k after hls
    cases before with
    | nil =>
      cases hls
      exact hl
    | cons m before =>
      rw [List.cons_append, List.cons.injEq] at hls
      exact h before k after hls.2

theorem not_barred_of_legible (h : Legible ls) : ¬ Barred ls := by
  rintro ⟨before, l, after, hls, hmisread, -⟩
  exact h before l after hls hmisread

/-- Nothing after the lines is misread: only they count. -/
theorem barred_append {as bs : List Text} (h : Legible bs) : Barred (as ++ bs) ↔
    ∃ before l after, as = before ++ l :: after ∧ Misread l (readBack (after ++ bs)) ∧ HoldsBlock before := by
  constructor
  · rintro ⟨before, l, after, hls, hmisread, hholds⟩
    rcases List.append_eq_append_iff.mp hls with ⟨c, -, hc⟩ | ⟨c, has, hc⟩
    · exact absurd hmisread (h c l after hc)
    · cases c with
      | nil => exact absurd hmisread (h [] l after hc.symm)
      | cons m c =>
        rw [List.cons_append, List.cons.injEq] at hc
        obtain ⟨rfl, rfl⟩ := hc
        exact ⟨before, l, c, has, hmisread, hholds⟩
  · rintro ⟨before, l, after, rfl, hmisread, hholds⟩
    exact ⟨before, l, after ++ bs, by simp, hmisread, hholds⟩

theorem barred_congr {as bs cs : List Text} (hb : Legible bs) (hc : Legible cs) (h : readBack bs = readBack cs) :
    Barred (as ++ bs) ↔ Barred (as ++ cs) := by
  rw [barred_append hb, barred_append hc]
  simp only [readBack_append, h]

/-- One line that may be misread, and others before it. -/
theorem barred_append_cons {as bs : List Text} (h : Legible bs) : Barred (as ++ l :: bs) ↔
    (∃ before k after, as = before ++ k :: after ∧ Misread k (after.foldr Reading.read (readBack (l :: bs))) ∧
      HoldsBlock before) ∨
      (Misread l (readBack bs) ∧ HoldsBlock as) := by
  rw [List.append_cons, barred_append h]
  constructor
  · rintro ⟨before, k, after, has, hmisread, hholds⟩
    rcases List.eq_nil_or_concat' after with rfl | ⟨init, last, rfl⟩
    · obtain ⟨rfl, hk⟩ := List.append_inj' has rfl
      cases hk
      exact Or.inr ⟨hmisread, hholds⟩
    · rw [← List.cons_append, ← List.append_assoc] at has
      obtain ⟨rfl, hl⟩ := List.append_inj' has rfl
      cases hl
      refine Or.inl ⟨before, k, init, rfl, ?_, hholds⟩
      rwa [List.append_assoc, List.singleton_append, readBack_append] at hmisread
  · rintro (⟨before, k, after, rfl, hmisread, hholds⟩ | ⟨hmisread, hholds⟩)
    · refine ⟨before, k, after ++ [l], by simp, ?_, hholds⟩
      rwa [List.append_assoc, List.singleton_append, readBack_append]
    · exact ⟨as, l, [], rfl, hmisread, hholds⟩

/-! ### White space -/

theorem isHeaderLine_of_isBlank (h : Text.isBlank l = true) : isHeaderLine l = false ∧ isEndLine l = false := by
  refine not_delimiter ?_
  cases l with
  | nil => exact fun h => by cases h
  | cons c l =>
    rw [List.head?_cons, ne_eq, Option.some.injEq]
    rintro rfl
    rw [Text.isBlank, List.all_cons, Bool.and_eq_true] at h
    exact absurd h.1 (by decide)

theorem trimEnd_of_isBlank (h : Text.isBlank l = true) : Text.trimEnd l = [] := Text.trimEnd_append_of_space (a := []) h

theorem not_misread_of_isBlank (h : Text.isBlank l = true) (r : Reading) : ¬ Misread l r := by
  rintro ⟨body, outer, -, hhead, -⟩
  rw [Reading.line] at hhead
  split at hhead
  · rw [trimEnd_of_isBlank h] at hhead
    cases hhead
  · rw [(isHeaderLine_of_isBlank h).1] at hhead
    cases hhead

theorem legible_blank {blanks : List Text} (hblanks : ∀ m ∈ blanks, Text.isBlank m = true) (h : Legible ls) :
    Legible (blanks ++ ls) := by
  induction blanks with
  | nil => exact h
  | cons m blanks ih =>
    exact legible_cons.mpr ⟨not_misread_of_isBlank (hblanks m List.mem_cons_self) _,
      ih fun k hk => hblanks k (List.mem_cons_of_mem _ hk)⟩

/-- Blank lines before a pair go with it. -/
theorem foldr_read_blank {blanks : List Text} (hblanks : ∀ m ∈ blanks, Text.isBlank m = true) (inside : List (List Text)) :
    (blanks.foldr Reading.read ⟨true, inside⟩).inside = inside ∧
      (inside ≠ [] → (blanks.foldr Reading.read ⟨true, inside⟩).pair = true) := by
  induction blanks with
  | nil => exact ⟨rfl, fun _ => rfl⟩
  | cons m blanks ih =>
    obtain ⟨hinside, hpair⟩ := ih fun k hk => hblanks k (List.mem_cons_of_mem _ hk)
    have hm := hblanks m List.mem_cons_self
    have hend := (isHeaderLine_of_isBlank hm).2
    rw [List.foldr_cons]
    cases inside with
    | nil =>
      rw [read_outside hend hinside]
      exact ⟨rfl, fun h => absurd rfl h⟩
    | cons body outer =>
      have hr := Reading.ext (y := ⟨true, body :: outer⟩) (hpair (List.cons_ne_nil _ _)) hinside
      have hread : Reading.read m ⟨true, body :: outer⟩ = ⟨true, body :: outer⟩ := by
        rw [Reading.read, isEndLine_line, hend, if_neg Bool.false_ne_true]
        dsimp only
        rw [line_mk_true, trimEnd_of_isBlank hm]
        rfl
      rw [hr, hread]
      exact ⟨rfl, fun _ => rfl⟩

/-- The line before a pair is read as its trimmed self is elsewhere. -/
theorem read_trimEnd {r : Reading} (hblank : Text.isBlank l = false) (hpair : r.inside ≠ [] → r.pair = true) :
    r.read l = Reading.read (Text.trimEnd l) ⟨false, r.inside⟩ ∧
      (Misread l r ↔ Misread (Text.trimEnd l) ⟨false, r.inside⟩) := by
  obtain ⟨pair, inside⟩ := r
  cases inside with
  | nil =>
    refine ⟨?_, iff_of_false (by rintro ⟨_, _, ⟨⟩, -⟩) (by rintro ⟨_, _, ⟨⟩, -⟩)⟩
    by_cases hend : isEndLine l = true
    · rw [read_endLine hend, read_endLine (by rwa [isEndLine_trimEnd])]
    · rw [Bool.not_eq_true] at hend
      rw [read_outside hend rfl, read_outside (by rwa [isEndLine_trimEnd]) rfl]
  | cons body outer =>
    obtain rfl : pair = true := hpair (List.cons_ne_nil _ _)
    have hne : (Text.trimEnd l).isEmpty = false := List.isEmpty_eq_false_iff.mpr (Text.trimEnd_ne_nil hblank)
    refine ⟨?_, by simp only [Misread, line_mk_true, line_mk_false]⟩
    simp only [Reading.read, line_mk_true, line_mk_false, hne, Bool.and_false, Bool.false_eq_true, if_false]

/-- What comes before a pair, and what is left of it without the pair. -/
theorem barred_trim {as blanks bs cs : List Text} {inside : List (List Text)} (hl : Text.isBlank l = false)
    (hblanks : ∀ m ∈ blanks, Text.isBlank m = true) (hbs : Legible bs) (hcs : Legible cs)
    (hpair : readBack bs = ⟨true, inside⟩) (hnone : readBack cs = ⟨false, inside⟩) :
    Barred (as ++ l :: (blanks ++ bs)) ↔ Barred (as ++ Text.trimEnd l :: cs) := by
  obtain ⟨hinside, hblank⟩ := foldr_read_blank hblanks inside
  obtain ⟨hread, hmisread⟩ := read_trimEnd (r := blanks.foldr Reading.read ⟨true, inside⟩) hl (hinside.symm ▸ hblank)
  rw [hinside] at hread hmisread
  rw [barred_append_cons (legible_blank hblanks hbs), barred_append_cons hcs, readBack_cons, readBack_cons, readBack_append,
    hpair, hnone, hread, hmisread]

/-! ### A text and what is stripped of it -/

/-- White space at the end of the notes makes no difference. -/
theorem barred_trimEnd (t : Text) : Barred (Text.lines (Text.trimEnd t)) ↔ Barred (Text.lines t) := by
  induction t using List.reverseRecOn with
  | nil => exact Iff.rfl
  | append_singleton t c ih =>
    cases hspace : Text.isSpace c with
    | false => rw [Text.trimEnd_concat hspace]
    | true =>
      rw [Text.trimEnd_append_of_space (by simpa using hspace), ih]
      by_cases hc : c = '\n'
      · rw [hc, Text.lines_append_newline, Text.lines_nil]
        have hlegible : Legible [[]] := legible_of_unpaired rfl
        have hnil : Legible [] := legible_of_unpaired rfl
        rw [← barred_congr hnil hlegible rfl, List.append_nil]
      · obtain ⟨init, last, ht, htc⟩ := lines_concat t hc
        have hlast : ∀ m : Text, lastBlock [m] = none := fun m => by simp [lastBlock]
        rw [ht, htc]
        refine barred_congr (legible_of_unpaired (hlast _)) (legible_of_unpaired (hlast _)) ?_
        have hend : isEndLine (last ++ [c]) = isEndLine last := by
          rw [Bool.eq_iff_iff, isEndLine_iff, isEndLine_iff, Text.trimEnd_append_of_space (by simpa using hspace)]
        rw [readBack_cons, readBack_cons, readBack_nil]
        cases hcase : isEndLine last with
        | true => rw [read_endLine hcase, read_endLine (hend.trans hcase)]
        | false => rw [read_outside hcase rfl, read_outside (hend.trans hcase) rfl]

theorem lines_trimEnd_flatMap {before : List Text} (hmem : ∀ l ∈ before, '\n' ∉ l) :
    ((∀ l ∈ before, Text.isBlank l = true) ∧ Text.trimEnd (before.flatMap (· ++ ['\n'])) = []) ∨
      ∃ as l blanks, before = as ++ l :: blanks ∧ Text.isBlank l = false ∧ (∀ m ∈ blanks, Text.isBlank m = true) ∧
        Text.trimEnd (before.flatMap (· ++ ['\n'])) ≠ [] ∧
          Text.lines (Text.trimEnd (before.flatMap (· ++ ['\n']))) = as ++ [Text.trimEnd l] := by
  induction before using List.reverseRecOn with
  | nil => exact Or.inl ⟨by rintro _ ⟨⟩, rfl⟩
  | append_singleton before l ih =>
    have hnewline : ['\n'].all Text.isSpace := by decide
    rw [List.flatMap_append, List.flatMap_singleton, ← List.append_assoc, Text.trimEnd_append_of_space hnewline]
    cases hl : Text.isBlank l with
    | true =>
      rw [Text.trimEnd_append_of_space hl]
      rcases ih fun m hm => hmem m (List.mem_append_left _ hm) with
        ⟨hblank, hnil⟩ | ⟨as, k, blanks, hbefore, hk, hblanks, htrim⟩
      · exact Or.inl ⟨by simpa [or_imp, forall_and] using ⟨hblank, hl⟩, hnil⟩
      · exact Or.inr ⟨as, k, blanks ++ [l], by simp [hbefore], hk, by simpa [or_imp, forall_and] using ⟨hblanks, hl⟩, htrim⟩
    | false =>
      refine Or.inr ⟨before, l, [], rfl, hl, by rintro _ ⟨⟩, ?_, ?_⟩ <;> rw [Text.trimEnd_append_of_not_blank hl]
      · exact List.append_ne_nil_of_right_ne_nil _ (Text.trimEnd_ne_nil hl)
      · rw [← Text.unlines_concat, Text.lines_unlines (by simp)]
        intro m hm
        rcases List.mem_append.mp hm with hm | hm
        · exact hmem m (List.mem_append_left _ hm)
        · rw [List.mem_singleton.mp hm]
          exact fun hin => hmem l (by simp) ((List.rdropWhile_prefix _ _).subset hin)

theorem dropWhile_unlines {ls : List Text} (hmem : ∀ l ∈ ls, '\n' ∉ l) :
    (Text.unlines ls).dropWhile (· == '\n') = Text.unlines (ls.dropWhile (·.isEmpty)) := by
  induction ls with
  | nil => rfl
  | cons l ls ih =>
    cases l with
    | nil =>
      rw [List.dropWhile_cons_of_pos rfl, ← ih fun m hm => hmem m (List.mem_cons_of_mem _ hm)]
      cases ls with
      | nil => rfl
      | cons m ls =>
        rw [Text.unlines_cons _ (List.cons_ne_nil m ls), List.nil_append, List.dropWhile_cons_of_pos rfl]
    | cons c l =>
      have hc : c ≠ '\n' := by
        rintro rfl
        exact hmem _ List.mem_cons_self List.mem_cons_self
      rw [List.dropWhile_cons_of_neg (by simp)]
      have hhead : ∃ rest, Text.unlines ((c :: l) :: ls) = c :: rest := by
        cases ls with
        | nil => exact ⟨l, Text.unlines_singleton _⟩
        | cons m ls => exact ⟨_, Text.unlines_cons _ (List.cons_ne_nil m ls)⟩
      obtain ⟨rest, hrest⟩ := hhead
      rw [hrest, List.dropWhile_cons_of_neg (by simpa using hc)]

/-- What is read of the lines after a block once the empty ones first of them are gone. -/
theorem readBack_rest (hafter : lastBlock after = none) (hmem : ∀ m ∈ after, '\n' ∉ m) :
    Legible (Text.lines (Text.unlines (after.dropWhile (·.isEmpty)))) ∧
      readBack (Text.lines (Text.unlines (after.dropWhile (·.isEmpty)))) =
        ⟨false, (readBack after).inside.modifyHead (·.dropWhile (·.isEmpty))⟩ := by
  have hsub := List.dropWhile_sublist (l := after) fun m : Text => m.isEmpty
  rw [← readBack_dropWhile hafter]
  by_cases hnil : after.dropWhile (·.isEmpty) = []
  · rw [hnil]
    exact ⟨legible_of_unpaired rfl, rfl⟩
  · rw [Text.lines_unlines hnil fun m hm => hmem m (hsub.subset hm)]
    exact ⟨legible_of_unpaired (lastBlock_of_sublist hsub hafter), rfl⟩

/-- The lines of a text without a block are those before it and those after it. -/
theorem strip_eq {t : Text} {f : Found} (hlines : Text.lines t = before ++ (block ++ after)) (hblock : block ≠ [])
    (hstart : f.start = linesBytes before) (hstop : f.stop = linesBytes before + Text.byteLen (Text.unlines block)) :
    strip t f = Text.trimEnd (Text.trimEnd (before.flatMap (· ++ ['\n'])) ++
      (if ! (Text.trimEnd (before.flatMap (· ++ ['\n']))).isEmpty &&
          ! Text.isBlank (Text.unlines (after.dropWhile (·.isEmpty)))
        then ['\n'] else []) ++ Text.unlines (after.dropWhile (·.isEmpty))) := by
  have hmem : ∀ m ∈ after, '\n' ∉ m := fun m hm => Text.not_mem_of_mem_lines (t := t) (by simp [hlines, hm])
  obtain ⟨post, htext, hpost⟩ : ∃ post, t = before.flatMap (· ++ ['\n']) ++ (Text.unlines block ++ post) ∧
      post.dropWhile (· == '\n') = Text.unlines (after.dropWhile (·.isEmpty)) := by
    rw [← Text.unlines_lines t, hlines, unlines_append_flatMap _ _ (by simp [hblock])]
    rcases eq_or_ne after [] with rfl | hne
    · exact ⟨[], by rw [List.append_nil, List.append_nil], rfl⟩
    · refine ⟨'\n' :: Text.unlines after, by rw [Text.unlines_append hblock hne], ?_⟩
      rw [List.dropWhile_cons_of_pos rfl, dropWhile_unlines hmem]
  have hstop' : f.stop = Text.byteLen (before.flatMap (· ++ ['\n']) ++ Text.unlines block) := by
    rw [hstop, linesBytes, Text.byteLen_append]
  rw [strip, hstart, hstop', htext, linesBytes, Text.takeBytes_byteLen, ← List.append_assoc, Text.dropBytes_byteLen, hpost]

/-- Two texts put together: a newline is between them unless the second one is blank. -/
theorem barred_join {t u : Text} (hne : t ≠ []) :
    Barred (Text.lines (t ++ (if ! t.isEmpty && ! Text.isBlank u then ['\n'] else []) ++ u)) ↔
      Barred (Text.lines t ++ Text.lines u) := by
  rw [← Text.lines_append_newline, List.isEmpty_eq_false_iff.mpr hne]
  cases hblank : Text.isBlank u with
  | false => simp
  | true =>
    rw [← barred_trimEnd, ← barred_trimEnd (_ ++ '\n' :: _)]
    have hspace : ('\n' :: u).all Text.isSpace := by
      rw [List.all_cons, Bool.and_eq_true]
      exact ⟨by decide, hblank⟩
    rw [Text.trimEnd_append_of_space hspace]
    simp [Text.trimEnd_append_of_space hblank]

/-- Stripping the block that is found makes no difference. -/
theorem barred_strip {t : Text} {f : Found} (h : find t = .ok (some f)) :
    Barred (Text.lines (strip t f)) ↔ Barred (Text.lines t) := by
  obtain ⟨before, l, rest, block, after, doc, hlast, hsplit, hb, -, hstart, hstop⟩ := lastBlock_of_find h
  obtain ⟨hlines, hhead, hend, hnone⟩ := lastBlock_eq_some.mp hlast
  rw [hsplit] at hlines
  have hmem : ∀ m ∈ before ++ (block ++ after), '\n' ∉ m := fun m hm => Text.not_mem_of_mem_lines (hlines ▸ hm)
  -- What is read from the block on, and without it.
  obtain ⟨k, tail, rfl⟩ := List.exists_cons_of_ne_nil (block_ne_nil hb)
  obtain ⟨rfl, hrest⟩ := List.cons.inj hsplit
  have hafter : lastBlock after = none := lastBlock_of_sublist (hrest ▸ List.sublist_append_right tail after) hnone
  have hlegible : Legible (l :: tail ++ after) := by
    rw [← hsplit]
    refine legible_cons.mpr ⟨fun hmisread => ?_, legible_of_unpaired hnone⟩
    exact (misread_iff hlast).mp hmisread _ (by rw [hsplit]; exact readBlock_block hb after)
  obtain ⟨hwithout, hread⟩ := readBack_rest hafter fun m hm => hmem m (by simp [hm])
  rw [hlines, strip_eq hlines (List.cons_ne_nil l tail) hstart hstop, barred_trimEnd]
  rcases lines_trimEnd_flatMap fun m hm => hmem m (List.mem_append_left _ hm) with
    ⟨hblank, hnil⟩ | ⟨as, k, blanks, hbefore, hk, hblanks, hne, htrim⟩
  · rw [hnil]
    exact iff_of_false (not_barred_of_legible hwithout) (not_barred_of_legible (legible_blank hblank hlegible))
  · rw [barred_join hne, htrim, hbefore, ← List.append_cons, List.append_assoc, List.cons_append]
    exact (barred_trim hk hblanks hlegible hwithout (readBack_block hb after) hread).symm

end Backup
end PveMeta
