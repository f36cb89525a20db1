import PveMeta.Lib.ShellReader

/-! # Commands of plain and quoted words

A line of words, each plain or in single quotes, is read as the simple command of these words; with a mark at its end it
gets the lines up to the mark. Nothing that stands between quotes is read as anything else. -/

namespace Shell

open Reader

variable {n k : Nat} {c : Char} {t u r mark : Text} {w : Word} {ws : Words} {f : Cmd → Cmd}

/-! ### Words -/

theorem read_wordRest_meta (bare : Bool) (hc : isMeta c = true) (r : Text) :
    (wordRest bare (n + 1)).read (c :: r) = some (.nil, c :: r) := by
  rw [wordRest, read_peek_bind, if_pos hc, read_pure]

theorem read_takeQuoted (ht : '\'' ∉ t) (r : Text) :
    (takeWhile (· != '\'')).read (t ++ '\'' :: r) = some (t, '\'' :: r) := by
  refine read_takeWhile (fun c hc => ?_) (by decide) r
  have : c ≠ '\'' := fun h => ht (h ▸ hc)
  simpa using this

/-- A word in single quotes. -/
theorem read_wordRest_quoted (bare : Bool) (ht : '\'' ∉ t) (hc : isMeta c = true) (r : Text) :
    (wordRest bare (n + 2)).read ('\'' :: (t ++ '\'' :: c :: r)) = some (.quoted t .nil, c :: r) := by
  have hmeta : isMeta '\'' = false := by decide
  rw [wordRest, read_peek_bind]
  simp only [hmeta, Bool.false_eq_true, if_false, if_true]
  rw [read_item_bind, read_bind (read_takeQuoted ht _), read_item_bind, read_bind (read_wordRest_meta bare hc r), read_pure]

theorem isMeta_of_isPlain (h : isPlain c = true) : isMeta c = false := by
  cases hm : isMeta c with
  | false => rfl
  | true =>
    simp only [isMeta, List.contains_iff_mem, List.mem_cons, List.not_mem_nil, or_false] at hm
    rcases hm with rfl | rfl | rfl | rfl | rfl | rfl | rfl | rfl | rfl | rfl <;> cases h

theorem isPlain_of_isMeta (h : isMeta c = true) : isPlain c = false := by
  cases hp : isPlain c with
  | false => rfl
  | true => rw [isMeta_of_isPlain hp] at h; cases h

/-- As much of a word as is plain. -/
theorem read_takePlain (ht : t.all isPlain = true) (hc : isPlain c = false) (r : Text) :
    (takeWhile isPlain).read (t ++ c :: r) = some (t, c :: r) :=
  read_takeWhile (List.all_eq_true.mp ht) hc r

/-! ### Arguments -/

/-- With fuel `k`, a text is read as the rest of a line: words and redirections. -/
def Arguments (k : Nat) (t : Text) (ws : Words) (f : Cmd → Cmd) : Prop :=
  ∀ n r, k ≤ n → (arguments n).read (t ++ '\n' :: r) = some ((ws, f), '\n' :: r)

/-- What follows a word: the end of the line, or a blank. -/
def Follows (t : Text) : Prop := t = [] ∨ ∃ u, t = ' ' :: u

theorem Follows.split (h : Follows t) (r : Text) : ∃ c u, t ++ '\n' :: r = c :: u ∧ isMeta c = true ∧ c ≠ '>' := by
  rcases h with rfl | ⟨u, rfl⟩
  · exact ⟨'\n', r, rfl, by decide, by decide⟩
  · exact ⟨' ', u ++ '\n' :: r, rfl, by decide, by decide⟩

theorem arguments_nil : Arguments 1 [] .nil id := by
  intro n r hn
  obtain ⟨n, rfl⟩ := Nat.exists_eq_add_of_le' hn
  rfl

theorem read_arguments_blank (n : Nat) (r : Text) : (arguments (n + 1)).read (' ' :: r) = (arguments n).read r := by
  rw [arguments, read_peek_bind, if_pos rfl, read_item_bind]

/-- What is no blank, no end and no redirection is a word. -/
theorem read_arguments_word (n : Nat) (hc : isMeta c = false) (r : Text) :
    (arguments (n + 1)).read (c :: r) = (argument n).read (c :: r) := by
  have hne : ∀ d, isMeta d = true → c ≠ d := by
    intro d hd heq
    rw [← heq, hc] at hd
    cases hd
  rw [arguments, read_peek_bind, if_neg (hne ' ' (by decide)), if_neg, if_neg]
  · simp [hne '<' (by decide), hne '>' (by decide)]
  · simp [hne '\n' (by decide), hne ';' (by decide), hne '|' (by decide), hne ')' (by decide)]

theorem read_argument {d e : Char} {v x : Text} (ht : (takeWhile isPlain).read u = some (t, d :: v)) (hd : d ≠ '>')
    (hw : (wordRest false n).read (d :: v) = some (w, e :: x)) (hrest : (arguments n).read (e :: x) = some ((ws, f), r)) :
    (argument (n + 1)).read u = some ((.cons (.after t w) ws, f), r) := by
  rw [argument, read_bind ht, read_peek_bind, if_neg fun h => hd h.2, read_bind hw, read_bind hrest, read_pure]

theorem Arguments.quoted (h : Arguments k t ws f) (ht : Follows t) (hu : '\'' ∉ u) :
    Arguments (k + 5) (' ' :: '\'' :: (u ++ '\'' :: t)) (.cons (.quoted u .nil) ws) f := by
  intro n r hn
  obtain ⟨m, rfl⟩ := Nat.exists_eq_add_of_le' (Nat.le_of_add_left_le hn)
  obtain ⟨c, v, hnext, hmeta, -⟩ := ht.split r
  have hplain : (takeWhile isPlain).read ('\'' :: (u ++ '\'' :: c :: v)) = some ([], '\'' :: (u ++ '\'' :: c :: v)) :=
    read_takePlain (t := []) rfl (by decide) _
  have hrest : (arguments (m + 2)).read (c :: v) = some ((ws, f), '\n' :: r) := by
    rw [← hnext]
    exact h (m + 2) r (by omega)
  have htext : (' ' :: '\'' :: (u ++ '\'' :: t)) ++ '\n' :: r = ' ' :: '\'' :: (u ++ '\'' :: c :: v) := by
    simp [hnext]
  rw [htext, show m + 5 = (m + 4) + 1 from rfl, read_arguments_blank, read_arguments_word _ (by decide)]
  exact read_argument hplain (by decide) (read_wordRest_quoted false hu hmeta v) hrest

theorem Arguments.plain (h : Arguments k t ws f) (ht : Follows t) (hu : u.all isPlain = true) (hne : u ≠ []) :
    Arguments (k + 4) (' ' :: (u ++ t)) (.cons (.plain u .nil) ws) f := by
  intro n r hn
  obtain ⟨m, rfl⟩ := Nat.exists_eq_add_of_le' (Nat.le_of_add_left_le hn)
  obtain ⟨c, v, hnext, hmeta, hc⟩ := ht.split r
  have hplain := read_takePlain hu (isPlain_of_isMeta hmeta) v
  have hrest : (arguments (m + 1)).read (c :: v) = some ((ws, f), '\n' :: r) := by
    rw [← hnext]
    exact h (m + 1) r (by omega)
  have htext : (' ' :: (u ++ t)) ++ '\n' :: r = ' ' :: (u ++ c :: v) := by
    simp [hnext]
  obtain ⟨b, u', rfl⟩ := List.exists_cons_of_ne_nil hne
  have hb : isMeta b = false := isMeta_of_isPlain (List.all_eq_true.mp hu b List.mem_cons_self)
  rw [htext, show m + 4 = (m + 3) + 1 from rfl, read_arguments_blank, List.cons_append, read_arguments_word _ hb]
  refine (read_argument hplain hc (read_wordRest_meta false hmeta v) hrest).trans ?_
  rw [Word.after, if_neg (List.cons_ne_nil b u')]

/-- A mark, at the end of a line. -/
theorem arguments_here (hmark : '\'' ∉ mark) : Arguments 4 (" <<'".toList ++ mark ++ ['\'']) .nil (.here mark) := by
  intro n r hn
  obtain ⟨m, rfl⟩ := Nat.exists_eq_add_of_le' hn
  have htext : (" <<'".toList ++ mark ++ ['\'']) ++
      '\n' :: r = ' ' :: '<' :: '<' :: '\'' :: (mark ++ '\'' :: '\n' :: r) := by
    simp
  have hredirection : (redirection (m + 2)).read ('<' :: '<' :: '\'' :: (mark ++ '\'' :: '\n' :: r)) =
      some (.here mark, '\n' :: r) := by
    rw [redirection, read_item_bind, read_peek_bind, if_pos rfl, if_pos rfl, read_item_bind, read_bind (read_expect _ _),
      read_bind (read_takeQuoted hmark _), read_item_bind, read_pure]
  have hrest : (arguments (m + 2)).read ('\n' :: r) = some ((.nil, id), '\n' :: r) := arguments_nil _ r (by omega)
  rw [htext, show m + 4 = (m + 3) + 1 from rfl, read_arguments_blank, arguments, read_peek_bind, if_neg (by decide),
    if_neg (by decide), if_pos (by decide), read_bind hredirection, read_bind hrest, read_pure]
  rfl

/-! ### Lines -/

/-- Plain, and no word that the shell has a use for of its own. -/
structure IsName (name : Text) : Prop where
  plain : name.all isPlain = true
  ne_nil : name ≠ []
  free : ("if".toList :: "case".toList :: "for".toList :: "\x7b".toList :: "!".toList :: closers).contains name = false
  assigns : '=' ∉ name

variable {name : Text}

theorem IsName.ne (h : IsName name) {word : Text}
    (hword : word ∈ "if".toList :: "case".toList :: "for".toList :: "\x7b".toList :: "!".toList :: closers) :
      name ≠ word := by
  rintro rfl
  have := h.free
  rw [List.contains_iff_mem.mpr hword] at this
  cases this

/-- The command that a line is. -/
def lineCommand (name : Text) (ws : Words) (f : Cmd → Cmd) : Cmd := f (.simple (.cons (.plain name .nil) ws))

theorem read_stage (hname : IsName name) (h : Arguments k t ws f) (ht : Follows t) (hk : k ≤ n + 1) (r : Text) :
    (stage name (n + 2)).read (t ++ '\n' :: r) = some (lineCommand name ws f, '\n' :: r) := by
  obtain ⟨c, v, hnext, hmeta, -⟩ := ht.split r
  have hparen : c ≠ '(' := by
    rcases ht with rfl | ⟨u, rfl⟩
    · obtain ⟨rfl, -⟩ := List.cons.inj hnext
      decide
    · obtain ⟨rfl, -⟩ := List.cons.inj hnext
      decide
  have hassigned : assigned name = none := by
    rw [assigned, Text.splitOnce_of_not_mem hname.assigns]
  have hrest := h (n + 1) r hk
  rw [hnext] at hrest ⊢
  rw [stage, read_peek_bind, if_neg (hname.ne (by decide)), if_neg (hname.ne (by decide)), if_neg (hname.ne (by decide)),
    if_neg (hname.ne (by decide)), if_neg hparen, hassigned]
  dsimp only
  rw [read_bind (read_wordRest_meta false hmeta v), read_bind hrest, read_pure, lineCommand, Word.after,
    if_neg hname.ne_nil]

theorem read_blanks_newline (r : Text) : blanks.read ('\n' :: r) = some ((), '\n' :: r) := by
  have h : (takeWhile (· == ' ')).read ('\n' :: r) = some ([], '\n' :: r) :=
    read_takeWhile_nil (by decide) r
  rw [blanks, read_bind h, read_pure]

theorem read_orRest (hname : IsName name) (h : Arguments k t ws f) (ht : Follows t) (hk : k ≤ n + 1) (r : Text) :
    (orRest none name (n + 4)).read (t ++ '\n' :: r) = some (lineCommand name ws f, '\n' :: r) := by
  have hpipeline : (pipeline name (n + 3)).read (t ++ '\n' :: r) = some ((lineCommand name ws f, false), '\n' :: r) := by
    rw [pipeline, if_neg (hname.ne (by decide)), read_bind (read_stage hname h ht hk r), read_bind (read_blanks_newline r),
      read_peek_bind, if_neg (by decide), read_pure]
  rw [orRest, read_bind hpipeline]
  rfl

/-- What is left to read of a command when its line is. -/
def lineEnd (c : Cmd) : Reader Char Cmd :=
  match c with
  | .here mark c => do
    let t ← hereText mark
    pure (.here t c)
  | c => pure c

theorem read_complete (hname : IsName name) (h : Arguments k t ws f) (ht : Follows t) (hk : k ≤ 4000) (r : Text) :
    complete.read (name ++ (t ++ '\n' :: r)) = (lineEnd (lineCommand name ws f)).read r := by
  obtain ⟨c, v, hnext, hmeta, -⟩ := ht.split r
  obtain ⟨b, u, rfl⟩ := List.exists_cons_of_ne_nil hname.ne_nil
  have hb : isMeta b = false := isMeta_of_isPlain (List.all_eq_true.mp hname.plain b List.mem_cons_self)
  have hspacing : isSpacing b = false := by
    have hspace : b ≠ ' ' := fun heq => by
      rw [heq] at hb
      cases hb
    have hnewline : b ≠ '\n' := fun heq => by
      rw [heq] at hb
      cases hb
    simp [isSpacing, hspace, hnewline]
  have hskip : (takeWhile isSpacing).read (b :: (u ++ (t ++ '\n' :: r))) = some ([], b :: (u ++ (t ++ '\n' :: r))) :=
    read_takeWhile_nil hspacing _
  have htake : (takeWhile isPlain).read (b :: (u ++ (t ++ '\n' :: r))) = some (b :: u, t ++ '\n' :: r) := by
    rw [hnext]
    exact read_takePlain hname.plain (isPlain_of_isMeta hmeta) v
  have hclosers : closers.contains (b :: u) = false := by
    cases hc : closers.contains (b :: u) with
    | false => rfl
    | true =>
      have hmem := List.contains_iff_mem.mp hc
      exact absurd rfl (hname.ne (by simp [hmem]))
  have hline := read_orRest hname h ht (n := 4092) (by omega) r
  rw [List.cons_append, complete, read_bind hskip, read_bind htake, hclosers]
  simp only [Bool.false_eq_true, if_false]
  rw [read_bind (show (orRest none (b :: u) maxParts).read _ = _ from hline), read_bind (read_blanks_newline r),
    read_bind (read_expect _ _)]
  rfl

/-- A line without redirections is the simple command of its words. -/
theorem complete_line (hname : IsName name) (h : Arguments k t ws id) (ht : Follows t) (hk : k ≤ 4000) :
    complete.read (name ++ (t ++ ['\n'])) = some (.simple (.cons (.plain name .nil) ws), []) :=
  read_complete hname h ht hk []

/-- A line with a mark has the lines up to the mark on its input. -/
theorem complete_here (hname : IsName name) (h : Arguments k t ws (.here mark)) (ht : Follows t) (hk : k ≤ 4000)
    {body : Text} (hbody : hereLines mark [] r = some (body, [])) :
    complete.read (name ++ (t ++ '\n' :: r)) = some (.here body (.simple (.cons (.plain name .nil) ws)), []) := by
  rw [read_complete hname h ht hk r]
  exact read_bind (show (hereText mark).read r = some (body, []) from hbody)

theorem hereLines_mark {a b : Text} (hb : '\n' ∉ b) (hmark : a ++ b = mark) (r : Text) :
    hereLines mark a (b ++ '\n' :: r) = some ([], r) := by
  induction b generalizing a with
  | nil =>
    rw [List.append_nil] at hmark
    rw [List.nil_append, hereLines, if_pos rfl, if_pos hmark]
  | cons c b ih =>
    have hc : c ≠ '\n' := fun h => hb (h ▸ List.mem_cons_self)
    rw [List.cons_append, hereLines, if_neg hc]
    exact ih (fun h => hb (List.mem_cons_of_mem c h)) (by simp [← hmark])

/-- The lines up to the mark, of which none is the mark. -/
theorem hereLines_eq (hmark : '\n' ∉ mark) {l : Text} (hlines : ∀ line ∈ Text.lines (l ++ t), line ≠ mark) (hl : '\n' ∉ l) :
    hereLines mark l (t ++ '\n' :: (mark ++ ['\n'])) = some (l ++ t ++ ['\n'], []) := by
  induction t generalizing l with
  | nil =>
    rw [List.append_nil, Text.lines_of_not_mem hl, List.forall_mem_singleton] at hlines
    rw [List.nil_append, hereLines, if_pos rfl, if_neg hlines, hereLines_mark hmark (List.nil_append mark)]
    simp
  | cons c t ih =>
    rw [List.cons_append, hereLines]
    by_cases hc : c = '\n'
    · subst hc
      rw [Text.lines_append_newline, Text.lines_of_not_mem hl, List.singleton_append, List.forall_mem_cons] at hlines
      rw [if_pos rfl, if_neg hlines.1, ih (l := []) hlines.2 (List.not_mem_nil)]
      simp
    · have hnext : '\n' ∉ l ++ [c] := by
        simp only [List.mem_append, List.mem_singleton, not_or]
        exact ⟨hl, fun h => hc h.symm⟩
      rw [if_neg hc, ih (by simpa using hlines) hnext]
      simp

end Shell
