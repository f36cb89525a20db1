import Mathlib.Algebra.GroupWithZero.Nat
import Mathlib.Data.List.DropRight
import Mathlib.Data.List.Infix

/-! # Text as a list of characters

White space, lines, byte offsets and decimal numbers of a text, as Rust's `str` has them. -/

/-- A text as its characters. -/
abbrev Text := List Char

namespace Text

/-- Unicode `White_Space` (`char::is_whitespace`). -/
def isSpace (c : Char) : Bool :=
  let n := c.toNat
  (9 ≤ n && n ≤ 13) || n == 0x20 || n == 0x85 || n == 0xa0 || n == 0x1680 || (0x2000 ≤ n && n ≤ 0x200a) ||
    n == 0x2028 || n == 0x2029 || n == 0x202f || n == 0x205f || n == 0x3000

/-- `trim_end`. -/
def trimEnd (t : Text) : Text := t.rdropWhile isSpace

/-- `trim_end_matches('\n')`. -/
def trimNewlines (t : Text) : Text := t.rdropWhile (· == '\n')

/-- `trim().is_empty()`. -/
def isBlank (t : Text) : Bool := t.all isSpace

/-- The number of bytes of the UTF-8 encoding. -/
def byteLen (t : Text) : Nat := (t.map Char.utf8Size).sum

/-- `&t[..n]` for a byte offset `n` at a character boundary. -/
def takeBytes (n : Nat) : Text → Text
  | [] => []
  | c :: t => if c.utf8Size ≤ n then c :: takeBytes (n - c.utf8Size) t else []

/-- `&t[n..]` for a byte offset `n` at a character boundary. -/
def dropBytes (n : Nat) : Text → Text
  | [] => []
  | c :: t => if c.utf8Size ≤ n then dropBytes (n - c.utf8Size) t else c :: t

def lines (t : Text) : List Text := t.splitOn '\n'

/-- `split_inclusive('\n')`: each line with the newline that ends it, and no empty last piece. -/
def splitInclusive : Text → List Text
  | [] => []
  | c :: t =>
    if c = '\n' then [c] :: splitInclusive t
    else
      match splitInclusive t with
      | [] => [[c]]
      | l :: ls => (c :: l) :: ls

/-- Lines joined by newlines (`join("\n")`). -/
def unlines (ls : List Text) : Text := ['\n'].intercalate ls

/-- `split_whitespace`. -/
def words (t : Text) : List Text := (t.splitOnP isSpace).filter (! ·.isEmpty)

/-- What follows an optional `+`. -/
def afterSign : Text → Text
  | '+' :: t => t
  | t => t

/-- `str::parse` of an unsigned integer below `limit`: an optional `+`, then one digit or more. -/
def parseNat (limit : Nat) (t : Text) : Option Nat :=
  let digits := afterSign t
  if digits.isEmpty || ! digits.all Char.isDigit then none
  else if Nat.ofDigitChars 10 digits 0 < limit then some (Nat.ofDigitChars 10 digits 0)
  else none

/-- `str::parse::<u32>`. -/
def parseU32 (t : Text) : Option UInt32 := (parseNat (2 ^ 32) t).map UInt32.ofNat

/-- `split_once(c)`: the text before the first `c` and the text after it. -/
def splitOnce (c : Char) : Text → Option (Text × Text)
  | [] => none
  | d :: t => if d = c then some ([], t) else (splitOnce c t).map fun (a, b) => (d :: a, b)

/-- `strip_prefix(p)`. -/
def stripPrefix (p t : Text) : Option Text := if p.isPrefixOf t then some (t.drop p.length) else none

/-- `strip_suffix(p)`. -/
def stripSuffix (p t : Text) : Option Text :=
  if p.isSuffixOf t then some (t.take (t.length - p.length)) else none

/-- The UTF-8 encoding. -/
def encode (t : Text) : ByteArray := (String.ofList t).toByteArray

/-- `String::from_utf8`. -/
def decode? (b : ByteArray) : Option Text := b.utf8Decode?.map Array.toList

/-! ### Bytes -/

@[simp] theorem decode?_encode (t : Text) : decode? (encode t) = some t := by
  simp [decode?, encode, List.utf8Decode?_utf8Encode]

theorem encode_of_decode? {b : ByteArray} {t : Text} (h : decode? b = some t) : encode t = b := by
  obtain ⟨a, ha, rfl⟩ := Option.map_eq_some_iff.mp h
  have hsome : b.utf8Decode?.isSome := by simp [ha]
  have := ByteArray.utf8Encode_get_utf8Decode? (h := hsome)
  simpa [encode, ha] using this

theorem encode_append (t u : Text) : encode (t ++ u) = encode t ++ encode u := by simp [encode]

@[simp] theorem byteLen_nil : byteLen [] = 0 := rfl

@[simp] theorem byteLen_cons (c : Char) (t : Text) : byteLen (c :: t) = c.utf8Size + byteLen t := rfl

@[simp] theorem byteLen_append (a b : Text) : byteLen (a ++ b) = byteLen a + byteLen b := by
  simp [byteLen]

theorem size_encode (t : Text) : (encode t).size = byteLen t := by
  induction t with
  | nil => rfl
  | cons c t ih =>
    rw [← List.singleton_append, encode_append, ByteArray.size_append, ih, List.singleton_append, byteLen_cons]
    simp [encode, List.utf8Encode_singleton]

theorem takeBytes_byteLen (a b : Text) : takeBytes (byteLen a) (a ++ b) = a := by
  induction a with
  | nil => cases b with
    | nil => rfl
    | cons c b => simp [takeBytes, c.utf8Size_pos.ne']
  | cons c a ih => simp [takeBytes, ih]

theorem dropBytes_byteLen (a b : Text) : dropBytes (byteLen a) (a ++ b) = b := by
  induction a with
  | nil => cases b with
    | nil => rfl
    | cons c b => simp [dropBytes, c.utf8Size_pos.ne']
  | cons c a ih => simp [dropBytes, ih]

/-! ### Numbers -/

theorem eq_afterSign (t : Text) : t = afterSign t ∨ t = '+' :: afterSign t := by
  unfold afterSign
  split
  · exact Or.inr rfl
  · exact Or.inl rfl

/-! ### Lines -/

@[simp] theorem lines_nil : lines [] = [[]] := rfl

theorem lines_ne_nil (t : Text) : lines t ≠ [] := List.splitOn_ne_nil _ _

theorem lines_append_newline (a b : Text) : lines (a ++ '\n' :: b) = lines a ++ lines b :=
  List.splitOn_append_cons_self a b

theorem lines_of_not_mem {t : Text} (h : '\n' ∉ t) : lines t = [t] := List.splitOn_eq_singleton h

theorem unlines_lines (t : Text) : unlines (lines t) = t := List.intercalate_splitOn _

theorem not_mem_of_mem_splitOn {c : Char} {t l : Text} (h : l ∈ t.splitOn c) : c ∉ l := by
  induction t generalizing l with
  | nil =>
    obtain rfl := List.mem_singleton.mp h
    simp
  | cons d t ih =>
    rw [List.splitOn_cons_eq_if_modifyHead] at h
    split at h
    · rcases List.mem_cons.mp h with rfl | h
      · simp
      · exact ih h
    · next hd =>
      obtain ⟨part, parts, hparts⟩ := List.exists_cons_of_ne_nil (List.splitOn_ne_nil c t)
      rw [hparts, List.modifyHead_cons] at h
      rcases List.mem_cons.mp h with rfl | h
      · simp only [List.mem_cons, not_or]
        exact ⟨fun he => hd (beq_iff_eq.mpr he.symm), ih (hparts ▸ List.mem_cons_self)⟩
      · exact ih (hparts ▸ List.mem_cons_of_mem _ h)

theorem mem_of_mem_splitOn {c d : Char} {t part : Text} (hpart : part ∈ t.splitOn d) (hc : c ∈ part) : c ∈ t := by
  induction t generalizing part with
  | nil =>
    obtain rfl := List.mem_singleton.mp hpart
    exact hc
  | cons e t ih =>
    rw [List.splitOn_cons_eq_if_modifyHead] at hpart
    split at hpart
    · rcases List.mem_cons.mp hpart with rfl | hpart
      · cases hc
      · exact List.mem_cons_of_mem e (ih hpart hc)
    · obtain ⟨first, parts, hparts⟩ := List.exists_cons_of_ne_nil (List.splitOn_ne_nil d t)
      rw [hparts, List.modifyHead_cons] at hpart
      rcases List.mem_cons.mp hpart with rfl | hpart
      · rcases List.mem_cons.mp hc with rfl | hc
        · exact List.mem_cons_self
        · exact List.mem_cons_of_mem e (ih (hparts ▸ List.mem_cons_self) hc)
      · exact List.mem_cons_of_mem e (ih (hparts ▸ List.mem_cons_of_mem first hpart) hc)

theorem not_mem_of_mem_lines {t l : Text} (h : l ∈ lines t) : '\n' ∉ l := not_mem_of_mem_splitOn h

theorem flatten_lines (t : Text) : (lines t).flatten = t.filter (· ≠ '\n') := by
  induction t with
  | nil => rfl
  | cons c t ih =>
    unfold lines at ih ⊢
    rw [List.splitOn_cons_eq_if_modifyHead]
    by_cases hc : c = '\n'
    · rw [if_pos (beq_iff_eq.mpr hc), List.flatten_cons, List.nil_append, ih, List.filter_cons_of_neg (by simp [hc])]
    · obtain ⟨l, ls, hls⟩ := List.exists_cons_of_ne_nil (List.splitOn_ne_nil '\n' t)
      rw [if_neg (mt beq_iff_eq.mp hc), hls, List.modifyHead_cons, List.flatten_cons, List.cons_append,
        ← List.flatten_cons, ← hls, ih, List.filter_cons_of_pos (by simp [hc])]

theorem splitInclusive_line {l : Text} (h : '\n' ∉ l) (t : Text) :
    splitInclusive (l ++ '\n' :: t) = (l ++ ['\n']) :: splitInclusive t := by
  induction l with
  | nil => simp [splitInclusive]
  | cons c l ih =>
    simp only [List.mem_cons, not_or] at h
    simp only [List.cons_append, splitInclusive, if_neg (Ne.symm h.1), ih h.2]

theorem splitInclusive_last {l : Text} (h : '\n' ∉ l) (hne : l ≠ []) : splitInclusive l = [l] := by
  induction l with
  | nil => exact absurd rfl hne
  | cons c l ih =>
    simp only [List.mem_cons, not_or] at h
    rw [splitInclusive, if_neg (Ne.symm h.1)]
    cases l with
    | nil => rfl
    | cons d l => rw [ih h.2 (List.cons_ne_nil _ _)]

/-- The lines of a text with the newlines that end them are the text. -/
theorem flatten_splitInclusive (t : Text) : (splitInclusive t).flatten = t := by
  induction t with
  | nil => rfl
  | cons c t ih =>
    rw [splitInclusive]
    split
    · rw [List.flatten_cons, ih]
      rfl
    · cases hs : splitInclusive t with
      | nil =>
        rw [hs] at ih
        simp only [List.flatten_nil] at ih
        simp [← ih]
      | cons l ls =>
        rw [hs, List.flatten_cons] at ih
        simp only [List.flatten_cons, List.cons_append, ih]

theorem splitInclusive_eq_nil {t : Text} : splitInclusive t = [] ↔ t = [] := by
  constructor
  · intro h
    have := flatten_splitInclusive t
    rwa [h, List.flatten_nil, eq_comm] at this
  · rintro rfl
    rfl

/-- A text is empty, or its last line has its newline. -/
def EndsLine (t : Text) : Prop := t = [] ∨ t.getLast? = some '\n'

instance (t : Text) : Decidable (EndsLine t) := inferInstanceAs (Decidable (_ ∨ _))

theorem EndsLine.tail {c : Char} {t : Text} (h : EndsLine (c :: t)) : EndsLine t := by
  rcases h with h | h
  · cases h
  · cases t with
    | nil => exact Or.inl rfl
    | cons d t => exact Or.inr (by simpa [List.getLast?_cons_cons] using h)

theorem endsLine_append_newline (t : Text) : EndsLine (t ++ ['\n']) := Or.inr (by simp)

/-- Lines that are complete stay as they are before what follows. -/
theorem splitInclusive_append {a : Text} (ha : EndsLine a) (b : Text) :
    splitInclusive (a ++ b) = splitInclusive a ++ splitInclusive b := by
  induction a with
  | nil => rfl
  | cons c a ih =>
    have ih := ih ha.tail
    by_cases hc : c = '\n'
    · simp only [List.cons_append, splitInclusive, if_pos hc, ih]
    · have hne : a ≠ [] := by
        rintro rfl
        rcases ha with ha | ha
        · cases ha
        · exact hc (by simpa using ha)
      obtain ⟨l, ls, hls⟩ := List.exists_cons_of_ne_nil (mt splitInclusive_eq_nil.mp hne)
      simp only [List.cons_append, splitInclusive, if_neg hc, ih, hls]

/-- The lines of a text that goes on: the last one goes on with it. -/
theorem splitInclusive_append_of_ne_nil {t : Text} (ht : t ≠ []) (u : Text) :
    ∃ init last x more, splitInclusive t = init ++ [last] ∧ splitInclusive (t ++ u) = init ++ (last ++ x) :: more ∧
      x <+: u := by
  induction t with
  | nil => exact absurd rfl ht
  | cons c t ih =>
    by_cases hc : c = '\n'
    · by_cases hne : t = []
      · subst hne
        exact ⟨[], [c], [], splitInclusive u, by simp [splitInclusive, hc], by simp [splitInclusive, hc], List.nil_prefix⟩
      · obtain ⟨init, last, x, more, h₁, h₂, hx⟩ := ih hne
        exact ⟨[c] :: init, last, x, more, by simp [splitInclusive, hc, h₁], by simp [splitInclusive, hc, h₂], hx⟩
    · cases t with
      | nil =>
        cases hu : splitInclusive u with
        | nil => exact ⟨[], [c], [], [], by simp [splitInclusive, hc], by simp [splitInclusive, hc, hu], List.nil_prefix⟩
        | cons l ls =>
          refine ⟨[], [c], l, ls, by simp [splitInclusive, hc], by simp [splitInclusive, hc, hu], ls.flatten, ?_⟩
          rw [← List.flatten_cons, ← hu, flatten_splitInclusive]
      | cons d t =>
        obtain ⟨init, last, x, more, h₁, h₂, hx⟩ := ih (List.cons_ne_nil _ _)
        cases init with
        | nil =>
          refine ⟨[], c :: last, x, more, ?_, ?_, hx⟩
          · rw [splitInclusive, if_neg hc, h₁]
            rfl
          · rw [List.cons_append, splitInclusive, if_neg hc, h₂]
            rfl
        | cons i init =>
          refine ⟨(c :: i) :: init, last, x, more, ?_, ?_, hx⟩
          · rw [splitInclusive, if_neg hc, h₁]
            rfl
          · rw [List.cons_append, splitInclusive, if_neg hc, h₂]
            rfl

@[simp] theorem unlines_singleton (l : Text) : unlines [l] = l := by simp [unlines, List.intercalate]

theorem unlines_cons (l : Text) {ls : List Text} (h : ls ≠ []) : unlines (l :: ls) = l ++ '\n' :: unlines ls := by
  obtain ⟨m, ms, rfl⟩ := List.exists_cons_of_ne_nil h
  simp [unlines, List.intercalate]

/-- Lines joined and split again: each but the last has got its newline. -/
theorem splitInclusive_unlines {ls : List Text} {l : Text} (h : ∀ m ∈ ls, '\n' ∉ m) (hl : '\n' ∉ l) (hne : l ≠ []) :
    splitInclusive (unlines (ls ++ [l])) = ls.map (· ++ ['\n']) ++ [l] := by
  induction ls with
  | nil => simpa using splitInclusive_last hl hne
  | cons m ls ih =>
    rw [List.cons_append, unlines_cons m (by simp), splitInclusive_line (h m List.mem_cons_self),
      ih fun k hk => h k (List.mem_cons_of_mem _ hk)]
    rfl

/-- Lines before a last one, each with its newline. -/
theorem unlines_concat (init : List Text) (last : Text) :
    unlines (init ++ [last]) = init.flatMap (· ++ ['\n']) ++ last := by
  induction init with
  | nil => simp
  | cons l init ih =>
    rw [List.cons_append, unlines_cons l (by simp), ih, List.flatMap_cons]
    simp only [List.append_assoc, List.cons_append, List.nil_append]

theorem splitInclusive_concat {init : List Text} {last : Text} (h : ∀ m ∈ init, '\n' ∉ m) (hl : '\n' ∉ last) :
    splitInclusive (unlines (init ++ [last])) = init.map (· ++ ['\n']) ++ (if last = [] then [] else [last]) := by
  rw [unlines_concat]
  induction init with
  | nil =>
    rw [List.flatMap_nil, List.nil_append, List.map_nil, List.nil_append]
    split
    · next hnil => rw [hnil, splitInclusive]
    · next hne => exact splitInclusive_last hl hne
  | cons l init ih =>
    rw [List.flatMap_cons, List.append_assoc, List.append_assoc, List.singleton_append,
      splitInclusive_line (h l List.mem_cons_self), ih fun m hm => h m (List.mem_cons_of_mem l hm), List.map_cons,
        List.cons_append]

theorem lines_unlines {ls : List Text} (hne : ls ≠ []) (h : ∀ l ∈ ls, '\n' ∉ l) : lines (unlines ls) = ls := by
  induction ls with
  | nil => exact absurd rfl hne
  | cons l ls ih =>
    by_cases hls : ls = []
    · subst hls
      simpa using lines_of_not_mem (h l List.mem_cons_self)
    · rw [unlines_cons l hls, lines_append_newline, lines_of_not_mem (h l List.mem_cons_self),
        ih hls fun k hk => h k (List.mem_cons_of_mem _ hk)]
      rfl

theorem unlines_append {as bs : List Text} (ha : as ≠ []) (hb : bs ≠ []) :
    unlines (as ++ bs) = unlines as ++ '\n' :: unlines bs := by
  induction as with
  | nil => exact absurd rfl ha
  | cons a as ih =>
    by_cases has : as = []
    · subst has
      rw [List.singleton_append, unlines_cons a hb, unlines_singleton]
    · rw [List.cons_append, unlines_cons a (by simp [has]), ih has, unlines_cons a has, List.append_assoc,
        List.cons_append]

/-! ### Words -/

theorem words_single {w : Text} (hne : w ≠ []) (h : ∀ c ∈ w, isSpace c = false) : words w = [w] := by
  rw [words, List.splitOnP_eq_singleton h]
  simp [hne]

theorem words_append_space {c : Char} (hc : isSpace c = true) (a b : Text) : words (a ++ c :: b) = words a ++ words b := by
  rw [words, List.splitOnP_append_cons a b hc, List.filter_append]
  rfl

theorem splitOnce_append {c : Char} {a : Text} (h : c ∉ a) (b : Text) : splitOnce c (a ++ c :: b) = some (a, b) := by
  induction a with
  | nil => simp [splitOnce]
  | cons d a ih =>
    simp only [List.mem_cons, not_or] at h
    rw [List.cons_append, splitOnce, if_neg (Ne.symm h.1), ih h.2]
    rfl

theorem splitOnce_eq_some {c : Char} {u x y : Text} (h : splitOnce c u = some (x, y)) : u = x ++ c :: y := by
  induction u generalizing x with
  | nil => cases h
  | cons d u ih =>
    rw [splitOnce] at h
    split at h
    · next hd =>
      cases h
      simp [hd]
    · obtain ⟨⟨x', y'⟩, hx, heq⟩ := Option.map_eq_some_iff.mp h
      cases heq
      simp [ih hx]

theorem splitOnce_of_not_mem {c : Char} {u : Text} (h : c ∉ u) : splitOnce c u = none := by
  cases hs : splitOnce c u with
  | none => rfl
  | some ab =>
    refine absurd ?_ h
    rw [splitOnce_eq_some (x := ab.1) (y := ab.2) hs]
    simp

/-- The text before is that before the first `c`. -/
theorem not_mem_of_splitOnce {c : Char} {u x y : Text} (h : splitOnce c u = some (x, y)) : c ∉ x := by
  induction u generalizing x with
  | nil => cases h
  | cons d u ih =>
    rw [splitOnce] at h
    split at h
    · cases h
      exact List.not_mem_nil
    · next hd =>
      obtain ⟨⟨x', y'⟩, hx, heq⟩ := Option.map_eq_some_iff.mp h
      cases heq
      rw [List.mem_cons, not_or]
      exact ⟨Ne.symm hd, ih hx⟩

theorem splitOnce_eq_none {c : Char} {u : Text} : splitOnce c u = none ↔ c ∉ u := by
  refine ⟨fun h hmem => ?_, splitOnce_of_not_mem⟩
  obtain ⟨x, y, rfl, hx⟩ := List.eq_append_cons_of_mem hmem
  rw [splitOnce_append hx] at h
  cases h

/-- The text before the first `c`, and so the rest, is determined. -/
theorem append_cons_inj {c : Char} {a b u v : Text} (ha : c ∉ a) (hb : c ∉ b) (h : a ++ c :: u = b ++ c :: v) :
    a = b ∧ u = v := by
  have hsplit := splitOnce_append ha u
  rw [h, splitOnce_append hb v] at hsplit
  cases hsplit
  exact ⟨rfl, rfl⟩

theorem stripPrefix_append (p t : Text) : stripPrefix p (p ++ t) = some t := by
  rw [stripPrefix, if_pos (List.isPrefixOf_iff_prefix.mpr (List.prefix_append p t)), List.drop_left]

theorem eq_append_of_stripPrefix {p t u : Text} (h : stripPrefix p t = some u) : t = p ++ u := by
  rw [stripPrefix] at h
  split at h
  · next hp =>
    obtain ⟨w, rfl⟩ := List.isPrefixOf_iff_prefix.mp hp
    rw [List.drop_left, Option.some.injEq] at h
    rw [h]
  · cases h

/-- A character of a text separates its parts or is in one of them. -/
theorem mem_splitOn {c d : Char} {t : Text} (h : c ∈ t) : c = d ∨ ∃ part ∈ t.splitOn d, c ∈ part := by
  induction t with
  | nil => cases h
  | cons e t ih =>
    rw [List.splitOn_cons_eq_if_modifyHead]
    split
    · next he =>
      rcases List.mem_cons.mp h with rfl | h
      · exact Or.inl (eq_of_beq he)
      · exact (ih h).imp_right fun ⟨part, hpart, hc⟩ => ⟨part, List.mem_cons_of_mem _ hpart, hc⟩
    · obtain ⟨part₀, parts, hparts⟩ := List.exists_cons_of_ne_nil (List.splitOn_ne_nil d t)
      rw [hparts] at ih ⊢
      rcases List.mem_cons.mp h with rfl | h
      · exact Or.inr ⟨c :: part₀, List.mem_cons_self, List.mem_cons_self⟩
      · rcases ih h with hd | ⟨part, hpart, hc⟩
        · exact Or.inl hd
        · rcases List.mem_cons.mp hpart with rfl | hpart
          · exact Or.inr ⟨e :: part, List.mem_cons_self, List.mem_cons_of_mem _ hc⟩
          · exact Or.inr ⟨part, List.mem_cons_of_mem _ hpart, hc⟩

theorem stripSuffix_append (t p : Text) : stripSuffix p (t ++ p) = some t := by
  rw [stripSuffix, if_pos (List.isSuffixOf_iff_suffix.mpr (List.suffix_append t p)), List.length_append,
    Nat.add_sub_cancel, List.take_left]

theorem eq_append_of_stripSuffix {p t u : Text} (h : stripSuffix p t = some u) : t = u ++ p := by
  rw [stripSuffix] at h
  split at h
  · next hp =>
    obtain ⟨w, rfl⟩ := List.isSuffixOf_iff_suffix.mp hp
    rw [List.length_append, Nat.add_sub_cancel, List.take_left, Option.some.injEq] at h
    rw [h]
  · cases h

/-! ### Trimming -/

theorem trimEnd_append_of_space {a b : Text} (h : b.all isSpace) : trimEnd (a ++ b) = trimEnd a := by
  induction b using List.reverseRecOn with
  | nil => simp
  | append_singleton b c ih =>
    simp only [List.all_append, Bool.and_eq_true, List.all_cons, List.all_nil, Bool.and_true] at h
    rw [← List.append_assoc, trimEnd, List.rdropWhile_concat_pos _ _ _ h.2]
    exact ih h.1

theorem trimEnd_trimEnd (t : Text) : trimEnd (trimEnd t) = trimEnd t := List.rdropWhile_idempotent _ _

theorem trimEnd_concat {a : Text} {c : Char} (h : isSpace c = false) : trimEnd (a ++ [c]) = a ++ [c] :=
  List.rdropWhile_concat_neg _ _ _ (by simp [h])

/-- What is not white space keeps all that comes before it. -/
theorem trimEnd_append_of_not_blank {a b : Text} (h : isBlank b = false) : trimEnd (a ++ b) = a ++ trimEnd b := by
  induction b using List.reverseRecOn with
  | nil => cases h
  | append_singleton b c ih =>
    rw [← List.append_assoc]
    cases hc : isSpace c with
    | false => rw [trimEnd_concat hc, trimEnd_concat hc, List.append_assoc]
    | true =>
      have hspace : [c].all isSpace := by simpa using hc
      rw [trimEnd_append_of_space hspace, trimEnd_append_of_space hspace]
      rw [isBlank, List.all_append, hspace, Bool.and_true] at h
      exact ih h

theorem trimEnd_ne_nil {t : Text} (h : isBlank t = false) : trimEnd t ≠ [] := by
  intro hnil
  rw [trimEnd, List.rdropWhile_eq_nil_iff] at hnil
  rw [isBlank, List.all_eq_true.mpr hnil] at h
  cases h

theorem trimNewlines_concat {a : Text} {c : Char} (h : c ≠ '\n') : trimNewlines (a ++ [c]) = a ++ [c] :=
  List.rdropWhile_concat_neg _ _ _ (by simp [h])

theorem trimNewlines_append_replicate (a : Text) (n : Nat) :
    trimNewlines (a ++ List.replicate n '\n') = trimNewlines a := by
  induction n with
  | zero => simp
  | succ n ih =>
    rw [List.replicate_succ', ← List.append_assoc, trimNewlines, List.rdropWhile_concat_pos _ _ _ (by simp)]
    exact ih

/-- Trimming takes off newlines and nothing else. -/
theorem eq_trimNewlines_append (t : Text) : ∃ n, t = trimNewlines t ++ List.replicate n '\n' := by
  induction t using List.reverseRecOn with
  | nil => exact ⟨0, rfl⟩
  | append_singleton t c ih =>
    by_cases hc : c = '\n'
    · obtain ⟨n, hn⟩ := ih
      refine ⟨n + 1, ?_⟩
      rw [trimNewlines, List.rdropWhile_concat_pos _ _ _ (by simp [hc]), List.replicate_succ', ← List.append_assoc,
        hc]
      exact congrArg (· ++ ['\n']) hn
    · exact ⟨0, by simp [trimNewlines_concat hc]⟩

theorem trimNewlines_idempotent (t : Text) : trimNewlines (trimNewlines t) = trimNewlines t :=
  List.rdropWhile_idempotent _ _

/-- A joined list is as long as its members and the separators between them. -/
theorem length_intercalate (sep : List α) {xs : List (List α)} (h : xs ≠ []) :
    (sep.intercalate xs).length + sep.length = (xs.map fun x => x.length + sep.length).sum := by
  induction xs with
  | nil => exact absurd rfl h
  | cons x xs ih =>
    cases xs with
    | nil => simp
    | cons y xs =>
      rw [List.intercalate_cons_cons, List.length_append, List.length_append, List.map_cons, List.sum_cons,
        ← ih (List.cons_ne_nil y xs)]
      omega

/-! ### The order of texts -/

theorem append_lt_append {as bs : Text} (hlength : as.length = bs.length) (h : as < bs) (x y : Text) :
    as ++ x < bs ++ y := by
  induction as generalizing bs with
  | nil =>
    obtain rfl := List.length_eq_zero_iff.mp hlength.symm
    exact absurd h (List.not_lt_nil _)
  | cons a as ih =>
    cases bs with
    | nil => cases hlength
    | cons b bs =>
      rw [List.cons_append, List.cons_append, List.cons_lt_cons_iff]
      exact (List.cons_lt_cons_iff.mp h).imp_right fun ⟨hab, h⟩ => ⟨hab, ih (Nat.succ.inj hlength) h⟩

end Text
