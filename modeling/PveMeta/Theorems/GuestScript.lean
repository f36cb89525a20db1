import Mathlib.Data.List.GetD
import PveMeta.Guest.Script
import PveMeta.Lib.Base64

/-! # Content inline in a script

The content of a file goes to the guest as base64 in lines, up to a mark. The letters of the lines are the standard
encoding, so that no line is the mark, and what is read up to the mark decodes to the content. -/

namespace PveMeta
namespace Guest

/-! ### One chunk -/

section Chunk

variable {n : UInt32} {a b c : UInt8}

theorem letterOf_eq (n : UInt32) : letterOf n = Base64.letter (n.toNat % 64) := by
  have hlow : (n &&& 63).toNat = n.toNat % 64 := by
    rw [UInt32.toNat_and]
    exact Nat.and_two_pow_sub_one_eq_mod _ 6
  rw [letterOf, Base64.letter, List.get_eq_getElem, ← List.getD_eq_getElem _ '=']
  exact congrArg (List.getD _ · _) hlow

theorem toNat_shiftRight {s : Nat} (h : s < 32) : (n >>> UInt32.ofNat s).toNat = n.toNat / 2 ^ s := by
  rw [UInt32.toNat_shiftRight, UInt32.toNat_ofNat_of_lt' (h.trans (by decide)), Nat.mod_eq_of_lt h,
    Nat.shiftRight_eq_div_pow]

theorem toNat_shiftLeft {s : Nat} (h : s < 32) (hn : n.toNat * 2 ^ s < 2 ^ 32) :
    (n <<< UInt32.ofNat s).toNat = n.toNat * 2 ^ s := by
  rw [UInt32.toNat_shiftLeft, UInt32.toNat_ofNat_of_lt' (h.trans (by decide)), Nat.mod_eq_of_lt h, Nat.shiftLeft_eq,
    Nat.mod_eq_of_lt hn]

/-- One more byte, below those that were there. -/
theorem toNat_push (h : n.toNat < 2 ^ 24) (b : UInt8) : (n <<< 8 ||| b.toUInt32).toNat = n.toNat * 2 ^ 8 + b.toNat := by
  have hshift : (n <<< 8).toNat = n.toNat * 2 ^ 8 := toNat_shiftLeft (s := 8) (by decide) (by omega)
  rw [UInt32.toNat_or, hshift, UInt8.toNat_toUInt32, ← Nat.shiftLeft_eq, ← Nat.shiftLeft_add_eq_or_of_lt b.toNat_lt]

theorem toNat_chunkBits_one : (chunkBits [a]).toNat = a.toNat * 2 ^ 16 := by
  have ha := a.toNat_lt
  have hpush : ((0 : UInt32) <<< 8 ||| a.toUInt32).toNat = a.toNat := (toNat_push (by decide) a).trans (Nat.zero_add _)
  show (((0 : UInt32) <<< 8 ||| a.toUInt32) <<< UInt32.ofNat 16).toNat = _
  rw [toNat_shiftLeft (by decide) (by omega), hpush]

theorem toNat_chunkBits_two : (chunkBits [a, b]).toNat = (a.toNat * 2 ^ 8 + b.toNat) * 2 ^ 8 := by
  have ha := a.toNat_lt
  have hb := b.toNat_lt
  have hfirst : ((0 : UInt32) <<< 8 ||| a.toUInt32).toNat = a.toNat := (toNat_push (by decide) a).trans (Nat.zero_add _)
  have hpush := toNat_push (n := (0 : UInt32) <<< 8 ||| a.toUInt32) (by omega) b
  rw [hfirst] at hpush
  show ((((0 : UInt32) <<< 8 ||| a.toUInt32) <<< 8 ||| b.toUInt32) <<< UInt32.ofNat 8).toNat = _
  rw [toNat_shiftLeft (by decide) (by omega), hpush]

theorem toNat_chunkBits_three : (chunkBits [a, b, c]).toNat = (a.toNat * 2 ^ 8 + b.toNat) * 2 ^ 8 + c.toNat := by
  have ha := a.toNat_lt
  have hb := b.toNat_lt
  have hc := c.toNat_lt
  have hfirst : ((0 : UInt32) <<< 8 ||| a.toUInt32).toNat = a.toNat := (toNat_push (by decide) a).trans (Nat.zero_add _)
  have hsecond := toNat_push (n := (0 : UInt32) <<< 8 ||| a.toUInt32) (by omega) b
  rw [hfirst] at hsecond
  have hpush := toNat_push (n := ((0 : UInt32) <<< 8 ||| a.toUInt32) <<< 8 ||| b.toUInt32) (by omega) c
  rw [hsecond] at hpush
  show (((((0 : UInt32) <<< 8 ||| a.toUInt32) <<< 8 ||| b.toUInt32) <<< 8 ||| c.toUInt32) <<< UInt32.ofNat 0).toNat = _
  rw [toNat_shiftLeft (by decide) (by omega), hpush, Nat.pow_zero, Nat.mul_one]

/-- The `k`-th letter of a chunk: six bits of its three bytes. -/
theorem letterOf_shiftRight {s : Nat} (h : s < 32) :
    letterOf (n >>> UInt32.ofNat s) = Base64.letter (n.toNat / 2 ^ s % 64) := by
  rw [letterOf_eq, toNat_shiftRight h]

theorem encodeChunk_one : encodeChunk [a] = Base64.encodeOne a := by
  have ha := a.toNat_lt
  have hfirst : a.toNat * 2 ^ 16 / 2 ^ 18 % 64 = a.toNat / 4 := by omega
  have hsecond : a.toNat * 2 ^ 16 / 2 ^ 12 % 64 = a.toNat % 4 * 16 := by omega
  show [letterOf (chunkBits [a] >>> UInt32.ofNat 18), letterOf (chunkBits [a] >>> UInt32.ofNat 12), '=', '='] = _
  rw [letterOf_shiftRight (by decide), letterOf_shiftRight (by decide), toNat_chunkBits_one, hfirst, hsecond,
    Base64.encodeOne]

theorem encodeChunk_two : encodeChunk [a, b] = Base64.encodeTwo a b := by
  have ha := a.toNat_lt
  have hb := b.toNat_lt
  have hfirst : (a.toNat * 2 ^ 8 + b.toNat) * 2 ^ 8 / 2 ^ 18 % 64 = a.toNat / 4 := by omega
  have hsecond : (a.toNat * 2 ^ 8 + b.toNat) * 2 ^ 8 / 2 ^ 12 % 64 = a.toNat % 4 * 16 + b.toNat / 16 := by omega
  have hthird : (a.toNat * 2 ^ 8 + b.toNat) * 2 ^ 8 / 2 ^ 6 % 64 = b.toNat % 16 * 4 := by omega
  show [letterOf (chunkBits [a, b] >>> UInt32.ofNat 18), letterOf (chunkBits [a, b] >>> UInt32.ofNat 12),
    letterOf (chunkBits [a, b] >>> UInt32.ofNat 6), '='] = _
  rw [letterOf_shiftRight (by decide), letterOf_shiftRight (by decide), letterOf_shiftRight (by decide),
    toNat_chunkBits_two, hfirst, hsecond, hthird, Base64.encodeTwo]

theorem encodeChunk_three : encodeChunk [a, b, c] = Base64.encodeThree a b c := by
  have ha := a.toNat_lt
  have hb := b.toNat_lt
  have hc := c.toNat_lt
  obtain ⟨n, hn⟩ : ∃ n, n = (a.toNat * 2 ^ 8 + b.toNat) * 2 ^ 8 + c.toNat := ⟨_, rfl⟩
  have hfirst : n / 2 ^ 18 % 64 = a.toNat / 4 := by omega
  have hsecond : n / 2 ^ 12 % 64 = a.toNat % 4 * 16 + b.toNat / 16 := by omega
  have hthird : n / 2 ^ 6 % 64 = b.toNat % 16 * 4 + c.toNat / 64 := by omega
  have hfourth : n / 2 ^ 0 % 64 = c.toNat % 64 := by omega
  show [letterOf (chunkBits [a, b, c] >>> UInt32.ofNat 18), letterOf (chunkBits [a, b, c] >>> UInt32.ofNat 12),
    letterOf (chunkBits [a, b, c] >>> UInt32.ofNat 6), letterOf (chunkBits [a, b, c] >>> UInt32.ofNat 0)] = _
  rw [letterOf_shiftRight (by decide), letterOf_shiftRight (by decide), letterOf_shiftRight (by decide),
    letterOf_shiftRight (by decide), toNat_chunkBits_three, ← hn, hfirst, hsecond, hthird, hfourth, Base64.encodeThree]

end Chunk

/-! ### The lines -/

/-- The chunks, without the newlines, are the standard encoding. -/
theorem flatMap_encodeChunk (bytes : List UInt8) : (chunks bytes).flatMap encodeChunk = Base64.encode bytes := by
  induction bytes using chunks.induct with
  | case1 a b c rest ih => rw [chunks, List.flatMap_cons, ih, encodeChunk_three, Base64.encode]
  | case2 => rfl
  | case3 last h hne =>
    rcases last with _ | ⟨a, _ | ⟨b, _ | ⟨c, rest⟩⟩⟩
    · exact absurd rfl hne
    · rw [show chunks [a] = [[a]] from rfl, List.flatMap_singleton, encodeChunk_one, Base64.encode]
    · rw [show chunks [a, b] = [[a, b]] from rfl, List.flatMap_singleton, encodeChunk_two, Base64.encode]
    · exact absurd rfl (h a b c rest)

theorem length_encodeChunk (chunk : List UInt8) : (encodeChunk chunk).length = 4 := by
  rw [encodeChunk, List.length_map, List.length_range]

theorem newline_not_mem_encodeChunk (chunk : List UInt8) : '\n' ∉ encodeChunk chunk := by
  intro hmem
  obtain ⟨k, -, hk⟩ := List.mem_map.mp hmem
  split at hk
  · rw [letterOf_eq] at hk
    have hdigit :=
      Base64.isDigit_letter (Nat.mod_lt (chunkBits chunk >>> UInt32.ofNat (18 - 6 * k)).toNat (y := 64) (by decide))
    rw [hk] at hdigit
    exact absurd hdigit (by decide)
  · cases hk

/-- What is written after `k` chunks: full lines, and a last one with what is left of the chunks. -/
def Wrapped (k : Nat) (out : Text) : Prop :=
  k = 0 ∧ out = [] ∨ ∃ init last, out = Text.unlines (init ++ [last]) ∧ (∀ l ∈ init, l.length = 76) ∧
    (∀ l ∈ init ++ [last], '\n' ∉ l) ∧ 0 < k ∧ last.length = 4 * ((k - 1) % 19 + 1)

theorem Wrapped.push {k : Nat} {out : Text} (h : Wrapped k out) (chunk : List UInt8) :
    Wrapped (k + 1) (pushChunk out (chunk, k)) := by
  have hlength := length_encodeChunk chunk
  have hline := newline_not_mem_encodeChunk chunk
  right
  unfold pushChunk
  dsimp only
  rcases h with ⟨rfl, rfl⟩ | ⟨init, last, rfl, hinit, hlines, hk, hlast⟩
  · refine ⟨[], encodeChunk chunk, ?_, by simp, by simpa using hline, by omega, by simpa using hlength⟩
    rw [if_neg (by simp), List.nil_append, List.nil_append, Text.unlines_singleton]
  · by_cases hfull : k % 19 = 0
    · -- The line is full, and the chunk begins a new one.
      have hnext := Text.unlines_append (show init ++ [last] ≠ [] by simp) (List.cons_ne_nil (encodeChunk chunk) [])
      refine ⟨init ++ [last], encodeChunk chunk, ?_, ?_, ?_, by omega, by omega⟩
      · rw [if_pos ⟨hk, hfull⟩, hnext, Text.unlines_singleton, List.append_assoc, List.singleton_append]
      · refine List.forall_mem_append.mpr ⟨hinit, List.forall_mem_singleton.mpr ?_⟩
        omega
      · exact List.forall_mem_append.mpr ⟨hlines, List.forall_mem_singleton.mpr hline⟩
    · obtain ⟨hinitLines, hlastLine⟩ := List.forall_mem_append.mp hlines
      rw [List.forall_mem_singleton] at hlastLine
      refine ⟨init, last ++ encodeChunk chunk, ?_, hinit, ?_, by omega, ?_⟩
      · rw [if_neg (fun h => hfull h.2), Text.unlines_concat, Text.unlines_concat, List.append_assoc]
      · refine List.forall_mem_append.mpr ⟨hinitLines, List.forall_mem_singleton.mpr fun hmem => ?_⟩
        exact (List.mem_append.mp hmem).elim hlastLine hline
      · rw [List.length_append]
        omega

theorem wrapped_foldl (cs : List (List UInt8)) {k : Nat} {out : Text} (h : Wrapped k out) :
    Wrapped (k + cs.length) ((cs.zipIdx k).foldl pushChunk out) := by
  induction cs generalizing k out with
  | nil => exact h
  | cons chunk cs ih =>
    rw [List.zipIdx_cons, List.foldl_cons, List.length_cons, ← Nat.add_assoc, Nat.add_right_comm]
    exact ih (h.push chunk)

theorem filter_foldl (cs : List (List UInt8)) (k : Nat) (out : Text) :
    ((cs.zipIdx k).foldl pushChunk out).filter (· ≠ '\n') = out.filter (· ≠ '\n') ++ cs.flatMap encodeChunk := by
  induction cs generalizing k out with
  | nil => simp
  | cons chunk cs ih =>
    have hchunk : (encodeChunk chunk).filter (· ≠ '\n') = encodeChunk chunk :=
      List.filter_eq_self.mpr fun c hc => decide_eq_true fun heq => newline_not_mem_encodeChunk chunk (heq ▸ hc)
    rw [List.zipIdx_cons, List.foldl_cons, ih, pushChunk, List.filter_append, hchunk, List.flatMap_cons, List.append_assoc]
    split
    · simp
    · rfl

theorem filter_base64 (bytes : ByteArray) : (base64 bytes).filter (· ≠ '\n') = Base64.encode bytes.data.toList := by
  rw [base64, filter_foldl, flatMap_encodeChunk]
  rfl

theorem wrapped_base64 (bytes : ByteArray) : Wrapped (chunks bytes.data.toList).length (base64 bytes) := by
  have h := wrapped_foldl (chunks bytes.data.toList) (Or.inl ⟨rfl, rfl⟩ : Wrapped 0 [])
  rwa [Nat.zero_add] at h

/-- The lines of what is written. -/
theorem lines_wrapped {k : Nat} {out l : Text} (h : Wrapped k out) (hl : l ∈ Text.lines out) :
    l.length ≤ 76 ∧ (l = [] → out = []) := by
  rcases h with ⟨-, rfl⟩ | ⟨init, last, rfl, hinit, hlines, -, hlast⟩
  · obtain rfl := List.mem_singleton.mp hl
    exact ⟨by decide, fun h => h⟩
  · rw [Text.lines_unlines (by simp) hlines] at hl
    rcases List.mem_append.mp hl with hl | hl
    · refine ⟨(hinit l hl).le, ?_⟩
      rintro rfl
      exact absurd (hinit [] hl) (by decide)
    · obtain rfl := List.mem_singleton.mp hl
      refine ⟨by omega, ?_⟩
      rintro rfl
      rw [List.length_nil] at hlast
      omega

theorem isDigit_of_mem_line {bytes : ByteArray} {l : Text} (hl : l ∈ Text.lines (base64 bytes)) {c : Char} (hc : c ∈ l) :
    Base64.IsDigit c := by
  have hmem : c ∈ base64 bytes := Text.mem_of_mem_splitOn hl hc
  have hne : c ≠ '\n' := fun heq => Text.not_mem_of_mem_lines hl (heq ▸ hc)
  have hencode : c ∈ Base64.encode bytes.data.toList := by
    rw [← filter_base64, List.mem_filter]
    exact ⟨hmem, decide_eq_true hne⟩
  exact Base64.isDigit_of_mem_encode hencode

/-- The mark has a character that is none of base64. -/
theorem ne_eofMark {l : Text} (h : ∀ c ∈ l, Base64.IsDigit c) : l ≠ eofMark := by
  rintro rfl
  exact absurd (h '_' (by decide)) (by decide)

/-- The lines of the inline encoder are of at most 76 characters of base64, none is the mark that ends them, and none is
    empty if there is anything to encode. Without the newlines they are decoded to the bytes. -/
theorem base64_is_base64 (bytes : ByteArray) :
    (∀ l ∈ Text.lines (base64 bytes), l.length ≤ 76 ∧ (∀ c ∈ l, Base64.IsDigit c) ∧ l ≠ eofMark ∧
      (l = [] → base64 bytes = [])) ∧
    Base64.decode ((base64 bytes).filter (· ≠ '\n')) = some bytes.data.toList := by
  refine ⟨fun l hl => ?_, ?_⟩
  · obtain ⟨hlength, hempty⟩ := lines_wrapped (wrapped_base64 bytes) hl
    have hdigits : ∀ c ∈ l, Base64.IsDigit c := fun c hc => isDigit_of_mem_line hl hc
    exact ⟨hlength, hdigits, ne_eofMark hdigits, hempty⟩
  · rw [filter_base64, Base64.decode_encode]

/-! ### The script -/

/-- What a command reads that is given a text up to a mark: the lines before the first one that is the mark. -/
def heredoc (mark t : Text) : Option (List Text) :=
  if (Text.lines t).contains mark then some ((Text.lines t).takeWhile (· ≠ mark)) else none

/-- Each operation's text is in the script, its line and what the line reads. -/
theorem commitScript_eq (dirs : List Text) (before : List Op) (op : Op) (after : List Op) :
    ∃ start rest, commitScript dirs (before ++ op :: after) =
      start ++ opLine before.length op ++ '\n' :: (opContent op ++ rest) := by
  refine ⟨scriptPrelude ++ commitFunctions ++ dirs.flatMap (fun d => "d ".toList ++ quote d ++ ['\n']) ++
    before.zipIdx.flatMap fun e => opText e.2 e.1, (after.zipIdx (before.length + 1)).flatMap fun e => opText e.2 e.1, ?_⟩
  rw [commitScript, List.zipIdx_append, List.zipIdx_cons, List.flatMap_append, List.flatMap_cons, opText, Nat.zero_add]
  simp only [List.append_assoc, List.cons_append, List.nil_append]

/-- A write of a commit reads what decodes to the file's content. -/
theorem write_reads_content (dirs : List Text) (before after : List Op) (path : Text) (content : ByteArray) (mode : Nat)
    (owner : Owner) (expect : Expect) :
    ∃ start input body, commitScript dirs (before ++ .place path content mode owner expect :: after) =
        start ++ opLine before.length (.place path content mode owner expect) ++ '\n' :: input ∧
      heredoc eofMark input = some body ∧ Base64.decode body.flatten = some content.data.toList := by
  obtain ⟨start, rest, hscript⟩ := commitScript_eq dirs before (.place path content mode owner expect) after
  have hlines : Text.lines (opContent (.place path content mode owner expect) ++ rest) =
      Text.lines (base64 content) ++ eofMark :: Text.lines rest := by
    have hmark : '\n' ∉ eofMark := by decide
    rw [opContent, List.append_assoc, List.append_assoc, List.append_assoc, List.singleton_append,
      Text.lines_append_newline, List.singleton_append, Text.lines_append_newline, Text.lines_of_not_mem hmark]
    rfl
  have hbody : ∀ l ∈ Text.lines (base64 content), decide (l ≠ eofMark) = true := fun l hl =>
    decide_eq_true (ne_eofMark fun c hc => isDigit_of_mem_line hl hc)
  refine ⟨start, _, Text.lines (base64 content), hscript, ?_, ?_⟩
  · rw [heredoc, hlines, if_pos (by simp), List.takeWhile_append_of_pos hbody, List.takeWhile_cons_of_neg (by simp),
      List.append_nil]
  · rw [Text.flatten_lines, filter_base64, Base64.decode_encode]

end Guest
end PveMeta
