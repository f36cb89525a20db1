import PveMeta.Lib.Except
import PveMeta.Theorems.GuestShellProbe
import PveMeta.Theorems.GuestShellSteps

/-! # What the answers of a guest's scripts say

The lines that a commit and a probe write, and what is read of them: an answer of a commit is taken only if it has a line
for each operation, in order; and a line of a probe is read as the node that it tells of. -/

namespace PveMeta
namespace Guest

/-! ### Bytes -/

theorem encode_ascii {c : Char} (h : c.toNat < 128) : Text.encode [c] = ⟨#[UInt8.ofNat c.toNat]⟩ := by
  have hle : c.toNat ≤ 127 := by omega
  have hbyte : Text.encode [c] = [UInt8.ofNat c.toNat].toByteArray := by
    simp [Text.encode, List.utf8Encode_singleton, String.utf8EncodeChar, hle]
  rw [hbyte]
  rfl

theorem encode_eq_textBytes {t : Text} (h : ∀ c ∈ t, c.toNat < 128) : Text.encode t = textBytes t := by
  induction t with
  | nil => rfl
  | cons c t ih =>
    have hcons : Text.encode (c :: t) = Text.encode [c] ++ Text.encode t := Text.encode_append [c] t
    rw [hcons, encode_ascii (h c List.mem_cons_self), ih fun d hd => h d (List.mem_cons_of_mem c hd)]
    apply ByteArray.ext
    simp [textBytes]

theorem decode?_textBytes {t : Text} (h : ∀ c ∈ t, c.toNat < 128) : Text.decode? (textBytes t) = some t := by
  rw [← encode_eq_textBytes h, Text.decode?_encode]

/-! ### Lines -/

/-- A line of an answer: ASCII, and neither end of a line is in it. -/
def OneLine (l : Text) : Prop := ∀ c ∈ l, c.toNat < 128 ∧ c ≠ '\n' ∧ c ≠ '\r'

theorem OneLine.append {a b : Text} (ha : OneLine a) (hb : OneLine b) : OneLine (a ++ b) := by
  intro c hc
  rcases List.mem_append.mp hc with h | h
  · exact ha c h
  · exact hb c h

theorem OneLine.cons {c : Char} {l : Text} (hc : c.toNat < 128 ∧ c ≠ '\n' ∧ c ≠ '\r') (hl : OneLine l) :
    OneLine (c :: l) := by
  intro d hd
  rcases List.mem_cons.mp hd with rfl | h
  · exact hc
  · exact hl d h

theorem plain_digits {base : Nat} (hbase : 0 < base) (hten : base ≤ 10) (n : Nat) : OneLine (Nat.toDigits base n) := by
  intro c hc
  have hdigit := Nat.isDigit_of_mem_toDigits hbase hten hc
  simp only [Char.isDigit, Bool.and_eq_true, decide_eq_true_eq, ge_iff_le, UInt32.le_iff_toNat_le] at hdigit
  have hlt : c.toNat ≤ 57 := hdigit.2
  have hge : 48 ≤ c.toNat := hdigit.1
  refine ⟨by omega, ?_, ?_⟩ <;> (rintro rfl; revert hge; decide)

/-- The lines of an answer. -/
def answerText (ls : List Text) : Text := ls.flatMap (· ++ ['\n'])

theorem ascii_answerText {ls : List Text} (h : ∀ l ∈ ls, OneLine l) : ∀ c ∈ answerText ls, c.toNat < 128 := by
  intro c hc
  obtain ⟨l, hl, hc⟩ := List.mem_flatMap.mp hc
  rcases List.mem_append.mp hc with hc | hc
  · exact (h l hl c hc).1
  · rw [List.mem_singleton.mp hc]
    decide

theorem lineOf_line {l : Text} (h : OneLine l) : lineOf (l ++ ['\n']) = l := by
  have hstrip : Text.stripSuffix ['\n'] (l ++ ['\n']) = some l := by
    simp [Text.stripSuffix]
  have hreturn : Text.stripSuffix ['\r'] l = none := by
    rw [Text.stripSuffix, if_neg]
    intro hsuffix
    have hmem : '\r' ∈ l := (List.isSuffixOf_iff_suffix.mp hsuffix).subset List.mem_cons_self
    exact (h '\r' hmem).2.2 rfl
  rw [lineOf, hstrip]
  dsimp only
  rw [hreturn]
  rfl

theorem strLines_answerText {ls : List Text} (h : ∀ l ∈ ls, OneLine l) : strLines (answerText ls) = ls := by
  induction ls with
  | nil => rfl
  | cons l ls ih =>
    have hl := h l List.mem_cons_self
    have hnewline : '\n' ∉ l := fun hc => (hl _ hc).2.1 rfl
    have htext : answerText (l :: ls) = l ++ '\n' :: answerText ls := by simp [answerText]
    rw [htext, strLines, Text.splitInclusive_line hnewline, List.map_cons, lineOf_line hl]
    exact congrArg _ (ih fun m hm => h m (List.mem_cons_of_mem l hm))

/-! ### The answer of a commit -/

variable [RustDebug]

/-- The line of the `i`-th operation. -/
def outcomeLine (i : Nat) (o : Outcome) : Text := Nat.toDigits 10 i ++ ' ' :: o.text

def outcomeLines (i : Nat) : List Outcome → List Text
  | [] => []
  | o :: os => outcomeLine i o :: outcomeLines (i + 1) os

omit [RustDebug] in
theorem eq_of_stripPrefix {p t rest : Text} (h : Text.stripPrefix p t = some rest) : t = p ++ rest := by
  unfold Text.stripPrefix at h
  split at h
  · next hp =>
    cases h
    exact (List.prefix_iff_eq_append.mp (List.isPrefixOf_iff_prefix.mp hp)).symm
  · cases h

omit [RustDebug] in
theorem outcomeLine_eq (i : Nat) (o : Outcome) : outcomeLine i o = (Nat.toDigits 10 i ++ [' ']) ++ o.text := by
  simp [outcomeLine]

omit [RustDebug] in
theorem text_failed (what : String) : (Outcome.failed what).text = "failed ".toList ++ what.toList := rfl

omit [RustDebug] in
theorem failed_ne (what : Text) : "failed ".toList ++ what ≠ "done".toList ∧ "failed ".toList ++ what ≠ "changed".toList :=
  ⟨fun h => (nomatch h), fun h => nomatch h⟩

theorem parseOutcome_eq_ok {i : Nat} {line : Text} {o : Outcome} :
    parseOutcome i line = .ok o ↔ line = outcomeLine i o := by
  rw [outcomeLine_eq]
  constructor
  · intro h
    unfold parseOutcome at h
    split at h
    · cases h
    next rest hrest =>
    have hline := eq_of_stripPrefix hrest
    split at h
    · next hdone =>
      cases h
      rw [hline, hdone]
      rfl
    split at h
    · next hchanged =>
      cases h
      rw [hline, hchanged]
      rfl
    split at h
    · next what hwhat =>
      cases h
      have hback : (String.ofList what).toList = what := String.toList_ofList
      rw [text_failed, hback, hline, eq_of_stripPrefix hwhat]
    · cases h
  · rintro rfl
    rw [parseOutcome, Text.stripPrefix_append]
    cases o with
    | done => rfl
    | changed => rfl
    | failed what =>
      obtain ⟨hdone, hchanged⟩ := failed_ne what.toList
      rw [text_failed]
      dsimp only
      rw [if_neg hdone, if_neg hchanged, Text.stripPrefix_append]
      dsimp only
      rw [String.ofList_toList]

theorem parseOutcomes_eq_ok {i : Nat} {lines : List Text} {os : List Outcome} :
    parseOutcomes i lines = .ok os ↔ lines = outcomeLines i os := by
  induction lines generalizing i os with
  | nil =>
    cases os with
    | nil => simp [parseOutcomes, outcomeLines]
    | cons => simp [parseOutcomes, outcomeLines]
  | cons line lines ih =>
    rw [parseOutcomes, Except.bind_eq_ok]
    constructor
    · rintro ⟨o, ho, h⟩
      obtain ⟨rest, hrest, h⟩ := Except.bind_eq_ok.mp h
      cases h
      rw [outcomeLines, ← parseOutcome_eq_ok.mp ho, ← ih.mp hrest]
    · intro h
      cases os with
      | nil => cases h
      | cons o os =>
        rw [outcomeLines, List.cons.injEq] at h
        exact ⟨o, parseOutcome_eq_ok.mpr h.1, by rw [ih.mpr h.2]; rfl⟩

theorem parseCommit_text {n : Nat} {stdout : ByteArray} {text : Text} {os : List Outcome}
    (h : Text.decode? stdout = some text) :
    parseCommit n stdout = .ok os ↔ os.length = n ∧ strLines text = outcomeLines 0 os := by
  unfold parseCommit
  rw [h]
  dsimp only
  rw [Except.bind_eq_ok]
  constructor
  · rintro ⟨os', hos', h⟩
    split at h
    · cases h
    · next hlength =>
      cases h
      exact ⟨not_not.mp hlength, parseOutcomes_eq_ok.mp hos'⟩
  · rintro ⟨hlength, hlines⟩
    exact ⟨os, parseOutcomes_eq_ok.mpr hlines, if_neg (not_not.mpr hlength)⟩

/-- A commit's answer is taken if it is text with one line for each operation, in order, and for nothing else. -/
theorem parseCommit_eq_ok {n : Nat} {stdout : ByteArray} {os : List Outcome} : parseCommit n stdout = .ok os ↔
    os.length = n ∧ ∃ text, Text.decode? stdout = some text ∧ strLines text = outcomeLines 0 os := by
  cases hdecode : Text.decode? stdout with
  | none => simp [parseCommit, hdecode]
  | some text =>
    rw [parseCommit_text hdecode]
    simp

/-- What the functions of a commit can tell. -/
def told : List Outcome :=
  [.done, .changed, .failed "write", .failed "owner or mode", .failed "rename", .failed "removal"]

omit [RustDebug] in
theorem plain_told : ∀ o ∈ told, OneLine o.text := by
  intro o ho
  have hall : (told.all fun o => o.text.all fun c => decide (c.toNat < 128) && c != '\n' && c != '\r') = true := by decide
  intro c hc
  simpa [and_assoc] using List.all_eq_true.mp (List.all_eq_true.mp hall o ho) c hc

omit [RustDebug] in
theorem plain_outcomeLines {os : List Outcome} (h : ∀ o ∈ os, o ∈ told) (i : Nat) : ∀ l ∈ outcomeLines i os, OneLine l := by
  induction os generalizing i with
  | nil => exact fun _ hl => nomatch hl
  | cons o os ih =>
    intro l hl
    rcases List.mem_cons.mp hl with rfl | hl
    · exact (plain_digits (by decide) (by decide) i).append (.cons (by decide) (plain_told o (h o List.mem_cons_self)))
    · exact ih (fun o ho => h o (List.mem_cons_of_mem _ ho)) _ l hl

/-- The answer of a script that tells these is read as these. -/
theorem parseCommit_lines {os : List Outcome} (h : ∀ o ∈ os, o ∈ told) :
    parseCommit os.length (textBytes (answerText (outcomeLines 0 os))) = .ok os := by
  have hplain := plain_outcomeLines h 0
  exact (parseCommit_text (decode?_textBytes (ascii_answerText hplain))).mpr ⟨rfl, strLines_answerText hplain⟩

/-! ### The answer of a probe -/

omit [RustDebug] in
theorem digit_lt {base : Nat} (hbase : 1 < base) (hten : base ≤ 10) (n : Nat) :
    ∀ c ∈ Nat.toDigits base n, c.toNat - '0'.toNat < base := by
  have hchar : ∀ d < 10, (Nat.digitChar d).toNat - '0'.toNat = d := by decide
  induction n using Nat.strongRecOn with
  | ind n ih =>
    intro c hc
    by_cases hn : n < base
    · rw [Nat.toDigits_of_lt_base hn] at hc
      rw [List.mem_singleton.mp hc, hchar n (by omega)]
      exact hn
    · have hmod : n % base < base := Nat.mod_lt n (by omega)
      rw [Nat.toDigits_of_base_le hbase (by omega)] at hc
      rcases List.mem_append.mp hc with hc | hc
      · exact ih (n / base) (Nat.div_lt_self (by omega) hbase) c hc
      · rw [List.mem_singleton.mp hc, hchar _ (by omega)]
        exact hmod

omit [RustDebug] in
theorem afterSign_digits {t : Text} (h : ∀ c ∈ t, c.isDigit = true) : Text.afterSign t = t := by
  unfold Text.afterSign
  split
  · next rest =>
    have hplus := h '+' List.mem_cons_self
    cases hplus
  · rfl

omit [RustDebug] in
theorem fromStrRadix_toDigits {radix : Nat} (hradix : 1 < radix) (hten : radix ≤ 10) (n : Nat) :
    fromStrRadix (Nat.toDigits radix n) radix = if n < 2 ^ 32 then some (.ofNat n) else none := by
  have hdigit (c : Char) (hc : c ∈ Nat.toDigits radix n) : c.isDigit = true :=
    Nat.isDigit_of_mem_toDigits (by omega) hten hc
  have hall : ((Nat.toDigits radix n).all fun c => c.isDigit && decide (c.toNat - '0'.toNat < radix)) = true :=
    List.all_eq_true.mpr fun c hc => by simp only [hdigit c hc, digit_lt hradix hten n c hc, decide_true, Bool.and_self]
  have hne : (Nat.toDigits radix n).isEmpty = false := by simp [Nat.toDigits_ne_nil]
  rw [fromStrRadix, afterSign_digits hdigit]
  simp only [hall, hne, Nat.ofDigitChars_toDigits hradix hten]
  rfl

/-- The line that tells of a node. -/
def Node.line : Node → Text
  | .missing => ['M']
  | .symlink => ['L']
  | .dir => ['D']
  | .file uid gid mode sha256 => "F ".toList ++ statLine ⟨uid, gid⟩ mode ++ ' ' :: sha256.toList
  | .other => ['O']

omit [RustDebug] in
theorem nodeLine_eq [Deps] (node : Inode) : nodeLine node = node.lstat.line := by cases node <;> rfl

/-- A hash is hex digits. -/
def Node.Hex : Node → Prop
  | .file _ _ _ sha256 => ∀ c ∈ sha256.toList, c.isDigit = true ∨ ('a' ≤ c ∧ c ≤ 'f')
  | _ => True

omit [RustDebug] in
theorem hex_lstat [Deps] (node : Inode) : node.lstat.Hex := by
  cases node with
  | file owner mode content => exact fun c hc => isHex_of_mem_digest hc
  | _ => trivial

/-- A hash is a SHA-256, and a mode is of 32 bits. -/
def Node.Legible : Node → Prop
  | .file _ _ mode sha256 => sha256.toList.length = 64 ∧ mode < 2 ^ 32
  | _ => True

/-- A hex digit is none of what ends a field or a line, and is a lowercase letter if it is one. -/
structure IsHex (c : Char) : Prop where
  ascii : c.toNat < 128
  inLine : c ≠ ' ' ∧ c ≠ '\n' ∧ c ≠ '\r'
  digit : isAsciiHexdigit c = true
  lower : c.toLower = c

omit [RustDebug] in
theorem isHex_of {c : Char} (h : c.isDigit = true ∨ ('a' ≤ c ∧ c ≤ 'f')) : IsHex c := by
  have hall : ∀ n < 103, ((Char.ofNat n).isDigit = true ∨ ('a' ≤ Char.ofNat n ∧ Char.ofNat n ≤ 'f')) →
      (Char.ofNat n).toNat < 128 ∧ (Char.ofNat n ≠ ' ' ∧ Char.ofNat n ≠ '\n' ∧ Char.ofNat n ≠ '\r') ∧
        isAsciiHexdigit (Char.ofNat n) = true ∧ (Char.ofNat n).toLower = Char.ofNat n := by decide
  have hlt : c.toNat < 103 := by
    rcases h with h | ⟨-, h⟩
    · simp only [Char.isDigit, Bool.and_eq_true, decide_eq_true_eq, ge_iff_le, UInt32.le_iff_toNat_le] at h
      have hle : c.toNat ≤ 57 := h.2
      omega
    · have hle : c.toNat ≤ 102 := h
      omega
  have hc := hall c.toNat hlt
  rw [Char.ofNat_toNat] at hc
  obtain ⟨hascii, hline, hdigit, hlower⟩ := hc h
  exact ⟨hascii, hline, hdigit, hlower⟩

omit [RustDebug] in
theorem fields_line {uid gid : UInt32} {mode : Nat} {sha256 : String} (h : (Node.file uid gid mode sha256).Hex) :
    (Node.file uid gid mode sha256).line.splitOn ' ' =
      [['F'], Nat.toDigits 10 uid.toNat, Nat.toDigits 10 gid.toNat, Nat.toDigits 8 mode, sha256.toList] := by
  have hspace (base : Nat) (hbase : 0 < base) (hten : base ≤ 10) (n : Nat) :
      (Nat.toDigits base n).splitOn ' ' = [Nat.toDigits base n] :=
    List.splitOn_eq_singleton (not_mem_digits hbase hten rfl n)
  have hsha : sha256.toList.splitOn ' ' = [sha256.toList] :=
    List.splitOn_eq_singleton fun hc => (isHex_of (h _ hc)).inLine.1 rfl
  have hline : (Node.file uid gid mode sha256).line = ['F'] ++ ' ' :: (Nat.toDigits 10 uid.toNat ++
      ' ' :: (Nat.toDigits 10 gid.toNat ++ ' ' :: (Nat.toDigits 8 mode ++ ' ' :: sha256.toList))) := by
    simp [Node.line, statLine]
  rw [hline, List.splitOn_append_cons_self, List.splitOn_append_cons_self, List.splitOn_append_cons_self,
    List.splitOn_append_cons_self, hspace 10 (by decide) (by decide), hspace 10 (by decide) (by decide),
    hspace 8 (by decide) (by decide), hsha]
  rfl

omit [RustDebug] in
theorem byteLen_hex {sha256 : Text} (h : ∀ c ∈ sha256, IsHex c) : Text.byteLen sha256 = sha256.length := by
  rw [← Text.size_encode, encode_eq_textBytes fun c hc => (h c hc).ascii, textBytes]
  simp [ByteArray.size]

theorem parseNode_fields (path : Text) {line uid gid mode sha : Text}
    (h : line.splitOn ' ' = [['F'], uid, gid, mode, sha]) :
    parseNode path line = if Text.byteLen sha = 64 ∧ sha.all isAsciiHexdigit = true then
        probeNum uid 10 >>= fun uid => probeNum gid 10 >>= fun gid => probeNum mode 8 >>= fun mode =>
          .ok (.file uid gid mode.toNat (String.ofList (sha.map Char.toLower)))
      else .error ("probe of " ++ String.ofList path ++ ": unreadable answer " ++ RustDebug.str line) := by
  rw [parseNode, h]
  rfl

/-- A line is read as the node that it tells of, if it can tell of that, and is refused if it cannot. -/
theorem parseNode_line (path : Text) {node : Node} (h : node.Hex) :
    node.Legible ∧ parseNode path node.line = .ok node ∨ ¬ node.Legible ∧ ∃ e, parseNode path node.line = .error e := by
  cases node with
  | missing => exact Or.inl ⟨trivial, rfl⟩
  | symlink => exact Or.inl ⟨trivial, rfl⟩
  | dir => exact Or.inl ⟨trivial, rfl⟩
  | other => exact Or.inl ⟨trivial, rfl⟩
  | file uid gid mode sha256 =>
    have hhex : ∀ c ∈ sha256.toList, IsHex c := fun c hc => isHex_of (h c hc)
    have hdigits : sha256.toList.all isAsciiHexdigit = true := List.all_eq_true.mpr fun c hc => (hhex c hc).digit
    have hlower : sha256.toList.map Char.toLower = sha256.toList :=
      (List.map_congr_left fun c hc => (hhex c hc).lower).trans (List.map_id _)
    have huid : probeNum (Nat.toDigits 10 uid.toNat) 10 = .ok uid := by
      rw [probeNum, fromStrRadix_toDigits (by decide) (by decide), if_pos uid.toNat_lt]
      exact congrArg _ UInt32.ofNat_toNat
    have hgid : probeNum (Nat.toDigits 10 gid.toNat) 10 = .ok gid := by
      rw [probeNum, fromStrRadix_toDigits (by decide) (by decide), if_pos gid.toNat_lt]
      exact congrArg _ UInt32.ofNat_toNat
    rw [parseNode_fields path (fields_line h), byteLen_hex hhex, huid, hgid, hlower, String.ofList_toList]
    by_cases hlength : sha256.toList.length = 64
    · rw [if_pos ⟨hlength, hdigits⟩]
      by_cases hmode : mode < 2 ^ 32
      · refine Or.inl ⟨⟨hlength, hmode⟩, ?_⟩
        rw [probeNum, fromStrRadix_toDigits (by decide) (by decide), if_pos hmode]
        have hback : (UInt32.ofNat mode).toNat = mode := UInt32.toNat_ofNat_of_lt' hmode
        simp [Except.ok_bind, hback]
      · refine Or.inr ⟨fun hlegible => hmode hlegible.2, ?_⟩
        rw [probeNum, fromStrRadix_toDigits (by decide) (by decide), if_neg hmode]
        exact ⟨_, rfl⟩
    · rw [if_neg fun hand => hlength hand.1]
      exact Or.inr ⟨fun hlegible => hlength hlegible.1, _, rfl⟩

omit [RustDebug] in
theorem plain_line {node : Node} (h : node.Hex) : OneLine node.line := by
  have hsingle (c : Char) (hc : c.toNat < 128 ∧ c ≠ '\n' ∧ c ≠ '\r') : OneLine [c] := .cons hc fun _ hd => nomatch hd
  cases node with
  | missing => exact hsingle 'M' (by decide)
  | symlink => exact hsingle 'L' (by decide)
  | dir => exact hsingle 'D' (by decide)
  | other => exact hsingle 'O' (by decide)
  | file uid gid mode sha256 =>
    have hsha : OneLine sha256.toList := fun c hc => ⟨(isHex_of (h c hc)).ascii, (isHex_of (h c hc)).inLine.2⟩
    have hfirst : OneLine "F ".toList := .cons (by decide) (hsingle ' ' (by decide))
    have hstat : OneLine (statLine ⟨uid, gid⟩ mode) :=
      (plain_digits (by decide) (by decide) _).append (.cons (by decide)
        ((plain_digits (by decide) (by decide) _).append (.cons (by decide) (plain_digits (by decide) (by decide) _))))
    exact (hfirst.append hstat).append (.cons (by decide) hsha)

theorem parseNodes_lines {l : List (Text × Node)} (h : ∀ e ∈ l, e.2.Hex) :
    (∀ e ∈ l, e.2.Legible) ∧ parseNodes (l.map fun e => (e.1, e.2.line)) = .ok l ∨
      ¬ (∀ e ∈ l, e.2.Legible) ∧ ∃ e, parseNodes (l.map fun e => (e.1, e.2.line)) = .error e := by
  induction l with
  | nil => exact Or.inl ⟨fun _ he => (nomatch he), rfl⟩
  | cons e l ih =>
    rw [List.map_cons, parseNodes, List.forall_mem_cons]
    rcases parseNode_line e.1 (h e List.mem_cons_self) with ⟨hlegible, hnode⟩ | ⟨hnot, why, hnode⟩
    · rw [hnode]
      rcases ih fun e he => h e (List.mem_cons_of_mem _ he) with ⟨hall, hnodes⟩ | ⟨hnot, why, hnodes⟩
      · exact Or.inl ⟨⟨hlegible, hall⟩, by rw [hnodes]; rfl⟩
      · exact Or.inr ⟨fun hand => hnot hand.2, why, by rw [hnodes]; rfl⟩
    · exact Or.inr ⟨fun hand => hnot hand.1, why, by rw [hnode]; rfl⟩

/-- The answer of a probe is read as what it tells, if all of that can be told, and is refused if not. -/
theorem parseProbe_lines {l : List (Text × Node)} (h : ∀ e ∈ l, e.2.Hex) :
    (∀ e ∈ l, e.2.Legible) ∧ parseProbe (l.map (·.1)) (textBytes (answerText (l.map fun e => e.2.line))) = .ok l ∨
      ¬ (∀ e ∈ l, e.2.Legible) ∧ ∃ e, parseProbe (l.map (·.1)) (textBytes (answerText (l.map fun e => e.2.line))) =
        .error e := by
  have hplain : ∀ t ∈ l.map fun e => e.2.line, OneLine t := by
    intro t ht
    obtain ⟨e, he, rfl⟩ := List.mem_map.mp ht
    exact plain_line (h e he)
  have hzip : (l.map (·.1)).zip (l.map fun e => e.2.line) = l.map fun e => (e.1, e.2.line) := List.zip_map' ..
  rw [parseProbe, decode?_textBytes (ascii_answerText hplain)]
  dsimp only
  rw [strLines_answerText hplain, if_neg (by simp), hzip]
  exact parseNodes_lines h

end Guest
end PveMeta
