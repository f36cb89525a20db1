import PveMeta.Buffer
import PveMeta.Lib.Except
import PveMeta.Sample
import PveMeta.Theorems.ValueEq

/-! # Switching syntax is presentation only

The stash always holds a YAML text and the JSON of its value, so whichever text a switch shows, it has the value of the one
it replaces. -/

namespace PveMeta

section Switching

variable [Deps] [Browser] {text : Text} {lang : Format} {v w : Value} {b : Buffer} {held : Stash} {e : Buffer.Edit}

/-! ### Values -/

namespace Panel

omit [Deps] in
theorem keys_jsMembers (m : Members) : Assoc.keys (jsMembers m) = Assoc.keys m := by
  induction m with
  | nil => rfl
  | cons e m ih => exact congrArg (e.1 :: ·) ih

omit [Deps] in
theorem mem_jsMembers {m : Members} {e : String × Value} (h : e ∈ jsMembers m) : ∃ e' ∈ m, e.2 = js e'.2 := by
  induction m with
  | nil => cases h
  | cons e' m ih =>
    rcases List.mem_cons.mp h with rfl | h
    · exact ⟨e', List.mem_cons_self, rfl⟩
    · obtain ⟨e'', he'', heq⟩ := ih h
      exact ⟨e'', List.mem_cons_of_mem _ he'', heq⟩

omit [Deps] in
theorem mem_jsItems {items : List Value} (h : v ∈ jsItems items) : ∃ x ∈ items, v = js x := by
  induction items with
  | nil => cases h
  | cons x items ih =>
    rcases List.mem_cons.mp h with rfl | h
    · exact ⟨x, List.mem_cons_self, rfl⟩
    · obtain ⟨y, hy, heq⟩ := ih h
      exact ⟨y, List.mem_cons_of_mem _ hy, heq⟩

omit [Deps] in
/-- The browser keeps the keys of a map apart. -/
theorem wf_js (h : v.WF) : (js v).WF := by
  induction h with
  | null => exact .null
  | bool x => exact .bool x
  | number n => exact .number _
  | string s => exact .string s
  | array _ ih =>
    refine .array fun x hx => ?_
    obtain ⟨y, hy, rfl⟩ := mem_jsItems hx
    exact ih y hy
  | object hkeys _ ih =>
    refine .object (by rwa [keys_jsMembers]) fun e he => ?_
    obtain ⟨e', he', heq⟩ := mem_jsMembers he
    exact heq ▸ ih e' he'

end Panel

namespace Format

omit [Browser] in
theorem jsonFromStr_of_parseRaw {tree : Tree} (h : Format.json.parseRaw text = .ok tree) :
    Deps.jsonFromStr text = .ok tree := by
  unfold parseRaw at h
  dsimp only at h
  split at h
  · next hread => rw [hread, Except.ok.inj h]
  · cases h

omit [Browser] in
theorem yamlFromStr_of_parseRaw {tree : Tree} (h : Format.yaml.parseRaw text = .ok tree) :
    Deps.yamlFromStr text = .ok tree := by
  obtain ⟨_, -, h⟩ := Except.bind_eq_ok.mp (show parseYaml text = .ok tree from h)
  split at h
  · next hread => rw [hread, Except.ok.inj h]
  · cases h

end Format

namespace Codec

theorem wf_of_parse (h : parse text lang = .ok v) : v.WF := by
  obtain ⟨tree, -, rfl⟩ := Except.map_eq_ok.mp h
  obtain ⟨value, hwf⟩ := tree
  cases value with
  | null => exact Value.WF.empty
  | _ => exact Panel.wf_js hwf

/-- `parse(dump(v)) = v`, in either syntax, for whatever a buffer parses to. -/
def RoundTrips : Prop := ∀ text lang v, parse text lang = .ok v → ∀ lang', parse (dump v lang') lang' = .ok v

theorem same_eq_true (h : same v text = true) : ∃ w, parse text .yaml = .ok w ∧ (v == w) = true := by
  unfold same at h
  split at h
  · next w hw => exact ⟨w, hw, h⟩
  · cases h

theorem same_of_parse (h : parse text .yaml = .ok v) : same v text = true := by
  rw [same, h]
  exact Value.beq_refl (wf_of_parse h)

/-- What a switch into YAML shows has the value, order aside. -/
theorem parse_render (rt : RoundTrips) (hv : parse text lang = .ok v) (original : Text) :
    ∃ w, parse (render v .yaml original) .yaml = .ok w ∧ (v == w) = true := by
  unfold render
  split
  · next h => exact same_eq_true h.2
  · exact ⟨v, rt _ _ _ hv .yaml, Value.beq_refl (wf_of_parse hv)⟩

end Codec

namespace Buffer

/-! ### The switch -/

theorem switchLang_self : b.switchLang b.lang = b := if_pos rfl

theorem switchLang_of_error {err : Error} (h : b.convert = .error err) : b.switchLang lang = b := by
  simp only [switchLang, h, ite_self]

/-- Into JSON goes the dump, and the YAML is stashed. -/
theorem switchLang_json (hlang : b.lang = .yaml) (h : b.convert = .ok v) :
    b.switchLang .json = ⟨⟨Codec.dump v .json, some ⟨b.editor.value, Codec.dump v .json⟩⟩, .json, b.original⟩ := by
  simp only [switchLang, hlang, reduceCtorEq, if_false, h]
  rfl

/-- Out of an untouched JSON side comes the stash. -/
theorem switchLang_yaml_of_stashed (hlang : b.lang = .json) (h : b.convert = .ok v) (hheld : b.editor.stashed = some held)
    (hjson : held.json = b.editor.value) : b.switchLang .yaml = ⟨⟨held.yaml, none⟩, .yaml, b.original⟩ := by
  simp only [switchLang, hlang, reduceCtorEq, if_false, h, render, rendered, hheld, hjson, if_true]

/-- Out of any other comes the value. -/
theorem switchLang_yaml_of_touched (hlang : b.lang = .json) (h : b.convert = .ok v)
    (hheld : ∀ held, b.editor.stashed = some held → held.json ≠ b.editor.value) :
    b.switchLang .yaml = ⟨⟨Codec.render v .yaml b.original, none⟩, .yaml, b.original⟩ := by
  simp only [switchLang, hlang, reduceCtorEq, if_false, h, render, rendered]
  cases hstashed : b.editor.stashed with
  | none => rfl
  | some held => simp only [hheld held hstashed, if_false]

/-! ### The stash -/

/-- The stash is there on the JSON side only, and both of its texts have one value. -/
def Sound (b : Buffer) : Prop := ∀ held, b.editor.stashed = some held →
  b.lang = .json ∧ ∃ v, Codec.parse held.yaml .yaml = .ok v ∧ held.json = Codec.dump v .json

theorem sound_of_none (h : b.editor.stashed = none) : b.Sound := by
  intro held hheld
  rw [h] at hheld
  cases hheld

theorem Sound.of_eq {c : Buffer} (h : b.Sound) (hstashed : c.editor.stashed = b.editor.stashed) (hlang : c.lang = b.lang) :
    c.Sound := by
  intro held hheld
  rw [hlang]
  exact h held (hstashed ▸ hheld)

theorem Sound.switchLang (h : b.Sound) (lang : Format) : (b.switchLang lang).Sound := by
  by_cases hsame : lang = b.lang
  · rw [hsame, switchLang_self]
    exact h
  cases hconvert : b.convert with
  | error err =>
    rw [switchLang_of_error hconvert]
    exact h
  | ok v =>
    cases lang with
    | json =>
      have hlang : b.lang = .yaml := by
        cases hb : b.lang with
        | yaml => rfl
        | json => exact absurd hb.symm hsame
      rw [switchLang_json hlang hconvert]
      rintro _ ⟨⟩
      exact ⟨rfl, v, hlang ▸ hconvert, rfl⟩
    | yaml =>
      refine sound_of_none ?_
      simp only [Buffer.switchLang, hsame, if_false, hconvert, render, rendered]
      split <;> rfl

theorem Sound.step (h : b.Sound) (e : Edit) : (b.step e).Sound := by
  cases e with
  | type text => exact h.of_eq rfl rfl
  | format =>
    show (b.formatBuffer).Sound
    unfold formatBuffer format
    cases Codec.parse b.editor.value b.lang with
    | error err => exact h
    | ok v =>
      refine h.of_eq ?_ rfl
      simp only [Except.map]
      split <;> rfl
  | switch lang => exact h.switchLang lang
  | load text =>
    show (b.refresh text).Sound
    unfold refresh
    split
    · exact h.of_eq rfl rfl
    · exact sound_of_none rfl
  | compare text => exact h.of_eq rfl rfl

theorem sound_of_start {original : Text} (h : start original lang = .ok b) : b.Sound := by
  obtain ⟨text, -, rfl⟩ := Except.map_eq_ok.mp h
  exact sound_of_none rfl

theorem Sound.after (h : b.Sound) (edits : List Edit) : (b.after edits).Sound := by
  induction edits generalizing b with
  | nil => exact h
  | cons e edits ih => exact ih (h.step e)

/-! ### What a switch shows -/

/-- What was stashed has the value that the untouched JSON side parses to. -/
theorem Sound.parse_stashed (rt : Codec.RoundTrips) (h : b.Sound) (hheld : b.editor.stashed = some held)
    (hjson : held.json = b.editor.value) : ∃ v, b.convert = .ok v ∧ Codec.parse held.yaml .yaml = .ok v := by
  obtain ⟨hlang, v, hyaml, hdump⟩ := h held hheld
  refine ⟨v, ?_, hyaml⟩
  rw [convert, hlang, ← hjson, hdump]
  exact rt _ _ _ hyaml .json

/-- The text after a switch has the value of the one before. -/
theorem Sound.parse_switch (rt : Codec.RoundTrips) (h : b.Sound) (hv : Codec.parse b.editor.value b.lang = .ok v)
    (lang : Format) : ∃ w, Codec.parse (b.switchLang lang).editor.value lang = .ok w ∧ (v == w) = true := by
  have hrefl : (v == v) = true := Value.beq_refl (Codec.wf_of_parse hv)
  by_cases hsame : lang = b.lang
  · rw [hsame, switchLang_self]
    exact ⟨v, hv, hrefl⟩
  cases lang with
  | json =>
    have hlang : b.lang = .yaml := by
      cases hb : b.lang with
      | yaml => rfl
      | json => exact absurd hb.symm hsame
    rw [switchLang_json hlang hv]
    exact ⟨v, rt _ _ _ hv .json, hrefl⟩
  | yaml =>
    have hlang : b.lang = .json := by
      cases hb : b.lang with
      | yaml => exact absurd hb.symm hsame
      | json => rfl
    by_cases hheld : ∃ held, b.editor.stashed = some held ∧ held.json = b.editor.value
    · obtain ⟨held, hheld, hjson⟩ := hheld
      obtain ⟨w, hw, hyaml⟩ := h.parse_stashed rt hheld hjson
      cases hv.symm.trans hw
      rw [switchLang_yaml_of_stashed hlang hv hheld hjson]
      exact ⟨v, hyaml, hrefl⟩
    · rw [switchLang_yaml_of_touched hlang hv fun held hstashed hjson => hheld ⟨held, hstashed, hjson⟩]
      exact Codec.parse_render rt hv b.original

/-! ### There and back -/

/-- On the JSON side: the editor's text may be typed over and formatted, and what it is compared with may change. -/
def Edit.Stays : Edit → Prop
  | .type _ | .format | .compare _ => True
  | .load text => ∃ err, Codec.parse text .yaml = .error err
  | .switch _ => False

theorem stays_step (hlang : b.lang = .json) (h : e.Stays) :
    (b.step e).editor.stashed = b.editor.stashed ∧ (b.step e).lang = .json := by
  cases e with
  | type | compare => exact ⟨rfl, hlang⟩
  | format =>
    show b.formatBuffer.editor.stashed = _ ∧ b.formatBuffer.lang = _
    unfold formatBuffer format
    cases Codec.parse b.editor.value b.lang with
    | error err => exact ⟨rfl, hlang⟩
    | ok v =>
      refine ⟨?_, hlang⟩
      simp only [Except.map]
      split <;> rfl
  | load text =>
    obtain ⟨err, herr⟩ := h
    have hload : b.step (.load text) = { b with original := text } := by
      rw [step, refresh, hlang, Codec.originalInLang, herr]
      rfl
    rw [hload]
    exact ⟨rfl, hlang⟩
  | switch => cases h

theorem stays_after (hlang : b.lang = .json) {edits : List Edit} (h : ∀ e ∈ edits, e.Stays) :
    (b.after edits).editor.stashed = b.editor.stashed ∧ (b.after edits).lang = .json := by
  induction edits generalizing b with
  | nil => exact ⟨rfl, hlang⟩
  | cons e edits ih =>
    obtain ⟨he, hedits⟩ := List.forall_mem_cons.mp h
    obtain ⟨hstashed, hlang⟩ := stays_step hlang he
    obtain ⟨hstashed', hlang'⟩ := ih hlang hedits
    exact ⟨hstashed'.trans hstashed, hlang'⟩

/-- Into JSON and back, with the JSON side as it was entered, gives the YAML text that was left. -/
theorem there_and_back (rt : Codec.RoundTrips) (hlang : b.lang = .yaml) (hv : b.convert = .ok v) {edits : List Edit}
    (hedits : ∀ e ∈ edits, e.Stays)
    (huntouched : ((b.switchLang .json).after edits).editor.value = (b.switchLang .json).editor.value) :
    (((b.switchLang .json).after edits).switchLang .yaml).editor.value = b.editor.value := by
  rw [switchLang_json hlang hv] at huntouched ⊢
  obtain ⟨hstashed, hjson⟩ := stays_after
    (b := ⟨⟨Codec.dump v .json, some ⟨b.editor.value, Codec.dump v .json⟩⟩, .json, b.original⟩) rfl hedits
  have hconvert :
    (after ⟨⟨Codec.dump v .json, some ⟨b.editor.value, Codec.dump v .json⟩⟩, .json, b.original⟩ edits).convert =
      .ok v := by
    rw [convert, hjson, huntouched]
    exact rt _ _ _ hv .json
  rw [switchLang_yaml_of_stashed hjson hconvert hstashed huntouched.symm]

/-! ### Unchanged -/

theorem baseline_yaml (hlang : b.lang = .yaml) : b.baseline.2 = b.original := by
  rw [baseline, hlang]
  rfl

theorem baseline_json (hlang : b.lang = .json) (h : Codec.parse b.original .yaml = .ok v) :
    b.baseline.2 = Codec.dump v .json := by
  rw [baseline, hlang, Codec.originalInLang, h]
  rfl

/-- A loaded text that is no YAML is what the buffer is compared with, whatever the language. -/
theorem baseline_of_error {err : Error} (h : Codec.parse b.original .yaml = .error err) : b.baseline.2 = b.original := by
  cases hlang : b.lang with
  | yaml => exact baseline_yaml hlang
  | json =>
    rw [baseline, hlang, Codec.originalInLang, h]
    rfl

/-- Nothing changed: the JSON side is untouched, and behind it is the loaded text; or the text is the loaded one's. -/
theorem unchanged_cases (h : b.unchanged = true) :
    (∃ held, b.editor.stashed = some held ∧ b.lang = .json ∧ held.json = b.editor.value ∧ held.yaml = b.original) ∨
      (∀ held, b.editor.stashed = some held → b.lang = .json → held.json ≠ b.editor.value) ∧
        b.editor.value = b.baseline.2 := by
  unfold unchanged at h
  cases hstashed : b.editor.stashed with
  | none =>
    rw [hstashed] at h
    refine Or.inr ⟨?_, of_decide_eq_true h⟩
    rintro _ ⟨⟩
  | some held =>
    rw [hstashed] at h
    dsimp only at h
    split at h
    · next huntouched => exact Or.inl ⟨held, rfl, huntouched.1, huntouched.2.symm, of_decide_eq_true h⟩
    · next htouched =>
      refine Or.inr ⟨?_, of_decide_eq_true h⟩
      rintro _ ⟨⟩ hlang heq
      exact htouched ⟨hlang, heq.symm⟩

/-- A buffer that is unchanged shows the loaded text in YAML, if that is YAML. -/
theorem Sound.original_of_unchanged (rt : Codec.RoundTrips) (h : b.Sound) (hunchanged : b.unchanged = true)
    (hyaml : b.lang = .yaml ∨ ∃ v, Codec.parse b.original .yaml = .ok v) :
    (b.switchLang .yaml).lang = .yaml ∧ (b.switchLang .yaml).editor.value = b.original := by
  rcases unchanged_cases hunchanged with ⟨held, hstashed, hlang, hjson, horiginal⟩ | ⟨htouched, hvalue⟩
  · obtain ⟨v, hconvert, -⟩ := h.parse_stashed rt hstashed hjson
    rw [switchLang_yaml_of_stashed hlang hconvert hstashed hjson]
    exact ⟨rfl, horiginal⟩
  · cases hlang : b.lang with
    | yaml =>
      have hself : b.switchLang .yaml = b := hlang ▸ switchLang_self
      rw [hself]
      exact ⟨hlang, hvalue.trans (baseline_yaml hlang)⟩
    | json =>
      obtain ⟨v, hv⟩ := hyaml.resolve_left (hlang ▸ Format.noConfusion)
      rw [baseline_json hlang hv] at hvalue
      have hconvert : b.convert = .ok v := by
        rw [convert, hlang, hvalue]
        exact rt _ _ _ hv .json
      rw [switchLang_yaml_of_touched hlang hconvert fun held hheld => htouched held hheld hlang]
      refine ⟨rfl, ?_⟩
      show Codec.render v .yaml b.original = b.original
      rw [Codec.render, if_pos ⟨Format.noConfusion, Codec.same_of_parse hv⟩]

/-- Where the loaded text is no YAML, it is the text of an unchanged buffer. -/
theorem Sound.value_of_unchanged (h : b.Sound) (hunchanged : b.unchanged = true) {err : Error}
    (herr : Codec.parse b.original .yaml = .error err) : b.editor.value = b.original := by
  rcases unchanged_cases hunchanged with ⟨held, hstashed, -, -, horiginal⟩ | ⟨-, hvalue⟩
  · obtain ⟨-, v, hv, -⟩ := h held hstashed
    rw [horiginal, herr] at hv
    cases hv
  · exact hvalue.trans (baseline_of_error herr)

/-! ### The result -/

/-- What a switch does to a buffer, and what it means that the buffer is unchanged. -/
structure PresentationOnly (b : Buffer) : Prop where
  /-- A buffer that does not parse stays as it is; -/
  refused : ∀ lang err, Codec.parse b.editor.value b.lang = .error err → b.switchLang lang = b
  /-- else the text that is shown has the value of the one before. -/
  value : ∀ lang v, Codec.parse b.editor.value b.lang = .ok v →
    ∃ w, Codec.parse (b.switchLang lang).editor.value lang = .ok w ∧ (v == w) = true
  /-- To JSON and back, with the JSON side as it was entered, gives the YAML text that was left. -/
  back : b.lang = .yaml → (∃ v, Codec.parse b.editor.value .yaml = .ok v) → ∀ edits : List Edit, (∀ e ∈ edits, e.Stays) →
    ((b.switchLang .json).after edits).editor.value = (b.switchLang .json).editor.value →
    (((b.switchLang .json).after edits).switchLang .yaml).editor.value = b.editor.value
  /-- A buffer that is unchanged shows the loaded text in YAML, unless it is JSON and that text is no YAML; -/
  unchanged : b.unchanged = true → b.lang = .yaml ∨ (∃ v, Codec.parse b.original .yaml = .ok v) →
    (b.switchLang .yaml).lang = .yaml ∧ (b.switchLang .yaml).editor.value = b.original
  /-- and then it holds that text as it is. -/
  unreadable : b.unchanged = true → ∀ err, Codec.parse b.original .yaml = .error err → b.editor.value = b.original

/-- Whatever is done in an editor, to switch its syntax is presentation only. -/
theorem switching_is_presentation (rt : Codec.RoundTrips) {original : Text} (h : start original lang = .ok b)
    (edits : List Edit) :
    (b.after edits).PresentationOnly := by
  have hsound := (sound_of_start h).after edits
  constructor
  · intro lang err herr
    exact switchLang_of_error herr
  · intro lang v hv
    exact hsound.parse_switch rt hv lang
  · rintro hlang ⟨v, hv⟩ edits' hstays huntouched
    exact there_and_back rt hlang (show Codec.parse _ _ = _ by rw [hlang]; exact hv) hstays huntouched
  · exact hsound.original_of_unchanged rt
  · intro hunchanged err herr
    exact hsound.value_of_unchanged hunchanged herr

end Buffer

end Switching

/-! ### A text that is JSON and no YAML -/

namespace Buffer
open Sample

def docSmile : Tree := docS "😀"

/-- The YAML that is read, the dumps first. -/
def yamlTexts : List (Text × Tree) :=
  [("a: 1\n".toList, docA 1), ("s: 😀\n".toList, docSmile), ("# mine\na: 1\n".toList, docA 1)]

/-- A pair of surrogates, which the JSON parser reads and the YAML parsers refuse. -/
def surrogates : Text := "\x7b\"s\": \"\\ud83d\\ude00\"\x7d".toList

/-- The JSON that is read, the dumps first. -/
def jsonTexts : List (Text × Tree) :=
  [("\x7b\n  \"a\": 1\n\x7d\n".toList, docA 1), ("\x7b\n  \"s\": \"😀\"\n\x7d\n".toList, docSmile), (surrogates, docSmile)]

/-- The first text of a value in a table. -/
def textIn (table : List (Text × Tree)) (v : Value) : Text := ((table.find? fun e => e.2.val == v).map Prod.fst).getD []

/-- The crates, on these texts. -/
abbrev crates : Deps :=
  { Sample.deps with
    yamlToString := textIn yamlTexts
    yamlFromStr := fun t => (Assoc.get? t yamlTexts).elim (.error ("not a sample", none)) .ok
    yamlEvents := fun t =>
      if t = surrogates then [.error ("found invalid Unicode character escape code", ⟨1, 6⟩)] else Sample.yamlEvents t
    jsonToStringPretty := textIn jsonTexts
    jsonFromStr := fun t => (Assoc.get? t jsonTexts).elim (.error ("not a sample", ⟨1, 1⟩)) .ok }

/-- A text that is read is one of the table. -/
theorem mem_of_elim {ε : Type} {table : List (Text × Tree)} {text : Text} {tree : Tree} {err : ε}
    (h : (Assoc.get? text table).elim (.error err) .ok = (.ok tree : Except ε Tree)) : (text, tree) ∈ table := by
  cases hget : Assoc.get? text table with
  | none =>
    rw [hget] at h
    cases h
  | some found =>
    rw [hget] at h
    cases h
    exact Assoc.mem_of_get? hget

theorem parse_crates {text : Text} {lang : Format} {v : Value} (h : @Codec.parse crates browser text lang = .ok v) :
    v = (docA 1).val ∨ v = docSmile.val := by
  obtain ⟨tree, htree, rfl⟩ := Except.map_eq_ok.mp h
  have hmem : ∃ text', (text', tree) ∈ yamlTexts ++ jsonTexts := by
    cases lang with
    | json => exact ⟨text, List.mem_append_right _ (mem_of_elim (@Format.jsonFromStr_of_parseRaw crates _ _ htree))⟩
    | yaml => exact ⟨text, List.mem_append_left _ (mem_of_elim (@Format.yamlFromStr_of_parseRaw crates _ _ htree))⟩
  have hvalues : ∀ e ∈ yamlTexts ++ jsonTexts, e.2 = docA 1 ∨ e.2 = docSmile := by
    simp [yamlTexts, jsonTexts]
  obtain ⟨text', hmem⟩ := hmem
  rcases hvalues _ hmem with rfl | rfl
  · exact Or.inl rfl
  · exact Or.inr rfl

theorem roundTrips_crates : @Codec.RoundTrips crates browser := by
  intro text lang v hv lang'
  rcases parse_crates hv with rfl | rfl <;> cases lang' <;> rfl

/-- A comment is typed, the JSON side looked at, and the document put back. -/
def sampleEdits : List Edit :=
  [.type "# mine\na: 1\n".toList, .switch .json, .format, .switch .yaml, .switch .json, .load "a: 1\n".toList]

theorem switching_is_presentation_sample : @PresentationOnly crates browser
    (@after crates browser ⟨⟨"a: 1\n".toList, none⟩, .yaml, "a: 1\n".toList⟩ sampleEdits) :=
  @switching_is_presentation crates browser .yaml _ roundTrips_crates "a: 1\n".toList rfl sampleEdits

/-- The document is overwritten with a text that is JSON and no YAML, while its JSON side is open; Revert cannot show it,
    and that very text is typed. -/
def damagedEdits : List Edit := [.switch .json, .load surrogates, .type surrogates]

/-- Then the buffer is unchanged, and a switch to YAML does not show the loaded text. -/
theorem unchanged_and_not_shown : @Codec.RoundTrips crates browser ∧ ∃ b : Buffer,
    @start crates browser "a: 1\n".toList .yaml = .ok b ∧ (@after crates browser b damagedEdits).original = surrogates ∧
      @unchanged crates browser (@after crates browser b damagedEdits) = true ∧
      (@switchLang crates browser (@after crates browser b damagedEdits) .yaml).lang = .yaml ∧
      (@switchLang crates browser (@after crates browser b damagedEdits) .yaml).editor.value = "s: 😀\n".toList ∧
      "s: 😀\n".toList ≠ surrogates :=
  ⟨roundTrips_crates, ⟨⟨"a: 1\n".toList, none⟩, .yaml, "a: 1\n".toList⟩, rfl, rfl, rfl, rfl, rfl, by decide⟩

end Buffer

end PveMeta
