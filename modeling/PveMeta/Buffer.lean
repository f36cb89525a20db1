import PveMeta.Panel

/-! # The buffer of a text editor

What the Text card and the subtree window do to a Monaco buffer (`21-codec.js`, `22-buffer.js`, `56-text-window.js`,
`61-text-card.js`): Format, the switch between YAML and JSON, and whether anything changed. Squiggles and the button that
is put back are left out; an error is what the alert says. -/

namespace PveMeta

variable [Deps] [Browser]

/-! ### Codec -/

namespace Codec

/-- A buffer as a value; an empty one is the empty document. -/
def parse (text : Text) (lang : Format) : Except Error Value :=
  (View.parse text lang).map fun tree =>
    match tree.val with
    | .null => .object []
    | v => Panel.js v

def dump (value : Value) (lang : Format) : Text := View.render value lang

/-- Whether a value is what a YAML text parses to, order aside. -/
def same (value : Value) (yamlText : Text) : Bool :=
  match parse yamlText .yaml with
  | .ok w => value == w
  | .error _ => false

/-- As `dump`, but YAML is the original text where it has the same value. -/
def render (value : Value) (lang : Format) (originalYaml : Text) : Text :=
  if lang ≠ .json ∧ same value originalYaml = true then originalYaml else dump value lang

/-- The text that was loaded, in a language. -/
def originalInLang (originalYaml : Text) : Format → Except Error Text
  | .json => (parse originalYaml .yaml).map fun value => dump value .json
  | .yaml => .ok originalYaml

end Codec

/-! ### Buffer -/

/-- What the YAML side held when the JSON side was entered. -/
structure Stash where
  yaml : Text
  json : Text
  deriving DecidableEq

/-- A Monaco editor, and what is stashed for it. -/
structure Editor where
  value : Text
  stashed : Option Stash
  deriving DecidableEq

structure Buffer where
  editor : Editor
  lang : Format
  /-- The text that was loaded -/
  original : Text
  deriving DecidableEq

namespace Buffer

/-- The text that was loaded, in the buffer's language if it can be shown so. -/
def baseline (b : Buffer) : Format × Text :=
  match Codec.originalInLang b.original b.lang with
  | .ok text => (b.lang, text)
  | .error _ => (.yaml, b.original)

/-- On a JSON side nobody touched, the answer is the YAML behind it. -/
def unchanged (b : Buffer) : Bool :=
  match b.editor.stashed with
  | some held =>
    if b.lang = .json ∧ b.editor.value = held.json then held.yaml = b.original else b.editor.value = b.baseline.2
  | none => b.editor.value = b.baseline.2

def load (text : Text) : Editor := ⟨text, none⟩

/-- Whether the text changed, and the editor. -/
def format (b : Buffer) : Except Error (Bool × Editor) :=
  (Codec.parse b.editor.value b.lang).map fun value =>
    let formatted := Codec.dump value b.lang
    if formatted = b.editor.value then (false, b.editor) else (true, { b.editor with value := formatted })

/-- The first half of a switch: the buffer as a value. -/
def convert (b : Buffer) : Except Error Value := Codec.parse b.editor.value b.lang

/-- What the second half shows, and what is stashed then. -/
def rendered (b : Buffer) (value : Value) (leaving : Text) : Text × Option Stash :=
  match b.lang with
  | .json => (Codec.dump value .json, some ⟨leaving, Codec.dump value .json⟩)
  | .yaml =>
    match b.editor.stashed with
    | some held => (if held.json = leaving then held.yaml else Codec.render value .yaml b.original, none)
    | none => (Codec.render value .yaml b.original, none)

/-- The second half: the value in the buffer's language. -/
def render (b : Buffer) (value : Value) : Editor :=
  let shown := b.rendered value b.editor.value
  ⟨shown.1, shown.2⟩

/-! ### What the editors do -/

/-- `switchLang`, `switchTextLang`: a buffer that does not parse stays as it is. -/
def switchLang (b : Buffer) (lang : Format) : Buffer :=
  if lang = b.lang then b
  else
    match b.convert with
    | .error _ => b
    | .ok value => { b with lang := lang, editor := { b with lang := lang }.render value }

/-- `formatBuffer`, `formatText` -/
def formatBuffer (b : Buffer) : Buffer :=
  match b.format with
  | .error _ => b
  | .ok (_, editor) => { b with editor := editor }

/-- `refreshText`: the loaded text is the new one before the editor is given it, and where it cannot be shown in the
    buffer's language, the editor is not. -/
def refresh (b : Buffer) (text : Text) : Buffer :=
  match Codec.originalInLang text b.lang with
  | .error _ => { b with original := text }
  | .ok shown => { b with original := text, editor := load shown }

/-- What is done in an editor. -/
inductive Edit where
  | type (text : Text)
  | format
  | switch (lang : Format)
  | load (text : Text)
  /-- The document is read again around the buffer (`keepBuffer`, `conflict`) -/
  | compare (text : Text)
  deriving DecidableEq

/-- A new editor, unless the text cannot be shown in the language. -/
def start (original : Text) (lang : Format) : Except Error Buffer :=
  (Codec.originalInLang original lang).map fun text => ⟨load text, lang, original⟩

def step (b : Buffer) : Edit → Buffer
  | .type text => { b with editor := { b.editor with value := text } }
  | .format => b.formatBuffer
  | .switch lang => b.switchLang lang
  | .load text => b.refresh text
  | .compare text => { b with original := text }

def after (b : Buffer) (edits : List Edit) : Buffer := edits.foldl step b

end Buffer
end PveMeta
