import PveMeta.Lib.Reader
import PveMeta.Lib.Shell

/-! # Reading a shell's commands

A shell that is given a script on its input reads it command by command, each up to the newline that ends it and with the
text that a `<<` asks for, and runs each before it reads the next. What this reader does not know it does not take: an
unquoted parameter or pattern in a word, a redirection of another kind, `&`, `&&`. -/

namespace Shell

open Reader

/-- Ends a word. -/
def isMeta (c : Char) : Bool := [' ', '\t', '\n', ';', '|', '&', '<', '>', '(', ')'].contains c

/-- Stands for itself in a word. -/
def isPlain (c : Char) : Bool :=
  c.isAlphanum || ['-', '_', '.', '/', ':', '=', '%', '+', ',', '@', '[', ']', '!', '{', '}'].contains c

def isNameChar (c : Char) : Bool := c.isAlphanum || c == '_'

/-- Stands for itself between double quotes. -/
def isQuotable (c : Char) : Bool := ! ['"', '$', '\\', Char.ofNat 96].contains c

/-- What a list of commands ends with. -/
inductive Closer where
  | paren
  | arm
  | word (t : Text)
  deriving DecidableEq

def closers : List Text :=
  ["then".toList, "elif".toList, "else".toList, "fi".toList, "do".toList, "done".toList, "esac".toList, "\x7d".toList]

def blanks : Reader Char Unit := do
  let _ ← takeWhile (· == ' ')
  pure ()

/-- A command, and those that follow it. -/
def Cmd.followed (c : Cmd) : Option Cmd → Cmd
  | none => c
  | some d => .seq c d

def Word.after (t : Text) (w : Word) : Word := if t = [] then w else .plain t w

/-- The name that a word assigns, and the first part of the value. -/
def assigned (t : Text) : Option (Text × Text) :=
  match Text.splitOnce '=' t with
  | some (name, value) => if name ≠ [] ∧ name.all isNameChar = true then some (name, value) else none
  | none => none

def devNull : Word := .plain "/dev/null".toList .nil

mutual

/-- What a `$` brings. -/
def dollar : Nat → Reader Char (Word → Word)
  | 0 => fail
  | n + 1 => do
    let c ← peek
    if c = '(' then
      let _ ← item
      match ← list n with
      | (some c, .paren) => pure (.output c)
      | _ => fail
    else if c.isDigit then
      let c ← item
      pure (.param [c])
    else
      let name ← takeWhile isNameChar
      if name = [] then fail else pure (.param name)

/-- What follows a double quote: the rest of what is quoted, and of the word. -/
def quotedRest (bare : Bool) : Nat → Reader Char Word
  | 0 => fail
  | n + 1 => do
    let c ← peek
    if c = '"' then
      let _ ← item
      wordRest bare n
    else if c = '$' then
      let _ ← item
      let f ← dollar n
      let w ← quotedRest bare n
      pure (f w)
    else
      let t ← takeWhile isQuotable
      if t = [] then fail
      else
        let w ← quotedRest bare n
        pure (.quoted t w)

/-- The parts of a word. Only the value of an assignment has a bare `$`. -/
def wordRest (bare : Bool) : Nat → Reader Char Word
  | 0 => fail
  | n + 1 => do
    let c ← peek
    if isMeta c then pure .nil
    else if c = '\'' then
      let _ ← item
      let t ← takeWhile (· != '\'')
      let _ ← item
      let w ← wordRest bare n
      pure (.quoted t w)
    else if c = '"' then
      let _ ← item
      quotedRest bare n
    else if c = '$' && bare then
      let _ ← item
      let f ← dollar n
      let w ← wordRest bare n
      pure (f w)
    else if isPlain c then
      let t ← takeWhile isPlain
      let w ← wordRest bare n
      pure (.plain t w)
    else fail

/-- What follows `<` or `>`. -/
def redirection : Nat → Reader Char (Cmd → Cmd)
  | 0 => fail
  | n + 1 => do
    let c ← item
    let d ← peek
    if c = '<' then
      if d = '<' then
        let _ ← item
        expect '\''
        let mark ← takeWhile (· != '\'')
        let _ ← item
        pure (.here mark)
      else
        blanks
        let w ← wordRest false n
        pure (.input w)
    else if d = '&' then
      let _ ← item
      expect '2'
      pure .toErr
    else
      blanks
      let w ← wordRest false n
      if w = devNull then
        blanks
        expect '2'
        expect '>'
        expect '&'
        expect '1'
        pure .dropAll
      else pure (.create w)

/-- The words and the redirections that are left of a simple command. -/
def arguments : Nat → Reader Char (Words × (Cmd → Cmd))
  | 0 => fail
  | n + 1 => do
    let c ← peek
    if c = ' ' then
      let _ ← item
      arguments n
    else if c = '\n' || c = ';' || c = '|' || c = ')' then pure (.nil, id)
    else if c = '<' || c = '>' then
      let f ← redirection n
      let (ws, g) ← arguments n
      pure (ws, f ∘ g)
    else argument n

/-- A word, or the number of a file and a redirection, and what follows. -/
def argument : Nat → Reader Char (Words × (Cmd → Cmd))
  | 0 => fail
  | n + 1 => do
    let t ← takeWhile isPlain
    let d ← peek
    if t = ['2'] ∧ d = '>' then
      let _ ← item
      let w ← wordRest false n
      if w = devNull then
        let (ws, g) ← arguments n
        pure (ws, .dropErr ∘ g)
      else fail
    else
      let w ← wordRest false n
      let (ws, g) ← arguments n
      pure (.cons (.after t w) ws, g)

/-- What follows `if` or `elif`. -/
def condRest : Nat → Reader Char Cmd
  | 0 => fail
  | n + 1 => do
    let (b, k) ← list n
    let (c, l) ← list n
    match b, c with
    | some b, some c =>
      if k = .word "then".toList then
        if l = .word "fi".toList then pure (.cond b c .skip)
        else if l = .word "elif".toList then
          let d ← condRest n
          pure (.cond b c d)
        else if l = .word "else".toList then
          match ← list n with
          | (some d, k) => if k = .word "fi".toList then pure (.cond b c d) else fail
          | _ => fail
        else fail
      else fail
    | _, _ => fail

/-- The arms of a `case`. -/
def armsRest : Nat → Reader Char Arms
  | 0 => fail
  | n + 1 => do
    let c ← peek
    if c = ' ' || c = '\n' then
      let _ ← item
      armsRest n
    else
      let t ← takeWhile isPlain
      if t = "esac".toList then pure .nil
      else
        let c ← peek
        let pattern ←
          if t ≠ [] then pure (some t)
          else if c = '*' then do
            let _ ← item
            pure none
          else do
            expect '\''
            let t ← takeWhile (· != '\'')
            let _ ← item
            pure (some t)
        expect ')'
        let (body, k) ← list n
        if k = .arm then
          let arms ← armsRest n
          pure (.cons pattern (body.getD .skip) arms)
        else fail

/-- The command that begins with this much of a first word. -/
def stage (t : Text) : Nat → Reader Char Cmd
  | 0 => fail
  | n + 1 => do
    let c ← peek
    if t = "if".toList then condRest n
    else if t = "case".toList then
      blanks
      let w ← wordRest false n
      blanks
      expect 'i'
      expect 'n'
      let arms ← armsRest n
      pure (.choose w arms)
    else if t = "for".toList then
      blanks
      let name ← takeWhile isNameChar
      blanks
      expect 'i'
      expect 'n'
      let (ws, _) ← arguments n
      expect ';'
      let (_, k) ← list n
      match ← list n with
      | (some c, l) => if k = .word "do".toList ∧ l = .word "done".toList then pure (.each name ws c) else fail
      | _ => fail
    else if t = "\x7b".toList then
      match ← list n with
      | (some c, k) => if k = .word "\x7d".toList then pure c else fail
      | _ => fail
    else if c = '(' then
      let _ ← item
      if t = [] then
        match ← list n with
        | (some c, .paren) =>
          match ← arguments n with
          | (.nil, f) => pure (f (.sub c))
          | _ => fail
        | _ => fail
      else
        expect ')'
        blanks
        expect '{'
        match ← list n with
        | (some c, k) => if k = .word "\x7d".toList then pure (.define t c) else fail
        | _ => fail
    else
      match assigned t with
      | some (name, value) =>
        let w ← wordRest true n
        pure (.assign name (.after value w))
      | none =>
        let w ← wordRest false n
        let (ws, f) ← arguments n
        pure (f (.simple (.cons (.after t w) ws)))

/-- A pipeline, and whether `||` follows, which is read. -/
def pipeline (t : Text) : Nat → Reader Char (Cmd × Bool)
  | 0 => fail
  | n + 1 => do
    if t = "!".toList then
      blanks
      let t ← takeWhile isPlain
      let (c, more) ← pipeline t n
      pure (.not c, more)
    else
      let c ← stage t n
      blanks
      if (← peek) = '|' then
        let _ ← item
        if (← peek) = '|' then
          let _ ← item
          pure (c, true)
        else
          blanks
          let t ← takeWhile isPlain
          let (d, more) ← pipeline t n
          pure (.pipe c d, more)
      else pure (c, false)

/-- Pipelines with `||` between them. -/
def orRest (left : Option Cmd) (t : Text) : Nat → Reader Char Cmd
  | 0 => fail
  | n + 1 => do
    let (c, more) ← pipeline t n
    let c := match left with
      | some b => .or b c
      | none => c
    if more then
      blanks
      let t ← takeWhile isPlain
      orRest (some c) t n
    else pure c

/-- Commands, up to what closes the list. -/
def list : Nat → Reader Char (Option Cmd × Closer)
  | 0 => fail
  | n + 1 => do
    let c ← peek
    if c = ' ' || c = '\n' then
      let _ ← item
      list n
    else if c = ')' then
      let _ ← item
      pure (none, .paren)
    else if c = ';' then
      let _ ← item
      expect ';'
      pure (none, .arm)
    else
      let t ← takeWhile isPlain
      if closers.contains t then pure (none, .word t)
      else
        let c ← orRest none t n
        let (cs, k) ← listRest n
        pure (some (c.followed cs), k)

/-- What follows a command of a list. -/
def listRest : Nat → Reader Char (Option Cmd × Closer)
  | 0 => fail
  | n + 1 => do
    let c ← peek
    if c = ' ' then
      let _ ← item
      listRest n
    else if c = ';' then
      let _ ← item
      if (← peek) = ';' then
        let _ ← item
        pure (none, .arm)
      else list n
    else list n

end

/-- The lines up to the mark, given what was read of the first. -/
def hereLines (mark : Text) : Text → Text → Option (Text × Text)
  | _, [] => none
  | line, c :: t =>
    if c = '\n' then
      if line = mark then some ([], t) else (hereLines mark [] t).map fun (body, r) => (line ++ '\n' :: body, r)
    else hereLines mark (line ++ [c]) t

theorem hereLines_append {mark line t body r : Text} (h : hereLines mark line t = some (body, r)) (more : Text) :
    hereLines mark line (t ++ more) = some (body, r ++ more) := by
  induction t generalizing line body with
  | nil => cases h
  | cons c t ih =>
    rw [List.cons_append, hereLines]
    rw [hereLines] at h
    split
    · next hc =>
      rw [if_pos hc] at h
      split
      · next hm =>
        rw [if_pos hm] at h
        cases h
        rfl
      · next hm =>
        rw [if_neg hm] at h
        obtain ⟨⟨body', r'⟩, hrest, heq⟩ := Option.map_eq_some_iff.mp h
        cases heq
        rw [ih hrest]
        rfl
    · next hc =>
      rw [if_neg hc] at h
      exact ih h

def hereText (mark : Text) : Reader Char Text where
  read := hereLines mark []
  read_append h more := hereLines_append h more

/-- How far a command may nest, and how many parts it may have. -/
def maxParts : Nat := 4096

def isSpacing (c : Char) : Bool := c == ' ' || c == '\n'

/-- One command, up to the newline that ends it, and with its text. -/
def complete : Reader Char Cmd := do
  let _ ← takeWhile isSpacing
  let t ← takeWhile isPlain
  if closers.contains t then fail
  else
    let c ← orRest none t maxParts
    blanks
    expect '\n'
    match c with
    | .here mark c =>
      let t ← hereText mark
      pure (.here t c)
    | c => pure c

/-- As many commands. -/
def commands : Nat → Reader Char (List Cmd)
  | 0 => pure []
  | n + 1 => do
    let c ← complete
    let cs ← commands n
    pure (c :: cs)

/-- A text is these commands. -/
def Script (t : Text) (cs : List Cmd) : Prop := (commands cs.length).read t = some (cs, [])

instance (t : Text) (cs : List Cmd) : Decidable (Script t cs) := inferInstanceAs (Decidable (_ = _))

theorem script_nil : Script [] [] := rfl

theorem commands_succ {n : Nat} {t r : Text} {c : Cmd} {cs : List Cmd} (h : (commands (n + 1)).read t = some (c :: cs, r)) :
    ∃ u, complete.read t = some (c, u) ∧ (commands n).read u = some (cs, r) := by
  cases hc : complete.read t with
  | none =>
    have hread : (commands (n + 1)).read t = none := read_bind_none hc
    rw [hread] at h
    cases h
  | some e =>
    have hread := read_bind (f := fun c => (commands n) >>= fun cs => pure (c :: cs)) hc
    cases hcs : (commands n).read e.2 with
    | none =>
      rw [commands, hread, read_bind_none hcs] at h
      cases h
    | some e' =>
      rw [commands, hread, read_bind hcs] at h
      cases h
      exact ⟨e.2, rfl, hcs⟩

theorem Script.cons {t u : Text} {c : Cmd} {cs : List Cmd} (h : complete.read t = some (c, [])) (hu : Script u cs) :
    Script (t ++ u) (c :: cs) := by
  have ht : complete.read (t ++ u) = some (c, u) := by
    rw [complete.read_append h u, List.nil_append]
  show (commands (cs.length + 1)).read (t ++ u) = _
  rw [commands, read_bind ht, read_bind hu, read_pure]

theorem commands_append {t u : Text} {cs ds : List Cmd} {r : Text} (h : (commands cs.length).read t = some (cs, u))
    (hu : (commands ds.length).read u = some (ds, r)) : (commands (cs ++ ds).length).read t = some (cs ++ ds, r) := by
  induction cs generalizing t with
  | nil =>
    cases h
    exact hu
  | cons c cs ih =>
    obtain ⟨v, hc, hcs⟩ := commands_succ h
    rw [List.cons_append, List.length_cons, commands, read_bind hc, read_bind (ih hcs), read_pure]

theorem Script.append {t u : Text} {cs ds : List Cmd} (h : Script t cs) (hu : Script u ds) :
    Script (t ++ u) (cs ++ ds) := by
  refine commands_append (u := u) ?_ hu
  simpa using (commands cs.length).read_append h u

theorem script_flatMap {α : Type} {text : α → Text} {command : α → Cmd} {l : List α}
    (h : ∀ a ∈ l, complete.read (text a) = some (command a, [])) : Script (l.flatMap text) (l.map command) := by
  induction l with
  | nil => exact script_nil
  | cons a l ih =>
    exact (Script.cons (h a List.mem_cons_self) (ih fun b hb => h b (List.mem_cons_of_mem a hb)))

/-! ### Running a script -/

section

variable {σ : Type} (S : System σ) (turn : σ → σ) (depth : Nat)

/-- The commands on the shell's input, one after the other. Before each of them the system has a turn of its own. -/
def runInput : Nat → State σ → Flow × State σ
  | 0, s => (.killed, s)
  | n + 1, s =>
    if s.input.all isSpacing then (.next, s)
    else
      match complete.read s.input with
      | none => (.exit, s.ended 2)
      | some (c, rest) =>
        match exec S (calls S depth) c { s with input := rest, sys := turn s.sys } with
        | (.next, s) => runInput n s
        | r => r

/-- A script that the shell is fed on its input. -/
def runScript (script : Text) (sys : σ) : Flow × State σ :=
  runInput S turn depth (script.length + 1) { sys, input := script }

end

end Shell
