import PveMeta.Lib.Assoc
import PveMeta.Lib.Text

/-! # A shell

The part of the POSIX shell that a script needs which is written for any of them: words with parameters and command
substitutions, all of them quoted, redirections, `if`, `case`, `for`, functions, pipelines and subshells, over a system that
runs the programs. Every call of a program, and every file that is opened for one, may be the last: the shell is killed
there with everything it started. -/

namespace Shell

/-! ### Syntax -/

mutual

/-- A word, part after part. A parameter or an output stands in double quotes, or is all that is assigned: nothing is
    split. -/
inductive Word where
  | nil
  | plain (t : Text) (w : Word)
  | quoted (t : Text) (w : Word)
  | param (name : Text) (w : Word)
  | output (c : Cmd) (w : Word)

inductive Words where
  | nil
  | cons (w : Word) (ws : Words)

/-- The arms of a `case`; no text is the pattern `*`. -/
inductive Arms where
  | nil
  | cons (pattern : Option Text) (c : Cmd) (arms : Arms)

inductive Cmd where
  | skip
  | simple (ws : Words)
  | assign (name : Text) (w : Word)
  | seq (c d : Cmd)
  | or (c d : Cmd)
  | not (c : Cmd)
  | pipe (c d : Cmd)
  | cond (b c d : Cmd)
  | choose (w : Word) (arms : Arms)
  | each (name : Text) (ws : Words) (c : Cmd)
  | sub (c : Cmd)
  | define (name : Text) (body : Cmd)
  /-- `< path` -/
  | input (path : Word) (c : Cmd)
  /-- `<<'mark'` -/
  | here (t : Text) (c : Cmd)
  /-- `> path` -/
  | create (path : Word) (c : Cmd)
  /-- `>&2` -/
  | toErr (c : Cmd)
  /-- `2>/dev/null` -/
  | dropErr (c : Cmd)
  /-- `>/dev/null 2>&1` -/
  | dropAll (c : Cmd)

end

deriving instance DecidableEq for Word, Words, Arms, Cmd

/-- A literal word. -/
def lit (s : String) : Word := .plain s.toList .nil

/-- A word that is one parameter. -/
def arg (name : String) : Word := .param name.toList .nil

def words : List Word → Words
  | [] => .nil
  | w :: ws => .cons w (words ws)

def cmd (ws : List Word) : Cmd := .simple (words ws)

/-! ### State -/

/-- How a command ends: the next one follows, the function returns, the shell exits or is killed. -/
inductive Flow where
  | next
  | ret
  | exit
  | killed
  deriving DecidableEq

/-- What a program leaves: its status, what it wrote, and what it did not read of its input. -/
structure Result where
  status : Nat
  out : Text
  err : Text
  rest : Text

/-- What the shell runs on. A call that has no result is where the shell was killed. -/
structure System (σ : Type) where
  /-- Where a program of this name is. -/
  locate : σ → Text → Option Text
  /-- `[ -d path ]` and its like. -/
  test : σ → Char → Text → Bool
  /-- What can be read at a path. -/
  read : σ → Text → Option Text
  /-- A file is made, or emptied, under a umask. -/
  create : Nat → Text → σ → Option Bool × σ
  /-- A file that was made is written. -/
  write : Text → Text → σ → Option Bool × σ
  run : List Text → Text → σ → Option Result × σ

structure State (σ : Type) where
  sys : σ
  input : Text := []
  out : Text := []
  err : Text := []
  status : Nat := 0
  args : List Text := []
  vars : List (Text × Text) := []
  funs : List (Text × Cmd) := []
  umask : Nat := 0o022
  nounset : Bool := false

namespace State

variable {σ : Type}

def ended (s : State σ) (status : Nat) : State σ := { s with status }

def say (s : State σ) (t : Text) : State σ := { s with out := s.out ++ t }

/-- What a subshell that ended in `t` leaves in the shell. -/
def leave (s t : State σ) : State σ :=
  { s with sys := t.sys, input := t.input, out := t.out, err := t.err, status := t.status }

/-- The same of one whose output went elsewhere. -/
def captured (s t : State σ) : State σ :=
  { s with sys := t.sys, input := t.input, err := t.err, status := t.status }

def bind (s : State σ) (name value : Text) : State σ := { s with vars := Assoc.insert name value s.vars }

/-- A parameter: an argument by its number, or a variable. -/
def param (s : State σ) (name : Text) : Option Text :=
  match name with
  | [c] => if c.isDigit && c != '0' then s.args[c.toNat - '1'.toNat]? else Assoc.get? name s.vars
  | _ => Assoc.get? name s.vars

end State

/-! ### Builtins -/

inductive Builtin where
  | ret
  | exit
  | set
  | export
  | exec
  | command
  | umask
  | echo
  | test
  deriving DecidableEq

def builtin (name : Text) : Option Builtin :=
  Assoc.get? name [("return".toList, .ret), ("exit".toList, .exit), ("set".toList, .set), ("export".toList, .export),
    ("exec".toList, .exec), ("command".toList, .command), ("umask".toList, .umask), ("echo".toList, .echo),
    ("[".toList, .test)]

/-- A status that is an argument; one that is none is a syntax error. -/
def statusOf (args : List Text) : Nat :=
  match args with
  | [t] => (Text.parseNat 256 t).getD 2
  | _ => 2

/-- `echo`, of texts that begin with no dash and have no backslash. -/
def echoed (args : List Text) : Text := [' '].intercalate args ++ ['\n']

/-- `export`: what has a value is assigned. -/
def exported (vars : List (Text × Text)) (args : List Text) : List (Text × Text) :=
  args.foldl
    (fun vars arg =>
      match Text.splitOnce '=' arg with
      | some (name, value) => Assoc.insert name value vars
      | none => vars)
    vars

section

variable {σ : Type} (S : System σ)

/-- What stands between the brackets of a test; nothing if it is none. -/
def holds (s : State σ) : List Text → Option Bool
  | [['-', op], path] => some (S.test s.sys op path)
  | [a, b, c] =>
    if b = ['!', '='] then some (a ≠ c)
    else if a = ['!'] then
      match b with
      | ['-', op] => some (! S.test s.sys op c)
      | _ => none
    else none
  | _ => none

/-- `[` -/
def tested (s : State σ) (args : List Text) : Nat :=
  if args.getLast? = some [']'] then
    match holds S s args.dropLast with
    | some b => if b then 0 else 1
    | none => 2
  else 2

/-- A program of the system. -/
def runProgram (argv : List Text) (s : State σ) : Flow × State σ :=
  match S.run argv s.input s.sys with
  | (none, sys) => (.killed, { s with sys })
  | (some r, sys) =>
    (.next, { s with sys, input := r.rest, out := s.out ++ r.out, err := s.err ++ r.err, status := r.status })

def runBuiltin (args : List Text) (s : State σ) : Builtin → Flow × State σ
  | .ret => (.ret, s.ended (statusOf args))
  | .exit => (.exit, s.ended (statusOf args))
  | .set => (.next, { s.ended 0 with nounset := s.nounset || args.contains ['-', 'u'] })
  | .export => (.next, { s.ended 0 with vars := exported s.vars args })
  | .exec =>
    match runProgram S args s with
    | (.next, s) => (.exit, s)
    | r => r
  | .command =>
    match S.locate s.sys (args.getD 1 []) with
    | some path => (.next, (s.say (path ++ ['\n'])).ended 0)
    | none => (.next, s.ended 127)
  | .umask => (.next, { s.ended 0 with umask := Nat.ofDigitChars 8 (args.getD 0 []) 0 })
  | .echo => (.next, (s.say (echoed args)).ended 0)
  | .test => (.next, s.ended (tested S s args))

/-! ### Commands -/

variable (call : Cmd → State σ → Flow × State σ)

/-- A function returns to where it was called, with the arguments there. -/
def callFunction (body : Cmd) (args : List Text) (s : State σ) : Flow × State σ :=
  match call body { s with args } with
  | (.ret, t) => (.next, { t with args := s.args })
  | (f, t) => (f, { t with args := s.args })

/-- A simple command, its words expanded. -/
def invoke (argv : List Text) (s : State σ) : Flow × State σ :=
  match argv with
  | [] => (.next, s)
  | name :: args =>
    match Assoc.get? name s.funs with
    | some body => callFunction call body args s
    | none =>
      match builtin name with
      | some b => runBuiltin S args s b
      | none => runProgram S argv s

/-- A loop over words that are expanded. -/
def loop (name : Text) (body : State σ → Flow × State σ) : List Text → State σ → Flow × State σ
  | [], s => (.next, s)
  | t :: ts, s =>
    match body (s.bind name t) with
    | (.next, s) => loop name body ts s
    | r => r

/-- The output of a command goes to a file that was made for it. -/
def toFile (path : Text) (body : State σ → Flow × State σ) (s : State σ) : Flow × State σ :=
  match S.create s.umask path s.sys with
  | (none, sys) => (.killed, { s with sys })
  | (some false, sys) => (.next, { s.ended 1 with sys })
  | (some true, sys) =>
    match body { s with sys, out := [] } with
    | (.killed, t) => (.killed, { t with out := s.out })
    | (f, t) =>
      match S.write path t.out t.sys with
      | (none, sys) => (.killed, { t with sys, out := s.out })
      | (some true, sys) => (f, { t with sys, out := s.out })
      | (some false, sys) => (f, { t.ended 1 with sys, out := s.out })

mutual

/-- The text of a word, unless the shell ends over it. -/
def expand : Word → State σ → Except Flow Text × State σ
  | .nil, s => (.ok [], s)
  | .plain t w, s | .quoted t w, s =>
    match expand w s with
    | (.ok u, s) => (.ok (t ++ u), s)
    | r => r
  | .param name w, s =>
    match s.param name with
    | none => if s.nounset then (.error .exit, s.ended 2) else expand w s
    | some t =>
      match expand w s with
      | (.ok u, s) => (.ok (t ++ u), s)
      | r => r
  | .output c w, s =>
    match exec c { s with out := [] } with
    | (.killed, t) => (.error .killed, s.captured t)
    | (_, t) =>
      match expand w (s.captured t) with
      | (.ok u, s) => (.ok (Text.trimNewlines t.out ++ u), s)
      | r => r

def expandAll : Words → State σ → Except Flow (List Text) × State σ
  | .nil, s => (.ok [], s)
  | .cons w ws, s =>
    match expand w s with
    | (.error f, s) => (.error f, s)
    | (.ok t, s) =>
      match expandAll ws s with
      | (.error f, s) => (.error f, s)
      | (.ok ts, s) => (.ok (t :: ts), s)

/-- The first arm whose pattern fits. -/
def choose (t : Text) : Arms → State σ → Flow × State σ
  | .nil, s => (.next, s.ended 0)
  | .cons pattern c arms, s => if pattern = none ∨ pattern = some t then exec c s else choose t arms s

def exec : Cmd → State σ → Flow × State σ
  | .skip, s => (.next, s.ended 0)
  | .simple ws, s =>
    match expandAll ws s with
    | (.error f, s) => (f, s)
    | (.ok argv, s) => invoke S call argv s
  | .assign name w, s =>
    match expand w (s.ended 0) with
    | (.error f, s) => (f, s)
    | (.ok t, s) => (.next, s.bind name t)
  | .seq c d, s =>
    match exec c s with
    | (.next, s) => exec d s
    | r => r
  | .or c d, s =>
    match exec c s with
    | (.next, s) => if s.status = 0 then (.next, s) else exec d s
    | r => r
  | .not c, s =>
    match exec c s with
    | (.next, s) => (.next, s.ended (if s.status = 0 then 1 else 0))
    | r => r
  | .pipe c d, s =>
    match exec c { s with out := [] } with
    | (.killed, t) => (.killed, s.captured t)
    | (_, t) =>
      match exec d { s.captured t with input := t.out } with
      | (f, u) => (if f = .killed then .killed else .next, { s.leave u with input := t.input })
  | .cond b c d, s =>
    match exec b s with
    | (.next, s) => if s.status = 0 then exec c s else exec d s
    | r => r
  | .choose w arms, s =>
    match expand w s with
    | (.error f, s) => (f, s)
    | (.ok t, s) => choose t arms s
  | .each name ws c, s =>
    match expandAll ws s with
    | (.error f, s) => (f, s)
    | (.ok ts, s) => loop name (exec c) ts (s.ended 0)
  | .sub c, s =>
    match exec c s with
    | (.killed, t) => (.killed, s.leave t)
    | (_, t) => (.next, s.leave t)
  | .define name body, s => (.next, { s.ended 0 with funs := Assoc.insert name body s.funs })
  | .input w c, s =>
    match expand w s with
    | (.error f, s) => (f, s)
    | (.ok path, s) =>
      match S.read s.sys path with
      | none => (.next, s.ended 1)
      | some t =>
        match exec c { s with input := t } with
        | (f, u) => (f, { u with input := s.input })
  | .here t c, s =>
    match exec c { s with input := t } with
    | (f, u) => (f, { u with input := s.input })
  | .create w c, s =>
    match expand w s with
    | (.error f, s) => (f, s)
    | (.ok path, s) => toFile S path (exec c) s
  | .toErr c, s =>
    match exec c { s with out := [] } with
    | (f, t) => (f, { t with out := s.out, err := t.err ++ t.out })
  | .dropErr c, s =>
    match exec c s with
    | (f, t) => (f, { t with err := s.err })
  | .dropAll c, s =>
    match exec c s with
    | (f, t) => (f, { t with out := s.out, err := s.err })

end

@[simp] theorem expand_nil (s : State σ) : expand S call .nil s = (.ok [], s) := by rw [expand]

@[simp] theorem expandAll_nil (s : State σ) : expandAll S call .nil s = (.ok [], s) := by rw [expandAll]

@[simp] theorem exec_skip (s : State σ) : exec S call .skip s = (.next, s.ended 0) := by rw [exec]

end

/-- Functions that are nested too deep bring the shell down. -/
def calls {σ : Type} (S : System σ) : Nat → Cmd → State σ → Flow × State σ
  | 0, _, s => (.killed, s)
  | depth + 1, c, s => exec S (calls S depth) c s

end Shell
