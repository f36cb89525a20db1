import PveMeta.Guest.Pct

/-! # The functions of the scripts

The functions that the scripts define, and what stands before them, as commands. -/

namespace PveMeta
namespace Guest

open Shell (Cmd Word lit arg cmd)

/-! ### What is in all of them -/

/-- The tools that a guest must have. -/
def toolNames : List String := ["stat", "sha256sum", "base64", "head", "cut", "mv", "rm", "mkdir", "chown", "chmod"]

/-- Says to the error output which tool is not there, and ends the script. -/
def missingTool : Cmd :=
  .seq (.toErr (cmd [lit "echo", .quoted ['\''] (.param ['t'] (.quoted "' is not in the guest".toList .nil))]))
    (cmd [lit "exit", lit "90"])

def toolsCheck : Cmd :=
  .each ['t'] (Shell.words (toolNames.map lit)) (.or (.dropAll (cmd [lit "command", lit "-v", arg "t"])) missingTool)

def preludeCommands : List Cmd :=
  [cmd [lit "set", lit "-u"], .assign "PATH".toList (lit "/usr/sbin:/usr/bin:/sbin:/bin"),
    cmd [lit "export", lit "PATH", lit "LC_ALL=C"], toolsCheck]

/-- `[ -L "$1" ]` and its like. -/
def isA (op name : String) : Cmd := cmd [lit "[", lit op, arg name, lit "]"]

def isNoA (op name : String) : Cmd := cmd [lit "[", lit "!", lit op, arg name, lit "]"]

def orSkip (b c : Cmd) : Cmd := .cond b c .skip

/-! ### A probe -/

def orFail (c : Cmd) : Cmd := .or c (cmd [lit "exit", lit "91"])

/-- `sha256sum < "$1" | cut -d' ' -f1` -/
def hashOf : Cmd :=
  .pipe (.input (arg "1") (cmd [lit "sha256sum"])) (cmd [lit "cut", .plain "-d".toList (.quoted [' '] .nil), lit "-f1"])

def statOf : Cmd := cmd [lit "stat", lit "-c", .quoted "%u %g %a".toList .nil, arg "1"]

def fileLine : Cmd :=
  cmd [lit "echo", .quoted "F ".toList (.param ['s'] (.quoted [' '] (.param ['h'] .nil)))]

def probeBody : Cmd :=
  .cond (isA "-L" "1") (cmd [lit "echo", lit "L"]) <|
  .cond (isNoA "-e" "1") (cmd [lit "echo", lit "M"]) <|
  .cond (isA "-d" "1") (cmd [lit "echo", lit "D"]) <|
  .cond (isA "-f" "1")
    (.seq (orFail (.assign ['s'] (.output statOf .nil))) (.seq (orFail (.assign ['h'] (.output hashOf .nil))) fileLine))
    (cmd [lit "echo", lit "O"])

/-! ### A commit -/

/-- Says to the error output what is in the way, and ends the script. -/
def inTheWay (what : String) : Cmd :=
  .seq (.toErr (cmd [lit "echo", .param ['1'] (.quoted what.toList .nil)])) (cmd [lit "exit", lit "92"])

def dirBody : Cmd :=
  .seq (orSkip (isA "-L" "1") (inTheWay " is a symlink")) <|
  .seq (orSkip (isA "-d" "1") (cmd [lit "return", lit "0"])) <|
  .seq (orSkip (isA "-e" "1") (inTheWay " is not a directory")) <|
  .or (cmd [lit "mkdir", lit "-m", lit "0755", arg "1"]) (cmd [lit "exit", lit "92"])

/-- `echo "$1 done"` and its like. -/
def tell (what : String) : Cmd := cmd [lit "echo", .param ['1'] (.quoted (' ' :: what.toList) .nil)]

def tellAndReturn (what : String) : Cmd := .seq (tell what) (cmd [lit "return", lit "0"])

/-- `[ "$(h "$2")" != "$4" ]` -/
def hashDiffers (expected : String) : Cmd :=
  cmd [lit "[", .output (cmd [lit "h", arg "2"]) .nil, lit "!=", arg expected, lit "]"]

def removeTemp : Cmd := cmd [lit "rm", lit "-f", arg "3"]

def giveUp (what : String) : Cmd := .seq removeTemp (tellAndReturn what)

/-- `( umask 077; base64 -d > "$3" ) 2>/dev/null` -/
def writeTemp : Cmd :=
  .dropErr (.sub (.seq (cmd [lit "umask", lit "077"]) (.create (arg "3") (cmd [lit "base64", lit "-d"]))))

def notOwned : Cmd :=
  .or (.not (.dropErr (cmd [lit "chown", arg "6", arg "3"]))) (.not (cmd [lit "chmod", arg "5", arg "3"]))

def isThere : Cmd := .or (isA "-e" "2") (isA "-L" "2")

def isNotThat : Cmd := .or (.or (isA "-L" "2") (isNoA "-f" "2")) (hashDiffers "4")

/-- The expectation: anything, nothing, or a hash. -/
def unlessExpected : Cmd :=
  .choose (arg "4") <|
    .cons (some ['*']) .skip <|
    .cons (some ['-']) (orSkip isThere (giveUp "changed")) <|
    .cons none (orSkip isNotThat (giveUp "changed")) .nil

def placeBody : Cmd :=
  .seq removeTemp <|
  .seq (orSkip (.not writeTemp) (giveUp "failed write")) <|
  .seq (orSkip notOwned (giveUp "failed owner or mode")) <|
  .seq unlessExpected <|
  .seq (orSkip (.not (cmd [lit "mv", lit "-f", arg "3", arg "2"])) (giveUp "failed rename")) <|
  tell "done"

def removeBody : Cmd :=
  .seq (orSkip (isA "-L" "2") (tellAndReturn "changed")) <|
  .seq (orSkip (isNoA "-e" "2") (tellAndReturn "done")) <|
  .seq (orSkip (.or (isNoA "-f" "2") (hashDiffers "3")) (tellAndReturn "changed")) <|
  .seq (orSkip (.not (cmd [lit "rm", lit "-f", arg "2"])) (tellAndReturn "failed removal")) <|
  tell "done"

def commitDefinitions : List Cmd :=
  [.define ['d'] dirBody, .define ['h'] hashOf, .define ['w'] placeBody, .define "rmf".toList removeBody]

/-- The word that stands quoted in a script. -/
def quotedWord (t : Text) : Word := .quoted t .nil

def plainWord (t : Text) : Word := .plain t .nil

/-- A call of `d`. -/
def dirCommand (dir : Text) : Cmd := cmd [lit "d", quotedWord dir]

/-- A call of `w` or `rmf`. -/
def opCommand (i : Nat) : Op → Cmd
  | .place path content mode owner expect =>
    .here (base64 content ++ ['\n'])
      (cmd [lit "w", plainWord (Nat.toDigits 10 i), quotedWord path, quotedWord (tempFor path),
      quotedWord expect.text, plainWord (modeText mode), plainWord owner.text])
  | .remove path sha256 => cmd [lit "rmf", plainWord (Nat.toDigits 10 i), quotedWord path, quotedWord sha256.toList]

/-- What the script of a commit is to do. -/
def commitCommands (dirs : List Text) (ops : List Op) : List Cmd :=
  preludeCommands ++ commitDefinitions ++ dirs.map dirCommand ++ ops.zipIdx.map fun e => opCommand e.2 e.1

def probeCommands (paths : List Text) : List Cmd :=
  preludeCommands ++ [.define ['p'] probeBody] ++ paths.map fun path => cmd [lit "p", quotedWord path]

def readCommands (path : Text) (max : Nat) : List Cmd :=
  preludeCommands ++ [orSkip (.or (cmd [lit "[", lit "-L", quotedWord path, lit "]"])
      (cmd [lit "[", lit "!", lit "-f", quotedWord path, lit "]"])) (cmd [lit "exit", lit "3"]),
    cmd [lit "exec", lit "head", lit "-c", plainWord (Nat.toDigits 10 (max + 1)), quotedWord path]]

end Guest
end PveMeta
