import PveMeta.Guest.Plan

/-! # The scripts that run in a guest

What a commit hands to the shell of a guest (`pct.rs`): the directories, then one line for each operation, with the content
of a file that is written inline, in base64 up to a mark. -/

namespace PveMeta
namespace Guest

/-! ### Inline content -/

/-- Ends every piece of content. -/
def eofMark : Text := "PVE_META_GUEST_FILES_EOF".toList

/-- `ALPHABET` -/
def alphabet : List Char := "ABCDEFGHIJKLMNOPQRSTUVWXYZabcdefghijklmnopqrstuvwxyz0123456789+/".toList

theorem and_63_lt (n : UInt32) : (n &&& 63).toNat < alphabet.length := by
  rw [UInt32.toNat_and]
  exact Nat.lt_succ_of_le Nat.and_le_right

/-- The letter of the lowest six bits. -/
def letterOf (n : UInt32) : Char := alphabet.get ⟨(n &&& 63).toNat, and_63_lt n⟩

/-- `chunks(3)` -/
def chunks : List UInt8 → List (List UInt8)
  | a :: b :: c :: rest => [a, b, c] :: chunks rest
  | [] => []
  | last => [last]

/-- The bytes of a chunk in the upper ones of three. -/
def chunkBits (chunk : List UInt8) : UInt32 :=
  chunk.foldl (fun (acc : UInt32) b => acc <<< 8 ||| b.toUInt32) 0 <<< UInt32.ofNat (8 * (3 - chunk.length))

def encodeChunk (chunk : List UInt8) : Text :=
  (List.range 4).map fun k =>
    if k ≤ chunk.length then letterOf (chunkBits chunk >>> UInt32.ofNat (18 - 6 * k)) else '='

/-- The `i`-th chunk, after a newline if the line is full. -/
def pushChunk (out : Text) (e : List UInt8 × Nat) : Text :=
  (if 0 < e.2 ∧ e.2 % 19 = 0 then out ++ ['\n'] else out) ++ encodeChunk e.1

/-- Standard base64 in lines of 76. -/
def base64 (bytes : ByteArray) : Text := (chunks bytes.data.toList).zipIdx.foldl pushChunk []

/-! ### The script of a commit -/

def scriptPrelude : Text :=
  ("set -u\n" ++
    "PATH=/usr/sbin:/usr/bin:/sbin:/bin\n" ++
    "export PATH LC_ALL=C\n" ++
    "for t in stat sha256sum base64 head cut mv rm mkdir chown chmod; do\n" ++
    "  command -v \"$t\" >/dev/null 2>&1 || \x7b echo \"'$t' is not in the guest\" >&2; exit 90; \x7d\n" ++
    "done\n").toList

def commitFunctions : Text :=
  ("d() \x7b\n" ++
    "  if [ -L \"$1\" ]; then echo \"$1 is a symlink\" >&2; exit 92; fi\n" ++
    "  if [ -d \"$1\" ]; then return 0; fi\n" ++
    "  if [ -e \"$1\" ]; then echo \"$1 is not a directory\" >&2; exit 92; fi\n" ++
    "  mkdir -m 0755 \"$1\" || exit 92\n" ++
    "\x7d\n" ++
    "h() \x7b sha256sum < \"$1\" | cut -d' ' -f1; \x7d\n" ++
    "w() \x7b\n" ++
    "  rm -f \"$3\"\n" ++
    "  if ! ( umask 077; base64 -d > \"$3\" ) 2>/dev/null; then rm -f \"$3\"; echo \"$1 failed write\"; return 0; fi\n" ++
    "  if ! chown \"$6\" \"$3\" 2>/dev/null || ! chmod \"$5\" \"$3\"; then rm -f \"$3\"; echo \"$1 failed owner or mode\"; return 0; fi\n" ++
    "  case \"$4\" in\n" ++
    "    '*') ;;\n" ++
    "    -) if [ -e \"$2\" ] || [ -L \"$2\" ]; then rm -f \"$3\"; echo \"$1 changed\"; return 0; fi ;;\n" ++
    "    *) if [ -L \"$2\" ] || [ ! -f \"$2\" ] || [ \"$(h \"$2\")\" != \"$4\" ]; then rm -f \"$3\"; echo \"$1 changed\"; return 0; fi ;;\n" ++
    "  esac\n" ++
    "  if ! mv -f \"$3\" \"$2\"; then rm -f \"$3\"; echo \"$1 failed rename\"; return 0; fi\n" ++
    "  echo \"$1 done\"\n" ++
    "\x7d\n" ++
    "rmf() \x7b\n" ++
    "  if [ -L \"$2\" ]; then echo \"$1 changed\"; return 0; fi\n" ++
    "  if [ ! -e \"$2\" ]; then echo \"$1 done\"; return 0; fi\n" ++
    "  if [ ! -f \"$2\" ] || [ \"$(h \"$2\")\" != \"$3\" ]; then echo \"$1 changed\"; return 0; fi\n" ++
    "  if ! rm -f \"$2\"; then echo \"$1 failed removal\"; return 0; fi\n" ++
    "  echo \"$1 done\"\n" ++
    "\x7d\n").toList

def quote (s : Text) : Text := ['\''] ++ s ++ ['\'']

/-- `{mode:04o}` -/
def modeText (mode : Nat) : Text :=
  let digits := Nat.toDigits 8 mode
  List.replicate (4 - digits.length) '0' ++ digits

def Owner.text (owner : Owner) : Text := Nat.toDigits 10 owner.uid.toNat ++ [':'] ++ Nat.toDigits 10 owner.gid.toNat

def Expect.text : Expect → Text
  | .missing => ['-']
  | .any => ['*']
  | .sha256 hash => hash.toList

/-- The line that an operation starts with. -/
def opLine (i : Nat) : Op → Text
  | .place path _ mode owner expect =>
    "w ".toList ++ Nat.toDigits 10 i ++ [' '] ++ quote path ++ [' '] ++ quote (tempFor path) ++ [' '] ++
      quote expect.text ++
      [' '] ++ modeText mode ++ [' '] ++ owner.text ++ " <<".toList ++ quote eofMark
  | .remove path sha256 =>
    "rmf ".toList ++ Nat.toDigits 10 i ++ [' '] ++ quote path ++ [' '] ++ quote sha256.toList

/-- What the line reads, up to and with the mark. -/
def opContent : Op → Text
  | .place _ content .. => base64 content ++ ['\n'] ++ eofMark ++ ['\n']
  | .remove .. => []

def opText (i : Nat) (op : Op) : Text := opLine i op ++ ['\n'] ++ opContent op

/-- The directories, then the operations with their content inline. -/
def commitScript (dirs : List Text) (ops : List Op) : Text :=
  scriptPrelude ++ commitFunctions ++ dirs.flatMap (fun d => "d ".toList ++ quote d ++ ['\n']) ++
    ops.zipIdx.flatMap fun e => opText e.2 e.1

end Guest
end PveMeta
