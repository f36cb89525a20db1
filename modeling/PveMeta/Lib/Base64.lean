import Mathlib.Data.List.Basic
import Mathlib.Data.Nat.Notation

/-! # Base64

Bytes as characters of a 64-letter alphabet, three bytes in four letters, with `=` in the place of the letters that a
short end has not. The decoder takes canonical texts only: padding at the end, and no bit that no byte is made of. -/

namespace Base64

/-- The value of a letter of the standard alphabet. -/
def value (c : Char) : Option Nat :=
  if 'A' ≤ c ∧ c ≤ 'Z' then some (c.toNat - 'A'.toNat)
  else if 'a' ≤ c ∧ c ≤ 'z' then some (c.toNat - 'a'.toNat + 26)
  else if '0' ≤ c ∧ c ≤ '9' then some (c.toNat - '0'.toNat + 52)
  else if c = '+' then some 62
  else if c = '/' then some 63
  else none

def letters : List Char := "ABCDEFGHIJKLMNOPQRSTUVWXYZabcdefghijklmnopqrstuvwxyz0123456789+/".toList

def letter (n : Nat) : Char := letters.getD n '='

/-- One byte of two letters, if they have no bits left. -/
def decodeOne (a b : Char) : Option (List UInt8) := do
  let x ← value a
  let y ← value b
  if y % 16 = 0 then some [.ofNat (x * 4 + y / 16)] else none

def decodeTwo (a b c : Char) : Option (List UInt8) := do
  let x ← value a
  let y ← value b
  let z ← value c
  if z % 4 = 0 then some [.ofNat (x * 4 + y / 16), .ofNat (y % 16 * 16 + z / 4)] else none

def decodeThree (a b c d : Char) : Option (List UInt8) := do
  let x ← value a
  let y ← value b
  let z ← value c
  let w ← value d
  return [.ofNat (x * 4 + y / 16), .ofNat (y % 16 * 16 + z / 4), .ofNat (z % 4 * 64 + w)]

def decode : List Char → Option (List UInt8)
  | [] => some []
  | a :: b :: c :: d :: rest =>
    if rest = [] ∧ d = '=' then
      if c = '=' then decodeOne a b else decodeTwo a b c
    else do return (← decodeThree a b c d) ++ (← decode rest)
  | _ => none

def encodeOne (a : UInt8) : List Char := [letter (a.toNat / 4), letter (a.toNat % 4 * 16), '=', '=']

def encodeTwo (a b : UInt8) : List Char :=
  [letter (a.toNat / 4), letter (a.toNat % 4 * 16 + b.toNat / 16), letter (b.toNat % 16 * 4), '=']

def encodeThree (a b c : UInt8) : List Char :=
  [letter (a.toNat / 4), letter (a.toNat % 4 * 16 + b.toNat / 16), letter (b.toNat % 16 * 4 + c.toNat / 64),
    letter (c.toNat % 64)]

def encode : List UInt8 → List Char
  | [] => []
  | [a] => encodeOne a
  | [a, b] => encodeTwo a b
  | a :: b :: c :: rest => encodeThree a b c ++ encode rest

/-! ### The letters -/

variable {n : Nat} {c : Char}

theorem value_letter : ∀ n < 64, value (letter n) = some n := by decide +kernel

theorem letter_ne_pad (h : n < 64) : letter n ≠ '=' := by
  intro heq
  have := value_letter n h
  rw [heq] at this
  cases this

/-- A character of a text: a letter, or the padding. -/
def IsDigit (c : Char) : Prop := (value c).isSome = true ∨ c = '='

instance (c : Char) : Decidable (IsDigit c) := inferInstanceAs (Decidable (_ ∨ _))

theorem isDigit_letter (h : n < 64) : IsDigit (letter n) := Or.inl (by rw [value_letter n h, Option.isSome_some])

theorem isDigit_of_mem_encode {bytes : List UInt8} (hc : c ∈ encode bytes) : IsDigit c := by
  induction bytes using encode.induct with
  | case1 => cases hc
  | case2 a =>
    have := a.toNat_lt
    simp only [encode, encodeOne, List.mem_cons, List.not_mem_nil, or_false] at hc
    rcases hc with rfl | rfl | rfl | rfl
    · exact isDigit_letter (by omega)
    · exact isDigit_letter (by omega)
    · exact Or.inr rfl
    · exact Or.inr rfl
  | case3 a b =>
    have := a.toNat_lt
    have := b.toNat_lt
    simp only [encode, encodeTwo, List.mem_cons, List.not_mem_nil, or_false] at hc
    rcases hc with rfl | rfl | rfl | rfl
    · exact isDigit_letter (by omega)
    · exact isDigit_letter (by omega)
    · exact isDigit_letter (by omega)
    · exact Or.inr rfl
  | case4 a b c rest ih =>
    have := a.toNat_lt
    have := b.toNat_lt
    have := c.toNat_lt
    rw [encode, List.mem_append] at hc
    rcases hc with hc | hc
    · simp only [encodeThree, List.mem_cons, List.not_mem_nil, or_false] at hc
      rcases hc with rfl | rfl | rfl | rfl
      · exact isDigit_letter (by omega)
      · exact isDigit_letter (by omega)
      · exact isDigit_letter (by omega)
      · exact isDigit_letter (by omega)
    · exact ih hc

/-! ### Decoding what is encoded -/

variable {a b c : UInt8}

theorem ofNat_of_eq {m : Nat} (a : UInt8) (h : m = a.toNat) : UInt8.ofNat m = a := by
  rw [h, UInt8.ofNat_toNat]

theorem decode_encodeOne : decode (encodeOne a) = some [a] := by
  have ha := a.toNat_lt
  have hfirst := value_letter (a.toNat / 4) (by omega)
  have hsecond := value_letter (a.toNat % 4 * 16) (by omega)
  simp only [encodeOne, decode, decodeOne, hfirst, hsecond, and_self, if_true, Option.bind_eq_bind, Option.bind_some]
  rw [if_pos (by omega), ofNat_of_eq a (by omega)]

theorem decode_encodeTwo : decode (encodeTwo a b) = some [a, b] := by
  have ha := a.toNat_lt
  have hb := b.toNat_lt
  have hfirst := value_letter (a.toNat / 4) (by omega)
  have hsecond := value_letter (a.toNat % 4 * 16 + b.toNat / 16) (by omega)
  have hthird := value_letter (b.toNat % 16 * 4) (by omega)
  have hletter : letter (b.toNat % 16 * 4) ≠ '=' := letter_ne_pad (by omega)
  simp only [encodeTwo, decode, decodeTwo, hfirst, hsecond, hthird, hletter, and_self, if_true, if_false,
    Option.bind_eq_bind, Option.bind_some]
  rw [if_pos (by omega), ofNat_of_eq a (by omega), ofNat_of_eq b (by omega)]

theorem decode_encodeThree (rest : List Char) :
    decode (encodeThree a b c ++ rest) = (decode rest).map fun bytes => a :: b :: c :: bytes := by
  have ha := a.toNat_lt
  have hb := b.toNat_lt
  have hc := c.toNat_lt
  have hfirst := value_letter (a.toNat / 4) (by omega)
  have hsecond := value_letter (a.toNat % 4 * 16 + b.toNat / 16) (by omega)
  have hthird := value_letter (b.toNat % 16 * 4 + c.toNat / 64) (by omega)
  have hfourth := value_letter (c.toNat % 64) (by omega)
  have hletter : letter (c.toNat % 64) ≠ '=' := letter_ne_pad (by omega)
  simp only [encodeThree, List.cons_append, List.nil_append, decode, decodeThree, hfirst, hsecond, hthird, hfourth, hletter,
    and_false, if_false, Option.bind_eq_bind, Option.bind_some, Option.pure_def]
  rw [ofNat_of_eq a (by omega), ofNat_of_eq b (by omega), ofNat_of_eq c (by omega)]
  cases decode rest <;> rfl

theorem decode_encode (bytes : List UInt8) : decode (encode bytes) = some bytes := by
  induction bytes using encode.induct with
  | case1 => rfl
  | case2 a => exact decode_encodeOne
  | case3 a b => exact decode_encodeTwo
  | case4 a b c rest ih => rw [encode, decode_encodeThree, ih, Option.map_some]

end Base64
