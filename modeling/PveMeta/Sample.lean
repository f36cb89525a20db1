import PveMeta.Store

/-! # A sample of the third-party code

An instance of `Deps` that answers for a few small documents what the crates answer, digests included,
and something lawful for every other input. Results that assume something of the crates are run on it. -/

namespace PveMeta
namespace Sample

/-! ### The documents -/

def docA (n : UInt64) : Tree :=
  ⟨.object [("a", .number (.posInt n))], .object (by simp [Assoc.keys]) (by simpa using Value.WF.number _)⟩

def docS (s : String) : Tree :=
  ⟨.object [("s", .string s)], .object (by simp [Assoc.keys]) (by simpa using Value.WF.string _)⟩

def docNoted : Tree :=
  ⟨.object [("a", .number (.posInt 1)), ("a__", .string "n")],
    .object (by decide) (by simp [Value.WF.number, Value.WF.string])⟩

def docList : Tree := ⟨.array [.string "a"], .array (by simpa using Value.WF.string _)⟩

def docItems : Tree :=
  ⟨.object [("a", .array [.string "a"])],
    .object (by simp [Assoc.keys]) (by simpa using Value.WF.array (by simpa using Value.WF.string _))⟩

/-- A list of two strings, and the document that holds it. -/
def pair (s t : String) : Tree := ⟨.array [.string s, .string t], .array (by simp [Value.WF.string])⟩

def docPair (s t : String) : Tree :=
  ⟨.object [("a", (pair s t).val)], .object (by simp [Assoc.keys]) (by simpa using (pair s t).property)⟩

/-- A prefix file for every guest, or for those with the tag `web`. -/
def docSelector (by_ : String) (v : Value) (hv : v.WF) : Tree :=
  ⟨.object [("selector", .object [(by_, v)])],
    .object (by simp [Assoc.keys]) (by simpa using Value.WF.object (by simp [Assoc.keys]) (by simpa using hv))⟩

def docAll : Tree := docSelector "all" (.bool true) (.bool true)

def docTag : Tree := docSelector "tag" (.string "web") (.string "web")

/-- A prefix file for every guest, with a schema of the one value `true`. -/
def docFlag : Tree :=
  ⟨.object [("selector", .object [("all", .bool true)]), ("schema", .object [("enum", .array [.bool true])])],
    .object (by simp [Assoc.keys]) (by
      simpa using ⟨Value.WF.object (by simp [Assoc.keys]) (by simpa using Value.WF.bool true),
        Value.WF.object (by simp [Assoc.keys]) (by simpa using Value.WF.array (by simpa using Value.WF.bool true))⟩)⟩

def docEmpty : Tree := ⟨.object [], .empty⟩

/-- What the serializer writes of each document, which the parser reads back. -/
def texts : List (Text × Tree) :=
  [("{}\n".toList, docEmpty), ("a: 1\n".toList, docA 1), ("a: 2\n".toList, docA 2),
    ("s: |+\n  x\n\n".toList, docS "x\n\n"), ("a: 1\na__: n\n".toList, docNoted), ("- a\n".toList, docList),
    ("selector:\n  all: true\n".toList, docAll), ("selector:\n  tag: web\n".toList, docTag), ("a:\n- a\n".toList, docItems),
    ("a:\n- a\n- b\n".toList, docPair "a" "b"), ("a:\n- a\n- c\n".toList, docPair "a" "c")]

/-- Further texts the parser reads. -/
def otherTexts : List (Text × Tree) :=
  [("s: |+\n  x\n".toList, docS "x\n"), ("a: 1 # one\n".toList, docA 1),
    ("selector:\n  all: true\nschema:\n  enum:\n  - true\n".toList, docFlag)]

def yamlToString (v : Value) : Text := ((texts.find? fun e => e.2.val == v).map Prod.fst).getD "{}\n".toList

def yamlFromStr (t : Text) : Except (String × Option Location) Tree :=
  match Assoc.get? t (texts ++ otherTexts) with
  | some tree => .ok tree
  | none => .error ("not a sample", none)

/-- The JSON that is read. -/
def jsonFromStr (t : Text) : Except (String × Location) Tree :=
  if t = "[\"a\",\"b\"]".toList then .ok (pair "a" "b") else .error ("not a sample", ⟨1, 1⟩)

/-- How a boolean and a natural number are written. -/
def jsonToString : Value → String
  | .bool true => "true"
  | .bool false => "false"
  | .number (.posInt n) => DocId.decimal n.toNat
  | _ => "{}"

/-- The events of a map of one scalar or two, of a list, of a map of one, of an empty map, or of a prefix file. -/
def yamlEvents (t : Text) : List (Except (String × Marker) (Event × Marker)) :=
  if t = "- a\n".toList then
    [.ok (.sequenceStart false false, ⟨1, 0⟩), .ok (.scalar false false, ⟨1, 2⟩), .ok (.sequenceEnd, ⟨2, 0⟩)]
  else if t = "a:\n- a\n".toList then
    [.ok (.mappingStart false false, ⟨1, 0⟩), .ok (.scalar false false, ⟨1, 0⟩), .ok (.sequenceStart false false, ⟨2, 0⟩),
      .ok (.scalar false false, ⟨2, 2⟩), .ok (.sequenceEnd, ⟨3, 0⟩), .ok (.mappingEnd, ⟨3, 0⟩)]
  else if t = "a:\n- a\n- b\n".toList ∨ t = "a:\n- a\n- c\n".toList then
    [.ok (.mappingStart false false, ⟨1, 0⟩), .ok (.scalar false false, ⟨1, 0⟩), .ok (.sequenceStart false false, ⟨2, 0⟩),
      .ok (.scalar false false, ⟨2, 2⟩), .ok (.scalar false false, ⟨3, 2⟩), .ok (.sequenceEnd, ⟨4, 0⟩),
      .ok (.mappingEnd, ⟨4, 0⟩)]
  else if t = "{}\n".toList then [.ok (.mappingStart false false, ⟨1, 0⟩), .ok (.mappingEnd, ⟨1, 1⟩)]
  else if t = "a: 1\na__: n\n".toList then
    [.ok (.mappingStart false false, ⟨1, 0⟩), .ok (.scalar false false, ⟨1, 0⟩), .ok (.scalar false false, ⟨1, 3⟩),
      .ok (.scalar false false, ⟨2, 0⟩), .ok (.scalar false false, ⟨2, 5⟩), .ok (.mappingEnd, ⟨3, 0⟩)]
  else if t = "selector:\n  all: true\n".toList ∨ t = "selector:\n  tag: web\n".toList then
    [.ok (.mappingStart false false, ⟨1, 0⟩), .ok (.scalar false false, ⟨1, 0⟩), .ok (.mappingStart false false, ⟨2, 2⟩),
      .ok (.scalar false false, ⟨2, 2⟩), .ok (.scalar false false, ⟨2, 7⟩), .ok (.mappingEnd, ⟨3, 0⟩),
      .ok (.mappingEnd, ⟨3, 0⟩)]
  else if t = "selector:\n  all: true\nschema:\n  enum:\n  - true\n".toList then
    [.ok (.mappingStart false false, ⟨1, 0⟩), .ok (.scalar false false, ⟨1, 0⟩), .ok (.mappingStart false false, ⟨2, 2⟩),
      .ok (.scalar false false, ⟨2, 2⟩), .ok (.scalar false false, ⟨2, 7⟩), .ok (.mappingEnd, ⟨3, 0⟩),
      .ok (.scalar false false, ⟨3, 0⟩), .ok (.mappingStart false false, ⟨4, 2⟩), .ok (.scalar false false, ⟨4, 2⟩),
      .ok (.sequenceStart false false, ⟨5, 2⟩), .ok (.scalar false false, ⟨5, 4⟩), .ok (.sequenceEnd, ⟨6, 0⟩),
      .ok (.mappingEnd, ⟨6, 0⟩), .ok (.mappingEnd, ⟨6, 0⟩)]
  else
    [.ok (.mappingStart false false, ⟨1, 0⟩), .ok (.scalar false false, ⟨1, 0⟩),
      .ok (.scalar false false, ⟨1, 3⟩), .ok (.mappingEnd, ⟨2, 0⟩)]

/-! ### The hash -/

def hexByte (b : UInt8) : List Char := [Nat.digitChar (b.toNat / 16), Nat.digitChar (b.toNat % 16)]

def hexOf (bytes : List UInt8) : List Char := bytes.flatMap hexByte

/-- The SHA-256 of each text above. -/
def digests : List (Text × String) :=
  [("{}\n".toList, "ca3d163bab055381827226140568f3bef7eaac187cebd76878e0b63e9e442356"),
    ("a: 1\n".toList, "37b128c59f1f5097f73f82691cb519f1f568667faab5ced1b4ab979d36837eae"),
    ("a: 2\n".toList, "3a55d721fdd6a21fc7793a07ad20c6ad037c302ad003f552d5913039777eaec0"),
    ("s: |+\n  x\n\n".toList, "8e17ecc8b1e3789d40af21351e473dc979c352ff6330a306bd43f2d390ee6228"),
    ("s: |+\n  x\n".toList, "ec2b6a7669cfcde72af9a15c049d7f63fed6d4022b5a685ef3bb83f71438c402"),
    ("a: 1\na__: n\n".toList, "414473c2ad85700c417a4612b2530d64aa2c2cb8b9498258359d6e029b7e4c6e"),
    ("- a\n".toList, "24f157beb3bb6981726ef92d104c4aa1e7e0e34bb1e84a3b233a020a963dfd53"),
    ("selector:\n  all: true\n".toList, "9fd99dd0fb0b172b5d59cf994a776e5d7f03f675ad5ddc6a51bd370170814d82"),
    ("selector:\n  tag: web\n".toList, "5ef663f61b80847c0113a7b3aece7fc8d45d500afed38aa46be40165b905a7a5"),
    ("a:\n- a\n".toList, "49ba8639f8a215723fa00a979a4d7bff0036633efd7ec4fd7debe3128b8050a2"),
    ("a:\n- a\n- b\n".toList, "1c6508224111effd7eed9570dc9ef4c5c0244feac68e4cd361114cb36ed4390d"),
    ("a:\n- a\n- c\n".toList, "17e7bd8a93bca20b8910cff0954d2e25fa1bf5c7029baba2a405b8f34ab27ab7"),
    ("a: 1 # one\n".toList, "f7630a54d97265ad0833448820a3c15e51e5c6c1be7f757c6c61bbf31fb331fb")]

/-- Any other content gets a name of its own, which no digest has the length of. -/
def sha256Hex (b : ByteArray) : String :=
  ((Text.decode? b).bind fun t => Assoc.get? t digests).getD (String.ofList ('f' :: hexOf b.data.toList))

def isHexDigit (c : Char) : Bool := c.isDigit || ('a' ≤ c && c ≤ 'f')

theorem isHexDigit_digitChar {n : Nat} (h : n < 16) : isHexDigit (Nat.digitChar n) = true := by
  revert n
  decide

theorem digitChar_injective {m n : Nat} (hm : m < 16) (hn : n < 16) (h : Nat.digitChar m = Nat.digitChar n) :
    m = n := by
  have hall : ∀ m < 16, ∀ n < 16, Nat.digitChar m = Nat.digitChar n → m = n := by decide
  exact hall m hm n hn h

theorem hexByte_injective {a b : UInt8} (h : hexByte a = hexByte b) : a = b := by
  have ha := a.toNat_lt
  have hb := b.toNat_lt
  simp only [hexByte, List.cons.injEq, and_true] at h
  have hhi := digitChar_injective (by omega) (by omega) h.1
  have hlo := digitChar_injective (by omega) (by omega) h.2
  exact UInt8.toNat_inj.mp (by omega)

theorem isHexDigit_hexOf (bytes : List UInt8) : (hexOf bytes).all isHexDigit = true := by
  induction bytes with
  | nil => rfl
  | cons b bytes ih =>
    have hb := b.toNat_lt
    have hhi := isHexDigit_digitChar (show b.toNat / 16 < 16 by omega)
    have hlo := isHexDigit_digitChar (show b.toNat % 16 < 16 by omega)
    simp only [hexOf, List.flatMap_cons, hexByte, List.cons_append, List.nil_append, List.all_cons, hhi, hlo,
      Bool.true_and]
    exact ih

theorem hexOf_injective {a b : List UInt8} (h : hexOf a = hexOf b) : a = b := by
  induction a generalizing b with
  | nil => cases b with
    | nil => rfl
    | cons y b => cases h
  | cons x a ih => cases b with
    | nil => cases h
    | cons y b =>
      obtain ⟨hhead, htail⟩ := List.append_inj h (by rfl)
      rw [hexByte_injective hhead, ih htail]

theorem length_hexOf (bytes : List UInt8) : (hexOf bytes).length = 2 * bytes.length := by
  induction bytes with
  | nil => rfl
  | cons b bytes ih =>
    rw [hexOf, List.flatMap_cons, List.length_append, ← hexOf, ih]
    simp only [hexByte, List.length_cons, List.length_nil]
    omega

/-- A digest is one of the table's, or the content itself in hex after an `f`. -/
theorem sha256Hex_cases (b : ByteArray) :
    (∃ e ∈ digests, Text.decode? b = some e.1 ∧ sha256Hex b = e.2) ∨
      sha256Hex b = String.ofList ('f' :: hexOf b.data.toList) := by
  unfold sha256Hex
  cases ht : Text.decode? b with
  | none => exact Or.inr rfl
  | some t =>
    cases hd : Assoc.get? t digests with
    | none => exact Or.inr (by simp [hd])
    | some d => exact Or.inl ⟨(t, d), Assoc.mem_of_get? hd, rfl, by simp [hd]⟩

theorem spelled_of_eq {s : String} {l : Text} (h : s = String.ofList l) (hl : l.length = 64 ∧ l.all isHexDigit = true) :
    s.toList.length = 64 ∧ s.toList.all isHexDigit = true := by
  rwa [h, String.toList_ofList]

theorem digest_spelled : ∀ e ∈ digests, e.2.toList.length = 64 ∧ e.2.toList.all isHexDigit = true := by
  simp only [digests, List.forall_mem_cons]
  -- A literal is the list of its characters; to take it apart would be to decode it.
  refine ⟨?_, ?_, ?_, ?_, ?_, ?_, ?_, ?_, ?_, ?_, ?_, ?_, ?_, fun e he => absurd he List.not_mem_nil⟩ <;>
    exact spelled_of_eq rfl (by decide +kernel)

theorem sha256Hex_digits (b : ByteArray) : (sha256Hex b).toList.all isHexDigit = true := by
  rcases sha256Hex_cases b with ⟨e, hmem, -, heq⟩ | h
  · rw [heq]
    exact (digest_spelled e hmem).2
  · rw [h, String.toList_ofList, List.all_cons, isHexDigit_hexOf]
    rfl

theorem sha256Hex_ne_empty (b : ByteArray) : sha256Hex b ≠ "" := by
  rcases sha256Hex_cases b with ⟨e, hmem, -, heq⟩ | h
  · have htable : ∀ e ∈ digests, e.2 ≠ "" := by simp [digests]
    rw [heq]
    exact htable e hmem
  · rw [h]
    intro he
    have := congrArg String.toList he
    simp at this

theorem digests_injective {d e : Text × String} (hd : d ∈ digests) (he : e ∈ digests) (h : d.2 = e.2) :
    d.1 = e.1 := by
  have hnodup : (digests.map Prod.snd).Nodup := by decide
  rw [List.inj_on_of_nodup_map hnodup hd he h]

theorem sha256Hex_injective {a b : ByteArray} (h : sha256Hex a = sha256Hex b) : a = b := by
  have hodd : ∀ {e : Text × String} {c : ByteArray}, e ∈ digests →
      e.2 ≠ String.ofList ('f' :: hexOf c.data.toList) := by
    intro e c he heq
    have hlen := (digest_spelled e he).1
    rw [heq, String.toList_ofList, List.length_cons, length_hexOf] at hlen
    omega
  rcases sha256Hex_cases a with ⟨d, hd, ht, had⟩ | ha <;> rcases sha256Hex_cases b with ⟨e, he, hu, hbe⟩ | hb
  · have htu : d.1 = e.1 := digests_injective hd he (had.symm.trans (h.trans hbe))
    rw [← Text.encode_of_decode? ht, ← Text.encode_of_decode? hu, htu]
  · exact absurd (had.symm.trans (h.trans hb)) (hodd hd)
  · exact absurd (hbe.symm.trans (h.symm.trans ha)) (hodd he)
  · rw [ha, hb] at h
    have hchars := congrArg String.toList h
    rw [String.toList_ofList, String.toList_ofList, List.cons.injEq] at hchars
    exact ByteArray.ext (Array.toList_inj.mp (hexOf_injective hchars.2))

scoped instance deps : Deps where
  yamlToString := yamlToString
  yamlFromStr := yamlFromStr
  yamlEvents := yamlEvents
  jsonToStringPretty _ := "{}".toList
  jsonFromStr := jsonFromStr
  jsonToString := jsonToString
  f64ToString _ := "0"
  fromValueError _ := "missing field"
  utf8Error _ := "invalid utf-8 sequence"
  sha256Hex := sha256Hex
  sha256Hex_digits := sha256Hex_digits
  sha256Hex_ne_empty := sha256Hex_ne_empty

/-- What a browser writes of the list above. -/
def encode : Value → Text
  | .array [.string "a", .string "b"] => "[\"a\",\"b\"]".toList
  | _ => "null".toList

scoped instance browser : Browser where
  number n := n
  encode := encode

/-- The serializer's text is the one of the table that has the value, or that of the empty map. -/
theorem yamlToString_mem {v : Value} (hv : v.isObject = true) :
    ∃ e ∈ texts, e.2.val.isObject = true ∧ yamlToString v = e.1 := by
  unfold yamlToString
  cases hfind : texts.find? fun e => e.2.val == v with
  | none => exact ⟨("{}\n".toList, docEmpty), List.mem_cons_self, rfl, rfl⟩
  | some e =>
    refine ⟨e, List.mem_of_find?_eq_some hfind, ?_, rfl⟩
    obtain ⟨m, rfl⟩ := Value.isObject_iff.mp hv
    have heq := List.find?_some hfind
    revert heq
    cases e.2.val <;> first | exact fun _ => rfl | exact fun h => nomatch h

theorem parse_dump (v : Tree) (hv : lint v.val = []) :
    ∃ w, Format.yaml.parse (Format.yaml.dump v.val) = .ok w := by
  have hobj : v.val.isObject = true := by
    by_contra h
    rw [lint, if_neg h] at hv
    cases hv
  obtain ⟨e, he, heobj, htext⟩ := yamlToString_mem hobj
  have htable : ∀ e ∈ texts, e.2.val.isObject = true →
      (Format.yaml.parse (Format.ensureSingleTrailingNewline e.1)).toBool = true := by decide +kernel
  have hok := htable e he heobj
  rw [← htext] at hok
  show ∃ w, Format.yaml.parse (Format.ensureSingleTrailingNewline (yamlToString v.val)) = .ok w
  revert hok
  cases Format.yaml.parse (Format.ensureSingleTrailingNewline (yamlToString v.val)) with
  | error err => exact fun h => nomatch h
  | ok w => exact fun _ => ⟨w, rfl⟩

/-! ### A store -/

/-- A store whose guests have the given documents, and whose cluster file system is there. -/
def storeOf (docs : List (UInt32 × Text)) : MetaStore :=
  ⟨docs.map fun e => (.root (MetaStore.fileName (.guest e.1)), ⟨Text.encode e.2, 0⟩), 0, none, none, none, 1⟩

end Sample
end PveMeta
