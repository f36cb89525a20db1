import PveMeta.Sample
import PveMeta.Theorems.Comparisons
import PveMeta.Theorems.ThroughPerl

/-! # The editor and the server

The editor's shape compares the same values with the same nodes as the server's, but for the spelling of a boolean.
A check sees the spelling in one place: where it looks for a value among the members of an `enum`. -/

namespace PveMeta
open Shape Value

/-! ### One check -/

/-- The value is not of the declared type. -/
def wrongType (schema value : Value) : Bool :=
  ((schema.get? "type").bind Value.asStr).any fun declared => ! typeMatches declared value

/-- The members of the `enum`. -/
def enumOf (schema : Value) : List Value := ((schema.get? "enum").bind Value.asArray).getD []

/-- There is no `enum`, or a member of it admits the value. -/
def admitted (schema value : Value) : Bool :=
  ((schema.get? "enum").bind Value.asArray).all fun allowed =>
    allowed.any (enumAdmits ((schema.get? "type").bind Value.asStr) · value)

/-- A value under an `enum` with a boolean member: not of the declared type, or admitted whether the booleans of the
    schema are spelled `true` and `false` or `1` and `0`. -/
def ReadsAlike (schema value : Value) : Prop :=
  (∃ b, Value.bool b ∈ enumOf schema) →
    wrongType schema value = true ∨ admitted schema value = true ∧ admitted (throughPerl schema) value = true

variable {schema value member : Value} {declared : Option String}

theorem wrongType_throughPerl : wrongType (throughPerl schema) value = wrongType schema value := by
  rw [wrongType, wrongType, get?_throughPerl]
  cases schema.get? "type" <;> simp

theorem declared_throughPerl :
    ((throughPerl schema).get? "type").bind Value.asStr = (schema.get? "type").bind Value.asStr := by
  rw [get?_throughPerl]
  cases schema.get? "type" <;> simp

theorem enum_throughPerl : ((throughPerl schema).get? "enum").bind Value.asArray =
    ((schema.get? "enum").bind Value.asArray).map (List.map throughPerl) := by
  rw [get?_throughPerl]
  cases schema.get? "enum" <;> simp

theorem enumOf_throughPerl : enumOf (throughPerl schema) = (enumOf schema).map throughPerl := by
  rw [enumOf, enumOf, enum_throughPerl]
  cases (schema.get? "enum").bind Value.asArray <;> rfl

/-- A scalar member that admits a value other than a boolean does so in both spellings. -/
theorem enumAdmits_throughPerl (hm : (member.isString || member.isNumber || member.isBool) = true)
    (hv : value.isBool = false) (h : enumAdmits declared member value = true) :
    enumAdmits declared (throughPerl member) value = true := by
  unfold enumAdmits at h ⊢
  split
  · next hd =>
    rw [if_pos hd] at h
    rwa [asFlag_throughPerl]
  · next hd =>
    rw [if_neg hd] at h
    cases member
    case bool b => cases value <;> cases hv <;> cases h
    case number n => exact h
    case string s => exact h
    all_goals cases hm

/-- A scalar member that admits a boolean spelled as a number admits it as a boolean. -/
theorem enumAdmits_of_throughPerl {b : Bool} (hm : (member.isString || member.isNumber || member.isBool) = true)
    (h : enumAdmits declared (throughPerl member) (.bool b) = true) : enumAdmits declared member (.bool b) = true := by
  unfold enumAdmits at h ⊢
  split
  · next hd =>
    rw [if_pos hd] at h
    rwa [asFlag_throughPerl] at h
  · next hd =>
    rw [if_neg hd] at h
    cases member <;> cases h

theorem admitted_throughPerl [Deps] (hs : Accepted schema) (hv : value.isBool = false)
    (h : admitted schema value = true) : admitted (throughPerl schema) value = true := by
  rw [admitted, enum_throughPerl, declared_throughPerl]
  rw [admitted] at h
  cases henum : (schema.get? "enum").bind Value.asArray with
  | none => rfl
  | some allowed =>
    rw [henum, Option.all_some, List.any_eq_true] at h
    obtain ⟨m, hm, hadmits⟩ := h
    rw [Option.map_some, Option.all_some, List.any_eq_true]
    exact ⟨throughPerl m, List.mem_map_of_mem hm, enumAdmits_throughPerl (hs.enum henum m hm) hv hadmits⟩

theorem admitted_of_throughPerl [Deps] (hs : Accepted schema) {b : Bool}
    (h : admitted (throughPerl schema) (.bool b) = true) : admitted schema (.bool b) = true := by
  rw [admitted, enum_throughPerl, declared_throughPerl] at h
  rw [admitted]
  cases henum : (schema.get? "enum").bind Value.asArray with
  | none => rfl
  | some allowed =>
    rw [henum, Option.map_some, Option.all_some, List.any_eq_true] at h
    obtain ⟨m', hm', hadmits⟩ := h
    obtain ⟨m, hm, rfl⟩ := List.mem_map.mp hm'
    rw [Option.all_some, List.any_eq_true]
    exact ⟨m, hm, enumAdmits_of_throughPerl (hs.enum henum m hm) hadmits⟩

/-- Without a boolean among the members, the spelling is the same. -/
theorem enum_eq_of_no_bool [Deps] (hs : Accepted schema) (h : ¬ ∃ b, Value.bool b ∈ enumOf schema) :
    ((throughPerl schema).get? "enum").bind Value.asArray = (schema.get? "enum").bind Value.asArray := by
  rw [enum_throughPerl]
  cases henum : (schema.get? "enum").bind Value.asArray with
  | none => rfl
  | some allowed =>
    have hsame : ∀ m ∈ allowed, throughPerl m = m := by
      intro m hm
      have hscalar := hs.enum henum m hm
      cases m
      case bool b => exact absurd ⟨b, by rw [enumOf, henum]; exact hm⟩ h
      case number n => rfl
      case string s => rfl
      all_goals cases hscalar
    rw [Option.map_some, List.map_congr_left hsame, List.map_id']

section

variable [Deps]

/-- The bound that a number misses. -/
def outOfBounds (schema value : Value) : Option String :=
  let bound (key : String) : Option F64 := ((schema.get? key).bind Value.asNumber).map Number.asF64
  let text (key : String) : String := Deps.jsonToString ((schema.get? key).getD .null)
  if (value.asNumber.map Number.asF64).any fun n => (bound "minimum").any fun min => n.rank < min.rank then
    some ("must be at least " ++ text "minimum")
  else if (value.asNumber.map Number.asF64).any fun n => (bound "maximum").any fun max => max.rank < n.rank then
    some ("must be at most " ++ text "maximum")
  else none

def notAmong (allowed : List Value) : String := "expected one of: " ++ joinWith ", " (allowed.map scalarText)

theorem checkValue_eq : checkValue schema value =
    if wrongType schema value then some ("expected " ++ ((schema.get? "type").bind Value.asStr).getD "")
    else if admitted schema value then outOfBounds schema value
    else some (notAmong (enumOf schema)) := by
  unfold checkValue wrongType admitted enumOf notAmong
  generalize (schema.get? "type").bind Value.asStr = declared
  generalize (schema.get? "enum").bind Value.asArray = allowed
  have htype : declared.filter (fun d => ! typeMatches d value) =
      if declared.any (fun d => ! typeMatches d value) then some (declared.getD "") else none := by
    cases declared with
    | none => rfl
    | some d => simp [Option.filter_some]
  have henum : allowed.filter (fun members => ! members.any (enumAdmits declared · value)) =
      if allowed.all (fun members => members.any (enumAdmits declared · value)) then none else some (allowed.getD []) := by
    cases allowed with
    | none => rfl
    | some members =>
      rw [Option.filter_some, Option.all_some]
      cases members.any (enumAdmits declared · value) <;> rfl
  simp only [htype, henum]
  cases declared.any fun d => ! typeMatches d value
  · cases allowed.all fun members => members.any (enumAdmits declared · value) <;> rfl
  · rfl

/-- How `serde_json` writes a boolean, and the numbers that Perl makes of one. -/
structure ScalarTexts : Prop where
  ofTrue : Deps.jsonToString (.bool true) = "true"
  ofFalse : Deps.jsonToString (.bool false) = "false"
  ofOne : Deps.jsonToString (.number (.posInt 1)) = "1"
  ofZero : Deps.jsonToString (.number (.posInt 0)) = "0"

theorem length_scalarText_bool (ht : ScalarTexts) (b : Bool) :
    (scalarText (throughPerl (.bool b))).toList.length < (scalarText (.bool b)).toList.length := by
  cases b
  · show (Deps.jsonToString (.number (.posInt 0))).toList.length < (Deps.jsonToString (.bool false)).toList.length
    rw [ht.ofZero, ht.ofFalse]
    decide
  · show (Deps.jsonToString (.number (.posInt 1))).toList.length < (Deps.jsonToString (.bool true)).toList.length
    rw [ht.ofOne, ht.ofTrue]
    decide

/-- With a boolean among them, the members are listed in other words. -/
theorem notAmong_throughPerl_ne (ht : ScalarTexts) {allowed : List Value}
    (hs : ∀ m ∈ allowed, (m.isString || m.isNumber || m.isBool) = true) {b : Bool} (hb : Value.bool b ∈ allowed) :
    notAmong (allowed.map throughPerl) ≠ notAmong allowed := by
  intro heq
  have hjoined := (String.append_right_inj _).mp heq
  have hlen := congrArg (fun s => s.toList.length) hjoined
  simp only [joinWith, String.toList_ofList, List.map_map] at hlen
  have hne : allowed ≠ [] := List.ne_nil_of_mem hb
  have hle : ∀ m ∈ allowed, (scalarText (throughPerl m)).toList.length ≤ (scalarText m).toList.length := by
    intro m hm
    have hscalar := hs m hm
    cases m
    case bool b => exact (length_scalarText_bool ht b).le
    case number n => exact Nat.le_refl _
    case string s => exact Nat.le_refl _
    all_goals cases hscalar
  have hlt := List.sum_lt_sum (fun m => (scalarText (throughPerl m)).toList.length + ", ".toList.length)
    (fun m => (scalarText m).toList.length + ", ".toList.length) (fun m hm => Nat.add_le_add_right (hle m hm) _)
    ⟨.bool b, hb, Nat.add_lt_add_right (length_scalarText_bool ht b) _⟩
  have hleft := Text.length_intercalate ", ".toList (mt List.map_eq_nil_iff.mp hne :
    (allowed.map fun m => (scalarText (throughPerl m)).toList) ≠ [])
  have hright := Text.length_intercalate ", ".toList (mt List.map_eq_nil_iff.mp hne :
    (allowed.map fun m => (scalarText m).toList) ≠ [])
  rw [List.map_map] at hleft hright
  simp only [Function.comp_def] at hlen hleft hright
  omega

theorem outOfBounds_throughPerl (hs : Accepted schema) :
    outOfBounds (throughPerl schema) value = outOfBounds schema value := by
  have hkey : ∀ key ∈ ["minimum", "maximum"], (throughPerl schema).get? key = schema.get? key := by
    intro key hkey
    rw [get?_throughPerl]
    cases hv : schema.get? key with
    | none => rfl
    | some v =>
      obtain ⟨n, rfl⟩ := hs.bound hkey hv
      rfl
  unfold outOfBounds
  simp only [hkey "minimum" (by simp), hkey "maximum" (by simp)]

/-- What is said of a bound is not what is said of an `enum`. -/
theorem outOfBounds_ne_notAmong {allowed : List Value} : outOfBounds schema value ≠ some (notAmong allowed) := by
  have hhead : ∀ {a b s t : String}, a.toList.head? = some 'm' → b.toList.head? = some 'e' →
      some (a ++ s) ≠ some (b ++ t) := by
    intro a b s t ha hb heq
    have hchars := congrArg (fun u : String => u.toList.head?) (Option.some.inj heq)
    simp only [String.toList_append, List.head?_append, ha, hb, Option.some_or] at hchars
    simp at hchars
  unfold outOfBounds notAmong
  dsimp only
  split
  · exact hhead rfl rfl
  · split
    · exact hhead rfl rfl
    · intro h
      cases h

/-- Read with its booleans spelled as numbers, a schema says the same of a value exactly if it reads alike. -/
theorem checkValue_throughPerl_iff (ht : ScalarTexts) (hs : Accepted schema) :
    checkValue (throughPerl schema) value = checkValue schema value ↔ ReadsAlike schema value := by
  rw [checkValue_eq, checkValue_eq, wrongType_throughPerl, declared_throughPerl, outOfBounds_throughPerl hs]
  unfold ReadsAlike
  cases hw : wrongType schema value with
  | true => simp
  | false =>
    by_cases hbool : ∃ b, Value.bool b ∈ enumOf schema
    · obtain ⟨b, hb⟩ := hbool
      have hscalar : ∀ m ∈ enumOf schema, (m.isString || m.isNumber || m.isBool) = true := by
        intro m hm
        cases henum : (schema.get? "enum").bind Value.asArray with
        | none =>
          rw [enumOf, henum] at hm
          cases hm
        | some allowed =>
          rw [enumOf, henum] at hm
          exact hs.enum henum m hm
      have hwords := notAmong_throughPerl_ne ht hscalar hb
      rw [imp_iff_right ⟨b, hb⟩, enumOf_throughPerl]
      cases admitted schema value <;> cases admitted (throughPerl schema) value
      · simp [hwords]
      · simp [outOfBounds_ne_notAmong]
      · simp [outOfBounds_ne_notAmong.symm]
      · simp
    · have hsame : admitted (throughPerl schema) value = admitted schema value := by
        rw [admitted, admitted, declared_throughPerl, enum_eq_of_no_bool hs hbool]
      have henum : enumOf (throughPerl schema) = enumOf schema := by
        rw [enumOf, enumOf, enum_eq_of_no_bool hs hbool]
      rw [hsame, henum]
      simp [hbool]

/-! ### One report -/

/-- A comparison, as the editor makes it. -/
def Comparison.throughPerl (c : Comparison) : Comparison := { c with schema := PveMeta.throughPerl c.schema }

variable {c : Comparison}

omit [Deps] in
theorem format_throughPerl :
    ((throughPerl schema).get? "format").bind Value.asStr = (schema.get? "format").bind Value.asStr := by
  rw [get?_throughPerl]
  cases schema.get? "format" <;> simp

theorem report_throughPerl_iff (ht : ScalarTexts) (hs : Accepted c.schema) :
    report c.throughPerl = report c ↔ ReadsAlike c.schema c.value := by
  rw [← checkValue_throughPerl_iff ht hs, report, report]
  simp only [Comparison.throughPerl, format_throughPerl]
  cases checkValue (throughPerl c.schema) c.value <;> cases checkValue c.schema c.value
  · simp
  · cases c.value.asStr <;> cases (c.schema.get? "format").bind Value.asStr <;> simp
  · cases c.value.asStr <;> cases (c.schema.get? "format").bind Value.asStr <;> simp
  · simp

theorem isSome_report : (report c).isSome = (wrongType c.schema c.value || ! admitted c.schema c.value ||
    (outOfBounds c.schema c.value).isSome ||
      (c.value.asStr.isSome && ((c.schema.get? "format").bind Value.asStr).isSome)) := by
  rw [report, checkValue_eq]
  cases wrongType c.schema c.value <;> cases admitted c.schema c.value <;> cases outOfBounds c.schema c.value <;>
    cases c.value.asStr <;> cases (c.schema.get? "format").bind Value.asStr <;> rfl

/-- Of a value that is no boolean the editor reports no more than the server. -/
theorem isSome_of_throughPerl (hs : Accepted c.schema) (hv : c.value.isBool = false)
    (h : (report c.throughPerl).isSome) : (report c).isSome := by
  rw [isSome_report] at h ⊢
  simp only [Comparison.throughPerl, wrongType_throughPerl, outOfBounds_throughPerl hs, format_throughPerl] at h
  cases ha : admitted c.schema c.value with
  | false => simp
  | true => rwa [admitted_throughPerl hs hv ha] at h

/-- Of a boolean the server reports no more than the editor. -/
theorem isSome_throughPerl (hs : Accepted c.schema) {b : Bool} (hv : c.value = .bool b) (h : (report c).isSome) :
    (report c.throughPerl).isSome := by
  rw [isSome_report] at h ⊢
  simp only [Comparison.throughPerl, wrongType_throughPerl, outOfBounds_throughPerl hs, format_throughPerl]
  cases ha : admitted (throughPerl c.schema) c.value with
  | false => simp
  | true =>
    rw [hv] at ha
    rw [hv, admitted_of_throughPerl hs ha, ← hv] at h
    exact h

/-! ### The comparisons of the editor -/

/-- A child, as the editor has it. -/
def Child.throughPerl (ch : Child) : Child := { ch with schema := PveMeta.throughPerl ch.schema }

variable {l : List Declared} {d : Declared} {path : Path} {inherited : Bool} {v doc : Value}

omit [Deps] in
theorem children_throughPerl :
    (Shape.new (l.map Declared.throughPerl)).children d.throughPerl (throughPerl schema) path v =
      ((Shape.new l).children d schema path v).map Child.throughPerl := by
  cases v with
  | object m =>
    rw [children, children, List.map_filterMap]
    refine List.filterMap_congr fun e _ => ?_
    have hprops : Assoc.get? e.1 (propertiesOf (throughPerl schema)) =
        (Assoc.get? e.1 (propertiesOf schema)).map throughPerl := by
      rw [propertiesOf_throughPerl, ← membersThroughPerl_eq, get?_membersThroughPerl]
    rw [hprops, governs_throughPerl]
    cases Assoc.get? e.1 (propertiesOf schema) with
    | none => rfl
    | some sub =>
      dsimp only [Option.map_some, Option.bind_some]
      split <;> split <;> first | rfl | contradiction
  | array items =>
    rw [children, children, get?_throughPerl]
    cases schema.get? "items" with
    | none => rfl
    | some sub =>
      refine List.ext_getElem? fun i => ?_
      simp only [Option.map_some, List.getElem?_map, List.getElem?_mapIdx]
      cases items[i]? <;> rfl
  | _ => rfl

theorem strict_of_mem_below {shape : Shape} {f : Child → List Comparison}
    (hf : ∀ ch, ∀ c ∈ f ch, path.join ch.seg <+: c.path)
    (hc : c ∈ if checkValue schema v = none then (shape.children d schema path v).flatMap f else []) :
    path <+: c.path ∧ path ≠ c.path := by
  split at hc
  · obtain ⟨ch, -, hc⟩ := List.mem_flatMap.mp hc
    have hpre := hf ch c hc
    refine ⟨(List.prefix_append path [ch.seg]).trans hpre, fun heq => ?_⟩
    have hlen := hpre.length_le
    rw [← heq] at hlen
    simp [Path.join] at hlen
  · cases hc

/-- At the paths of a kind, the editor makes the server's comparisons, where those above come out alike. -/
theorem comparisons_throughPerl {P : Path → Bool}
    (h : ∀ c ∈ (Shape.new l).comparisons d schema path inherited v, (∃ q, P q = true ∧ c.path <+: q ∧ c.path ≠ q) →
      checkValue (throughPerl c.schema) c.value = checkValue c.schema c.value) :
    ((Shape.new (l.map Declared.throughPerl)).comparisons d.throughPerl (throughPerl schema) path inherited v).filter
        (fun c => P c.path) =
      (((Shape.new l).comparisons d schema path inherited v).filter fun c => P c.path).map Comparison.throughPerl := by
  induction v using child_ind generalizing schema path inherited with
  | node v ih =>
    rw [comparisons_eq, comparisons_eq, List.filter_cons, List.filter_cons, flag_throughPerl]
    have hbelow : (if checkValue (throughPerl schema) v = none then
          ((Shape.new (l.map Declared.throughPerl)).children d.throughPerl (throughPerl schema) path v).flatMap fun ch =>
            (Shape.new (l.map Declared.throughPerl)).comparisons d.throughPerl ch.schema (path.join ch.seg)
              (flag schema "enforce" inherited) ch.value
          else []).filter (fun c => P c.path) =
        ((if checkValue schema v = none then ((Shape.new l).children d schema path v).flatMap fun ch =>
            (Shape.new l).comparisons d ch.schema (path.join ch.seg) (flag schema "enforce" inherited) ch.value
          else []).filter fun c => P c.path).map Comparison.throughPerl := by
      by_cases hP : ∃ q, P q = true ∧ path <+: q ∧ path ≠ q
      · have hhere := h _ (mem_comparisons.mpr (Or.inl rfl)) hP
        dsimp only at hhere
        rw [hhere, children_throughPerl]
        split
        · next hc =>
          rw [List.filter_flatMap, List.filter_flatMap, List.flatMap_map, List.map_flatMap]
          refine List.flatMap_congr fun ch hch => ih _ d schema path ch hch fun c hmem => ?_
          exact h c (mem_comparisons.mpr (Or.inr ⟨hc, ch, hch, hmem⟩))
        · rfl
      · -- No path of the kind lies further down.
        rw [List.filter_eq_nil_iff.mpr, List.filter_eq_nil_iff.mpr, List.map_nil]
        · intro c hc hPc
          have hstrict := strict_of_mem_below (fun ch c hc => path_prefix_of_mem_comparisons hc) hc
          exact hP ⟨c.path, hPc, hstrict⟩
        · intro c hc hPc
          have hstrict := strict_of_mem_below (fun ch c hc => path_prefix_of_mem_comparisons hc) hc
          exact hP ⟨c.path, hPc, hstrict⟩
    rw [hbelow]
    split <;> rfl

theorem compared_throughPerl {P : Path → Bool}
    (h : ∀ c ∈ (Shape.new l).compared doc, (∃ q, P q = true ∧ c.path <+: q ∧ c.path ≠ q) →
      checkValue (throughPerl c.schema) c.value = checkValue c.schema c.value) :
    ((Shape.new (l.map Declared.throughPerl)).compared doc).filter (fun c => P c.path) =
      (((Shape.new l).compared doc).filter fun c => P c.path).map Comparison.throughPerl := by
  rw [compared, compared, prefixes_throughPerl, List.filter_flatMap, List.filter_flatMap, List.flatMap_map,
    List.map_flatMap]
  refine List.flatMap_congr fun d hd => ?_
  cases hs : d.schema with
  | none => simp [comparisonsOf, Declared.throughPerl, hs]
  | some schema =>
    have hs' : d.throughPerl.schema = some (throughPerl schema) := by simp [Declared.throughPerl, hs]
    cases hv : getPath doc d.pre with
    | none =>
      have hv' : getPath doc d.throughPerl.pre = none := hv
      simp [comparisonsOf, hs, hs', hv, hv']
    | some v =>
      have hv' : getPath doc d.throughPerl.pre = some v := hv
      simp only [comparisonsOf, hs, hs', hv, hv']
      refine comparisons_throughPerl fun c hc => h c (List.mem_flatMap.mpr ⟨d, hd, ?_⟩)
      exact mem_comparisonsOf.mpr ⟨schema, v, hs, hv, hc⟩

/-! ### What both find -/

theorem findings_eq_of_readsAlike (ht : ScalarTexts)
    (hs : ∀ o ∈ (Shape.new l).prefixes, ∀ schema, o.schema = some schema → Accepted schema)
    (h : ∀ c ∈ (Shape.new l).compared doc, ReadsAlike c.schema c.value) :
    (Shape.new (l.map Declared.throughPerl)).findings doc = (Shape.new l).findings doc := by
  have hcompared := compared_throughPerl (P := fun _ => true) fun c hc _ =>
    (checkValue_throughPerl_iff ht (accepted_of_mem_compared hs hc)).mpr (h c hc)
  simp only [List.filter_true] at hcompared
  have hreports : ((Shape.new l).compared doc).filterMap (fun c => report c.throughPerl) =
      ((Shape.new l).compared doc).filterMap report :=
    List.filterMap_congr fun c hc => (report_throughPerl_iff ht (accepted_of_mem_compared hs hc)).mpr (h c hc)
  rw [findings_eq, findings_eq, hcompared, List.filterMap_map]
  exact congrArg _ hreports

/-- What is found tells the comparisons apart, those nearest to the root first: of one value the two report in one
    direction only, so reports that are the same in number are the same one by one. -/
theorem readsAlike_of_findings_eq (ht : ScalarTexts)
    (hs : ∀ o ∈ (Shape.new l).prefixes, ∀ schema, o.schema = some schema → Accepted schema) {doc : Loaded}
    (h : (Shape.new (l.map Declared.throughPerl)).findings doc.val = (Shape.new l).findings doc.val) (n : Nat) :
    ∀ c ∈ (Shape.new l).compared doc.val, c.path.length = n → ReadsAlike c.schema c.value := by
  induction n using Nat.strongRecOn with
  | ind n ih =>
    intro c hc hn
    have habove : ∀ c' ∈ (Shape.new l).compared doc.val, (∃ q, decide (q = c.path) = true ∧ c'.path <+: q ∧ c'.path ≠ q) →
        checkValue (throughPerl c'.schema) c'.value = checkValue c'.schema c'.value := by
      intro c' hc' ⟨q, hq, hpre, hne⟩
      obtain rfl := of_decide_eq_true hq
      have hlt : c'.path.length < n := by
        rw [← hn]
        exact lt_of_le_of_ne hpre.length_le fun hlen => hne (hpre.eq_of_length hlen)
      exact (checkValue_throughPerl_iff ht (accepted_of_mem_compared hs hc')).mpr (ih _ hlt c' hc' rfl)
    have hcompared := compared_throughPerl (P := fun q => decide (q = c.path)) habove
    have hat := congrArg (List.filter fun r => r.path = c.path) h
    rw [findings_at, findings_at, hcompared, List.filterMap_map] at hat
    have hmem : ∀ x ∈ ((Shape.new l).compared doc.val).filter (fun x => x.path = c.path),
        Accepted x.schema ∧ x.value = c.value := by
      intro x hx
      obtain ⟨hx, hpath⟩ := List.mem_filter.mp hx
      have hvalue := getPath_of_mem_compared hx
      rw [of_decide_eq_true hpath, getPath_of_mem_compared hc, Option.some.injEq] at hvalue
      exact ⟨accepted_of_mem_compared hs hx, hvalue.symm⟩
    have hself : c ∈ ((Shape.new l).compared doc.val).filter (fun x => x.path = c.path) :=
      List.mem_filter.mpr ⟨hc, decide_eq_true rfl⟩
    rw [← report_throughPerl_iff ht (accepted_of_mem_compared hs hc)]
    cases hb : c.value.isBool with
    | false =>
      refine Sorting.eq_of_filterMap_eq (fun x hx => ?_) hat c hself
      obtain ⟨hsx, hvx⟩ := hmem x hx
      exact isSome_of_throughPerl hsx (hvx ▸ hb)
    | true =>
      have hbool : ∃ b, c.value = .bool b := by
        cases hv : c.value <;> rw [hv] at hb <;> first | exact ⟨_, rfl⟩ | cases hb
      obtain ⟨b, hb⟩ := hbool
      refine (Sorting.eq_of_filterMap_eq (fun x hx => ?_) hat.symm c hself).symm
      obtain ⟨hsx, hvx⟩ := hmem x hx
      exact isSome_throughPerl hsx (hvx.trans hb)

end

/-- The editor's shape and the server's say the same of a document: which prefix governs, what the schemas describe and
    hide, and what is found. -/
structure JudgeAlike [Deps] (editor server : Shape) (doc : Value) : Prop where
  governing : ∀ path, (editor.governing path).map (·.pre) = (server.governing path).map (·.pre)
  index : editor.schemaIndex.map (fun d => (d.path, d.hidden)) = server.schemaIndex.map fun d => (d.path, d.hidden)
  findings : editor.findings doc = server.findings doc

/-- The shape that the editor makes of the rows judges a document as the server's does exactly if every value that is
    compared with an `enum` with a boolean member is not of its type, or is admitted in both spellings. -/
theorem judge_alike_iff [Deps] (ht : ScalarTexts) (defs : List PrefixDef)
    (hdefs : ∀ p ∈ defs, ∃ name text, Registry.parsePrefix name text = .ok p) (doc : Loaded) :
    ∃ editor, Shape.ofRows (listingRows defs) = some editor ∧
      (JudgeAlike editor (Shape.ofGuest defs) doc.val ↔
        ∀ c ∈ (Shape.ofGuest defs).compared doc.val, ReadsAlike c.schema c.value) := by
  have hs : ∀ o ∈ (Shape.ofGuest defs).prefixes, ∀ schema, o.schema = some schema → Accepted schema := by
    intro o ho schema hschema
    obtain ⟨p, hp, rfl⟩ := List.mem_map.mp ((List.mem_insertionSort _).mp ho)
    obtain ⟨name, text, hparse⟩ := hdefs p hp
    exact (Registry.parsePrefix_eq_ok hparse).2.2.2 schema hschema
  refine ⟨_, exists_ofRows hdefs, fun h c hc => readsAlike_of_findings_eq ht hs h.findings _ c hc rfl, fun h => ?_⟩
  refine ⟨fun path => governs_throughPerl, ?_, findings_eq_of_readsAlike ht hs h⟩
  rw [schemaIndex_throughPerl, List.map_map]
  rfl

/-- `web`, whose one value is `true`, in a file for every guest. -/
def webFlag : PrefixDef :=
  ⟨["web"], none, .all, some (.object [("enum", .array [.bool true])]), false, false, [], .cluster, false⟩

/-- `web: true` -/
def webTrue : Loaded where
  val := .object [("web", .bool true)]
  wf := .object (List.nodup_singleton _) fun _ he => (List.mem_singleton.mp he) ▸ .bool true
  indexed := by
    intro p items h
    rcases p with - | ⟨k, - | ⟨i, p⟩⟩
    · cases h
    · obtain ⟨u, hu, h⟩ := Option.bind_eq_some_iff.mp h
      cases List.mem_singleton.mp (Assoc.mem_of_get? hu)
      cases h
    · obtain ⟨u, hu, h⟩ := Option.bind_eq_some_iff.mp h
      cases List.mem_singleton.mp (Assoc.mem_of_get? hu)
      cases h

section Samples
open Sample

theorem webFlag_parsed : Registry.parsePrefix "web" "selector:\n  all: true\nschema:\n  enum:\n  - true\n".toList =
    .ok webFlag := by rfl

theorem judge_alike_iff_web : ∃ editor, Shape.ofRows (listingRows [webFlag]) = some editor ∧
    (JudgeAlike editor (Shape.ofGuest [webFlag]) webTrue.val ↔
      ∀ c ∈ (Shape.ofGuest [webFlag]).compared webTrue.val, ReadsAlike c.schema c.value) :=
  judge_alike_iff ⟨rfl, rfl, rfl, rfl⟩ [webFlag]
    (fun _ hp => (List.mem_singleton.mp hp) ▸ ⟨"web", _, webFlag_parsed⟩) webTrue

/-- The server takes `web: true`, and the editor marks it. -/
theorem bool_enum_judged_apart : (∃ name text, Registry.parsePrefix name text = .ok webFlag) ∧
    ∃ editor, Shape.ofRows (listingRows [webFlag]) = some editor ∧
      editor.findings webTrue.val = [.finding ⟨["web"], "expected one of: 1", false⟩] ∧
        ¬ JudgeAlike editor (Shape.ofGuest [webFlag]) webTrue.val := by
  refine ⟨⟨"web", _, webFlag_parsed⟩, _, rfl, by rfl, fun h => ?_⟩
  have hserver : (Shape.ofGuest [webFlag]).findings webTrue.val = [] := by rfl
  have heditor := h.findings
  rw [hserver] at heditor
  cases heditor

end Samples

end PveMeta
