import PveMeta.Lib.Except
import PveMeta.Registry

/-! # What the loader takes

A schema that the loader takes says what it means: the members of an `enum` are scalars, a bound is a number, and
the schemas under `properties` and `items` are schemas that the loader takes. -/

namespace PveMeta
open Value

variable [Deps] {name at_ : String} {schema sub : Value} {m : Members}

/-- A schema that the loader takes. -/
def Accepted (schema : Value) : Prop := ∃ name at_, Registry.checkSchemaDialect name at_ schema = .ok ()

theorem checkEach_eq_ok {props : Members} (h : Registry.checkEach name at_ props = .ok ()) {e : String × Value}
    (he : e ∈ props) : Accepted e.2 := by
  induction props with
  | nil => cases he
  | cons d props ih =>
    rw [Registry.checkEach] at h
    split at h
    · obtain ⟨_, hhead, h⟩ := Except.bind_eq_ok.mp h
      rcases List.mem_cons.mp he with rfl | he
      · exact ⟨_, _, hhead⟩
      · exact ih h he
    · cases h

theorem checkProperties_cons_ne {v : Value} {declared : Option String} {key : String} (h : key ≠ "properties") :
    Registry.checkProperties name at_ declared ((key, v) :: m) = Registry.checkProperties name at_ declared m := by
  cases v <;> simp [Registry.checkProperties, h]

theorem checkProperties_eq_ok {declared : Option String} {props : Members}
    (h : Registry.checkProperties name at_ declared m = .ok ()) (hprops : Assoc.get? "properties" m = some (.object props))
    {e : String × Value} (he : e ∈ props) : Accepted e.2 := by
  induction m with
  | nil => cases hprops
  | cons d m ih =>
    obtain ⟨key, sub⟩ := d
    rw [Assoc.get?_cons] at hprops
    by_cases hd : key = "properties"
    · rw [if_pos hd, Option.some.injEq] at hprops
      obtain rfl : sub = .object props := hprops
      rw [Registry.checkProperties, if_pos hd] at h
      split at h
      · cases h
      · exact checkEach_eq_ok h he
    · rw [if_neg hd] at hprops
      rw [checkProperties_cons_ne hd] at h
      exact ih h hprops

theorem checkItems_eq_ok {declared : Option String} (h : Registry.checkItems name at_ declared m = .ok ())
    (hitems : Assoc.get? "items" m = some sub) : Accepted sub := by
  induction m with
  | nil => cases hitems
  | cons d m ih =>
    obtain ⟨key, v⟩ := d
    rw [Assoc.get?_cons] at hitems
    rw [Registry.checkItems] at h
    by_cases hd : key = "items"
    · rw [if_pos hd, Option.some.injEq] at hitems
      obtain rfl : v = sub := hitems
      rw [if_pos hd] at h
      split at h
      · cases h
      · exact ⟨_, _, h⟩
    · rw [if_neg hd] at hitems
      rw [if_neg hd] at h
      exact ih h hitems

/-- The members of an accepted `enum` are scalars, and there is one. -/
theorem checkEnum_eq_ok {declared : Option String} {members : List Value}
    (h : Registry.checkEnum name at_ declared m = .ok ()) (henum : Assoc.get? "enum" m = some (.array members)) :
    ∀ v ∈ members, (v.isString || v.isNumber || v.isBool) = true := by
  rw [Registry.checkEnum, henum] at h
  cases members with
  | nil => simp
  | cons u members =>
    intro v hv
    have hone := Except.forM_eq_ok.mp h v hv
    split at hone
    · cases hone
    · next hscalar => cases v <;> first | rfl | exact absurd rfl hscalar

omit [Deps] in
theorem readBound_eq_ok {declared : Option String} {key : String} {bound : Option F64} {v : Value}
    (h : Registry.readBound name at_ declared m key = .ok bound) (hv : Assoc.get? key m = some v) :
    ∃ n, v = .number n := by
  rw [Registry.readBound, hv] at h
  cases v
  case number n => exact ⟨n, rfl⟩
  all_goals cases h

theorem declaredType_eq_ok {declared : Option String}
    (h : Registry.declaredType name at_ m = .ok declared) : declared = ((Value.object m).get? "type").bind Value.asStr := by
  rw [Registry.declaredType] at h
  show declared = (Assoc.get? "type" m).bind Value.asStr
  cases htype : Assoc.get? "type" m with
  | none =>
    rw [htype] at h
    cases h
    rfl
  | some v =>
    rw [htype] at h
    dsimp only at h
    split at h
    · next t ht =>
      cases h
      exact (Option.filter_eq_some_iff.mp ht).1.symm
    · cases h

/-- The refusal of a range with nothing in it. -/
def Registry.emptyRange (name at_ : String) (min max : F64) : Error :=
  dialectError name at_ ("'minimum' (" ++ Deps.f64ToString min ++ ") is above 'maximum' (" ++ Deps.f64ToString max ++ ")")

def Registry.checkRange (name at_ : String) (min max : Option F64) : Except Error Unit :=
  match min, max with
  | some min, some max => if max.rank < min.rank then .error (emptyRange name at_ min max) else .ok ()
  | _, _ => .ok ()

def Registry.checkDefault (name at_ : String) (declared : Option String) (m : Members) : Except Error Unit :=
  match declared, Assoc.get? "default" m with
  | some t, some d => if typeMatches t d then .ok () else .error (dialectError name at_ ("'default' is not of type " ++ t))
  | _, _ => .ok ()

/-- The checks of one node that come before that of its range, with the type and the bounds they read. -/
def Registry.beforeRange (name at_ : String) (m : Members) : Except Error (Option String × Option F64 × Option F64) := do
  let declared ← declaredType name at_ m
  ["description", "format"].forM fun key =>
    if (Assoc.get? key m).any fun v => ! v.isString then
      .error (dialectError name at_ ("'" ++ key ++ "' must be a string"))
    else .ok ()
  ["hidden", "enforce", "multiline", "optional"].forM fun key =>
    if (Assoc.get? key m).any fun v => (asFlag v).isNone then
      .error (dialectError name at_ ("'" ++ key ++ "' must be true/false or 1/0"))
    else .ok ()
  checkEnum name at_ declared m
  let min ← readBound name at_ declared m "minimum"
  let max ← readBound name at_ declared m "maximum"
  return (declared, min, max)

theorem Registry.checkKeywords_eq (name at_ : String) (m : Members) : checkKeywords name at_ m =
    beforeRange name at_ m >>= fun r => checkRange name at_ r.2.1 r.2.2 >>= fun _ =>
      checkDefault name at_ r.1 m >>= fun _ => .ok r.1 := by
  unfold checkKeywords beforeRange
  simp only [bind_assoc]
  refine Except.bind_congr fun declared _ => Except.bind_congr fun _ _ => Except.bind_congr fun _ _ =>
    Except.bind_congr fun _ _ => Except.bind_congr fun min _ => Except.bind_congr fun max _ => ?_
  rw [pure_bind]
  unfold checkRange checkDefault
  rcases min with _ | min <;> rcases max with _ | max
  case' some.some =>
    dsimp only
    by_cases h : max.rank < min.rank
    case' pos =>
      rw [if_pos h, if_pos h]
      rfl
    case' neg => rw [if_neg h, if_neg h]
  all_goals
    cases declared with
    | none => rfl
    | some t =>
      cases Assoc.get? "default" m with
      | none => rfl
      | some d =>
        dsimp only
        cases typeMatches t d <;> rfl

/-- What the checks of the keywords establish. -/
structure Registry.Checked (name at_ : String) (declared : Option String) (m : Members) : Prop where
  ofType : declaredType name at_ m = .ok declared
  ofEnum : checkEnum name at_ declared m = .ok ()
  ofBounds : ∃ min max, readBound name at_ declared m "minimum" = .ok min ∧
    readBound name at_ declared m "maximum" = .ok max ∧
    checkRange name at_ min max = .ok ()
  ofDefault : checkDefault name at_ declared m = .ok ()

theorem checkKeywords_eq_ok {declared : Option String} (h : Registry.checkKeywords name at_ m = .ok declared) :
    Registry.Checked name at_ declared m := by
  rw [Registry.checkKeywords_eq] at h
  obtain ⟨r, hbefore, h⟩ := Except.bind_eq_ok.mp h
  obtain ⟨_, hrange, h⟩ := Except.bind_eq_ok.mp h
  obtain ⟨_, hdefault, h⟩ := Except.bind_eq_ok.mp h
  obtain ⟨declared, htype, hbefore⟩ := Except.bind_eq_ok.mp hbefore
  obtain ⟨_, -, hbefore⟩ := Except.bind_eq_ok.mp hbefore
  obtain ⟨_, -, hbefore⟩ := Except.bind_eq_ok.mp hbefore
  obtain ⟨_, henum, hbefore⟩ := Except.bind_eq_ok.mp hbefore
  obtain ⟨min, hmin, hbefore⟩ := Except.bind_eq_ok.mp hbefore
  obtain ⟨max, hmax, hbefore⟩ := Except.bind_eq_ok.mp hbefore
  cases hbefore
  cases h
  exact ⟨htype, henum, ⟨min, max, hmin, hmax, hrange⟩, hdefault⟩

/-- What the checks of one node establish. -/
theorem checkSchemaDialect_eq_ok (h : Registry.checkSchemaDialect name at_ schema = .ok ()) :
    ∃ m, schema = .object m ∧ (∃ declared, Registry.checkEnum name at_ declared m = .ok () ∧
        ∀ key ∈ ["minimum", "maximum"], ∃ bound, Registry.readBound name at_ declared m key = .ok bound) ∧
      ∃ declared, Registry.checkItems name at_ declared m = .ok () ∧
        Registry.checkProperties name at_ declared m = .ok () := by
  cases schema
  case object m =>
    obtain ⟨declared, hkeywords, h⟩ := Except.bind_eq_ok.mp h
    obtain ⟨_, hitems, hproperties⟩ := Except.bind_eq_ok.mp h
    have hchecks := checkKeywords_eq_ok hkeywords
    obtain ⟨min, max, hmin, hmax, -⟩ := hchecks.ofBounds
    refine ⟨m, rfl, ⟨declared, hchecks.ofEnum, fun key hkey => ?_⟩, declared, hitems, hproperties⟩
    rcases List.mem_pair.mp hkey with rfl | rfl
    · exact ⟨min, hmin⟩
    · exact ⟨max, hmax⟩
  all_goals cases h

theorem Accepted.exists_object (h : Accepted schema) : ∃ m, schema = .object m := by
  obtain ⟨name, at_, h⟩ := h
  obtain ⟨m, hm, -⟩ := checkSchemaDialect_eq_ok h
  exact ⟨m, hm⟩

theorem Accepted.enum (h : Accepted schema) {members : List Value}
    (henum : (schema.get? "enum").bind Value.asArray = some members) :
    ∀ v ∈ members, (v.isString || v.isNumber || v.isBool) = true := by
  obtain ⟨name, at_, h⟩ := h
  obtain ⟨m, rfl, ⟨declared, hcheck, -⟩, -⟩ := checkSchemaDialect_eq_ok h
  obtain ⟨u, hu, hmembers⟩ := Option.bind_eq_some_iff.mp henum
  cases u <;> cases hmembers
  exact checkEnum_eq_ok hcheck hu

theorem Accepted.bound (h : Accepted schema) {key : String} (hkey : key ∈ ["minimum", "maximum"]) {v : Value}
    (hv : schema.get? key = some v) : ∃ n, v = .number n := by
  obtain ⟨name, at_, h⟩ := h
  obtain ⟨m, rfl, ⟨declared, -, hbounds⟩, -⟩ := checkSchemaDialect_eq_ok h
  obtain ⟨bound, hbound⟩ := hbounds key hkey
  exact readBound_eq_ok hbound hv

theorem Accepted.items (h : Accepted schema) (hitems : schema.get? "items" = some sub) : Accepted sub := by
  obtain ⟨name, at_, h⟩ := h
  obtain ⟨m, rfl, -, declared, hcheck, -⟩ := checkSchemaDialect_eq_ok h
  exact checkItems_eq_ok hcheck hitems

theorem Accepted.properties (h : Accepted schema) {props : Members}
    (hprops : (schema.get? "properties").bind Value.asObject = some props) : ∀ e ∈ props, Accepted e.2 := by
  obtain ⟨name, at_, h⟩ := h
  obtain ⟨m, rfl, -, declared, -, hcheck⟩ := checkSchemaDialect_eq_ok h
  obtain ⟨u, hu, hm⟩ := Option.bind_eq_some_iff.mp hprops
  cases u <;> cases hm
  exact fun e he => checkProperties_eq_ok hcheck hu he

end PveMeta
