import PveMeta.Theorems.Editor

/-! # Ranges

A value and its bounds are compared as doubles. Rounding keeps the order, but two integers beyond `2 ^ 53` can round to
one double, and then the check sees no difference. -/

namespace PveMeta
open Shape Value

/-! ### Rounding keeps the order -/

namespace F64

theorem roundShift_mono {a b : Nat} (h : a ≤ b) (s : Nat) : roundShift a s ≤ roundShift b s := by
  have hq : a / 2 ^ s ≤ b / 2 ^ s := Nat.div_le_div_right h
  have ha := Nat.div_add_mod a (2 ^ s)
  have hb := Nat.div_add_mod b (2 ^ s)
  unfold roundShift
  simp only [Nat.shiftRight_eq_div_pow]
  rcases hq.lt_or_eq with hlt | heq
  · split <;> split <;> omega
  · -- The same quotient, so the remainders are in order.
    rw [heq] at ha ⊢
    split <;> split <;> omega

theorem le_roundShift (n s : Nat) : n / 2 ^ s ≤ roundShift n s := by
  unfold roundShift
  simp only [Nat.shiftRight_eq_div_pow]
  split <;> omega

/-- The leading 53 bits of `n`. -/
def mantissa (n : Nat) : Nat := if n.log2 ≤ 52 then n <<< (52 - n.log2) else roundShift n (n.log2 - 52)

theorem magOfNat_eq {n : Nat} (hn : n ≠ 0) : magOfNat n = (n.log2 + 1022) * 2 ^ 52 + mantissa n := if_neg hn

theorem le_mantissa {n : Nat} (hn : n ≠ 0) : 2 ^ 52 ≤ mantissa n := by
  have hle : 2 ^ n.log2 ≤ n := Nat.log2_self_le hn
  unfold mantissa
  split
  · next h =>
    rw [Nat.shiftLeft_eq]
    calc 2 ^ 52 = 2 ^ n.log2 * 2 ^ (52 - n.log2) := by rw [← Nat.pow_add]; congr 1; omega
      _ ≤ n * 2 ^ (52 - n.log2) := by gcongr
  · next h =>
    refine le_trans ?_ (le_roundShift _ _)
    rw [Nat.le_div_iff_mul_le (by positivity), ← Nat.pow_add]
    rwa [show 52 + (n.log2 - 52) = n.log2 by omega]

theorem mantissa_le (n : Nat) : mantissa n ≤ 2 ^ 53 := by
  have hlt : n < 2 ^ (n.log2 + 1) := Nat.lt_log2_self
  unfold mantissa
  split
  · next h =>
    rw [Nat.shiftLeft_eq]
    calc n * 2 ^ (52 - n.log2) ≤ 2 ^ (n.log2 + 1) * 2 ^ (52 - n.log2) := by gcongr
      _ = 2 ^ 53 := by rw [← Nat.pow_add]; congr 1; omega
  · next h =>
    refine (roundShift_le _ _).trans (Nat.succ_le_of_lt ?_)
    rw [Nat.div_lt_iff_lt_mul (by positivity), ← Nat.pow_add]
    rwa [show 53 + (n.log2 - 52) = n.log2 + 1 by omega]

theorem log2_le_log2 {a b : Nat} (h : a ≤ b) (ha : a ≠ 0) : a.log2 ≤ b.log2 :=
  (Nat.le_log2 (by omega)).mpr ((Nat.log2_self_le ha).trans h)

theorem magOfNat_mono {a b : Nat} (h : a ≤ b) : magOfNat a ≤ magOfNat b := by
  by_cases ha : a = 0
  · simp [ha, magOfNat]
  have hb : b ≠ 0 := by omega
  rw [magOfNat_eq ha, magOfNat_eq hb]
  rcases (log2_le_log2 h ha).lt_or_eq with hlt | heq
  · have hle := mantissa_le a
    have hge := le_mantissa hb
    omega
  · rw [heq]
    refine Nat.add_le_add_left ?_ _
    unfold mantissa
    rw [heq]
    split
    · rw [Nat.shiftLeft_eq, Nat.shiftLeft_eq]
      gcongr
    · exact roundShift_mono h _

theorem mantissa_lt {n : Nat} (h : n.log2 ≤ 52) : mantissa n < 2 ^ 53 := by
  have hlt : n < 2 ^ (n.log2 + 1) := Nat.lt_log2_self
  rw [mantissa, if_pos h, Nat.shiftLeft_eq]
  calc n * 2 ^ (52 - n.log2) < 2 ^ (n.log2 + 1) * 2 ^ (52 - n.log2) := by gcongr
    _ = 2 ^ 53 := by rw [← Nat.pow_add]; congr 1; omega

/-- Up to `2 ^ 53` the doubles tell the integers apart. -/
theorem magOfNat_lt_magOfNat {a b : Nat} (h : a < b) (hb : b ≤ 2 ^ 53) : magOfNat a < magOfNat b := by
  have hb0 : b ≠ 0 := by omega
  have hge := le_mantissa hb0
  by_cases ha : a = 0
  · rw [ha, magOfNat_eq hb0, magOfNat, if_pos rfl]
    omega
  have hlog : a.log2 ≤ 52 := Nat.lt_succ_iff.mp ((Nat.log2_lt ha).mpr (h.trans_le hb))
  rw [magOfNat_eq ha, magOfNat_eq hb0]
  rcases (log2_le_log2 h.le ha).lt_or_eq with hlt | heq
  · have hlt' := mantissa_lt hlog
    omega
  · rw [heq]
    refine Nat.add_lt_add_left ?_ _
    rw [mantissa, mantissa, ← heq, if_pos hlog, if_pos hlog, Nat.shiftLeft_eq, Nat.shiftLeft_eq]
    gcongr

end F64

/-- Where the double nearest to an integer stands. -/
def intRank (i : Int) : Int := if 0 ≤ i then F64.magOfNat i.toNat else -(F64.magOfNat (-i).toNat : Int)

theorem rank_ofNat {n : Nat} (hn : n ≤ 2 ^ 64) : (F64.ofNat n hn).rank = F64.magOfNat n := rfl

theorem rank_ofNegNat {n : Nat} (hn : n ≤ 2 ^ 64) : (F64.ofNegNat n hn).rank = -(F64.magOfNat n : Int) := rfl

theorem rank_asF64 {n : Number} {i : Int} (h : n.asInt = some i) : n.asF64.rank = intRank i := by
  cases n with
  | posInt n =>
    rw [Number.asInt, Option.some.injEq] at h
    rw [Number.asF64, rank_ofNat, ← h, intRank, if_pos (Int.natCast_nonneg _), Int.toNat_natCast]
  | negInt n =>
    rw [Number.asInt, Option.some.injEq] at h
    have hneg : ¬ 0 ≤ i := by omega
    have hnat : (-i).toNat = n.val + 1 := by omega
    rw [Number.asF64, rank_ofNegNat, intRank, if_neg hneg, hnat]
  | float x => cases h

theorem intRank_mono {i j : Int} (h : i ≤ j) : intRank i ≤ intRank j := by
  unfold intRank
  split <;> split
  · exact Int.ofNat_le.mpr (F64.magOfNat_mono (Int.toNat_le_toNat h))
  · omega
  · omega
  · exact Int.neg_le_neg (Int.ofNat_le.mpr (F64.magOfNat_mono (by omega)))

/-- Integers up to `2 ^ 53` on either side are compared as they are. -/
theorem intRank_lt {i j : Int} (h : i < j) (hi : -2 ^ 53 ≤ i) (hj : j ≤ 2 ^ 53) : intRank i < intRank j := by
  have hi' : (-i).toNat ≤ 2 ^ 53 := by omega
  have hj' : j.toNat ≤ 2 ^ 53 := by omega
  unfold intRank
  split <;> split
  · have hlt : i.toNat < j.toNat := by omega
    exact Int.ofNat_lt.mpr (F64.magOfNat_lt_magOfNat hlt hj')
  · omega
  · have hlt : 0 < (-i).toNat := by omega
    have hpos : F64.magOfNat 0 < F64.magOfNat (-i).toNat := F64.magOfNat_lt_magOfNat hlt hi'
    omega
  · have hlt : (-j).toNat < (-i).toNat := by omega
    exact Int.neg_lt_neg (Int.ofNat_lt.mpr (F64.magOfNat_lt_magOfNat hlt hi'))

/-! ### A value -/

/-- The integer a schema has under a key. -/
def intBound (schema : Value) (key : String) : Option Int := ((schema.get? key).bind Value.asNumber).bind Number.asInt

/-- The bounds of the schema, as far as it has any, are integers. -/
def IntBounds (schema : Value) : Prop :=
  ∀ key ∈ ["minimum", "maximum"], ∀ b, (schema.get? key).bind Value.asNumber = some b → b.asInt.isSome = true

/-- Two integers with one double. -/
def Collapse (i j : Int) : Prop := intRank i = intRank j

instance instDecidableCollapse (i j : Int) : Decidable (Collapse i j) := inferInstanceAs (Decidable (intRank i = intRank j))

/-- The integer is below the minimum or above the maximum. -/
def MissesBound (schema : Value) (i : Int) : Prop :=
  (∃ lo, intBound schema "minimum" = some lo ∧ i < lo) ∨ ∃ hi, intBound schema "maximum" = some hi ∧ hi < i

/-- And it has another double than the bound. -/
def MissesApart (schema : Value) (i : Int) : Prop :=
  (∃ lo, intBound schema "minimum" = some lo ∧ i < lo ∧ ¬ Collapse i lo) ∨
    ∃ hi, intBound schema "maximum" = some hi ∧ hi < i ∧ ¬ Collapse hi i

variable {schema : Value} {n : Number} {i : Int}

theorem lt_of_intRank_lt {i j : Int} (h : intRank i < intRank j) : i < j :=
  lt_of_not_ge fun hle => absurd (intRank_mono hle) (not_le.mpr h)

theorem intRank_lt_iff {i j : Int} : intRank i < intRank j ↔ i < j ∧ ¬ Collapse i j :=
  ⟨fun h => ⟨lt_of_intRank_lt h, h.ne⟩, fun h => lt_of_le_of_ne (intRank_mono h.1.le) h.2⟩

/-- Only integers beyond `2 ^ 53` share their doubles. -/
theorem Collapse.beyond {i j : Int} (h : Collapse i j) (hlt : i < j) : i < -2 ^ 53 ∨ 2 ^ 53 < j := by
  by_contra hnear
  rw [not_or, not_lt, not_lt] at hnear
  exact absurd h (intRank_lt hlt hnear.1 hnear.2).ne

theorem any_bound_iff (hb : IntBounds schema) (key : String) (hkey : key ∈ ["minimum", "maximum"]) {p : F64 → Bool}
    {q : Int → Prop} (hpq : ∀ (b : Number) k, b.asInt = some k → (p b.asF64 = true ↔ q k)) :
    (((schema.get? key).bind Value.asNumber).map Number.asF64).any p = true ↔ ∃ k, intBound schema key = some k ∧ q k := by
  rw [intBound]
  cases h : (schema.get? key).bind Value.asNumber with
  | none => simp
  | some b =>
    obtain ⟨k, hk⟩ := Option.isSome_iff_exists.mp (hb key hkey b h)
    simp [hk, hpq b k hk]

/-- Two messages differ where their first words do. -/
theorem append_ne_append {a b s t : String} (k : Nat) (ha : k < a.toList.length) (hb : k < b.toList.length)
    (h : a.toList[k]? ≠ b.toList[k]?) : a ++ s ≠ b ++ t := by
  intro heq
  have hchars := congrArg (fun u : String => u.toList[k]?) heq
  simp only [String.toList_append, List.getElem?_append_left ha, List.getElem?_append_left hb] at hchars
  exact h hchars

section

variable [Deps]

def atLeast (schema : Value) : String := "must be at least " ++ Deps.jsonToString ((schema.get? "minimum").getD .null)

def atMost (schema : Value) : String := "must be at most " ++ Deps.jsonToString ((schema.get? "maximum").getD .null)

/-- The value is of the declared type and in the `enum`. -/
def Fits (schema value : Value) : Prop := wrongType schema value = false ∧ admitted schema value = true

theorem atLeast_ne_atMost : atLeast schema ≠ atMost schema := append_ne_append 11 (by decide) (by decide) (by decide)

/-- What is said of a number that misses a bound, by the doubles. -/
theorem outOfBounds_number (hb : IntBounds schema) (hi : n.asInt = some i) :
    (outOfBounds schema (.number n) = some (atLeast schema) ↔
      ∃ lo, intBound schema "minimum" = some lo ∧ intRank i < intRank lo) ∧
    (outOfBounds schema (.number n) = some (atMost schema) ↔
      ¬ (∃ lo, intBound schema "minimum" = some lo ∧ intRank i < intRank lo) ∧
        ∃ hi, intBound schema "maximum" = some hi ∧ intRank hi < intRank i) := by
  have hbelow := any_bound_iff hb "minimum" (by simp) (p := fun min => decide (n.asF64.rank < min.rank))
    (q := fun lo => intRank i < intRank lo) fun b k hk => by rw [decide_eq_true_eq, rank_asF64 hi, rank_asF64 hk]
  have habove := any_bound_iff hb "maximum" (by simp) (p := fun max => decide (max.rank < n.asF64.rank))
    (q := fun hi => intRank hi < intRank i) fun b k hk => by rw [decide_eq_true_eq, rank_asF64 hi, rank_asF64 hk]
  have hwords : ∀ {a b : Bool},
    ((if a = true then some (atLeast schema) else if b = true then some (atMost schema) else none) =
        some (atLeast schema) ↔ a = true) ∧
      ((if a = true then some (atLeast schema) else if b = true then some (atMost schema) else none) =
        some (atMost schema) ↔ ¬ a = true ∧ b = true) := by
    have hne : atLeast schema ≠ atMost schema := atLeast_ne_atMost
    intro a b
    cases a <;> cases b <;> simp [hne, hne.symm]
  rw [← hbelow, ← habove]
  exact hwords

theorem checkValue_eq_some_iff {value : Value} {msg : String} (h : ∀ s, msg ≠ "expected " ++ s)
    (h' : ∀ l, msg ≠ notAmong l) :
    checkValue schema value = some msg ↔ Fits schema value ∧ outOfBounds schema value = some msg := by
  rw [checkValue_eq, Fits]
  cases wrongType schema value with
  | true => simp [(h _).symm]
  | false =>
    cases admitted schema value with
    | true => simp
    | false => simp [(h' _).symm]

/-- A range message is given exactly where a bound is missed, and names a bound that is. -/
structure RangeExact (schema : Value) (n : Number) (i : Int) : Prop where
  least : checkValue schema (.number n) = some (atLeast schema) → ∃ lo, intBound schema "minimum" = some lo ∧ i < lo
  most : checkValue schema (.number n) = some (atMost schema) → ∃ hi, intBound schema "maximum" = some hi ∧ hi < i
  missed : MissesBound schema i →
    checkValue schema (.number n) = some (atLeast schema) ∨ checkValue schema (.number n) = some (atMost schema)

theorem checkValue_atLeast_iff (hb : IntBounds schema) (hi : n.asInt = some i) :
    checkValue schema (.number n) = some (atLeast schema) ↔ Fits schema (.number n) ∧
      ∃ lo, intBound schema "minimum" = some lo ∧ intRank i < intRank lo := by
  rw [← (outOfBounds_number hb hi).1]
  refine checkValue_eq_some_iff (fun s => ?_) (fun l => ?_)
  · exact append_ne_append 0 (by decide) (by decide) (by decide)
  · exact append_ne_append 0 (by decide) (by decide) (by decide)

theorem checkValue_atMost_iff (hb : IntBounds schema) (hi : n.asInt = some i) :
    checkValue schema (.number n) = some (atMost schema) ↔ Fits schema (.number n) ∧
      ¬ (∃ lo, intBound schema "minimum" = some lo ∧ intRank i < intRank lo) ∧
        ∃ hi, intBound schema "maximum" = some hi ∧ intRank hi < intRank i := by
  rw [← (outOfBounds_number hb hi).2]
  refine checkValue_eq_some_iff (fun s => ?_) (fun l => ?_)
  · exact append_ne_append 0 (by decide) (by decide) (by decide)
  · exact append_ne_append 0 (by decide) (by decide) (by decide)

/-- The range check is exact on a number exactly if the number misses no bound, or its type and the `enum` let it
    through and a bound it misses has another double. -/
theorem rangeExact_iff (hb : IntBounds schema) (hi : n.asInt = some i) :
    RangeExact schema n i ↔ (MissesBound schema i → Fits schema (.number n) ∧ MissesApart schema i) := by
  have hleast := checkValue_atLeast_iff hb hi
  have hmost := checkValue_atMost_iff hb hi
  simp only [intRank_lt_iff] at hleast hmost
  constructor
  · intro h hmiss
    rcases h.missed hmiss with hsome | hsome
    · obtain ⟨hfits, hlo⟩ := hleast.mp hsome
      exact ⟨hfits, .inl hlo⟩
    · obtain ⟨hfits, -, hhi⟩ := hmost.mp hsome
      exact ⟨hfits, .inr hhi⟩
  · intro h
    refine ⟨fun hsome => ?_, fun hsome => ?_, fun hmiss => ?_⟩
    · obtain ⟨-, lo, hlo, hlt, -⟩ := hleast.mp hsome
      exact ⟨lo, hlo, hlt⟩
    · obtain ⟨-, -, hi, hhi, hlt, -⟩ := hmost.mp hsome
      exact ⟨hi, hhi, hlt⟩
    · obtain ⟨hfits, hdoubles⟩ := h hmiss
      by_cases hbelow : ∃ lo, intBound schema "minimum" = some lo ∧ i < lo ∧ ¬ Collapse i lo
      · exact .inl (hleast.mpr ⟨hfits, hbelow⟩)
      · exact .inr (hmost.mpr ⟨hfits, hbelow, hdoubles.resolve_left hbelow⟩)

end

/-! ### A schema -/

/-- A refusal of the keywords of a node, in other words than those for an empty range. -/
def KeywordError (name at_ : String) (e : Error) : Prop :=
  ∃ msg, e = Registry.dialectError name at_ msg ∧ ∃ k < 11, msg.toList[k]? ≠ "'minimum' (".toList[k]?

/-- A refusal that names the node. -/
def NamedAt (name at_ : String) (e : Error) : Prop := ∃ rest, e = .registry (name ++ ": " ++ at_ ++ rest)

variable {name at_ : String} {m : Members}

theorem keywordError_append {lit : String} (rest : String) (k : Nat) (hk : k < 11) (hlit : k < lit.toList.length)
    (h : lit.toList[k]? ≠ "'minimum' (".toList[k]?) :
      KeywordError name at_ (Registry.dialectError name at_ (lit ++ rest)) := by
  refine ⟨_, rfl, k, hk, ?_⟩
  rwa [String.toList_append, List.getElem?_append_left hlit]

theorem keywordError_of {msg : String} (k : Nat) (hk : k < 11) (h : msg.toList[k]? ≠ "'minimum' (".toList[k]?) :
    KeywordError name at_ (Registry.dialectError name at_ msg) := ⟨msg, rfl, k, hk, h⟩

theorem KeywordError.namedAt {e : Error} (h : KeywordError name at_ e) : NamedAt name at_ e := by
  obtain ⟨msg, rfl, -⟩ := h
  exact ⟨": " ++ msg, by rw [Registry.dialectError, Registry.bad, String.append_assoc]⟩

theorem NamedAt.of_append {s : String} {e : Error} (h : NamedAt name (at_ ++ s) e) : NamedAt name at_ e := by
  obtain ⟨rest, rfl⟩ := h
  exact ⟨s ++ rest, by simp only [String.append_assoc]⟩

section

variable [Deps]

theorem KeywordError.ne_emptyRange {e : Error} (h : KeywordError name at_ e) (min max : F64) :
    e ≠ Registry.emptyRange name at_ min max := by
  obtain ⟨msg, rfl, k, hk, hne⟩ := h
  intro heq
  rw [Registry.emptyRange, Registry.dialectError, Registry.dialectError, Registry.bad, Registry.bad, Error.registry.injEq,
    String.append_right_inj] at heq
  refine hne ?_
  rw [heq]
  simp only [String.append_assoc, String.toList_append]
  exact List.getElem?_append_left (by simpa using hk)

theorem declaredType_fails (m : Members) : Except.FailsWith (KeywordError name at_) (Registry.declaredType name at_ m) := by
  unfold Registry.declaredType
  split
  · exact .ok _
  · split
    · exact .ok _
    · refine .error ?_
      simp only [String.append_assoc]
      exact keywordError_append _ 1 (by decide) (by decide) (by decide)

theorem checkEnum_fails (declared : Option String) (m : Members) :
    Except.FailsWith (KeywordError name at_) (Registry.checkEnum name at_ declared m) := by
  unfold Registry.checkEnum
  split
  · exact .ok _
  · exact .error (keywordError_of 1 (by decide) (by decide))
  · refine .forM fun v _ => .ite (fun _ => .error (keywordError_of 1 (by decide) (by decide))) fun _ => ?_
    split
    · refine .error ?_
      simp only [String.append_assoc]
      exact keywordError_append _ 1 (by decide) (by decide) (by decide)
    · exact .ok _
  · exact .error (keywordError_of 1 (by decide) (by decide))

omit [Deps] in
theorem readBound_fails (declared : Option String) (m : Members) {key : String} (hkey : key ∈ ["minimum", "maximum"]) :
    Except.FailsWith (KeywordError name at_) (Registry.readBound name at_ declared m key) := by
  unfold Registry.readBound
  rcases List.mem_pair.mp hkey with rfl | rfl
  · split
    · exact .ok _
    · split
      · exact .error (keywordError_of 10 (by decide) (by decide))
      · exact .ite (fun _ => .ok _) fun _ => .error (keywordError_append _ 10 (by decide) (by decide) (by decide))
  · split
    · exact .ok _
    · split
      · exact .error (keywordError_of 2 (by decide) (by decide))
      · exact .ite (fun _ => .ok _) fun _ => .error (keywordError_append _ 2 (by decide) (by decide) (by decide))

theorem beforeRange_fails (m : Members) : Except.FailsWith (KeywordError name at_) (Registry.beforeRange name at_ m) := by
  have htexts : ∀ key ∈ ["description", "format"],
      ∃ k < 11, ("'" ++ key ++ "' must be a string").toList[k]? ≠ "'minimum' (".toList[k]? := by decide
  have hflags : ∀ key ∈ ["hidden", "enforce", "multiline", "optional"],
      ∃ k < 11, ("'" ++ key ++ "' must be true/false or 1/0").toList[k]? ≠ "'minimum' (".toList[k]? := by decide
  unfold Registry.beforeRange
  refine (declaredType_fails m).bind fun declared _ => ?_
  refine .bind (.forM fun key hkey => .ite (fun _ => .error ⟨_, rfl, htexts key hkey⟩) fun _ => .ok _) fun _ _ => ?_
  refine .bind (.forM fun key hkey => .ite (fun _ => .error ⟨_, rfl, hflags key hkey⟩) fun _ => .ok _) fun _ _ => ?_
  refine (checkEnum_fails declared m).bind fun _ _ => ?_
  refine (readBound_fails declared m (by simp)).bind fun min _ => ?_
  exact (readBound_fails declared m (by simp)).bind fun max _ => .ok _

omit [Deps] in
theorem checkDefault_fails (declared : Option String) (m : Members) :
    Except.FailsWith (KeywordError name at_) (Registry.checkDefault name at_ declared m) := by
  unfold Registry.checkDefault
  split
  · exact .ite (fun _ => .ok _) fun _ => .error (keywordError_append _ 1 (by decide) (by decide) (by decide))
  · exact .ok _

theorem checkRange_fails (min max : Option F64) :
    Except.FailsWith (NamedAt name at_) (Registry.checkRange name at_ min max) := by
  unfold Registry.checkRange
  split
  · exact .ite
      (fun _ => .error ⟨": " ++ _, by rw [Registry.emptyRange, Registry.dialectError, Registry.bad, String.append_assoc]⟩)
      fun _ => .ok _
  · exact .ok _

theorem checkKeywords_named (m : Members) : Except.FailsWith (NamedAt name at_) (Registry.checkKeywords name at_ m) := by
  rw [Registry.checkKeywords_eq]
  refine .bind ((beforeRange_fails m).mono fun _ => KeywordError.namedAt) fun r _ => ?_
  refine .bind (checkRange_fails _ _) fun _ _ => ?_
  exact .bind ((checkDefault_fails _ _).mono fun _ => KeywordError.namedAt) fun _ _ => .ok _

/-- A refusal of a node under the node. -/
def NestedError (name at_ : String) (e : Error) : Prop := KeywordError name at_ e ∨ NamedAt name (at_ ++ ".") e

omit [Deps] in
theorem NestedError.namedAt {e : Error} (h : NestedError name at_ e) : NamedAt name at_ e :=
  h.elim KeywordError.namedAt NamedAt.of_append

omit [Deps] in
theorem NamedAt.nested {lit s : String} {e : Error} (hlit : lit = "." ++ s) (h : NamedAt name (at_ ++ lit) e) :
    NestedError name at_ e := by
  rw [hlit, ← String.append_assoc] at h
  exact .inr h.of_append

theorem NestedError.ne_emptyRange {e : Error} (h : NestedError name at_ e) (min max : F64) :
    e ≠ Registry.emptyRange name at_ min max := by
  rcases h with h | ⟨rest, rfl⟩
  · exact h.ne_emptyRange min max
  · intro heq
    rw [Registry.emptyRange, Registry.dialectError, Registry.bad, Error.registry.injEq] at heq
    simp only [String.append_assoc, String.append_right_inj] at heq
    exact append_ne_append 0 (by decide) (by decide) (by decide) heq

mutual

/-- A refusal names the node it is about. -/
theorem checkSchemaDialect_named (name at_ : String) :
    ∀ v, Except.FailsWith (NamedAt name at_) (Registry.checkSchemaDialect name at_ v)
  | .object m => by
    rw [Registry.checkSchemaDialect]
    refine .bind (checkKeywords_named m) fun declared _ => ?_
    refine .bind ((checkItems_fails name at_ declared m).mono fun _ => NestedError.namedAt) fun _ _ => ?_
    exact (checkProperties_fails name at_ declared m).mono fun _ => NestedError.namedAt
  | .null => .error (keywordError_of 0 (by decide) (by decide)).namedAt
  | .bool _ => .error (keywordError_of 0 (by decide) (by decide)).namedAt
  | .number _ => .error (keywordError_of 0 (by decide) (by decide)).namedAt
  | .string _ => .error (keywordError_of 0 (by decide) (by decide)).namedAt
  | .array _ => .error (keywordError_of 0 (by decide) (by decide)).namedAt

theorem checkItems_fails (name at_ : String) (declared : Option String) :
    ∀ m, Except.FailsWith (NestedError name at_) (Registry.checkItems name at_ declared m)
  | [] => .ok ()
  | (k, v) :: rest => by
    rw [Registry.checkItems]
    refine .ite (fun _ => ?_) fun _ => checkItems_fails name at_ declared rest
    split
    · exact .error (.inl (keywordError_append _ 1 (by decide) (by decide) (by decide)))
    · have hlit : ".items" = "." ++ "items" := by decide
      exact (checkSchemaDialect_named name (at_ ++ ".items") v).mono fun _ => NamedAt.nested hlit

theorem checkProperties_fails (name at_ : String) (declared : Option String) :
    ∀ m, Except.FailsWith (NestedError name at_) (Registry.checkProperties name at_ declared m)
  | [] => .ok ()
  | (k, v) :: rest => by
    cases v
    case object props =>
      rw [Registry.checkProperties]
      refine .ite (fun _ => ?_) fun _ => checkProperties_fails name at_ declared rest
      split
      · exact .error (.inl (keywordError_append _ 1 (by decide) (by decide) (by decide)))
      · exact checkEach_fails name at_ props
    all_goals
      simp only [Registry.checkProperties]
      exact .ite (fun _ => .error (.inl (keywordError_of 1 (by decide) (by decide)))) fun _ =>
        checkProperties_fails name at_ declared rest

theorem checkEach_fails (name at_ : String) :
    ∀ props, Except.FailsWith (NestedError name at_) (Registry.checkEach name at_ props)
  | [] => .ok ()
  | (key, sub) :: rest => by
    rw [Registry.checkEach]
    refine .ite (fun _ => ?_) fun _ => ?_
    · have hlit : ".properties." ++ key = "." ++ ("properties." ++ key) := by
        rw [← String.append_assoc]
        congr 1
      refine .bind ((checkSchemaDialect_named name (at_ ++ ".properties." ++ key) sub).mono fun e he => ?_) fun _ _ =>
        checkEach_fails name at_ rest
      rw [String.append_assoc] at he
      exact he.nested hlit
    · refine .error (.inl ?_)
      rw [String.append_assoc]
      exact keywordError_append _ 0 (by decide) (by decide) (by decide)

end

/-- The checks before that of the range let the schema through. -/
def ComesToRange (name at_ : String) (m : Members) : Prop := ∃ r, Registry.beforeRange name at_ m = .ok r

omit [Deps] in
theorem readBound_eq_some {declared : Option String} {key : String} {bound : Option F64} {b : Number}
    (h : Registry.readBound name at_ declared m key = .ok bound) (hb : Assoc.get? key m = some (.number b)) :
    bound = some b.asF64 := by
  rw [Registry.readBound, hb] at h
  dsimp only [Value.asNumber] at h
  split at h
  · cases h
    rfl
  · cases h

theorem beforeRange_bounds {min max : Number} (hmin : Assoc.get? "minimum" m = some (.number min))
    (hmax : Assoc.get? "maximum" m = some (.number max)) {r : Option String × Option F64 × Option F64}
    (h : Registry.beforeRange name at_ m = .ok r) : r.2.1 = some min.asF64 ∧ r.2.2 = some max.asF64 := by
  obtain ⟨declared, -, h⟩ := Except.bind_eq_ok.mp h
  obtain ⟨_, -, h⟩ := Except.bind_eq_ok.mp h
  obtain ⟨_, -, h⟩ := Except.bind_eq_ok.mp h
  obtain ⟨_, -, h⟩ := Except.bind_eq_ok.mp h
  obtain ⟨min', hmin', h⟩ := Except.bind_eq_ok.mp h
  obtain ⟨max', hmax', h⟩ := Except.bind_eq_ok.mp h
  cases h
  exact ⟨readBound_eq_some hmin' hmin, readBound_eq_some hmax' hmax⟩

/-- A schema is refused for an empty range exactly if its check comes so far and the doubles are out of order. -/
theorem refused_empty_iff {min max : Number} (hmin : Assoc.get? "minimum" m = some (.number min))
    (hmax : Assoc.get? "maximum" m = some (.number max)) :
    Registry.checkSchemaDialect name at_ (.object m) = .error (Registry.emptyRange name at_ min.asF64 max.asF64) ↔
      ComesToRange name at_ m ∧ max.asF64.rank < min.asF64.rank := by
  rw [Registry.checkSchemaDialect, Registry.checkKeywords_eq]
  cases hbefore : Registry.beforeRange name at_ m with
  | error e =>
    have hne := (beforeRange_fails m _ hbefore).ne_emptyRange min.asF64 max.asF64
    simp [ComesToRange, hbefore, hne]
  | ok r =>
    obtain ⟨hlo, hhi⟩ := beforeRange_bounds hmin hmax hbefore
    have hcomes : ComesToRange name at_ m := ⟨r, hbefore⟩
    rw [Except.ok_bind, hlo, hhi, Registry.checkRange]
    split
    · next hlt => simp [hcomes, hlt]
    · next hge =>
      refine ⟨fun h => absurd h ?_, fun h => absurd h.2 hge⟩
      have hfails : Except.FailsWith (NestedError name at_) ((Except.ok () >>= fun _ =>
          Registry.checkDefault name at_ r.1 m >>= fun _ => .ok r.1) >>= fun declared =>
            Registry.checkItems name at_ declared m >>= fun _ => Registry.checkProperties name at_ declared m) := by
        refine .bind ?_ fun declared _ => (checkItems_fails name at_ declared m).bind fun _ _ =>
          checkProperties_fails name at_ declared m
        exact .bind (.ok ()) fun _ _ => .bind ((checkDefault_fails _ m).mono fun _ => .inl) fun _ _ => .ok _
      intro heq
      exact (hfails _ heq).ne_emptyRange _ _ rfl

/-- A schema is refused for an empty range exactly if its integer bounds are out of order. -/
def EmptyRangeExact (name at_ : String) (m : Members) (min max : Number) (lo hi : Int) : Prop :=
  Registry.checkSchemaDialect name at_ (.object m) = .error (Registry.emptyRange name at_ min.asF64 max.asF64) ↔ hi < lo

theorem emptyRangeExact_iff {min max : Number} {lo hi : Int} (hmin : Assoc.get? "minimum" m = some (.number min))
    (hmax : Assoc.get? "maximum" m = some (.number max)) (hlo : min.asInt = some lo) (hhi : max.asInt = some hi) :
    EmptyRangeExact name at_ m min max lo hi ↔ (hi < lo → ComesToRange name at_ m ∧ ¬ Collapse hi lo) := by
  rw [EmptyRangeExact, refused_empty_iff hmin hmax, rank_asF64 hlo, rank_asF64 hhi, intRank_lt_iff]
  tauto

/-- The range checks are exact but where a bound is missed by an integer that shares the bound's double, or where a
    check that comes first has refused already. Doubles are shared beyond `2 ^ 53` only. -/
theorem ranges_exact_iff :
    (∀ (schema : Value) n i, IntBounds schema → n.asInt = some i →
      (RangeExact schema n i ↔ (MissesBound schema i → Fits schema (.number n) ∧ MissesApart schema i))) ∧
    (∀ (name at_ : String) m min max lo hi, Assoc.get? "minimum" m = some (.number min) →
      Assoc.get? "maximum" m = some (.number max) → min.asInt = some lo → max.asInt = some hi →
        (EmptyRangeExact name at_ m min max lo hi ↔ (hi < lo → ComesToRange name at_ m ∧ ¬ Collapse hi lo))) ∧
    ∀ i j, i < j → Collapse i j → i < -2 ^ 53 ∨ 2 ^ 53 < j :=
  ⟨fun _ _ _ hb hi => rangeExact_iff hb hi, fun _ _ _ _ _ _ _ hmin hmax hlo hhi => emptyRangeExact_iff hmin hmax hlo hhi,
    fun _ _ hlt h => h.beyond hlt⟩

end

/-! ### Ports, and the first integers that share a double -/

open Sample

/-- A schema of a range. -/
def rangeMembers (min max : UInt64) : Members := [("minimum", .number (.posInt min)), ("maximum", .number (.posInt max))]

theorem intBounds_range (min max : UInt64) : IntBounds (.object (rangeMembers min max)) := by
  intro key hkey b hb
  rcases List.mem_pair.mp hkey with rfl | rfl <;> cases hb <;> rfl

theorem ranges_exact_ports :
    RangeExact (.object (rangeMembers 1 65535)) (.posInt 0) 0 ∧
      EmptyRangeExact "web" "schema" (rangeMembers 10 3) (.posInt 10) (.posInt 3) 10 3 := by
  refine ⟨(ranges_exact_iff.1 _ _ _ (intBounds_range 1 65535) rfl).mpr fun _ =>
    ⟨⟨rfl, rfl⟩, .inl ⟨1, rfl, by decide, by decide⟩⟩,
    (ranges_exact_iff.2.1 _ _ _ _ _ _ _ rfl rfl rfl rfl).mpr fun _ => ⟨⟨_, rfl⟩, by decide⟩⟩

/-- `2 ^ 53` passes a minimum of `2 ^ 53 + 1`, and the loader takes the range from the latter to the former. -/
theorem ranges_blind :
    ¬ RangeExact (.object (rangeMembers 9007199254740993 9007199254740993)) (.posInt 9007199254740992) 9007199254740992 ∧
      ¬ EmptyRangeExact "web" "schema" (rangeMembers 9007199254740993 9007199254740992) (.posInt 9007199254740993)
        (.posInt 9007199254740992) 9007199254740993 9007199254740992 := by
  constructor
  · intro h
    have hnone : checkValue (.object (rangeMembers 9007199254740993 9007199254740993))
      (.number (.posInt 9007199254740992)) =
        none := by rfl
    rcases h.missed (.inl ⟨9007199254740993, rfl, by decide⟩) with hsome | hsome <;> cases hnone.symm.trans hsome
  · intro h
    have hok : Registry.checkSchemaDialect "web" "schema" (.object (rangeMembers 9007199254740993 9007199254740992)) =
        .ok () := by rfl
    cases hok.symm.trans (h.mpr (by decide))

end PveMeta
