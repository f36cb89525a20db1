import PveMeta.Theorems.Layers

/-! # Names, prefixes and their order

A prefix file's name is its prefix: it is parsed to a path that is displayed as the name, and a path of valid segments is
parsed back from what it is displayed as. So the order of the prefixes, which compares what is displayed, is one of the
paths, and the first prefix of a shape that contains a path is the longest that does. -/

namespace PveMeta
namespace Path

/-- Every segment is a valid one. -/
def Valid (p : Path) : Prop := ∀ s ∈ p, isValidSegment s = true

instance (p : Path) : Decidable p.Valid := inferInstanceAs (Decidable (∀ s ∈ p, _))

variable {p q : Path} {c : Char}

/-! ### Parsing what is displayed -/

theorem isSegmentChar_of_valid (h : p.Valid) {part : Text} (hpart : part ∈ p.map String.toList) (hc : c ∈ part) :
    isSegmentChar c = true := by
  obtain ⟨s, hs, rfl⟩ := List.mem_map.mp hpart
  have hvalid := h s hs
  rw [isValidSegment, Bool.and_eq_true] at hvalid
  exact List.all_eq_true.mp hvalid.2 c hc

theorem dot_not_mem_of_valid (h : p.Valid) : ∀ part ∈ p.map String.toList, '.' ∉ part := by
  intro part hpart hc
  exact absurd (isSegmentChar_of_valid h hpart hc) (by decide)

theorem toList_display (p : Path) : p.display.toList = ['.'].intercalate (p.map String.toList) := String.toList_ofList

/-- What a path is displayed as is split where it was joined. -/
theorem splitOn_display (h : p.Valid) (hne : p ≠ []) : (p.display.toList.splitOn '.').map String.ofList = p := by
  rw [toList_display, List.splitOn_intercalate _ (dot_not_mem_of_valid h) (by simpa using hne), List.map_map]
  simp [Function.comp_def]

theorem slash_not_mem_display (h : p.Valid) : '/' ∉ p.display.toList := by
  intro hmem
  by_cases hne : p = []
  · rw [hne] at hmem
    cases hmem
  · have hsplit : p.display.toList.splitOn '.' = p.map String.toList := by
      rw [toList_display, List.splitOn_intercalate _ (dot_not_mem_of_valid h) (by simpa using hne)]
    rcases Text.mem_splitOn (d := '.') hmem with hc | ⟨part, hpart, hc⟩
    · cases hc
    · rw [hsplit] at hpart
      exact absurd (isSegmentChar_of_valid h hpart hc) (by decide)

theorem parse_display (h : p.Valid) : Path.parse p.display = .ok p := by
  by_cases hne : p = []
  · rw [hne]
    rfl
  · have hsplit := splitOn_display h hne
    have hparts : (p.display.toList.splitOn '.').map String.ofList ≠ [] := by rwa [hsplit]
    have hnonempty : p.display.toList ≠ [] := by
      intro hnil
      obtain ⟨s, rest, rfl⟩ := List.exists_cons_of_ne_nil hne
      have hs : s.toList = [] := by
        rw [hnil] at hsplit
        exact congrArg String.toList (List.cons.inj hsplit).1.symm
      have hvalid := h s List.mem_cons_self
      rw [isValidSegment, hs] at hvalid
      cases hvalid
    have hall : ((p.display.toList.splitOn '.').map String.ofList).all isValidSegment = true := by
      rw [hsplit]
      exact List.all_eq_true.mpr h
    rw [Registry.parse_dotted (slash_not_mem_display h) hnonempty hall, hsplit]

theorem display_injective (hp : p.Valid) (hq : q.Valid) (h : p.display = q.display) : p = q := by
  have hparse := parse_display hp
  rw [h, parse_display hq] at hparse
  exact (Except.ok.inj hparse).symm

/-! ### The order -/

theorem bySpecificity_swap (p q : Path) : bySpecificity q p = (bySpecificity p q).swap := by
  have hlength : compare p.length q.length = (compare q.length p.length).swap := Std.OrientedCmp.eq_swap
  have hname : compare q.display p.display = (compare p.display q.display).swap := Std.OrientedCmp.eq_swap
  rw [bySpecificity, bySpecificity, Ordering.swap_then, hlength, hname]

theorem bySpecificity_eq_iff (hp : p.Valid) (hq : q.Valid) : bySpecificity p q = .eq ↔ p = q := by
  refine ⟨fun h => display_injective hp hq ?_, ?_⟩
  · rw [bySpecificity, Ordering.then_eq_eq] at h
    exact compare_eq_iff_eq.mp h.2
  · rintro rfl
    simp [bySpecificity]

/-- A path comes after every one that extends it. -/
theorem bySpecificity_of_prefix (h : p <+: q) (hne : p ≠ q) : bySpecificity p q = .gt := by
  have hlt : p.length < q.length := lt_of_le_of_ne h.length_le fun heq => hne (h.eq_of_length heq)
  rw [bySpecificity, Nat.compare_eq_gt.mpr hlt]
  rfl

end Path

open Registry Scope

/-! ### The governing prefix -/

theorem Shape.governing_longest {declared : List Declared} (hdistinct : (declared.map (·.pre)).Nodup) (path : Path)
    (d : Declared) :
    (Shape.new declared).governing path = some d ↔ d ∈ declared ∧ d.pre.isPrefixOf path = true ∧
      ∀ e ∈ declared, e.pre.isPrefixOf path = true → e = d ∨ e.pre.length < d.pre.length := by
  have hlongest := Shape.longestFirst_new hdistinct
  have hiff := hlongest.longest_eq_some_iff (d := d) (p := path)
  simp only [Shape.mem_prefixes_new] at hiff
  have hcontains : ∀ e : Declared, e.pre.isPrefixOf path = true ↔ e.pre <+: path := fun e => List.isPrefixOf_iff_prefix
  simp only [hcontains]
  refine Iff.trans hiff (and_congr_right fun hd => and_congr_right fun hpath => ?_)
  constructor
  · intro hmax e he hpre
    have hinside := hmax e he hpre
    rcases Nat.lt_or_eq_of_le hinside.length_le with hlt | heq
    · exact Or.inr hlt
    · have heqPrefix := hinside.eq_of_length heq
      exact Or.inl (hlongest.eq_of_key (Shape.mem_prefixes_new.mpr he) (Shape.mem_prefixes_new.mpr hd) heqPrefix)
  · intro hmax e he hpre
    rcases hmax e he hpre with rfl | hlt
    · exact List.prefix_rfl
    · exact List.prefix_of_prefix_length_le hpre hpath hlt.le

theorem Shape.governing_eq_none {declared : List Declared} {path : Path} :
    (Shape.new declared).governing path = none ↔ ∀ d ∈ declared, d.pre.isPrefixOf path = false := by
  rw [Shape.governing, List.find?_eq_none]
  simp only [Shape.mem_prefixes_new, Bool.not_eq_true]

/-- Names, prefixes and their order agree. -/
theorem prefix_names_agree :
    (∀ n, isValidFileName n = true → ∃ p, Path.parse n = .ok p ∧ p.isRoot = false ∧ p.Valid ∧ p.display = n) ∧
    (∀ n n' p, isValidFileName n = true → isValidFileName n' = true → Path.parse n = .ok p → Path.parse n' = .ok p →
      n = n') ∧
    (∀ p : Path, p.Valid → Path.parse p.display = .ok p) ∧
    (∀ p q : Path, bySpecificity q p = (bySpecificity p q).swap) ∧
    (∀ p q : Path, p.Valid → q.Valid → (bySpecificity p q = .eq ↔ p = q)) ∧
    (∀ p q r : Path, bySpecificity p q ≠ .gt → bySpecificity q r ≠ .gt → bySpecificity p r ≠ .gt) ∧
    (∀ p q : Path, p.isPrefixOf q = true → p ≠ q → bySpecificity p q = .gt) ∧
    ∀ declared : List Declared, (declared.map (·.pre)).Nodup → ∀ path,
      (∀ d, (Shape.new declared).governing path = some d ↔ d ∈ declared ∧ d.pre.isPrefixOf path = true ∧
        ∀ e ∈ declared, e.pre.isPrefixOf path = true → e = d ∨ e.pre.length < d.pre.length) ∧
      ((Shape.new declared).governing path = none ↔ ∀ d ∈ declared, d.pre.isPrefixOf path = false) := by
  have hname : ∀ n, isValidFileName n = true → ∃ p, Path.parse n = .ok p ∧ p.isRoot = false ∧ p.Valid ∧ p.display = n := by
    intro n hn
    refine ⟨_, parse_of_valid hn, ?_, List.all_eq_true.mp (allValid_of_valid hn), display_parts n⟩
    rw [Path.isRoot, List.isEmpty_map]
    exact List.isEmpty_eq_false_iff.mpr (List.splitOn_ne_nil _ _)
  refine ⟨hname, fun n n' p hn hn' hp hp' => ?_, fun p => Path.parse_display, Path.bySpecificity_swap,
    fun p q => Path.bySpecificity_eq_iff, fun p q r => bySpecificity_trans, fun p q hpre hne => ?_,
    fun declared hdistinct path => ?_⟩
  · obtain ⟨q, hq, -, -, hdisplay⟩ := hname n hn
    obtain ⟨q', hq', -, -, hdisplay'⟩ := hname n' hn'
    rw [hq, Except.ok.injEq] at hp
    rw [hq', Except.ok.injEq] at hp'
    rw [← hdisplay, ← hdisplay', hp, hp']
  · exact Path.bySpecificity_of_prefix (List.isPrefixOf_iff_prefix.mp hpre) hne
  · exact ⟨Shape.governing_longest hdistinct path, Shape.governing_eq_none⟩

end PveMeta
