import PveMeta.Theorems.Shapes

/-! # The schema index

The index lists the nodes that the governing schemas have, each once. Below one prefix a parent comes before
what is under it. The prefixes themselves come longest first, so a prefix inside another is listed ahead of the
nodes that it lies below. -/

namespace PveMeta
open Scope Shape

variable {shape : Shape} {ds : Declarations} {owner other : Declared} {path p q : Path} {inherited hidden : Bool}
  {schema : Value} {d e : Described}

/-! ### One prefix's part -/

theorem propertiesOf_wf (hw : schema.WF) : (Value.object (propertiesOf schema)).WF := by
  unfold propertiesOf
  cases hprops : (schema.get? "properties").bind Value.asObject with
  | none => exact Value.WF.empty
  | some props =>
    obtain ⟨v, hv, hobj⟩ := Option.bind_eq_some_iff.mp hprops
    have hwv : v.WF := by
      cases schema
      case object m => exact hw.of_get? hv
      all_goals cases hv
    cases v <;> cases hobj
    exact hwv

theorem child_of_mem_propertiesOf (hw : schema.WF) {m : String × Value} (hm : m ∈ propertiesOf schema) :
    (schema.get? "properties").bind (·.get? m.1) = some m.2 ∧ m.2.WF := by
  have hwp := propertiesOf_wf hw
  refine ⟨child_eq_some_iff.mpr ⟨propertiesOf schema, ?_, Assoc.get?_of_mem hwp.keys hm⟩, hwp.members m hm⟩
  rw [propertiesOf] at hm ⊢
  cases hprops : (schema.get? "properties").bind Value.asObject with
  | none =>
    rw [hprops] at hm
    cases hm
  | some props => rfl

theorem collectEach_eq {props : Members} : shape.collectEach owner path hidden props =
    props.flatMap fun m => shape.collect owner (path.join m.1) hidden m.2 := by
  induction props with
  | nil => rfl
  | cons m props ih => rw [collectEach, ih, List.flatMap_cons]

theorem collectProperties_eq {m : Members} :
    shape.collectProperties owner path hidden m = shape.collectEach owner path hidden (propertiesOf (.object m)) := by
  induction m with
  | nil => rfl
  | cons e m ih =>
    obtain ⟨key, v⟩ := e
    by_cases hkey : key = "properties"
    · subst hkey
      cases v <;> rfl
    · have hnext : shape.collectProperties owner path hidden ((key, v) :: m) =
          shape.collectProperties owner path hidden m := by
        cases v <;> simp [collectProperties, hkey]
      have hskip : propertiesOf (.object ((key, v) :: m)) = propertiesOf (.object m) := by
        simp only [propertiesOf, Value.get?, Assoc.get?_cons, hkey, if_false]
      rw [hnext, ih, hskip]

theorem collect_eq (h : (shape.governing path).map (·.pre) = some owner.pre) :
    shape.collect owner path inherited schema = ⟨path, schema, flag schema "hidden" inherited⟩ ::
      (propertiesOf schema).flatMap fun m =>
        shape.collect owner (path.join m.1) (flag schema "hidden" inherited) m.2 := by
  cases schema with
  | object m => simp only [collect, if_pos h, collectProperties_eq, collectEach_eq]
  | _ =>
    simp only [collect, if_pos h]
    rfl

theorem collect_of_not_governs (h : ¬ (shape.governing path).map (·.pre) = some owner.pre) :
    shape.collect owner path inherited schema = [] := by
  cases schema <;> simp only [collect, if_neg h]

theorem path_prefix_of_mem_collect (hw : schema.WF) (hd : d ∈ shape.collect owner path inherited schema) :
    path <+: d.path := by
  induction schema using schema_ind generalizing path inherited with
  | node schema ih =>
    by_cases hgov : (shape.governing path).map (·.pre) = some owner.pre
    · rw [collect_eq hgov] at hd
      rcases List.mem_cons.mp hd with rfl | hd
      · exact List.prefix_rfl
      · obtain ⟨m, hm, hd⟩ := List.mem_flatMap.mp hd
        exact (List.prefix_append path [m.1]).trans (ih m hm (child_of_mem_propertiesOf hw hm).2 hd)
    · rw [collect_of_not_governs hgov] at hd
      cases hd

/-- What is listed below two keys of one map is apart. -/
theorem not_prefix_of_keys {j k : String} (hne : j ≠ k) (hp : path.join j <+: p) (hq : path.join k <+: q) : ¬ q <+: p := by
  intro hqp
  have hlen : (path.join k).length = (path.join j).length := by simp [Path.join]
  have heq := (List.prefix_of_prefix_length_le hp (hq.trans hqp) hlen.ge).eq_of_length hlen.symm
  exact hne (by simpa [Path.join] using heq)

/-- A parent comes before what is under it, and nothing comes twice. -/
theorem collect_pairwise (hw : schema.WF) :
    (shape.collect owner path inherited schema).Pairwise fun d e => ¬ e.path <+: d.path := by
  induction schema using schema_ind generalizing path inherited with
  | node schema ih =>
    by_cases hgov : (shape.governing path).map (·.pre) = some owner.pre
    · rw [collect_eq hgov, List.pairwise_cons, List.pairwise_flatMap]
      refine ⟨fun e he hpre => ?_, fun m hm => ?_, ?_⟩
      · obtain ⟨m, hm, he⟩ := List.mem_flatMap.mp he
        have hbelow := path_prefix_of_mem_collect (child_of_mem_propertiesOf hw hm).2 he
        have hlen := (hbelow.trans hpre).length_le
        simp [Path.join] at hlen
      · exact ih m hm (child_of_mem_propertiesOf hw hm).2
      · have hkeys : (propertiesOf schema).Pairwise fun a b => a.1 ≠ b.1 :=
          List.pairwise_map.mp (propertiesOf_wf hw).keys
        refine hkeys.imp_of_mem fun {a b} ha hb hne d hd e he => ?_
        exact not_prefix_of_keys hne (path_prefix_of_mem_collect (child_of_mem_propertiesOf hw ha).2 hd)
          (path_prefix_of_mem_collect (child_of_mem_propertiesOf hw hb).2 he)
    · rw [collect_of_not_governs hgov]
      exact List.Pairwise.nil

/-- What is listed under a node is a node that the prefix governs, with the flag that holds there. -/
theorem at_of_mem_collect (ho : owner ∈ ds.list) (hw : schema.WF) {default : Bool}
    (hat : ds.shape.governing path = some owner →
      ds.shape.At "hidden" default owner path schema (flag schema "hidden" inherited))
    (hd : d ∈ ds.shape.collect owner path inherited schema) :
    ds.shape.At "hidden" default owner d.path d.schema d.hidden := by
  induction schema using schema_ind generalizing path inherited with
  | node schema ih =>
    by_cases hgov : (ds.shape.governing path).map (·.pre) = some owner.pre
    · have hhere := hat ((Declarations.governs_iff ho).mp hgov)
      rw [collect_eq hgov] at hd
      rcases List.mem_cons.mp hd with rfl | hd
      · exact hhere
      · obtain ⟨m, hm, hd⟩ := List.mem_flatMap.mp hd
        obtain ⟨hsub, hwm⟩ := child_of_mem_propertiesOf hw hm
        exact ih m hm hwm (fun hbelow => hhere.child hsub hbelow) hd
    · rw [collect_of_not_governs hgov] at hd
      cases hd

/-- A node that the prefix governs all the way down to is listed. -/
theorem exists_mem_collect {top : Value} (inherited : Bool)
    (hgov : ∀ q, q <+: p → (shape.governing (path ++ q)).map (·.pre) = some owner.pre)
    (hnode : nodeAt top p = some schema) :
    ∃ d ∈ shape.collect owner path inherited top, d.path = path ++ p ∧ d.schema = schema := by
  induction p generalizing path inherited top with
  | nil =>
    have hhere := hgov [] List.prefix_rfl
    rw [List.append_nil] at hhere
    rw [nodeAt_nil, Option.some.injEq] at hnode
    subst hnode
    refine ⟨⟨path, top, flag top "hidden" inherited⟩, ?_, (List.append_nil path).symm, rfl⟩
    rw [collect_eq hhere]
    exact List.mem_cons_self
  | cons k p ih =>
    have hhere := hgov [] List.nil_prefix
    rw [List.append_nil] at hhere
    rw [nodeAt_cons] at hnode
    obtain ⟨sub, hsub, hnode⟩ := Option.bind_eq_some_iff.mp hnode
    obtain ⟨props, hprops, hget⟩ := child_eq_some_iff.mp hsub
    have hbelow : ∀ q, q <+: p → (shape.governing (path.join k ++ q)).map (·.pre) = some owner.pre := by
      intro q hq
      have hgo := hgov (k :: q) (List.cons_prefix_cons.mpr ⟨rfl, hq⟩)
      rwa [List.append_cons] at hgo
    obtain ⟨d, hd, hpath, hschema⟩ := ih (flag top "hidden" inherited) hbelow hnode
    refine ⟨d, ?_, ?_, hschema⟩
    · rw [collect_eq hhere, propertiesOf, hprops, Option.getD_some]
      exact List.mem_cons_of_mem _ (List.mem_flatMap.mpr ⟨(k, sub), Assoc.mem_of_get? hget, hd⟩)
    · rw [hpath, Path.join, List.append_assoc, List.singleton_append]

/-! ### The whole index -/

namespace Declarations

/-- What the index lists for a prefix. -/
def part (ds : Declarations) (owner : Declared) : List Described :=
  match owner.schema with
  | some schema => ds.shape.collect owner owner.pre owner.hidden schema
  | none => []

theorem schemaIndex_eq (ds : Declarations) : ds.shape.schemaIndex = ds.shape.prefixes.flatMap ds.part := rfl

theorem part_eq (h : owner.schema = some schema) :
    ds.part owner = ds.shape.collect owner owner.pre owner.hidden schema := by
  rw [part, h]

/-- What is listed for a prefix is described by its schema. -/
theorem at_of_mem_part (ho : owner ∈ ds.list) (hd : d ∈ ds.part owner) :
    ds.shape.At "hidden" owner.hidden owner d.path d.schema d.hidden := by
  cases hs : owner.schema with
  | none =>
    rw [part, hs] at hd
    cases hd
  | some schema =>
    rw [part_eq hs] at hd
    exact at_of_mem_collect ho (ds.wf owner ho schema hs) (fun _ => At.root ho hs) hd

/-- A prefix with a schema is listed at its own place. -/
theorem exists_root_mem_part (ho : owner ∈ ds.list) (hs : owner.schema = some schema) :
    ∃ d ∈ ds.part owner, d.path = owner.pre := by
  refine ⟨⟨owner.pre, schema, flag schema "hidden" owner.hidden⟩, ?_, rfl⟩
  rw [part_eq hs, collect_eq ((governs_iff ho).mpr (governing_pre ho))]
  exact List.mem_cons_self

/-- Within a prefix's part a parent comes first. -/
theorem part_pairwise (ho : owner ∈ ds.list) : (ds.part owner).Pairwise fun d e => ¬ e.path <+: d.path := by
  unfold part
  cases hs : owner.schema with
  | none => exact List.Pairwise.nil
  | some schema => exact collect_pairwise (ds.wf owner ho schema hs)

theorem mem_schemaIndex : d ∈ ds.shape.schemaIndex ↔ ∃ owner ∈ ds.list, d ∈ ds.part owner := by
  rw [schemaIndex_eq, List.mem_flatMap]
  simp only [mem_prefixes]

theorem schemaAt_of_mem_schemaIndex (hd : d ∈ ds.shape.schemaIndex) : ds.shape.schemaAt d.path = some d.schema := by
  obtain ⟨owner, ho, hd⟩ := mem_schemaIndex.mp hd
  exact (at_of_mem_part ho hd).node

theorem exists_mem_schemaIndex (h : ds.shape.schemaAt p = some schema) :
    ∃ d ∈ ds.shape.schemaIndex, d.path = p ∧ d.schema = schema := by
  obtain ⟨owner, hgov, hnode⟩ := Option.bind_eq_some_iff.mp h
  obtain ⟨top, hs, hnode⟩ := Option.bind_eq_some_iff.mp hnode
  have ho := (governing_eq_some_iff.mp hgov).1
  have hp : owner.pre ++ p.drop owner.pre.length = p := List.prefix_iff_eq_append.mp (governing_contains hgov)
  have hbetween : ∀ q, q <+: p.drop owner.pre.length →
      (ds.shape.governing (owner.pre ++ q)).map (·.pre) = some owner.pre := by
    intro q hq
    have hq' : owner.pre ++ q <+: p := by
      rw [← hp]
      exact (List.prefix_append_right_inj owner.pre).mpr hq
    exact (governs_iff ho).mpr (governing_between hgov (List.prefix_append _ _) hq')
  obtain ⟨d, hd, hpath, hschema⟩ := exists_mem_collect owner.hidden hbetween hnode
  rw [← part_eq hs] at hd
  exact ⟨d, mem_schemaIndex.mpr ⟨owner, ho, hd⟩, hpath.trans hp, hschema⟩

/-- No path is listed twice: two parts lie below different prefixes. -/
theorem nodup_schemaIndex (ds : Declarations) : (ds.shape.schemaIndex.map (·.path)).Nodup := by
  refine List.pairwise_map.mpr ?_
  rw [schemaIndex_eq, List.pairwise_flatMap]
  refine ⟨fun owner ho => ?_, ?_⟩
  · exact (part_pairwise (mem_prefixes.mp ho)).imp fun {d e} hnot (heq : d.path = e.path) => hnot (heq ▸ List.prefix_rfl)
  · refine ds.longestFirst.distinct.imp_of_mem fun {owner other} ho hother hne d hd e he heq => ?_
    have hgov := (at_of_mem_part (mem_prefixes.mp ho) hd).governs
    rw [heq, (at_of_mem_part (mem_prefixes.mp hother) he).governs, Option.some.injEq] at hgov
    exact hne (hgov ▸ rfl)

end Declarations

/-- The index lists the paths that a schema describes, each once, with the node that is looked up there and
    the `hidden` nearest to it. -/
theorem schemaIndex_enumerates (ds : Declarations) :
    (ds.shape.schemaIndex.map (·.path)).Nodup ∧
      (∀ path schema, (∃ d ∈ ds.shape.schemaIndex, d.path = path ∧ d.schema = schema) ↔
        ds.shape.schemaAt path = some schema) ∧
      ∀ d ∈ ds.shape.schemaIndex, ∃ owner, ds.shape.governing d.path = some owner ∧
        Nearest (ds.shape.explicitly "hidden") owner.pre d.path owner.hidden d.hidden := by
  refine ⟨ds.nodup_schemaIndex, fun path schema => ?_, fun d hd => ?_⟩
  · constructor
    · intro ⟨d, hd, hpath, hschema⟩
      rw [← hpath, ← hschema]
      exact Declarations.schemaAt_of_mem_schemaIndex hd
    · exact Declarations.exists_mem_schemaIndex
  · obtain ⟨owner, ho, hd⟩ := Declarations.mem_schemaIndex.mp hd
    have hat := Declarations.at_of_mem_part ho hd
    exact ⟨owner, hat.governs, hat.nearest⟩

/-! ### The order of the index -/

/-- Of two listed paths the one above comes before the one below it. -/
def ParentsFirst (paths : List Path) : Prop :=
  ∀ (i j : Nat) (p q : Path), paths[i]? = some p → paths[j]? = some q → p <+: q → p ≠ q → i < j

theorem parentsFirst_iff {paths : List Path} : ParentsFirst paths ↔ paths.Pairwise fun p q => q <+: p → q = p := by
  rw [List.pairwise_iff_getElem]
  constructor
  · intro h i j hi hj hij hpre
    by_contra hne
    have hlt := h j i _ _ (List.getElem?_eq_getElem hj) (List.getElem?_eq_getElem hi) hpre hne
    omega
  · intro h i j p q hi hj hpre hne
    obtain ⟨hi', rfl⟩ := List.getElem?_eq_some_iff.mp hi
    obtain ⟨hj', rfl⟩ := List.getElem?_eq_some_iff.mp hj
    rcases Nat.lt_trichotomy i j with hlt | heq | hgt
    · exact hlt
    · subst heq
      exact absurd rfl hne
    · exact absurd (h j i hj' hi' hgt hpre) hne

namespace Declarations

/-- A declared prefix with a schema lies below another one. -/
def Nested (ds : Declarations) : Prop :=
  ∃ outer ∈ ds.list, ∃ inner ∈ ds.list, outer.schema.isSome ∧ inner.schema.isSome ∧
    outer.pre <+: inner.pre ∧ outer.pre ≠ inner.pre

/-- The prefixes of two parts with a path in common are one below the other. -/
theorem nested_of_mem_part (ho : owner ∈ ds.list) (hother : other ∈ ds.list) (hne : owner.pre ≠ other.pre)
    (hd : d ∈ ds.part owner) (he : e ∈ ds.part other) (hpre : e.path <+: d.path) : ds.Nested := by
  have hschema : ∀ {o : Declared} {d : Described}, d ∈ ds.part o → o.schema.isSome := by
    intro o d hd
    cases hs : o.schema with
    | none =>
      rw [part, hs] at hd
      cases hd
    | some schema => rfl
  have hbelow := governing_contains (at_of_mem_part ho hd).governs
  have hbelow' := (governing_contains (at_of_mem_part hother he).governs).trans hpre
  rcases List.prefix_or_prefix_of_prefix hbelow hbelow' with h | h
  · exact ⟨owner, ho, other, hother, hschema hd, hschema he, h, hne⟩
  · exact ⟨other, hother, owner, ho, hschema he, hschema hd, h, hne.symm⟩

/-- A longer prefix's part comes before a shorter one's. -/
theorem parts_pairwise (h : ParentsFirst (ds.shape.schemaIndex.map (·.path))) (ho : owner ∈ ds.list)
    (hother : other ∈ ds.list) (hlen : other.pre.length < owner.pre.length) (hd : d ∈ ds.part owner)
    (he : e ∈ ds.part other) (hpre : e.path <+: d.path) : e.path = d.path := by
  rw [parentsFirst_iff, List.pairwise_map, schemaIndex_eq, List.pairwise_flatMap] at h
  -- The sorting leaves one order for two prefixes of different length.
  have hall := List.Pairwise.forall_of_forall_of_flip (R := fun a b => b.pre.length < a.pre.length →
      ∀ x ∈ ds.part a, ∀ y ∈ ds.part b, y.path <+: x.path → y.path = x.path)
    (fun a _ hlt => absurd hlt (Nat.lt_irrefl _))
    (h.2.imp fun {a b} hab (_ : b.pre.length < a.pre.length) => hab)
    (ds.longestFirst.sorted.imp fun hle hlt => absurd hle (Nat.not_le.mpr hlt))
  exact hall (mem_prefixes.mpr ho) (mem_prefixes.mpr hother) hlen d hd e he hpre

end Declarations

/-- The index lists parents first exactly if no declared prefix with a schema lies below another. -/
theorem schemaIndex_parentsFirst_iff (ds : Declarations) :
    ParentsFirst (ds.shape.schemaIndex.map (·.path)) ↔ ¬ ds.Nested := by
  constructor
  · intro h ⟨outer, houter, inner, hinner, hsouter, hsinner, hpre, hne⟩
    obtain ⟨schema, hs⟩ := Option.isSome_iff_exists.mp hsouter
    obtain ⟨schema', hs'⟩ := Option.isSome_iff_exists.mp hsinner
    obtain ⟨e, he, hpath⟩ := Declarations.exists_root_mem_part houter hs
    obtain ⟨d, hd, hpath'⟩ := Declarations.exists_root_mem_part hinner hs'
    have hlen : outer.pre.length < inner.pre.length :=
      lt_of_le_of_ne hpre.length_le fun heq => hne (hpre.eq_of_length heq)
    have heq := Declarations.parts_pairwise h hinner houter hlen hd he (by rwa [hpath, hpath'])
    rw [hpath, hpath'] at heq
    exact hne heq
  · intro h
    rw [parentsFirst_iff, List.pairwise_map, Declarations.schemaIndex_eq, List.pairwise_flatMap]
    refine ⟨fun owner ho => ?_, ?_⟩
    · exact (Declarations.part_pairwise (Declarations.mem_prefixes.mp ho)).imp fun hnot hpre => absurd hpre hnot
    · refine ds.longestFirst.distinct.imp_of_mem fun {owner other} ho hother hne d hd e he hpre => ?_
      exact absurd (Declarations.nested_of_mem_part (Declarations.mem_prefixes.mp ho) (Declarations.mem_prefixes.mp hother)
        hne hd he hpre) h

/-- Two prefixes, `a` and `a.b`, with a schema each. -/
def nestedPair : Declarations where
  list := [⟨["a"], none, some (.object []), false, false⟩, ⟨["a", "b"], none, some (.object []), false, false⟩]
  distinct := by decide
  wf := by
    intro d hd schema hs
    have hempty : d.schema = some (.object []) := by
      rcases List.mem_pair.mp hd with rfl | rfl <;> rfl
    rw [hempty, Option.some.injEq] at hs
    exact hs ▸ Value.WF.empty

/-- `a.b` is listed ahead of `a`. -/
theorem nested_prefix_listed_first : ¬ ParentsFirst (nestedPair.shape.schemaIndex.map (·.path)) := by
  have hpaths : nestedPair.shape.schemaIndex.map (·.path) = [["a", "b"], ["a"]] := by rfl
  intro h
  have hlt := h 1 0 ["a"] ["a", "b"] (by rw [hpaths]; rfl) (by rw [hpaths]; rfl) ⟨["b"], rfl⟩ (by simp)
  omega

end PveMeta
