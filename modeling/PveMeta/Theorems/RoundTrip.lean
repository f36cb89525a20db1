import PveMeta.Theorems.DryRun
import PveMeta.Theorems.ValueEq

/-! # What is written is what is read back

A dump is the serializer's text with the newlines at its end cut to one. Where that text ends in a block
scalar that keeps its trailing newlines, they are part of the scalar, and cutting them changes it; every
other document is read back as it was. -/

namespace PveMeta

/-! ### The last scalar of a document -/

namespace Value

mutual

/-- The scalar a document's text ends with; a map or a list that ends it is empty. -/
def lastScalar : Value → Option Value
  | .array items => lastOfItems items
  | .object m => lastOfMembers m
  | v => some v

def lastOfItems : List Value → Option Value
  | [] => none
  | v :: items => if items.isEmpty then lastScalar v else lastOfItems items

def lastOfMembers : Members → Option Value
  | [] => none
  | (_, v) :: m => if m.isEmpty then lastScalar v else lastOfMembers m

end

mutual

/-- The document with `s` for the string it ends with. -/
def setLast (s : String) : Value → Value
  | .array items => .array (setLastItem s items)
  | .object m => .object (setLastMember s m)
  | .string _ => .string s
  | v => v

def setLastItem (s : String) : List Value → List Value
  | [] => []
  | v :: items => if items.isEmpty then [setLast s v] else v :: setLastItem s items

def setLastMember (s : String) : Members → Members
  | [] => []
  | (k, v) :: m => if m.isEmpty then [(k, setLast s v)] else (k, v) :: setLastMember s m

end

theorem setLastItem_isEmpty (s : String) (items : List Value) : (setLastItem s items).isEmpty = items.isEmpty := by
  cases items with
  | nil => rfl
  | cons v items =>
    rw [setLastItem]
    split <;> rfl

theorem setLastMember_isEmpty (s : String) (m : Members) : (setLastMember s m).isEmpty = m.isEmpty := by
  cases m with
  | nil => rfl
  | cons e m =>
    rw [setLastMember]
    split <;> rfl

theorem lastScalar_setLast {v : Value} {s t : String} (h : v.lastScalar = some (.string s)) :
    (v.setLast t).lastScalar = some (.string t) := by
  induction v using Value.ind with
  | null => cases h
  | bool b => cases h
  | number n => cases h
  | string s => rfl
  | array items ih =>
    rw [lastScalar] at h
    rw [setLast, lastScalar]
    induction items with
    | nil => cases h
    | cons v items ih' =>
      rw [lastOfItems] at h
      rw [setLastItem]
      split at h
      · next hnil =>
        rw [if_pos hnil, lastOfItems, List.isEmpty_nil, if_pos rfl]
        exact ih v List.mem_cons_self h
      · next hne =>
        rw [if_neg hne, lastOfItems, setLastItem_isEmpty, if_neg hne]
        exact ih' (fun w hw => ih w (List.mem_cons_of_mem _ hw)) h
  | object m ih =>
    rw [lastScalar] at h
    rw [setLast, lastScalar]
    induction m with
    | nil => cases h
    | cons e m ih' =>
      rw [lastOfMembers] at h
      rw [setLastMember]
      split at h
      · next hnil =>
        rw [if_pos hnil, lastOfMembers, List.isEmpty_nil, if_pos rfl]
        exact ih e List.mem_cons_self h
      · next hne =>
        rw [if_neg hne, lastOfMembers, setLastMember_isEmpty, if_neg hne]
        exact ih' (fun w hw => ih w (List.mem_cons_of_mem _ hw)) h

theorem setLast_ne {v : Value} {s t : String} (h : v.lastScalar = some (.string s)) (hne : t ≠ s) :
    v.setLast t ≠ v := by
  intro heq
  have hlast := lastScalar_setLast (t := t) h
  rw [heq, h] at hlast
  cases hlast
  exact hne rfl

/-- A map that ends in a scalar ends in a member that does, and in that one only the string is set. -/
theorem exists_last {m : Members} {x : Value} (hm : (Assoc.keys m).Nodup) (h : lastOfMembers m = some x) :
    ∃ e ∈ m, e.2.lastScalar = some x ∧ ∀ t, Assoc.get? e.1 (setLastMember t m) = some (e.2.setLast t) := by
  induction m with
  | nil => cases h
  | cons d m ih =>
    rw [lastOfMembers] at h
    by_cases hnil : m.isEmpty = true
    · rw [if_pos hnil] at h
      exact ⟨d, List.mem_cons_self, h, fun t => by rw [setLastMember, if_pos hnil, Assoc.get?_cons_self]⟩
    · rw [if_neg hnil] at h
      obtain ⟨hd, hm⟩ := List.nodup_cons.mp hm
      obtain ⟨e, he, hlast, hget⟩ := ih hm h
      have hne : d.1 ≠ e.1 := fun heq => hd (heq ▸ Assoc.mem_keys_of_mem he)
      refine ⟨e, List.mem_cons_of_mem _ he, hlast, fun t => ?_⟩
      rw [setLastMember, if_neg hnil, Assoc.get?_cons, if_neg hne, hget]

theorem not_beq_setLast {v : Value} {s t : String} (hv : v.WF) (h : v.lastScalar = some (.string s)) (hne : t ≠ s) :
    ¬ (v == v.setLast t) = true := by
  induction v using Value.ind with
  | null => cases h
  | bool b => cases h
  | number n => cases h
  | string r =>
    cases h
    exact fun heq => hne (beq_iff_eq.mp (show (s == t) = true from heq)).symm
  | array items ih =>
    rw [lastScalar] at h
    rw [setLast, array_beq_array]
    have hitems := hv.items
    clear hv
    induction items with
    | nil => cases h
    | cons v items ih' =>
      rw [lastOfItems] at h
      rw [setLastItem]
      by_cases hnil : items.isEmpty = true
      · rw [if_pos hnil] at h
        rw [if_pos hnil, beqItems, Bool.and_eq_true]
        exact fun heq => ih v List.mem_cons_self (hitems v List.mem_cons_self) h heq.1
      · rw [if_neg hnil] at h
        rw [if_neg hnil, beqItems, Bool.and_eq_true]
        exact fun heq => ih' (fun w hw => ih w (List.mem_cons_of_mem _ hw)) h
          (fun w hw => hitems w (List.mem_cons_of_mem _ hw)) heq.2
  | object m ih =>
    rw [lastScalar] at h
    rw [setLast, object_beq_object, Bool.and_eq_true, beqMembers_iff]
    obtain ⟨e, he, hlast, hget⟩ := exists_last hv.keys h
    intro heq
    have hmem := heq.2 e he
    rw [hget, optEq_some] at hmem
    exact ih e he (hv.members e he) hlast hmem

end Value

/-! ### Block scalars -/

def trailingNewlines (s : Text) : Nat := s.length - (Text.trimNewlines s).length

/-- A string that is a newline, or ends in two, is emitted as a block that keeps its trailing newlines. -/
def KeepsNewlines (s : Text) : Prop := s = ['\n'] ∨ ['\n', '\n'] <:+ s

/-- The document's text ends in such a block. -/
def EndsInKept (v : Value) : Prop := ∃ s : String, v.lastScalar = some (.string s) ∧ KeepsNewlines s.toList

/-- The line break after the indicator of a block, where no line with text follows it. -/
def bareBreak (s : Text) : Nat := if Text.trimNewlines s = [] then 1 else 0

/-- What is assumed of the YAML crate at one document: it reads what it writes. Its text ends in one newline
    unless it ends in a block that keeps its newlines: that block ends in the string's own, and reads, with
    fewer of them, as a string with fewer of them. -/
structure Emission [Deps] (v : Tree) : Prop where
  reads : Format.parseYaml (Deps.yamlToString v.val) = .ok v
  single : ¬ EndsInKept v.val → ∃ body : Text, body.getLast? ≠ some '\n' ∧ Deps.yamlToString v.val = body ++ ['\n']
  kept : ∀ s : String, v.val.lastScalar = some (.string s) → KeepsNewlines s.toList →
    ∃ body : Text, body.getLast? ≠ some '\n' ∧
      Deps.yamlToString v.val = body ++ List.replicate (trailingNewlines s.toList + bareBreak s.toList) '\n' ∧
      ∀ j ≤ trailingNewlines s.toList, 1 ≤ j + bareBreak s.toList →
        ∃ t : Tree, Format.parseYaml (body ++ List.replicate (j + bareBreak s.toList) '\n') = .ok t ∧
          t.val = v.val.setLast (String.ofList (Text.trimNewlines s.toList ++ List.replicate j '\n'))

theorem Text.trimNewlines_eq_self {t : Text} (h : t.getLast? ≠ some '\n') : Text.trimNewlines t = t := by
  rw [Text.trimNewlines, List.rdropWhile_eq_self_iff]
  intro hne hlast
  rw [List.getLast?_eq_some_getLast hne] at h
  exact h (congrArg some (beq_iff_eq.mp hlast))

theorem eq_trimNewlines_append_replicate (s : Text) :
    s = Text.trimNewlines s ++ List.replicate (trailingNewlines s) '\n' := by
  obtain ⟨n, hn⟩ := Text.eq_trimNewlines_append s
  have hlen := congrArg List.length hn
  rw [List.length_append, List.length_replicate] at hlen
  have : trailingNewlines s = n := by
    unfold trailingNewlines
    omega
  rw [this]
  exact hn

/-- More than one newline ends the text of a block that keeps them. -/
theorem two_le_of_keepsNewlines {s : Text} (h : KeepsNewlines s) : 2 ≤ trailingNewlines s + bareBreak s := by
  rcases h with rfl | ⟨a, rfl⟩
  · decide
  · have htrim : Text.trimNewlines (a ++ ['\n', '\n']) = Text.trimNewlines a := Text.trimNewlines_append_replicate a 2
    have hle : (Text.trimNewlines a).length ≤ a.length := (List.rdropWhile_prefix _ _).length_le
    have : 2 ≤ trailingNewlines (a ++ ['\n', '\n']) := by
      unfold trailingNewlines
      rw [htrim, List.length_append, List.length_cons, List.length_singleton]
      omega
    omega

section

variable [Deps] {v : Tree}

/-- However many newlines end the serializer's text, a dump ends in one. -/
theorem dump_eq {body : Text} {n : Nat} (hbody : body.getLast? ≠ some '\n')
    (h : Deps.yamlToString v.val = body ++ List.replicate n '\n') : Format.yaml.dump v.val = body ++ ['\n'] := by
  show Text.trimNewlines (Deps.yamlToString v.val) ++ ['\n'] = _
  rw [h, Text.trimNewlines_append_replicate, Text.trimNewlines_eq_self hbody]

theorem parse_eq_ok_iff {t : Text} {w : Tree} :
    Format.yaml.parse t = .ok w ↔ Format.parseYaml t = .ok w ∧ lint w.val = [] := by
  constructor
  · intro h
    obtain ⟨value, hraw, h⟩ := Except.bind_eq_ok.mp h
    split at h
    · next hlint =>
      cases h
      exact ⟨hraw, hlint⟩
    · cases h
  · rintro ⟨hraw, hlint⟩
    refine Except.bind_eq_ok.mpr ⟨w, hraw, ?_⟩
    simp only [hlint, if_true]

/-- A text that ends in no kept block is the serializer's own, and is read back. -/
theorem parseYaml_dump (he : Emission v) (hk : ¬ EndsInKept v.val) : Format.parseYaml (Format.yaml.dump v.val) = .ok v := by
  obtain ⟨body, hbody, htext⟩ := he.single hk
  rw [dump_eq (n := 1) hbody htext]
  show Format.parseYaml (body ++ ['\n']) = .ok v
  rw [← htext]
  exact he.reads

theorem parse_dump_of_not_kept (he : Emission v) (hlint : lint v.val = []) (hk : ¬ EndsInKept v.val) :
    Format.yaml.parse (Format.yaml.dump v.val) = .ok v :=
  parse_eq_ok_iff.mpr ⟨parseYaml_dump he hk, hlint⟩

/-- Cut to one newline, a kept block is read back without the others. -/
theorem parse_cut_dump (he : Emission v) (hk : EndsInKept v.val) :
    ∃ s t w, v.val.lastScalar = some (.string s) ∧ t ≠ s ∧ Format.parseYaml (Format.yaml.dump v.val) = .ok w ∧
      w.val = v.val.setLast t := by
  obtain ⟨s, hlast, hkeeps⟩ := hk
  obtain ⟨body, hbody, htext, hread⟩ := he.kept s hlast hkeeps
  have htwo := two_le_of_keepsNewlines hkeeps
  have hbare : bareBreak s.toList ≤ 1 := by
    unfold bareBreak
    split <;> omega
  obtain ⟨w, hw, hwval⟩ := hread (1 - bareBreak s.toList) (by omega) (by omega)
  rw [show 1 - bareBreak s.toList + bareBreak s.toList = 1 by omega] at hw
  refine ⟨s, _, w, hlast, fun heq => ?_, ?_, hwval⟩
  · have hchars := congrArg String.toList heq
    rw [String.toList_ofList] at hchars
    have hlen := congrArg List.length (hchars.trans (eq_trimNewlines_append_replicate s.toList))
    simp only [List.length_append, List.length_replicate] at hlen
    omega
  · rw [dump_eq hbody htext]
    exact hw

theorem parse_dump_of_kept (he : Emission v) (hk : EndsInKept v.val) :
    Format.yaml.parse (Format.yaml.dump v.val) ≠ .ok v := by
  intro hparse
  obtain ⟨s, t, w, hlast, hne, hw, hwval⟩ := parse_cut_dump he hk
  have hwv : w = v := Except.ok.inj (hw.symm.trans (parse_eq_ok_iff.mp hparse).1)
  exact Value.setLast_ne hlast hne (by rw [← hwval, hwv])

/-- A lint-clean document is read back from its dump, and from its dump normalized, exactly when it does not
    end in a string that is a newline or ends in two. -/
theorem dump_reads_back_iff (v : Tree) (he : Emission v) (hlint : lint v.val = []) :
    (Format.yaml.parse (Format.yaml.dump v.val) = .ok v ∧
        Format.yaml.parse (MetaStore.normalizeTrailingNewline (Format.yaml.dump v.val)) = .ok v) ↔
      ¬ EndsInKept v.val := by
  rw [normalize_dump, and_self]
  constructor
  · intro h hk
    exact parse_dump_of_kept he hk h
  · exact parse_dump_of_not_kept he hlint

end

/-! ### Samples -/

namespace Sample

theorem emission_docA : Emission (docA 1) where
  reads := by rfl
  single _ := ⟨"a: 1".toList, by decide, by rfl⟩
  kept _ h := nomatch h

theorem endsInKept_docS : EndsInKept (docS "x\n\n").val := ⟨"x\n\n", rfl, Or.inr ⟨['x'], rfl⟩⟩

theorem emission_docS : Emission (docS "x\n\n") where
  reads := by rfl
  single h := absurd endsInKept_docS h
  kept s hs _ := by
    obtain rfl : "x\n\n" = s := by cases hs; rfl
    refine ⟨"s: |+\n  x".toList, by decide, by rfl, fun j hj hpos => ?_⟩
    have hj2 : j ≤ 2 := hj
    have hpos1 : 1 ≤ j := hpos
    obtain rfl | rfl : j = 1 ∨ j = 2 := by omega
    · exact ⟨docS "x\n", by rfl, by rfl⟩
    · exact ⟨docS "x\n\n", by rfl, by rfl⟩

end Sample

open Sample in
theorem dump_reads_back_iff_docA :
    (Format.yaml.parse (Format.yaml.dump (docA 1).val) = .ok (docA 1) ∧
        Format.yaml.parse (MetaStore.normalizeTrailingNewline (Format.yaml.dump (docA 1).val)) = .ok (docA 1)) ↔
      ¬ EndsInKept (docA 1).val :=
  dump_reads_back_iff (docA 1) emission_docA (by decide)

open Sample in
/-- `{s: "x\n\n"}` is lint-clean and read back from the serializer's text, but not from its dump. -/
theorem dump_drops_newlines :
    Emission (docS "x\n\n") ∧ lint (docS "x\n\n").val = [] ∧
      ¬ (Format.yaml.parse (Format.yaml.dump (docS "x\n\n").val) = .ok (docS "x\n\n") ∧
        Format.yaml.parse (MetaStore.normalizeTrailingNewline (Format.yaml.dump (docS "x\n\n").val)) =
          .ok (docS "x\n\n")) :=
  ⟨emission_docS, by decide, fun h => parse_dump_of_kept emission_docS endsInKept_docS h.1⟩

end PveMeta
