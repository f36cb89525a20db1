import PveMeta.Theorems.Brackets

/-! # Blocks left behind

The loop stops at the last pair of a header line and its end line that is no block, and what comes before that one stays,
well-formed blocks and all. -/

namespace PveMeta
namespace Backup

/-! ### Blocks among the lines -/

/-- Some whole lines of the text are taken for a block when they stand alone. -/
def HasBlock (t : Text) : Prop :=
  ∃ before block after : List Text, Text.lines t = before ++ (block ++ after) ∧
    ∃ f, find (Text.unlines block) = .ok (some f)

theorem find_unlines_block {header : Header} {body block : List Text} (h : IsBlock header body block)
    (hmem : ∀ l ∈ block, '\n' ∉ l) : ∃ f, find (Text.unlines block) = .ok (some f) := by
  obtain ⟨l, rest, hcons, hlast⟩ := lastBlock_block h
  have hlines : Text.lines (Text.unlines block) = block := Text.lines_unlines (by simp [hcons]) hmem
  have hread := readBlock_block h []
  rw [List.append_nil] at hread
  have hdrop : Text.dropBytes (linesBytes []) (Text.unlines block) = Text.unlines block := Text.dropBytes_byteLen [] _
  rw [find, lastHeader_eq, hlines, hlast]
  simp only [Option.map_some]
  rw [hdrop, hlines, hread]
  exact ⟨_, rfl⟩

theorem hasBlock_iff {t : Text} : HasBlock t ↔ HoldsBlock (Text.lines t) := by
  constructor
  · rintro ⟨before, ls, after, hlines, f, hfind⟩
    obtain ⟨before', block, after', body, hls, hb, -⟩ := find_eq_some hfind
    have hne : ls ≠ [] := by
      rintro rfl
      cases hfind
    have hmem : ∀ l ∈ ls, '\n' ∉ l := by
      intro l hl
      have hline : l ∈ Text.lines t := by rw [hlines]; simp [hl]
      exact Text.not_mem_of_mem_lines hline
    rw [Text.lines_unlines hne hmem] at hls
    refine ⟨before ++ before', block, after' ++ after, f.header, body, ?_, hb⟩
    rw [hlines, hls]
    simp only [List.append_assoc]
  · rintro ⟨before, block, after, header, body, hlines, hb⟩
    refine ⟨before, block, after, hlines, find_unlines_block hb fun l hl => ?_⟩
    have hline : l ∈ Text.lines t := by rw [hlines]; simp [hl]
    exact Text.not_mem_of_mem_lines hline

theorem not_hasBlock_of_find {t : Text} (h : find t = .ok none) : ¬ HasBlock t := by
  intro hhas
  obtain ⟨before, block, after, header, body, hlines, hb⟩ := hasBlock_iff.mp hhas
  obtain ⟨l, rest, -, hlast⟩ := lastBlock_block hb
  have hsub : List.Sublist block (Text.lines t) :=
    hlines ▸ (List.sublist_append_left block after).trans (List.sublist_append_right before _)
  rw [lastBlock_of_sublist hsub (find_eq_none.mp h)] at hlast
  cases hlast

/-! ### A block that cannot be read -/

/-- A well-formed block and the header of one that cannot be read: the block comes before the header. -/
theorem before_of_unread {before rest x block y : List Text} {l : Text} {header : Header} {body : List Text}
    (hlast : lastBlock (before ++ l :: rest) = some (before, l, rest)) (hread : ∀ r, readBlock (l :: rest) ≠ .ok r)
    (hlines : before ++ l :: rest = x ++ (block ++ y)) (hb : IsBlock header body block) :
    ∃ z, before = x ++ (block ++ z) := by
  obtain ⟨-, hl, -, hnone⟩ := lastBlock_eq_some.mp hlast
  have hnot : ∀ z, l :: rest ≠ block ++ z := fun z hz => hread _ (hz ▸ readBlock_block hb z)
  rcases List.append_eq_append_iff.mp hlines with ⟨c, -, hc⟩ | ⟨c, hbefore, hc⟩
  · -- The block would begin at the header or after it.
    cases c with
    | nil => exact absurd hc (hnot y)
    | cons m c =>
      obtain ⟨l', rest', -, hsome⟩ := lastBlock_block hb
      rw [List.cons_append, List.cons.injEq] at hc
      have hsub : List.Sublist block rest :=
        hc.2 ▸ (List.sublist_append_left block y).trans (List.sublist_append_right c _)
      rw [lastBlock_of_sublist hsub hnone] at hsome
      cases hsome
  · rcases List.append_eq_append_iff.mp hc with ⟨d, hd, -⟩ | ⟨d, hd, hy⟩
    · exact ⟨d, by rw [hbefore, hd]⟩
    · cases d with
      | nil => exact ⟨[], by rw [hbefore, hd]; simp⟩
      | cons m d =>
        -- The header would be one of the block's lines, and only the first can be it.
        rw [List.cons_append, List.cons.injEq] at hy
        cases c with
        | nil => exact absurd hc.symm (hnot y)
        | cons k c =>
          have htail := not_isHeaderLine_tail hb l (by rw [hd, ← hy.1]; simp)
          rw [htail] at hl
          cases hl

theorem unread_of_find {t : Text} {before rest : List Text} {l : Text} {e : Error}
    (hlast : lastBlock (Text.lines t) = some (before, l, rest)) (h : find t = .error e) (r : Header × List Text) :
    readBlock (l :: rest) ≠ .ok r := by
  intro hr
  obtain ⟨hlines, -⟩ := lastBlock_eq_some.mp hlast
  have htext : t = before.flatMap (· ++ ['\n']) ++ Text.unlines (l :: rest) := by
    rw [← unlines_append_flatMap before _ (List.cons_ne_nil l rest), ← hlines, Text.unlines_lines]
  have hdrop : Text.lines (Text.dropBytes (linesBytes before) t) = l :: rest := by
    rw [htext, linesBytes, Text.dropBytes_byteLen]
    exact Text.lines_unlines (List.cons_ne_nil _ _) fun m hm => Text.not_mem_of_mem_lines (by rw [hlines]; simp [hm])
  rw [find, lastHeader_eq, hlast] at h
  simp only [Option.map_some] at h
  rw [hdrop, hr] at h
  cases h

/-- Where the loop stops at a pair that is no block, the well-formed ones come before it. -/
theorem hasBlock_iff_barred {t : Text} {e : Error} (h : find t = .error e) : HasBlock t ↔ Barred (Text.lines t) := by
  rw [hasBlock_iff]
  constructor
  · rintro ⟨x, block, y, header, body, hsplit, hb⟩
    cases hlast : lastBlock (Text.lines t) with
    | none =>
      rw [find_eq_none.mpr hlast] at h
      cases h
    | some found =>
      obtain ⟨before, l, rest⟩ := found
      have hread : ∀ r, readBlock (l :: rest) ≠ .ok r := unread_of_find hlast h
      obtain ⟨hlines, -⟩ := lastBlock_eq_some.mp hlast
      obtain ⟨z, hz⟩ := before_of_unread (hlines ▸ hlast) hread (hlines ▸ hsplit) hb
      exact ⟨before, l, rest, hlines, (misread_iff hlast).mpr hread, x, block, z, header, body, hz, hb⟩
  · rintro ⟨before, l, after, hlines, -, x, block, y, header, body, hbefore, hb⟩
    refine ⟨x, block, y ++ l :: after, header, body, ?_, hb⟩
    rw [hlines, hbefore]
    simp only [List.append_assoc]

/-! ### What the loop leaves -/

theorem not_barred_of_find {t : Text} (h : find t = .ok none) : ¬ Barred (Text.lines t) :=
  not_barred_of_legible (legible_of_unpaired (find_eq_none.mp h))

/-- No round of the loop makes a difference to whether a pair that is no block has a well-formed one before it. -/
theorem barred_stripBlocks (fuel : Nat) (t : Text) :
    Barred (Text.lines (stripBlocks fuel t)) ↔ Barred (Text.lines t) := by
  induction fuel generalizing t with
  | zero => exact Iff.rfl
  | succ fuel ih =>
    rw [stripBlocks]
    split
    · next f hf => rw [ih, barred_strip hf]
    · exact Iff.rfl

theorem hasBlock_stripAll {t : Text} : HasBlock (stripAll t) ↔ Barred (Text.lines t) := by
  rw [← barred_stripBlocks t.length t, ← stripAll]
  cases hfind : find (stripAll t) with
  | error e => exact hasBlock_iff_barred hfind
  | ok found =>
    cases found with
    | none => exact iff_of_false (not_hasBlock_of_find hfind) (not_barred_of_find hfind)
    | some f => exact absurd hfind (find_stripAll t f)

theorem strips_rightUnique : Relator.RightUnique Strips := by
  rintro t u v ⟨f, hf, rfl⟩ ⟨g, hg, rfl⟩
  rw [hf, Except.ok.injEq, Option.some.injEq] at hg
  rw [hg]

/-- Where the loop stops is where any run of its rounds that cannot go on stops. -/
theorem eq_stripAll {t u : Text} (h : Relation.ReflTransGen Strips t u) (hu : ∀ v, ¬ Strips u v) : u = stripAll t := by
  rcases Relation.ReflTransGen.total_of_right_unique strips_rightUnique h (stripBlocks_reached _ t) with hto | hto
  · rcases hto.cases_head with heq | ⟨v, hv, -⟩
    · exact heq
    · exact absurd hv (hu v)
  · rcases hto.cases_head with heq | ⟨v, hv, -⟩
    · exact heq.symm
    · exact absurd hv (not_strips_stripAll t v)

theorem stripAll_strip {t : Text} {f : Found} (h : find t = .ok (some f)) : stripAll (strip t f) = stripAll t :=
  eq_stripAll (.head ⟨f, h, rfl⟩ (stripBlocks_reached _ _)) (not_strips_stripAll _)

variable [Deps]

/-- The notes handed back are those the loop leaves of the notes that came in. -/
theorem description_of_importBlock {s : MetaStore} {vmid : UInt32} {t d : Text} {mode : ImportMode} {i : Import}
    (h : (importBlock s vmid t mode).1 = .ok i) (hd : i.description = some d) : d = stripAll t := by
  unfold importBlock at h
  split at h
  · cases h
  · cases h
    cases hd
  · next f hf =>
    rw [← stripAll_strip hf]
    dsimp only at h
    split at h
    · cases h
    · cases h
      cases hd
      rfl
    · split at h
      · cases h
      · obtain ⟨n, -, rfl⟩ := Except.map_eq_ok.mp h
        cases hd
        rfl

/-- No block is left if and only if no pair of a header line and its end line that is no block has a well-formed block
    before it. -/
theorem no_block_left_iff (t : Text) :
    (¬ HasBlock (stripAll t) ↔ ¬ Barred (Text.lines t)) ∧
      ∀ (s : MetaStore) (vmid : UInt32) (mode : ImportMode) (i : Import) (d : Text),
        (importBlock s vmid t mode).1 = .ok i → i.description = some d → d = stripAll t :=
  ⟨not_congr hasBlock_stripAll, fun _ _ _ _ _ => description_of_importBlock⟩

/-- A well-formed block with one after it whose opening fence is missing. -/
def unfenced : Text := "[pve-meta v1]\n````yaml\na: 1\n````\n[/pve-meta]\n[pve-meta v1]\nx\n[/pve-meta]".toList

omit [Deps] in
theorem unfenced_left : ¬ ∀ t, ¬ HasBlock (stripAll t) := by
  intro h
  have hfind : find (Text.unlines ((Text.lines unfenced).take 5)) =
      .ok (some ⟨0, 44, ⟨1, none, none, none⟩, "a: 1".toList⟩) := by rfl
  have hstrip : stripAll unfenced = unfenced := by rfl
  refine h unfenced ⟨[], (Text.lines unfenced).take 5, (Text.lines unfenced).drop 5, ?_, _, hfind⟩
  rw [hstrip, List.nil_append, List.take_append_drop]

end Backup
end PveMeta
