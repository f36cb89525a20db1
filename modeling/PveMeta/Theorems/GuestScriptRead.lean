import PveMeta.Guest.Functions
import PveMeta.Lib.ShellWords
import PveMeta.Theorems.GuestScript

/-! # What a shell reads

The scripts, as text, are the commands that they are meant to be: the functions, and one call for each path or operation,
with its arguments and with the content that it writes. No path, hash or content is read as anything else. -/

namespace PveMeta
namespace Guest

open Shell

/-! ### The functions -/

theorem script_prelude : Script scriptPrelude preludeCommands := by
  unfold scriptPrelude
  iterate 5 rewrite [String.toList_append]
  repeat rewrite [String.toList_ofList]
  decide +kernel

theorem script_probeFunction : Script probeFunction [.define ['p'] probeBody] := by
  unfold probeFunction
  iterate 10 rewrite [String.toList_append]
  repeat rewrite [String.toList_ofList]
  decide +kernel

theorem script_commitFunctions : Script commitFunctions commitDefinitions := by
  unfold commitFunctions
  iterate 25 rewrite [String.toList_append]
  repeat rewrite [String.toList_ofList]
  decide +kernel

/-! ### Words -/

theorem follows_nil : Follows [] := Or.inl rfl

theorem follows_blank (t : Text) : Follows (' ' :: t) := Or.inr ⟨t, rfl⟩

theorem isName_d : IsName ['d'] := ⟨by decide, by decide, by decide, by decide⟩

theorem isName_p : IsName ['p'] := ⟨by decide, by decide, by decide, by decide⟩

theorem isName_w : IsName ['w'] := ⟨by decide, by decide, by decide, by decide⟩

theorem isName_rmf : IsName ['r', 'm', 'f'] := ⟨by decide, by decide, by decide, by decide⟩

theorem isPlain_of_isDigit {c : Char} (h : c.isDigit = true) : isPlain c = true := by
  simp [isPlain, Char.isAlphanum, h]

theorem plain_toDigits {base : Nat} (hbase : 0 < base) (hten : base ≤ 10) (n : Nat) :
    (Nat.toDigits base n).all isPlain = true :=
  List.all_eq_true.mpr fun _ hc => isPlain_of_isDigit (Nat.isDigit_of_mem_toDigits hbase hten hc)

theorem plain_decimal (n : Nat) : (Nat.toDigits 10 n).all isPlain = true := plain_toDigits (by decide) (by decide) n

theorem plain_modeText (mode : Nat) : (modeText mode).all isPlain = true := by
  rw [modeText, List.all_append, plain_toDigits (by decide) (by decide), Bool.and_true]
  exact List.all_eq_true.mpr fun c hc => by
    rw [(List.mem_replicate.mp hc).2]
    decide

theorem plain_ownerText (owner : Owner) : owner.text.all isPlain = true := by
  simp only [Owner.text, List.all_append, plain_decimal, Bool.true_and]
  decide

theorem modeText_ne_nil (mode : Nat) : modeText mode ≠ [] := by
  rw [modeText]
  exact List.append_ne_nil_of_right_ne_nil _ Nat.toDigits_ne_nil

theorem ownerText_ne_nil (owner : Owner) : owner.text ≠ [] := by
  rw [Owner.text]
  exact List.append_ne_nil_of_right_ne_nil _ Nat.toDigits_ne_nil

/-! ### Calls -/

/-- What an operation is about has no quote in it. -/
def Op.Quotable : Op → Prop
  | .place path _ _ _ expect => '\'' ∉ path ∧ '\'' ∉ expect.text
  | .remove path sha256 => '\'' ∉ path ∧ '\'' ∉ sha256.toList

theorem not_mem_tempFor {path : Text} (h : '\'' ∉ path) : '\'' ∉ tempFor path := by
  have hmem : ∀ c, c ∈ (splitName path).1 ∨ c ∈ (splitName path).2 → c ∈ path := by
    intro c hc
    unfold splitName at hc
    cases hsplit : Text.splitOnce '/' path.reverse with
    | none =>
      rw [hsplit] at hc
      simpa using hc
    | some e =>
      rw [hsplit] at hc
      have hrev := Text.splitOnce_eq_some hsplit
      have hback : path = e.2.reverse ++ '/' :: e.1.reverse := by
        rw [← List.reverse_reverse path, hrev]
        simp
      rw [hback]
      simp only [List.mem_append, List.mem_cons] at hc ⊢
      tauto
  rw [tempFor]
  simp only [List.mem_append, List.mem_cons, not_or]
  exact ⟨⟨⟨fun hc => h (hmem _ (Or.inl hc)), by decide, by decide, fun hc => h (hmem _ (Or.inr hc))⟩, by decide⟩, by decide⟩

theorem complete_dir {dir : Text} (h : '\'' ∉ dir) :
    complete.read ("d ".toList ++ quote dir ++ ['\n']) = some (dirCommand dir, []) := by
  have hargs := arguments_nil.quoted follows_nil h
  have hline := complete_line isName_d hargs (follows_blank _) (by decide)
  have htext : "d ".toList ++ quote dir ++ ['\n'] = ['d'] ++ (' ' :: '\'' :: (dir ++ '\'' :: []) ++ ['\n']) := by
    simp [quote]
  rw [htext]
  exact hline

theorem complete_probe {path : Text} (h : '\'' ∉ path) :
    complete.read ("p ".toList ++ quote path ++ ['\n']) = some (cmd [lit "p", quotedWord path], []) := by
  have hargs := arguments_nil.quoted follows_nil h
  have hline := complete_line isName_p hargs (follows_blank _) (by decide)
  have htext : "p ".toList ++ quote path ++ ['\n'] = ['p'] ++ (' ' :: '\'' :: (path ++ '\'' :: []) ++ ['\n']) := by
    simp [quote]
  rw [htext]
  exact hline

theorem complete_remove (i : Nat) {path : Text} {sha256 : String} (h : (Op.remove path sha256).Quotable) :
    complete.read (opText i (.remove path sha256)) = some (opCommand i (.remove path sha256), []) := by
  have hhash := arguments_nil.quoted follows_nil h.2
  have hpath := hhash.quoted (follows_blank _) h.1
  have hargs := hpath.plain (follows_blank _) (plain_decimal i) Nat.toDigits_ne_nil
  have hline := complete_line isName_rmf hargs (follows_blank _) (by decide)
  have htext : opText i (.remove path sha256) = ['r', 'm', 'f'] ++ (' ' :: (Nat.toDigits 10 i ++
      ' ' :: '\'' :: (path ++ '\'' :: ' ' :: '\'' :: (sha256.toList ++ '\'' :: []))) ++ ['\n']) := by
    have hdef : opText i (.remove path sha256) = "rmf ".toList ++ Nat.toDigits 10 i ++ [' '] ++ quote path ++ [' '] ++
        quote sha256.toList ++ ['\n'] ++ [] := rfl
    rw [hdef]
    simp [quote]
  rw [htext]
  exact hline

/-- The content stands up to the mark, which none of its lines is. -/
theorem hereLines_content (content : ByteArray) :
    hereLines eofMark [] (base64 content ++ '\n' :: (eofMark ++ ['\n'])) = some (base64 content ++ ['\n'], []) :=
  hereLines_eq (l := []) (by decide) (fun _ hl => ne_eofMark fun _ hc => isDigit_of_mem_line hl hc) List.not_mem_nil

theorem complete_place (i : Nat) {path : Text} {content : ByteArray} {mode : Nat} {owner : Owner} {expect : Expect}
    (h : (Op.place path content mode owner expect).Quotable) :
    complete.read (opText i (.place path content mode owner expect)) =
      some (opCommand i (.place path content mode owner expect), []) := by
  have hmark : Arguments 4 (" <<'".toList ++ eofMark ++ ['\'']) .nil (.here eofMark) := arguments_here (by decide)
  have howner := hmark.plain (follows_blank _) (plain_ownerText owner) (ownerText_ne_nil owner)
  have hmode := howner.plain (follows_blank _) (plain_modeText mode) (modeText_ne_nil mode)
  have hexpect := hmode.quoted (follows_blank _) h.2
  have htemp := hexpect.quoted (follows_blank _) (not_mem_tempFor h.1)
  have hpath := htemp.quoted (follows_blank _) h.1
  have hargs := hpath.plain (follows_blank _) (plain_decimal i) Nat.toDigits_ne_nil
  have hline := complete_here isName_w hargs (follows_blank _) (by decide) (hereLines_content content)
  have htext : opText i (.place path content mode owner expect) = ['w'] ++ ((' ' :: (Nat.toDigits 10 i ++
      ' ' :: '\'' :: (path ++ '\'' :: ' ' :: '\'' :: (tempFor path ++ '\'' :: ' ' :: '\'' :: (expect.text ++ '\'' ::
        ' ' :: (modeText mode ++ ' ' :: (owner.text ++ (" <<'".toList ++ eofMark ++ ['\''])))))))) ++
          '\n' :: (base64 content ++ '\n' :: (eofMark ++ ['\n']))) := by
    have hdef : opText i (.place path content mode owner expect) = "w ".toList ++ Nat.toDigits 10 i ++ [' '] ++
      quote path ++
        [' '] ++ quote (tempFor path) ++ [' '] ++ quote expect.text ++ [' '] ++ modeText mode ++ [' '] ++ owner.text ++
        " <<".toList ++ quote eofMark ++ ['\n'] ++ (base64 content ++ ['\n'] ++ eofMark ++ ['\n']) := rfl
    rw [hdef]
    simp [quote]
  rw [htext]
  exact hline

theorem complete_op {op : Op} (i : Nat) (h : op.Quotable) : complete.read (opText i op) = some (opCommand i op, []) := by
  cases op with
  | place => exact complete_place i h
  | remove => exact complete_remove i h

/-! ### The scripts -/

/-- A commit's script is read as its functions and one call for each directory and each operation. -/
theorem script_commitScript {dirs : List Text} {ops : List Op} (hdirs : ∀ dir ∈ dirs, '\'' ∉ dir)
    (hops : ∀ op ∈ ops, op.Quotable) : Script (commitScript dirs ops) (commitCommands dirs ops) := by
  have hcalls : Script (ops.zipIdx.flatMap fun e => opText e.2 e.1) (ops.zipIdx.map fun e => opCommand e.2 e.1) :=
    script_flatMap fun e he => complete_op e.2 (hops e.1 (List.fst_mem_of_mem_zipIdx he))
  exact ((script_prelude.append script_commitFunctions).append (script_flatMap fun dir hdir =>
    complete_dir (hdirs dir hdir))).append
    hcalls

theorem script_probeScript {paths : List Text} (h : ∀ path ∈ paths, '\'' ∉ path) :
    Script (probeScript paths) (probeCommands paths) :=
  (script_prelude.append script_probeFunction).append (script_flatMap fun path hpath => complete_probe (h path hpath))

/-- The one file that is read as a whole. -/
theorem script_readManifest :
    Script (readScript manifestPath Manifest.maxBytes) (readCommands manifestPath Manifest.maxBytes) := by
  show Script (scriptPrelude ++ _) (preludeCommands ++ _)
  refine script_prelude.append ?_
  decide +kernel

end Guest
end PveMeta
