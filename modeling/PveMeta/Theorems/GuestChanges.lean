import PveMeta.Theorems.GuestCalm
import PveMeta.Theorems.GuestPctSync

/-! # What happens at a path

A file that is not one of the daemon's own, step by step through a sync: every change of it is one that the plan
justifies, and it is never there in part. -/

namespace PveMeta
namespace Guest

open Choices (andThen done each)
open Relation (ReflTransGen)

variable [Deps] {w w' : World} {p path : Text} {fault : Fault} {content : ByteArray} {mode : Nat} {owner : Owner}
    {expect : Expect}

/-! ### One operation -/

/-- What an operation makes of what is at its path. -/
inductive Op.Makes : Op → Inode → Inode → Prop
  | placed {path : Text} {content : ByteArray} {mode : Nat} {owner : Owner} {expect : Expect} {node : Inode}
      (expected : expect.holds node = true) (plain : node ≠ .dir) :
      Makes (.place path content mode owner expect) node (.file owner mode content)
  | removed {path : Text} {sha256 : String} {owner : Owner} {mode : Nat} {content : ByteArray}
      (expected : MetaStore.digest content = sha256) : Makes (.remove path sha256) (.file owner mode content) .missing

theorem place_node (hp : ¬ Reserved p) : (place w fault path content mode owner expect).2.fs p = w.fs p ∨
    path = p ∧
      (Op.place path content mode owner expect).Makes (w.fs p) ((place w fault path content mode owner expect).2.fs p) := by
  have hrm : (w.rmForce (tempFor path)).fs p = w.fs p := rmForce_fs (ne_tempFor hp path)
  have hplaced := after_place w fault path content mode owner expect
  generalize place w fault path content mode owner expect = r at hplaced ⊢
  cases hplaced with
  | left hne => exact Or.inl hrm
  | cut hfree kept => exact Or.inl ((set_ne (ne_tempFor hp path) _).trans hrm)
  | done hholds hfree =>
    generalize w.rmForce (tempFor path) = w₁ at hrm hholds hfree ⊢
    rw [← hrm]
    by_cases hmoves : p = w₁.moveTarget path
    · -- No other path is moved to that is none of the daemon's own.
      have hpath : p = path := by_contra fun hne => ne_moveTarget hp hne hmoves
      subst hpath
      have hdir : nodeAt w₁.fs p ≠ .dir := fun hdir => moveTarget_ne hdir hp hmoves.symm
      refine Or.inr ⟨rfl, ?_⟩
      rw [World.move, moveTarget_of_ne_dir hdir]
      have hnode : (((w₁.destroy p).set p (.file owner mode content)).note [.wrote p (MetaStore.digest content)]).fs p =
          .file owner mode content := by simp [World.set, World.note]
      rw [hnode]
      refine .placed hholds fun heq => hdir ?_
      rwa [nodeAt_of_plain (by simp [heq])]
    · refine Or.inl ?_
      show (World.set _ _ _).fs p = _
      rw [set_ne hmoves, destroy_fs]

theorem remove_node (w : World) (fault : Fault) (path : Text) (sha256 : String) :
    (remove w fault path sha256).2.fs p = w.fs p ∨
    path = p ∧ (Op.remove path sha256).Makes (w.fs p) ((remove w fault path sha256).2.fs p) := by
  unfold remove
  split
  · exact Or.inl rfl
  · next owner mode content hfile =>
    split
    · exact Or.inl rfl
    next hhash =>
    split
    · exact Or.inl rfl
    by_cases hpath : p = path
    · subst hpath
      refine Or.inr ⟨rfl, ?_⟩
      have hnode : ((w.destroy p).set p .missing).fs p = .missing := by simp [World.set]
      rw [hnode, hfile]
      exact .removed (by simpa using hhash)
    · refine Or.inl ?_
      rw [set_ne hpath, destroy_fs]
  all_goals exact Or.inl rfl

theorem runOp_node (hp : ¬ Reserved p) (w : World) (op : Op) : (runOp w op).2.fs p = w.turn.2.fs p ∨
    op.path = p ∧ op.Makes (w.turn.2.fs p) ((runOp w op).2.fs p) := by
  unfold runOp
  split
  next fault w₁ heq =>
  rw [show w.turn.2 = w₁ by rw [heq]]
  split
  · exact Or.inl rfl
  cases op with
  | place path content mode owner expect => exact place_node hp
  | remove path sha256 => exact remove_node w₁ fault path sha256

/-! ### From one thing at the path to the next -/

/-- The others do no more than what they may. -/
def Faced (may : Fs → Prop) (w : World) : Prop := ∀ t ∈ w.turns, ∀ fs, t.others = some fs → may fs

/-- What is at the path comes of what was there by such changes. -/
def Led (may : Fs → Prop) (C : Inode → Inode → Prop) (p : Text) (w w' : World) : Prop :=
  Faced may w → Faced may w' ∧ ReflTransGen C (w.fs p) (w'.fs p)

section

variable {may : Fs → Prop} {C : Inode → Inode → Prop} {w₁ : World}

omit [Deps] in
theorem Led.refl (w : World) : Led may C p w w := fun h => ⟨h, .refl⟩

omit [Deps] in
theorem Led.trans (h : Led may C p w w₁) (h' : Led may C p w₁ w') : Led may C p w w' := fun hw =>
  have hw₁ := h hw
  have hw' := h' hw₁.1
  ⟨hw'.1, hw₁.2.trans hw'.2⟩

omit [Deps] in
theorem Led.single (hturns : w'.turns = w.turns) (h : w'.fs p = w.fs p ∨ C (w.fs p) (w'.fs p)) : Led may C p w w' := by
  refine fun hw => ⟨fun t ht => hw t (hturns ▸ ht), ?_⟩
  rcases h with hsame | hchange
  · rw [hsame]
  · exact .single hchange

omit [Deps] in
theorem Led.andThen {α β : Type} {step : World → Except String α × World} {next : α → World → Except String β × World}
    (h : Led may C p w (step w).2) (hnext : ∀ a w', step w = (.ok a, w') → Led may C p w' (next a w').2) :
    Led may C p w (Choices.andThen step next w).2 :=
  Choices.andThen_rel (R := Led may C p) Led.trans h hnext

omit [Deps] in
theorem Led.each {α β : Type} {step : α → World → Except String β × World} {l : List α}
    (h : ∀ a ∈ l, ∀ w, Led may C p w (step a w).2) (w : World) : Led may C p w (Choices.each step l w).2 :=
  Choices.each_rel (R := Led may C p) Led.refl Led.trans h w

/-- Such changes are among those that the others make of a file, and there may be a directory instead of nothing. -/
structure Admits (may : Fs → Prop) (C : Inode → Inode → Prop) (p : Text) : Prop where
  unreserved : ¬ Reserved p
  ne_manifestPath : p ≠ manifestPath
  others : ∀ node fs, may fs → C node (fs p)
  made : C .missing .dir

variable (h : Admits may C p)
include h

omit [Deps] in
theorem turn_led (w : World) : Led may C p w w.turn.2 := by
  intro hw
  unfold World.turn
  split
  · exact ⟨hw, .refl⟩
  next t turns hturns =>
  have hrest : ∀ t' ∈ turns, ∀ fs, t'.others = some fs → may fs := fun t' ht' => hw t' (hturns ▸ List.mem_cons_of_mem t ht')
  cases hleft : t.others with
  | none => exact ⟨hrest, .refl⟩
  | some fs =>
    refine ⟨hrest, .single ?_⟩
    have hnode : (World.edit { w with turns } fs).fs p = fs p := if_neg h.ne_manifestPath
    rw [hnode]
    exact h.others _ fs (hw t (hturns ▸ List.mem_cons_self) fs hleft)

omit [Deps] in
theorem call_led (w : World) : Led may C p w w.call.2 := turn_led h w

theorem runOp_led {op : Op} (hop : op.path = p → ∀ node node', op.Makes node node' → C node node') (w : World) :
    Led may C p w (runOp w op).2 := by
  refine (turn_led h w).trans (.single (runOp_actsAt rfl).turns ?_)
  exact (runOp_node h.unreserved w op).imp_right fun hat => hop hat.1 _ _ hat.2

omit [Deps] in
theorem mkdir_led (w : World) (dir : Text) : Led may C p w (mkdir w dir).2 := by
  have hturn := turn_led h w
  unfold mkdir
  split
  next fault w₁ heq =>
  rw [heq] at hturn
  split
  · split <;> exact hturn
  · exact hturn
  · exact hturn
  · exact hturn
  · next hmissing =>
    split
    · exact hturn
    refine hturn.trans (.single rfl ?_)
    by_cases hpath : p = dir
    · subst hpath
      rw [hmissing]
      exact Or.inr (by simpa [World.set] using h.made)
    · exact Or.inl (set_ne hpath _)

theorem commit_led {dirs : List Text} {ops : List Op}
    (hops : ∀ op ∈ ops, op.path = p → ∀ node node', op.Makes node node' → C node node') (w : World) :
    Led may C p w (w.commit dirs ops).2 := by
  have hcommit := congrFun (commit_eq dirs ops) w
  rw [hcommit]
  have hscript (w : World) : Led may C p w (committing dirs ops w).2 := by
    refine .andThen (call_led h w) fun _ w₁ _ => .andThen (.each (fun dir _ w => mkdir_led h w dir) w₁) fun _ w₂ _ => ?_
    exact .each (fun op hop w => runOp_led h (hops op hop) w) w₂
  exact .andThen (hscript w) fun os w₁ _ => .andThen (call_led h w₁) fun _ w₂ _ => .refl w₂

omit [Deps] in
theorem read_led (max : Nat) (w : World) : Led may C p w (w.read path max).2 := by
  have hcall := call_led h w
  unfold World.read
  split
  · next heq => rwa [heq] at hcall
  next heq =>
  rw [heq] at hcall
  split
  · split <;> exact hcall
  · exact hcall

theorem probe_led (paths : List Text) (w : World) : Led may C p w (w.probe paths).2 := by
  have hprobe := congrFun (probe_eq paths) w
  rw [hprobe]
  exact .each (fun path _ w => .andThen (call_led h w) fun _ w₁ _ => .refl w₁) w

end

/-! ### A sync -/

section

/-- What may become of what is at a path while a sync runs. -/
inductive Change (files : GuestFiles) (old : Manifest) (force : Bool) (may : Fs → Prop) (p : Text) : Inode → Inode → Prop
  | others (node : Inode) (fs : Fs) (left : may fs) : Change files old force may p node (fs p)
  | made : Change files old force may p .missing .dir
  | created (d : Desired) (wanted : d ∈ files.desired) (path : d.entry.path.text = p) :
      Change files old force may p .missing (.file d.entry.owner d.entry.mode d.content)
  | updated (d : Desired) (wanted : d ∈ files.desired) (path : d.entry.path.text = p) (r : Record)
      (known : old.records.get? d.entry.path = some r) (owner : Owner) (mode : Nat) (content : ByteArray)
      (hash : MetaStore.digest content = r.sha256) :
      Change files old force may p (.file owner mode content) (.file d.entry.owner d.entry.mode d.content)
  | overwritten (d : Desired) (wanted : d ∈ files.desired) (path : d.entry.path.text = p) (owner : Owner) (mode : Nat)
      (content : ByteArray) (forced : d.entry.localEdits = .overwrite ∨ force = true) :
      Change files old force may p (.file owner mode content) (.file d.entry.owner d.entry.mode d.content)
  | removed (q : GuestPath) (path : q.text = p) (unwanted : q ∉ files.desired.map (·.entry.path)) (r : Record)
      (known : old.records.get? q = some r) (owner : Owner) (mode : Nat) (content : ByteArray)
      (hash : MetaStore.digest content = r.sha256) : Change files old force may p (.file owner mode content) .missing

variable {files : GuestFiles} {old : Manifest} {nodes : Nodes} {force : Bool} {may : Fs → Prop}

theorem Planned.changes {op : Op} (h : Planned files old nodes force op) {node node' : Inode}
    (hmakes : op.Makes node node') :
    Change files old force may op.path node node' := by
  cases h with
  | create d wanted =>
    cases hmakes with
    | placed hexpect =>
      have hmissing : node = .missing := by simpa [Expect.holds] using hexpect
      exact hmissing ▸ .created d wanted rfl
  | update d wanted _ r _ _ known =>
    cases hmakes with
    | placed hexpect =>
      obtain ⟨owner, mode, content, rfl, hhash⟩ := expect_holds_file hexpect
      exact .updated d wanted rfl r known owner mode content hhash
  | overwrite d wanted _ _ _ _ _ forced =>
    cases hmakes with
    | placed hexpect =>
      obtain ⟨owner, mode, content, rfl, -⟩ := expect_holds_file hexpect
      exact .overwritten d wanted rfl owner mode content forced
  | remove q r known _ _ unwanted =>
    cases hmakes with
    | removed hhash => exact .removed q rfl unwanted r known _ _ _ hhash

variable [RustDebug] [Serde] {C : Inode → Inode → Prop}

theorem inspect_led (h : Admits may C p) (files : GuestFiles) (force : Bool) (w : World) :
    Led may C p w (World.calls.inspect files force w).2 := by
  have hlook : Led may C p w (World.calls.look files w).2 := by
    rw [Calls.look_andThen]
    refine .andThen (read_led h _ w) fun bytes w₁ _ => ?_
    split
    · exact .andThen (probe_led h _ w₁) fun _ w₂ _ => .refl w₂
    · exact .refl w₁
  rw [Calls.inspect_andThen]
  exact .andThen hlook fun _ _ _ => .single rfl (Or.inl rfl)

omit [RustDebug] in
theorem saveManifest_led (h : Admits may C p) (before after : Manifest) (dirs : List Text) (w : World) :
    Led may C p w (World.calls.saveManifest before after dirs w).2 := by
  rw [Calls.saveManifest_andThen]
  split
  · exact .refl w
  refine .andThen (commit_led h (fun op hop hpath => ?_) w) fun _ w₁ _ => .refl w₁
  rw [List.mem_singleton.mp hop] at hpath
  exact absurd hpath.symm h.ne_manifestPath

/-- Whatever a sync makes of a path, it makes by changes that its plan justifies. -/
theorem sync_led (hp : ¬ Reserved p) (hne : p ≠ manifestPath) (files : GuestFiles) (force : Bool) (w : World) :
    Led may (Change files (manifestAt (w.fs manifestPath)) force may p) p w (sync files force w).2 := by
  have h : Admits may (Change files (manifestAt (w.fs manifestPath)) force may p) p := ⟨hp, hne, .others, .made⟩
  show Led may _ p w (World.calls.sync files force w).2
  rw [Calls.sync_andThen]
  refine .andThen (inspect_led h files force w) fun ins w₁ hins => ?_
  rw [World.calls_inspect] at hins
  obtain ⟨nodes, -, hold, hplan, -⟩ := inspect_eq_ok hins
  have hops : ∀ op ∈ ins.plan.ops, op.path = p → ∀ node node', op.Makes node node' →
      Change files (manifestAt (w.fs manifestPath)) force may p node node' := by
    intro op hop hpath node node' hmakes
    rw [hplan] at hop
    exact hold ▸ hpath ▸ (planned_of_mem hop).changes hmakes
  have hcommit : Led may (Change files (manifestAt (w.fs manifestPath)) force may p) p w₁
      ((if ins.plan.ops.isEmpty then done [] else World.calls.commit ins.plan.dirs ins.plan.ops) w₁).2 := by
    split
    · exact .refl w₁
    · exact commit_led h hops w₁
  split
  · exact .andThen hcommit fun os w₂ _ => .andThen (saveManifest_led h _ _ _ w₂) fun _ w₃ _ => .refl w₃
  · exact .refl w₁

/-! ### Records -/

variable {V : Writer}

/-- What a sync records, it asked for. -/
theorem sync_records (hserde : Manifest.SerdeReads) (hask : V.Asks files) {q : GuestPath} {r : Record}
    (hr : (manifestAt ((sync files force w).2.fs manifestPath)).records.get? q = some r) :
    (manifestAt (w.fs manifestPath)).records.get? q = some r ∨ ∃ d ∈ files.desired, d.entry.path = q ∧ d.record = r := by
  rcases sync_spec files force w with ⟨hquiet, -⟩ | ⟨warning, nodes, -, hsynced⟩
  · exact Or.inl (hquiet.manifest ▸ hr)
  rcases hsynced.manifest with hsame | ⟨after, hleft, hafter, -⟩
  · exact Or.inl (hsame ▸ hr)
  rw [hafter, manifestAt_render hserde (hleft.keyed hask (keyed_manifestAt _))] at hr
  rcases hleft.recorded hr with hr | ⟨d, hd, hpath, hrecord, -⟩
  · exact Or.inl hr
  · exact Or.inr ⟨d, hd, hpath, hrecord⟩

end

end Guest
end PveMeta
