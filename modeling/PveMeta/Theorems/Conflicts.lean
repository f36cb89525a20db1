import PveMeta.Theorems.Panel
import PveMeta.Theorems.Statuses
import PveMeta.Sample

/-! # What becomes of a conflict

A write that is answered 409 makes the panel read the document again. Whether the next write then carries the digest
the server holds depends on who reads: the tree takes over any digest, the text card none that is empty. -/

namespace PveMeta
namespace Panel
open Api MetaStore

section

variable [Deps] [Browser] {id : String} {d : DocId} {y : System} {log outs : List Out} {move : Move} {w : Write}

/-! ### Digests on the way -/

omit [Deps] [Browser] in
theorem foldl_carry_some {dg : String} (hall : ∀ whole dg', Out.landed whole dg' ∈ outs → dg' = dg) :
    outs.foldl carry (some dg) = some dg := by
  induction outs with
  | nil => rfl
  | cons o outs ih =>
    have ho : carry (some dg) o = some dg := by
      cases o with
      | sent w => rfl
      | handled w answer b a => rfl
      | landed whole dg' =>
        obtain rfl := hall whole dg' List.mem_cons_self
        simp [carry]
    rw [List.foldl_cons, ho]
    exact ih fun whole dg' h => hall whole dg' (List.mem_cons_of_mem _ h)

omit [Deps] [Browser] in
/-- The digest that every read brings is taken over, if it is not the empty one or one of them brings the data. -/
theorem foldl_carry_of_landed {dg : String} {whole : Bool} {newest : Option String}
    (hall : ∀ whole dg', Out.landed whole dg' ∈ outs → dg' = dg) (hmem : .landed whole dg ∈ outs)
    (htaken : whole = true ∨ dg ≠ "") : outs.foldl carry newest = some dg := by
  obtain ⟨b, a, rfl⟩ := List.append_of_mem hmem
  have ho : carry (b.foldl carry newest) (.landed whole dg) = some dg := by
    rcases htaken with h | h <;> simp [carry, h]
  rw [List.foldl_append, List.foldl_cons, ho]
  exact foldl_carry_some fun whole dg' h => hall whole dg' (by simp [h])

omit [Deps] [Browser] in
theorem foldl_carry_of_empty {newest : Option String}
    (hall : ∀ whole dg', Out.landed whole dg' ∈ outs → whole = false ∧ dg' = "") : outs.foldl carry newest = newest := by
  induction outs generalizing newest with
  | nil => rfl
  | cons o outs ih =>
    have ho : carry newest o = newest := by
      cases o with
      | sent w => rfl
      | handled w answer b a => rfl
      | landed whole dg' =>
        obtain ⟨rfl, rfl⟩ := hall whole dg' List.mem_cons_self
        rfl
    rw [List.foldl_cons, ho]
    exact ih fun whole dg' h => hall whole dg' (List.mem_cons_of_mem _ h)

/-- Nobody writes the document, and what a read brings that lands is what the server holds. -/
def Quiet (id : String) (d : DocId) (y : System) (move : Move) : Prop :=
  (step id y move).1.store.identity d = y.store.identity d ∧
    ∀ whole dg, Out.landed whole dg ∈ (step id y move).2 → dg = y.store.identity d

theorem quiet_run {moves : List Move} (h : Log.Along (step id) (Quiet id d) y moves) :
    (run id y moves).1.store.identity d = y.store.identity d ∧
      ∀ whole dg, Out.landed whole dg ∈ (run id y moves).2 → dg = y.store.identity d := by
  induction moves generalizing y with
  | nil => exact ⟨rfl, fun _ _ h => by cases h⟩
  | cons move moves ih =>
    obtain ⟨⟨hstore, hland⟩, hrest⟩ := h
    obtain ⟨hstore', hland'⟩ := ih hrest
    refine ⟨hstore'.trans hstore, fun whole dg hmem => ?_⟩
    rcases List.mem_append.mp hmem with hmem | hmem
    · exact hland whole dg hmem
    · exact (hland' whole dg hmem).trans hstore

/-! ### Requests -/

omit [Deps] in
theorem id_request (prefixes : List PrefixDef) (acl : CallerAcl) : (w.request id prefixes acl).id = id := by
  unfold Write.request
  split <;> rfl

omit [Deps] in
theorem digest_request (prefixes : List PrefixDef) (acl : CallerAcl) :
    (w.request id prefixes acl).digest = some w.digest := by
  unfold Write.request
  split <;> rfl

/-- The write carries the digest that the server holds, and is not answered 409 while it holds that. -/
def Accepted (id : String) (d : DocId) (y : System) (w : Write) : Prop :=
  w.digest = y.store.identity d ∧ ∀ prefixes acl (s : MetaStore), s.identity d = y.store.identity d →
    answerOf ((w.request id prefixes acl).run s).1 ≠ .status 409

theorem accepted_iff (hid : parseId id = .ok d) : Accepted id d y w ↔ w.digest = y.store.identity d := by
  refine ⟨fun h => h.1, fun h => ⟨h, fun prefixes acl s hs hstatus => ?_⟩⟩
  cases hr : ((w.request id prefixes acl).run s).1 with
  | ok answer =>
    rw [hr] at hstatus
    cases hstatus
  | error e =>
    rw [hr, answerOf, Answer.status.injEq] at hstatus
    obtain ⟨d', dg, hd', hdg, hne⟩ := Request.digest_of_conflict hr hstatus
    rw [id_request, hid, Except.ok.injEq] at hd'
    rw [digest_request, Option.some.injEq] at hdg
    subst hd' hdg
    exact hne (hs.trans h.symm)

/-- The panel is about to read the document again, or will when the editor is closed. -/
def Rereads (y y' : System) : Prop :=
  (∃ t, y'.tasks = y.tasks ++ [t] ∧ (t = .rows ∨ t = .read (.refresh true) ∨ ∃ edit, t = .read (.conflict edit))) ∨
    y'.panel.reloadPending = true

omit [Deps] [Browser] in
theorem rereads_conflict (edit : Option Edit) : Rereads y (y.take (y.panel.conflict edit)).1 := by
  have hreload : Rereads y (y.take y.panel.reload).1 ∨ y.panel.mode = .text := by
    unfold State.reload
    split
    · next hmode => exact Or.inr hmode
    · split
      · exact Or.inl (Or.inr rfl)
      · exact Or.inl (Or.inl ⟨.rows, rfl, Or.inl rfl⟩)
  unfold State.conflict
  split
  · exact Or.inl ⟨_, rfl, Or.inr (Or.inl rfl)⟩
  · next hmode =>
    split
    · next edit _ _ => exact Or.inl ⟨_, rfl, Or.inr (Or.inr ⟨edit, rfl⟩)⟩
    · exact hreload.resolve_right hmode

/-! ### After the document was read again -/

/-- A 409 makes the panel read the document again. And where nobody writes it from some state of a run on, and a read of
    it lands, the next write carries the digest that the server holds, and is not answered 409, if and only if the
    document is there, or the panel had no digest, or one of the reads that landed brought the data too. -/
theorem conflict_resolved_iff (hid : parseId id = .ok d) (store : MetaStore) (before : List Move) :
    let y := (run id (.start store) before).1
    (∀ k w yes, y.tasks[k]? = some (.wrote w (.status 409)) →
      Rereads { y with tasks := y.tasks.eraseIdx k } (step id y (.land k yes)).1) ∧
    ∀ moves whole dg move w, Log.Along (step id) (Quiet id d) y moves → Out.landed whole dg ∈ (run id y moves).2 →
      Out.sent w ∈ (step id (run id y moves).1 move).2 →
      (Accepted id d (run id y moves).1 w ↔
        y.store.identity d ≠ "" ∨ y.panel.digestOf = "" ∨ ∃ dg, Out.landed true dg ∈ (run id y moves).2) := by
  intro y
  refine ⟨fun k w yes hk => ?_, fun moves whole dg move w hquiet hland hsent => ?_⟩
  · rw [show step id y (.land k yes) = land y k yes from rfl, land, hk]
    exact rereads_conflict _
  have hinv : Inv id y (run id (.start store) before).2 := Inv.run store before
  obtain ⟨hstore, hall⟩ := quiet_run hquiet
  have hinv' : Inv id (run id y moves).1 ((run id (.start store) before).2 ++ (run id y moves).2) :=
    @Log.run_inv _ _ _ (Panel.step id) (fun _ _ => True) (Inv id) (fun _ _ move _ h => h.step move) _ _ _
      (Log.Along.trivial _ _) hinv
  obtain rfl := hall whole dg hland
  rw [accepted_iff hid, hstore, digest_of_sent hsent, hinv'.digest, found_append]
  by_cases hne : y.store.identity d = ""
  · by_cases htrue : Out.landed true "" ∈ (run id y moves).2
    · -- The data came with the empty digest, so the panel has it.
      rw [hne] at hall ⊢
      rw [foldl_carry_of_landed hall htrue (Or.inl rfl)]
      simpa using Or.inr ⟨"", htrue⟩
    · rw [hne] at hall ⊢
      have hnone : ∀ whole dg, Out.landed whole dg ∈ (run id y moves).2 → whole = false ∧ dg = "" := by
        intro whole dg hmem
        obtain rfl := hall whole dg hmem
        cases whole with
        | true => exact absurd hmem htrue
        | false => exact ⟨rfl, rfl⟩
      rw [foldl_carry_of_empty hnone, ← hinv.digest]
      refine ⟨fun h => Or.inr (Or.inl h), fun h => ?_⟩
      rcases h with h | h | ⟨dg, hmem⟩
      · exact absurd rfl h
      · exact h
      · cases (hnone true dg hmem).1
  · rw [foldl_carry_of_landed hall hland (Or.inr hne)]
    exact iff_of_true rfl (Or.inl hne)

/-- The claim that a conflict asks for what resolves it, for the document `id` in the store `store`: a write is answered
    409, the document is read again, and nobody writes it until the next write is sent. -/
def Resolves (id : String) (d : DocId) (store : MetaStore) : Prop :=
  ∀ (earlier : List Move) (k : Nat) (w₀ : Write) (yes : Bool) (moves : List Move) (whole : Bool) (dg : String) (move : Move)
    (w : Write),
    (run id (.start store) earlier).1.tasks[k]? = some (.wrote w₀ (.status 409)) →
    let y := (run id (.start store) (earlier ++ [.land k yes])).1
    Log.Along (step id) (Quiet id d) y moves → Out.landed whole dg ∈ (run id y moves).2 →
    Out.sent w ∈ (step id (run id y moves).1 move).2 → Accepted id d (run id y moves).1 w

end

section Samples
open Sample

def auditor : CallerAcl := ⟨"root@pam", true, true, [], none⟩

/-- The server handles the oldest task, and its answer lands. -/
def ask : List Move := [.serve 0 [] auditor, .land 0 true]

def store₁ : MetaStore := storeOf [(100, "a: 1\n".toList)]

/-- Guest 100's document is loaded and edited as text; somebody leaves `theirs`, and the edit is answered 409. -/
def edited (theirs : MetaStore) : List Move :=
  [.land 0 true] ++ ask ++ [.toText] ++ ask ++ [.land 0 true, .type "s: |+\n  x\n\n".toList, .others theirs, .apply,
    .serve 0 [] auditor]

/-- The 409 has landed. -/
def refused (theirs : MetaStore) : System := (run "100" (.start store₁) (edited theirs ++ [.land 0 true])).1

/-- The document is read again. -/
def reread (theirs : MetaStore) : System := (run "100" (refused theirs) ask).1

/-- The write that a task has the answer 409 for. -/
def Task.refused : Task → Option Write
  | .wrote w (.status 409) => some w
  | _ => none

def Out.landing : Out → Option (Bool × String)
  | .landed whole digest => some (whole, digest)
  | .sent _ | .handled .. => none

def Out.sentWrite : Out → Option Write
  | .sent w => some w
  | .landed .. | .handled .. => none

theorem mem_sent {outs : List Out} {dg : String} (h : (outs.filterMap Out.sentWrite).map (·.digest) = [dg]) :
    ∃ w, .sent w ∈ outs ∧ w.digest = dg := by
  obtain ⟨w, hw, hdg⟩ := List.mem_map.mp (h ▸ List.mem_singleton_self dg)
  obtain ⟨o, ho, hsent⟩ := List.mem_filterMap.mp hw
  cases o <;> cases hsent
  exact ⟨w, ho, hdg⟩

theorem mem_landing {outs : List Out} {whole : Bool} {dg : String} :
    .landed whole dg ∈ outs ↔ (whole, dg) ∈ outs.filterMap Out.landing := by
  rw [List.mem_filterMap]
  refine ⟨fun h => ⟨_, h, rfl⟩, fun ⟨o, ho, hland⟩ => ?_⟩
  cases o <;> cases hland
  exact ho

theorem quiet_of_landing {id : String} {d : DocId} {y : System} {move : Move} {l : List (Bool × String)}
    (hstore : (step id y move).1.store.identity d = y.store.identity d)
    (hland : (step id y move).2.filterMap Out.landing = l) (hl : ∀ e ∈ l, e.2 = y.store.identity d) : Quiet id d y move :=
  ⟨hstore, fun _ _ hmem => hl _ (hland ▸ mem_landing.mp hmem)⟩

/-- The document is read again with the digest `dg`, and nobody touches it meanwhile. -/
theorem quiet_ask {theirs : MetaStore} {dg : String} (h :
    let y := refused theirs
    let z := (step "100" y (.serve 0 [] auditor)).1
    z.store.identity (.guest 100) = y.store.identity (.guest 100) ∧
      (step "100" y (.serve 0 [] auditor)).2.filterMap Out.landing = [] ∧
      (step "100" z (.land 0 true)).1.store.identity (.guest 100) = z.store.identity (.guest 100) ∧
      (step "100" z (.land 0 true)).2.filterMap Out.landing = [(false, dg)] ∧ dg = z.store.identity (.guest 100)) :
    Log.Along (step "100") (Quiet "100" (.guest 100)) (refused theirs) ask := by
  obtain ⟨hserved, hnothing, hlanded, hread, hdg⟩ := h
  refine ⟨quiet_of_landing hserved hnothing (by rintro e ⟨⟩), quiet_of_landing hlanded hread ?_, trivial⟩
  intro e he
  rw [List.mem_singleton.mp he]
  exact hdg

/-- Somebody has written the document in between: the edit goes again with the digest of what they wrote. -/
theorem conflict_resolved_iff_written :
    ∃ w, .sent w ∈ (step "100" (reread (storeOf [(100, "a: 2\n".toList)])) .apply).2 ∧
      Accepted "100" (.guest 100) (reread (storeOf [(100, "a: 2\n".toList)])) w := by
  have hquiet : Log.Along (step "100") (Quiet "100" (.guest 100)) (refused (storeOf [(100, "a: 2\n".toList)])) ask :=
    @quiet_ask _ (Sample.sha256Hex (Text.encode "a: 2\n".toList)) (by decide +kernel)
  obtain ⟨w, hw, -⟩ := mem_sent (show ((step "100" (reread (storeOf [(100, "a: 2\n".toList)])) .apply).2.filterMap
    Out.sentWrite).map (·.digest) = [Sample.sha256Hex (Text.encode "a: 2\n".toList)] by decide +kernel)
  refine ⟨w, hw, ((conflict_resolved_iff rfl store₁ _).2 ask false (Sample.sha256Hex (Text.encode "a: 2\n".toList)) .apply w
    hquiet (mem_landing.mpr (by decide +kernel)) hw).mpr (Or.inl (by decide +kernel))⟩

/-- Somebody has deleted it: the edit goes again with the digest of the document that is gone, for a 409 every time. -/
theorem conflict_unresolved : ¬ Resolves "100" (.guest 100) store₁ := by
  intro h
  have hrefused : ((run "100" (.start store₁) (edited (storeOf []))).1.tasks[0]?.bind Task.refused).isSome = true := by
    decide +kernel
  obtain ⟨w₀, hw₀⟩ := Option.isSome_iff_exists.mp hrefused
  obtain ⟨t, ht, hrefused⟩ := Option.bind_eq_some_iff.mp hw₀
  unfold Task.refused at hrefused
  split at hrefused
  · cases hrefused
    have hquiet : Log.Along (step "100") (Quiet "100" (.guest 100)) (refused (storeOf [])) ask :=
      @quiet_ask _ "" (by decide +kernel)
    obtain ⟨w, hw, hdg⟩ := mem_sent (show ((step "100" (reread (storeOf [])) .apply).2.filterMap Out.sentWrite).map
      (·.digest) = [Sample.sha256Hex (Text.encode "a: 1\n".toList)] by decide +kernel)
    have haccepted :=
      (h (edited (storeOf [])) 0 w₀ true ask false "" .apply w ht hquiet (mem_landing.mpr (by decide +kernel))
      hw).1
    have hheld : (reread (storeOf [])).store.identity (.guest 100) = "" := by decide +kernel
    rw [hdg] at haccepted
    exact Sample.sha256Hex_ne_empty _ (haccepted.trans hheld)
  · cases hrefused

end Samples

end Panel
end PveMeta
