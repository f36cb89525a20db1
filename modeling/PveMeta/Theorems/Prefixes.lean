import PveMeta.History
import PveMeta.Sample
import PveMeta.Theorems.Frame
import PveMeta.Theorems.Layers
import PveMeta.Theorems.Writes

/-! # Prefix files that the API wrote

A write of a prefix file is checked with the loader's own parser, on the text that goes to disk. What such a
write leaves is loaded from then on, until the file is removed or written again; where no prefix directory is
configured the file goes where the loader does not look. -/

namespace PveMeta
open Api MetaStore Registry History

/-- What a call did to the file of its document, if it was answered. -/
def Request.made [Deps] (s : MetaStore) (r : Request) : Option (DocId × Change) :=
  match (r.run s).1, r.target, r.plan s with
  | .ok _, .ok (docId, viewPath), .ok (stored, plan) => some (docId, r.change viewPath stored plan)
  | _, _, _ => none

namespace PrefixRun

/-- The text of a prefix file after one more entry of the log, if it is one that the API wrote. -/
def wrote (name : String) (text : Option Text) : Option (DocId × Change) → Option Text
  | some (.registry _ n, change) =>
    if n = name then
      match change with
      | .keep => text
      | .remove => none
      | .write t => some t
    else text
  | _ => text

/-- The text of the last write of `name`, unless the file was removed after it. -/
def lastWrite (name : String) (log : List (Option (DocId × Change))) : Option Text := log.foldl (wrote name) none

section

variable [Deps]

/-- A call in its environment, and what it did. -/
def step (s : MetaStore) (call : Env × Request) : MetaStore × List (Option (DocId × Change)) :=
  ((call.2.run (call.1.meet s)).2, [call.2.made (call.1.meet s)])

variable {s : MetaStore} {r : Request} {d : DocId} {vp : Path} {stored : Stored} {plan : Plan} {name : String}
  {text : Text} {kind : RegistryKind} {log : List (Option (DocId × Change))}

/-! ### One write -/

/-- A registry document's write has passed the loader's parser. -/
theorem shape_of_planPut {req : PutRequest} {p : ParsedPut} (h : planPut req p stored = .ok plan) :
    checkRegistryShape p.docId plan.text = .ok () := by
  obtain ⟨_, -, h⟩ := Except.bind_eq_ok.mp h
  obtain ⟨⟨touched, v⟩, -, h⟩ := Except.bind_eq_ok.mp h
  obtain ⟨_, hshape, h⟩ := Except.bind_eq_ok.mp h
  obtain ⟨_, -, h⟩ := Except.bind_eq_ok.mp h
  cases h
  exact hshape

theorem shape_of_applyDelete {req : DeleteRequest} {digest : String}
    (h : (applyDelete s req d vp stored plan).1 = .ok digest)
    (hwrite : (Request.delete req).change vp stored plan = .write text) : checkRegistryShape d plan.text = .ok () := by
  rw [Request.change] at hwrite
  split at hwrite
  · cases hwrite
  · next hroot =>
    split at hwrite
    · cases hwrite
    · next hkeep =>
      rw [Bool.or_eq_true, not_or] at hkeep
      rw [applyDelete, if_neg hroot, if_neg hkeep.1, if_pos (by simpa using hkeep.2)] at h
      split at h
      · cases h
      · next hshape => exact hshape

/-- The text of a write has passed the loader's parser, in a delete of a view as in a put. -/
theorem shape_of_written (h : Request.Answered s r d vp stored plan) (hok : (r.run s).1.toBool = true)
    (hwrite : r.change vp stored plan = .write text) : checkRegistryShape d text = .ok () := by
  obtain rfl := Request.change_eq_write hwrite
  cases r with
  | put req =>
    obtain ⟨p, hp, hplan⟩ := Except.bind_eq_ok.mp h.plan_eq
    obtain ⟨st, -, hplan⟩ := Except.bind_eq_ok.mp hplan
    obtain ⟨pl, hpl, hplan⟩ := Except.bind_eq_ok.mp hplan
    cases hplan
    have htarget := h.target_eq
    simp only [Request.target, hp, Except.map, Except.ok.injEq, Prod.mk.injEq] at htarget
    exact htarget.1 ▸ shape_of_planPut hpl
  | delete req =>
    rw [Request.run_eq, h.check_eq, h.plan_eq] at hok
    dsimp only at hok
    rw [Request.apply, h.target_eq] at hok
    dsimp only at hok
    cases happly : (applyDelete s req d vp stored plan).1 with
    | error e =>
      rw [happly] at hok
      cases hok
    | ok digest => exact shape_of_applyDelete happly hwrite

theorem made_eq (h : Request.Answered s r d vp stored plan) {res : ApiPutResult} (hok : (r.run s).1 = .ok res) :
    r.made s = some (d, r.change vp stored plan) := by
  simp only [Request.made, hok, h.target_eq, h.plan_eq]

theorem made_of_error {e : ApiError} (h : (r.run s).1 = .error e) : r.made s = none := by
  simp only [Request.made, h]

/-! ### What a run keeps -/

/-- The files of the texts that the API wrote last are there, and they are prefixes. -/
def Written (s : MetaStore) (log : List (Option (DocId × Change))) : Prop :=
  ∀ name text, lastWrite name log = some text →
    ∃ f q, s.own (.registry .prefixDef name) = some f ∧ f.bytes = Text.encode text ∧ parsePrefix name text = .ok q

omit [Deps] in
theorem lastWrite_concat (name : String) (log : List (Option (DocId × Change))) (e : Option (DocId × Change)) :
    lastWrite name (log ++ [e]) = wrote name (lastWrite name log) e := List.foldl_append

omit [Deps] in
theorem wrote_of_ne {last : Option Text} {c : Change} (h : .registry .prefixDef name ≠ d) :
    wrote name last (some (d, c)) = last := by
  cases d with
  | guest v => rfl
  | registry kind n =>
    cases kind
    exact if_neg fun hn => h (by rw [hn])

theorem step_written (h : Written s log) (call : Env × Request) :
    Written (step s call).1 (log ++ (step s call).2) := by
  intro name text hlast
  have hmeet : Written (call.1.meet s) log := h
  rw [step, lastWrite_concat] at hlast
  rw [step]
  rcases call.2.run_cases (call.1.meet s) with ⟨e, he⟩ | ⟨d, vp, stored, plan, hans, hrun⟩
  · rw [made_of_error (by rw [he])] at hlast
    rw [he]
    exact hmeet name text hlast
  · rw [made_eq hans (by rw [hrun])] at hlast
    rw [hrun]
    by_cases hd : .registry .prefixDef name = d
    · subst hd
      rw [Change.own_apply]
      simp only [wrote, if_true] at hlast
      cases hchange : call.2.change vp stored plan with
      | keep =>
        rw [hchange] at hlast
        exact hmeet name text hlast
      | remove =>
        rw [hchange] at hlast
        cases hlast
      | write t =>
        rw [hchange] at hlast
        cases hlast
        have hshape := shape_of_written hans (by rw [hrun]; rfl) hchange
        simp only [checkRegistryShape] at hshape
        split at hshape
        · next q hq => exact ⟨_, q, rfl, rfl, hq⟩
        · cases hshape
    · rw [Change.own_apply_ne hd]
      rw [wrote_of_ne hd] at hlast
      exact hmeet name text hlast

omit [Deps] in
theorem prefixDirs_apply (c : Change) : (c.apply s d).prefixDirs = s.prefixDirs := by
  cases c <;> rfl

theorem prefixDirs_run (calls : List (Env × Request)) : (Log.run step s calls).1.prefixDirs = s.prefixDirs := by
  induction calls generalizing s with
  | nil => rfl
  | cons call calls ih =>
    rw [Log.run, ih, step]
    rcases call.2.run_cases (call.1.meet s) with ⟨e, he⟩ | ⟨d, vp, stored, plan, -, hrun⟩
    · rw [he]
      rfl
    · rw [hrun]
      exact prefixDirs_apply _

theorem run_written (s : MetaStore) (calls : List (Env × Request)) :
    Written (Log.run step s calls).1 (Log.run step s calls).2 :=
  @Log.run_keeps _ _ _ step Written (fun _ _ call h => step_written h call) s (fun _ _ h => nomatch h) calls

/-! ### What the loader makes of it -/

/-- `name` is loaded from the cluster's directory as `q`, and it does not fail. -/
structure Loads (name : String) (q : PrefixDef) (loaded : List PrefixDef) (failures : List RegistryFailure) : Prop where
  mem : ∃ overrides, stamp q .cluster overrides ∈ loaded
  only : ∀ p ∈ loaded, p.pre.display = name → ∃ overrides, p = stamp q .cluster overrides
  not_failed : ∀ f ∈ failures, f.name ≠ name

/-- A file in the cluster's directory that parses is loaded. -/
theorem own_loads (h : s.Readable) (hdirs : 0 < s.prefixDirs) {f : File} {q : PrefixDef}
    (hown : s.own (.registry .prefixDef name) = some f) (hbytes : f.bytes = Text.encode text)
    (hparse : parsePrefix name text = .ok q) :
    ∃ loaded failures, s.listPrefixes = .ok (loaded, failures) ∧ Loads name q loaded failures := by
  have hreg : s.registry = .ok ((List.range s.prefixDirs).map s.directory) := by
    simp only [MetaStore.registry, checkAvailable_eq_ok.mpr h.available, Except.ok_bind, pure, Except.pure]
  have hfaults : ∀ d ∈ (List.range s.prefixDirs).map s.directory, d.listFault = none := by
    intro d hd
    obtain ⟨i, -, rfl⟩ := List.mem_map.mp hd
    exact h.reads
  obtain ⟨loaded, failures, hlist⟩ := exists_listPrefixes hfaults
  have hlast : s.prefixDirs - 1 < s.prefixDirs := by omega
  have hdir := getElem?_registry hreg (i := s.prefixDirs - 1)
  rw [if_pos hlast] at hdir
  -- The file is in the last directory, above which there is none.
  have hget : Assoc.get? (.prefixDir (s.prefixDirs - 1) (yamlFile name)) s.files = some f := by
    rw [own, pathFor, registryWritePath, if_neg (by omega), fileName_registry] at hown
    exact hown
  have heff : Effective ((List.range s.prefixDirs).map s.directory) name (s.prefixDirs - 1) := by
    refine ⟨?_, fun j hj hholds => ?_⟩
    · rw [Holds, hdir, Option.any_some, Directory.isFileOrUnreadable, node_directory, hget]
      rfl
    · have hlt := hholds.lt
      rw [List.length_map, List.length_range] at hlt
      omega
  have htext : (s.directory (s.prefixDirs - 1)).readToString (yamlFile name) = .ok text := by
    rw [Directory.readToString, node_directory, hget, Option.map_some, Node.readToString, hbytes, Text.decode?_encode]
  have horigin : originOf ((List.range s.prefixDirs).map s.directory) (s.prefixDirs - 1) = .cluster := by
    rw [originOf, List.length_map, List.length_range, if_pos (by omega)]
  obtain ⟨hmem, honly, hfailed⟩ := (listing_of_listPrefixes hlist).of_parses heff hdir htext hparse
  rw [horigin] at hmem honly
  refine ⟨loaded, failures, ?_, hmem, honly, hfailed⟩
  rw [MetaStore.listPrefixes, hreg]
  exact hlist

/-- After any calls of the API, from any files, a prefix whose file a call wrote last is loaded with the definition
    that the stored text parses to, and is no failure. -/
theorem written_prefix_loads {s : MetaStore} (hdirs : 0 < s.prefixDirs) (calls : List (Env × Request)) (env : Env)
    {name : String} {text : Text} (hlast : lastWrite name (Log.run step s calls).2 = some text)
    (hread : (env.meet (Log.run step s calls).1).Readable) :
    ∃ f q loaded failures, (Log.run step s calls).1.own (.registry .prefixDef name) = some f ∧
      f.bytes = Text.encode text ∧ parsePrefix name text = .ok q ∧
      (env.meet (Log.run step s calls).1).listPrefixes = .ok (loaded, failures) ∧ Loads name q loaded failures := by
  obtain ⟨f, q, hown, hbytes, hparse⟩ := run_written s calls name text hlast
  have hdirs' : 0 < (env.meet (Log.run step s calls).1).prefixDirs := by
    show 0 < (Log.run step s calls).1.prefixDirs
    rw [prefixDirs_run]
    exact hdirs
  obtain ⟨loaded, failures, hlist, hloads⟩ := own_loads hread hdirs' hown hbytes hparse
  exact ⟨f, q, loaded, failures, hown, hbytes, hparse, hlist, hloads⟩

end

/-- A put of the prefix file `web`, and a view of it that is deleted. -/
def webCalls : List (Env × Request) :=
  [(⟨none, none, none, 1⟩, .put ⟨[], "prefixes/web", none, "yaml", "selector:\n  all: true\n".toList, "replace", none,
      false, false, false, ⟨"root@pam", true, true, [], none⟩⟩),
    (⟨none, none, none, 2⟩, .delete ⟨"prefixes/web", some "schema", none, ⟨"root@pam", true, true, [], none⟩⟩)]

def calm : Env := ⟨none, none, none, 3⟩

open Sample in
/-- In a store with two prefix directories, the lower of them without a file. -/
theorem written_prefix_loads_web : ∃ f q loaded failures,
    (Log.run step { storeOf [] with prefixDirs := 2 } webCalls).1.own (.registry .prefixDef "web") = some f ∧
      f.bytes = Text.encode "selector:\n  all: true\n".toList ∧
      parsePrefix "web" "selector:\n  all: true\n".toList = .ok q ∧
      (calm.meet (Log.run step { storeOf [] with prefixDirs := 2 } webCalls).1).listPrefixes = .ok (loaded, failures) ∧
      Loads "web" q loaded failures :=
  written_prefix_loads (by decide) webCalls calm (by decide +kernel) ⟨rfl, rfl⟩

open Sample in
/-- Without a prefix directory the file goes to a directory that the loader does not walk. -/
theorem written_prefix_not_listed : ¬ ∀ (s : MetaStore) (calls : List (Env × Request)) (env : Env) (name : String)
    (text : Text), lastWrite name (Log.run step s calls).2 = some text → (env.meet (Log.run step s calls).1).Readable →
    ∃ f q loaded failures, (Log.run step s calls).1.own (.registry .prefixDef name) = some f ∧
      f.bytes = Text.encode text ∧ parsePrefix name text = .ok q ∧
      (env.meet (Log.run step s calls).1).listPrefixes = .ok (loaded, failures) ∧ Loads name q loaded failures := by
  intro h
  obtain ⟨f, q, loaded, failures, -, -, -, hlist, ⟨overrides, hmem⟩, -⟩ :=
    h (storeOf []) webCalls calm "web" "selector:\n  all: true\n".toList (by decide +kernel) ⟨rfl, rfl⟩
  have hnone : (calm.meet (Log.run step (storeOf []) webCalls).1).listPrefixes.toOption.map (·.1.length) = some 0 := by
    decide +kernel
  rw [hlist] at hnone
  have hnil : loaded = [] := List.eq_nil_of_length_eq_zero (Option.some.inj hnone)
  rw [hnil] at hmem
  cases hmem

end PrefixRun
end PveMeta
