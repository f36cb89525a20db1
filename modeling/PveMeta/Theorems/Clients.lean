import PveMeta.Clients
import PveMeta.Theorems.Digests
import PveMeta.Theorems.Frame
import PveMeta.Theorems.Ids

/-! # What a step of a client does

Writes of one document exclude each other by its lock, so what a client's steps have found out is still so at the
next of them. All that a step does to the documents is to write a plan, made on what is there. -/

namespace PveMeta
open Api MetaStore

/-! ### What a digest tells -/

/-- What the hash is taken of. -/
def hashed (f : File) : ByteArray := if f.bytes.size > maxReadBytes then oversizedPreimage f else f.bytes

theorem getLast?_append_data {a b : ByteArray} {x : UInt8} (h : b.data.toList.getLast? = some x) :
    (a ++ b).data.toList.getLast? = some x := by
  rw [ByteArray.data_append, Array.toList_append, List.getLast?_append, h]
  rfl

theorem getLast?_leBytes {width n : Nat} (h : n < 2 ^ (8 * width)) : (leBytes (width + 1) n).getLast? = some 0 := by
  rw [leBytes, List.range_succ, List.map_append, List.getLast?_append]
  simp [Nat.shiftRight_eq_div_pow, Nat.div_eq_of_lt h]

/-- What stands for a file above the read cap is no text that the store writes. -/
theorem oversizedPreimage_ne (f : File) (t : Text) : oversizedPreimage f ≠ Text.encode (t ++ ['\n']) := by
  have hzero : (oversizedPreimage f).data.toList.getLast? = some 0 := by
    refine getLast?_append_data ?_
    show (leBytes 8 f.bytes.size ++ leBytes 16 f.mtime).getLast? = some 0
    have hlt : f.mtime.val < 2 ^ (8 * 15) := f.mtime.isLt.trans (by decide)
    rw [List.getLast?_append, getLast?_leBytes hlt]
    rfl
  intro h
  rw [h, Text.encode_append, getLast?_append_data (show _ = some 10 from by decide)] at hzero
  cases hzero

section

variable [Deps]

theorem identityOf_eq (f : File) : identityOf f = Deps.sha256Hex (hashed f) := by
  unfold identityOf hashed digest
  split <;> rfl

/-- Where the hash is injective, no other content has the identity of a text that the store writes. -/
theorem bytes_eq_of_identityOf (hinj : ∀ a b, Deps.sha256Hex a = Deps.sha256Hex b → a = b) {f g : File} {t : Text}
    (hf : f.bytes = Text.encode t) (hsize : Text.byteLen t ≤ maxBytes) (ht : normalizeTrailingNewline t = t)
    (h : identityOf g = identityOf f) : g.bytes = f.bytes := by
  have hsmall : ¬ f.bytes.size > maxReadBytes := by
    rw [hf, Text.size_encode]
    exact Nat.not_lt.mpr (hsize.trans (by decide))
  rw [identityOf_eq, identityOf_eq] at h
  have hbytes := hinj _ _ h
  rw [hashed, hashed, if_neg hsmall] at hbytes
  split at hbytes
  · rw [hf, ← ht] at hbytes
    exact absurd hbytes (oversizedPreimage_ne _ _)
  · exact hbytes

/-- The digest of a content, empty for none. -/
def contentDigest (content : Option File) : String := (content.map identityOf).getD ""

theorem exists_of_contentDigest {content : Option File} {f : File} (h : contentDigest content = identityOf f) :
    ∃ g, content = some g ∧ identityOf g = identityOf f := by
  cases content with
  | none => exact absurd h.symm (identityOf_ne_empty f)
  | some g => exact ⟨g, rfl, h⟩

theorem hashed_eq_of_contentDigest (hinj : ∀ a b, Deps.sha256Hex a = Deps.sha256Hex b → a = b) {o o' : Option File}
    (h : contentDigest o = contentDigest o') : o.map hashed = o'.map hashed := by
  cases o' with
  | none =>
    cases o with
    | none => rfl
    | some f => exact absurd h (identityOf_ne_empty f)
  | some f =>
    obtain ⟨g, rfl, hg⟩ := exists_of_contentDigest h
    rw [identityOf_eq, identityOf_eq] at hg
    rw [Option.map_some, Option.map_some, hinj _ _ hg]

end

/-! ### Plans -/

namespace Request

variable [Deps] {s : MetaStore} {d : DocId} {r : Request} {own packaged : Option File} {stored : Stored} {plan : Plan}

/-- The plan of a write, from the document's own file and the packaged one. -/
def planOn (own packaged : Option File) : Request → Except ApiError (Stored × Plan)
  | .put req => do
    let p ← parsePut req
    let plan ← planPut req p (storedOf (own.or packaged))
    return (storedOf (own.or packaged), plan)
  | .delete req => do
    let (docId, viewPath) ← parseDelete req
    checkRepairable (storedOf (own.or packaged)) viewPath false
    let plan ← planDelete docId viewPath (storedOf (own.or packaged)) own.isSome
    return (storedOf (own.or packaged), plan)

/-- A plan depends on the document's files and on nothing else of the store. -/
theorem plan_eq_planOn (h : s.Readable) (hid : parseId r.id = .ok d) : r.plan s = r.planOn (s.own d) (s.packaged d) := by
  cases r with
  | put req =>
    simp only [plan, planOn]
    refine Except.bind_congr fun p hp => ?_
    obtain ⟨hd, -⟩ := parsePut_eq_ok hp
    obtain rfl : p.docId = d := Except.ok.inj (hd.symm.trans hid)
    rw [readStored_of_readable h]
    rfl
  | delete req =>
    simp only [plan, planOn]
    refine Except.bind_congr fun p hp => ?_
    obtain ⟨d', vp⟩ := p
    have ht : (Request.delete req).target = .ok (d', vp) := hp
    obtain rfl : d' = d := Except.ok.inj ((target_eq_ok ht).1.symm.trans hid)
    simp only [readStored_of_readable h, hasOwnFile_of_readable h, Except.ok_bind]
    rfl

/-- A plan of a write has the text of its own dump. -/
theorem planOn_text (h : r.planOn own packaged = .ok (stored, plan)) : plan.text = diskFormat.dump plan.planned := by
  cases r with
  | put req =>
    obtain ⟨p, -, h⟩ := Except.bind_eq_ok.mp h
    obtain ⟨pl, hplan, h⟩ := Except.bind_eq_ok.mp h
    cases h
    exact (planPut_eq_ok hplan).2.2.2
  | delete req =>
    obtain ⟨⟨docId, vp⟩, -, h⟩ := Except.bind_eq_ok.mp h
    obtain ⟨_, -, h⟩ := Except.bind_eq_ok.mp h
    obtain ⟨pl, hplan, h⟩ := Except.bind_eq_ok.mp h
    cases h
    exact (planDelete_eq_ok hplan).2.2.1

/-- A precondition that holds has found the content whose digest the write carries. -/
theorem check_eq_ok {dg : String} (hid : parseId r.id = .ok d) (hdigest : r.digest = some dg) (h : r.check s = .ok ()) :
    s.identity d = dg := by
  obtain ⟨⟨d', vp⟩, ht, h⟩ := Except.bind_eq_ok.mp h
  obtain rfl : d' = d := Except.ok.inj ((target_eq_ok ht).1.symm.trans hid)
  dsimp only at h
  rw [hdigest, lift, Except.mapError_eq_ok] at h
  exact (checkPrecondition_eq_ok.mp h).2

end Request

namespace Clients

/-- The files of the documents. -/
abbrev Docs := DocId → Option File

/-- The documents after an acknowledged write. -/
def Ack.apply (a : Ack) (docs : Docs) : Docs := Function.update docs a.job.doc (a.file (docs a.job.doc))

theorem Ack.apply_self (docs : Docs) (a : Ack) : a.apply docs a.job.doc = a.file (docs a.job.doc) := Function.update_self ..

theorem Ack.apply_ne {docs : Docs} {a : Ack} {d : DocId} (h : d ≠ a.job.doc) : a.apply docs d = docs d :=
  Function.update_of_ne h ..

/-- The system when the plan of `a` is written, and the write is over. -/
def System.written (y : System) (a : Ack) : System :=
  { y.release a.client a.job with store := a.change.apply y.store a.job.doc }

theorem System.phase_written (y : System) (a : Ack) : (y.written a).phase = (y.release a.client a.job).phase := rfl

theorem System.holder_written (y : System) (a : Ack) : (y.written a).holder = (y.release a.client a.job).holder := rfl

section

variable [Deps] {s : MetaStore} {y : System} {c : Nat} {job : Job} {phase : Phase}

/-! ### What holds at each step -/

/-- A write that took the lock of its id. -/
structure Job.Ok (job : Job) : Prop where
  id_eq : parseId job.request.id = .ok job.doc
  lock_eq : Perl.lockDomainFor job.request.id = .ok job.lock
  routed : Perl.isRouted job.request.id = true
  carried : job.request.digest = some job.digest
  seen : contentDigest job.seen.content = job.digest

/-- What a client's steps so far have found out is still so. -/
def Phase.Ok (t : MetaStore) : Phase → Prop
  | .idle => True
  | .read seen => contentDigest seen.content = seen.digest
  | .locked job => job.Ok
  | .present job => job.Ok ∧ job.lock = Perl.lockOf job.doc
  | .checked job => job.Ok ∧ job.lock = Perl.lockOf job.doc ∧ t.identity job.doc = job.digest
  | .planned job stored plan => job.Ok ∧ job.lock = Perl.lockOf job.doc ∧ t.identity job.doc = job.digest ∧
      job.request.planOn (t.own job.doc) (t.packaged job.doc) = .ok (stored, plan)

/-- Each write under way holds its lock. -/
structure Steady (y : System) : Prop where
  phases : ∀ c, (y.phase c).Ok y.store
  held : ∀ c job, (y.phase c).job? = some job → y.holder job.lock = some (.client c)

/-- What an acknowledged write was checked and planned against is what is there when its plan is written. -/
structure Acked (y : System) (a : Ack) : Prop where
  phase : y.phase a.client = .planned a.job a.stored a.plan
  lock_eq : a.job.lock = Perl.lockOf a.job.doc
  carried : a.job.request.digest = some a.job.digest
  target : a.job.request.target = .ok (a.job.doc, a.view)
  seen : contentDigest a.job.seen.content = a.job.digest
  fresh : contentDigest (y.store.content a.job.doc) = a.job.digest
  plan : a.job.request.planOn (y.store.own a.job.doc) (y.store.packaged a.job.doc) = .ok (a.stored, a.plan)
  fits : Request.Fits a.change
  now_eq : a.now = y.store.now

/-- What a step may do, and the write it acknowledges. -/
inductive Stepped (y : System) : System → List Ack → Prop
  | stay : Stepped y y []
  | meet (env : History.Env) : Stepped y { y with store := env.meet y.store } []
  | vmlist (vms : List UInt32) : Stepped y { y with vms } []
  | read (c : Nat) (seen : Seen) (hidle : (y.phase c).job? = none) (hok : contentDigest seen.content = seen.digest) :
      Stepped y (y.setPhase c (.read seen)) []
  | acquire (c : Nat) (job : Job) (hok : job.Ok) (hfree : y.holder job.lock = none) (hepoch : job.epoch = y.epoch) :
      Stepped y (y.acquire c job) []
  | advance (c : Nat) (job : Job) (phase : Phase) (hj : (y.phase c).job? = some job) (hj' : phase.job? = some job)
      (hok : phase.Ok y.store) : Stepped y (y.setPhase c phase) []
  | release (c : Nat) (job : Job) (hj : (y.phase c).job? = some job) : Stepped y (y.release c job) []
  | wrote (a : Ack) (ha : Acked y a) : Stepped y (y.written a) [a]

theorem Phase.Ok.of_job (h : phase.Ok s) (hj : phase.job? = some job) : job.Ok := by
  cases phase <;> cases hj
  · exact h
  all_goals exact h.1

/-- What a client found out does not depend on documents whose lock it does not hold. -/
theorem Phase.Ok.congr {t : MetaStore} (h : phase.Ok s) (hp : t.packaged = s.packaged)
    (hown : ∀ job, phase.job? = some job → job.lock = Perl.lockOf job.doc → t.own job.doc = s.own job.doc) :
    phase.Ok t := by
  have hid : ∀ {job : Job}, t.own job.doc = s.own job.doc → t.identity job.doc = s.identity job.doc := by
    intro job ho
    rw [identity, identity, content, content, ho, hp]
  cases phase with
  | idle => trivial
  | read seen => exact h
  | locked job => exact h
  | present job => exact h
  | checked job =>
    obtain ⟨hok, hlock, hdigest⟩ := h
    exact ⟨hok, hlock, (hid (hown job rfl hlock)).trans hdigest⟩
  | planned job stored plan =>
    obtain ⟨hok, hlock, hdigest, hplan⟩ := h
    have ho := hown job rfl hlock
    exact ⟨hok, hlock, (hid ho).trans hdigest, by rwa [ho, hp]⟩

namespace Steady

/-- Two writes under way do not hold one lock. -/
theorem eq_of_lock (h : Steady y) {c' : Nat} {job' : Job} (hj : (y.phase c).job? = some job)
    (hj' : (y.phase c').job? = some job') (hlock : job.lock = job'.lock) : c = c' := by
  have hc := h.held c job hj
  rw [hlock, h.held c' job' hj'] at hc
  cases hc
  rfl

theorem setPhase (h : Steady y) (hok : phase.Ok y.store)
    (hheld : ∀ job, phase.job? = some job → y.holder job.lock = some (.client c)) : Steady (y.setPhase c phase) where
  phases c' := by
    by_cases hc : c' = c
    · rw [hc, System.phase_setPhase_self]
      exact hok
    · rw [System.phase_setPhase_ne hc]
      exact h.phases c'
  held c' job hj := by
    by_cases hc : c' = c
    · rw [hc, System.phase_setPhase_self] at hj
      rw [hc]
      exact hheld job hj
    · rw [System.phase_setPhase_ne hc] at hj
      exact h.held c' job hj

theorem advance (h : Steady y) (hj : (y.phase c).job? = some job) (hj' : phase.job? = some job)
    (hok : phase.Ok y.store) : Steady (y.setPhase c phase) :=
  h.setPhase hok fun job' hjob => by
    rw [hj', Option.some.injEq] at hjob
    exact hjob ▸ h.held c job hj

theorem release (h : Steady y) (hj : (y.phase c).job? = some job) : Steady (y.release c job) where
  phases c' := by
    by_cases hc : c' = c
    · rw [hc, System.phase_release_self]
      exact (Phase.Ok.of_job (h.phases c) hj).seen
    · rw [System.phase_release_ne hc]
      exact h.phases c'
  held c' job' hj' := by
    by_cases hc : c' = c
    · rw [hc, System.phase_release_self] at hj'
      cases hj'
    · rw [System.phase_release_ne hc] at hj'
      rw [System.holder_release_ne fun heq => hc (h.eq_of_lock hj' hj heq)]
      exact h.held c' job' hj'

/-- The store as a step meets it has the same files. -/
theorem meet (h : Steady y) (env : History.Env) : Steady { y with store := env.meet y.store } where
  held := h.held
  phases c := Phase.Ok.congr (h.phases c) rfl fun _ _ _ => rfl

theorem acquire (h : Steady y) (hok : job.Ok) (hfree : y.holder job.lock = none) : Steady (y.acquire c job) where
  phases c' := by
    by_cases hc : c' = c
    · rw [hc, System.phase_acquire_self]
      exact hok
    · rw [System.phase_acquire_ne hc]
      exact h.phases c'
  held c' job' hj' := by
    by_cases hc : c' = c
    · rw [hc, System.phase_acquire_self] at hj'
      cases hj'
      rw [hc, System.holder_acquire_self]
    · rw [System.phase_acquire_ne hc] at hj'
      have hheld := h.held c' job' hj'
      have hne : job'.lock ≠ job.lock := by
        intro heq
        rw [heq, hfree] at hheld
        cases hheld
      rw [System.holder_acquire_ne hne, hheld]

/-- A plan is written: nothing that another client relies on changes. -/
theorem written {a : Ack} (h : Steady y) (ha : Acked y a) : Steady (y.written a) := by
  have hj : (y.phase a.client).job? = some a.job := by rw [ha.phase]; rfl
  have hrelease := h.release hj
  refine ⟨fun c => ?_, hrelease.held⟩
  refine Phase.Ok.congr (hrelease.phases c) (funext fun d => Change.packaged_apply) fun job hjob hlock => ?_
  -- Another write under way has another lock, so its document is another.
  refine Change.own_apply_ne fun hd => ?_
  rw [System.phase_written] at hjob
  have hc : c ≠ a.client := by
    rintro rfl
    rw [System.phase_release_self] at hjob
    cases hjob
  rw [System.phase_release_ne hc] at hjob
  refine hc (h.eq_of_lock hjob hj ?_)
  rw [hlock, ha.lock_eq, hd]

theorem start (s : MetaStore) (vms : List UInt32) : Steady (System.start s vms) where
  phases _ := trivial
  held c job hj := by cases hj

end Steady

/-! ### What a step may do -/

namespace Stepped

theorem get (id : String) (view : Option String) (formatName : String) (comments : Bool)
    (acl : CallerAcl) : Stepped y (get y c id view formatName comments acl) [] := by
  unfold Clients.get
  split
  · next doc answer hid hget =>
    split
    · next hidle => exact .read c _ (Option.isNone_iff_eq_none.mp hidle.1) (digest_getDocument hid hget).2.symm
    · exact .stay
  · exact .stay

theorem lock (h : Steady y) (request : Request) : Stepped y (lock y c request) [] := by
  unfold Clients.lock
  split
  · next seen lock hphase hlock =>
    have hread := h.phases c
    rw [hphase] at hread
    split
    · next hfree => exact .acquire c _ ⟨hfree.2.1, hlock, hfree.1, hfree.2.2.1, hread⟩ hfree.2.2.2 rfl
    · exact .stay
  · exact .stay

theorem assertExists (h : Steady y) : Stepped y (assertExists y c) [] := by
  unfold Clients.assertExists
  split
  · next job hphase =>
    have hj : (y.phase c).job? = some job := by rw [hphase]; rfl
    have hok := Phase.Ok.of_job (h.phases c) hj
    split
    · next hguest =>
      refine .advance c job _ hj rfl ⟨hok, ?_⟩
      exact Except.ok.inj (hok.lock_eq.symm.trans (Perl.lockDomainFor_of_exists hok.id_eq hok.routed hguest))
    · exact .release c job hj
  · exact .stay

theorem check (h : Steady y) : Stepped y (check y c) [] := by
  unfold Clients.check
  split
  · next job hphase =>
    have hj : (y.phase c).job? = some job := by rw [hphase]; rfl
    have hpresent := h.phases c
    rw [hphase] at hpresent
    obtain ⟨hok, hlock⟩ := hpresent
    split
    · next hcheck => exact .advance c job _ hj rfl ⟨hok, hlock, Request.check_eq_ok hok.id_eq hok.carried hcheck⟩
    · exact .release c job hj
  · exact .stay

theorem plan (h : Steady y) : Stepped y (plan y c) [] := by
  unfold Clients.plan
  split
  · next job hphase =>
    have hj : (y.phase c).job? = some job := by rw [hphase]; rfl
    have hchecked := h.phases c
    rw [hphase] at hchecked
    obtain ⟨hok, hlock, hdigest⟩ := hchecked
    split
    · next stored plan hplan =>
      refine .advance c job _ hj rfl ⟨hok, hlock, hdigest, ?_⟩
      obtain ⟨d, vp, -, hread, -⟩ := Request.plan_eq_ok hplan
      rw [← Request.plan_eq_planOn (readStored_eq_ok hread).1 hok.id_eq]
      exact hplan
    · exact .release c job hj
  · exact .stay

theorem apply (h : Steady y) : Stepped y (apply y c).1 (apply y c).2 := by
  unfold Clients.apply
  split
  · next job stored plan hphase =>
    have hj : (y.phase c).job? = some job := by rw [hphase]; rfl
    have hplanned := h.phases c
    rw [hphase] at hplanned
    obtain ⟨hok, hlock, hdigest, hplan⟩ := hplanned
    cases ht : job.request.target with
    | error e =>
      have hsame : (job.request.apply y.store stored plan).2 = y.store := by
        rw [Request.apply, ht]
      simp only [hsame]
      exact .release c job hj
    | ok target =>
      obtain ⟨d, vp⟩ := target
      obtain rfl : d = job.doc := Except.ok.inj ((Request.target_eq_ok ht).1.symm.trans hok.id_eq)
      rcases @Request.apply_cases _ y.store job.doc vp job.request stored plan ht (Request.planOn_text hplan) with
        ⟨e, he⟩ | ⟨hdone, hfits⟩
      · simp only [he]
        exact .release c job hj
      · simp only [hdone]
        exact .wrote ⟨c, job, vp, stored, plan, y.store.now⟩
          ⟨hphase, hlock, hok.carried, ht, hok.seen, hdigest, hplan, hfits, rfl⟩
  · exact .stay

theorem of_step (h : Steady y) (move : Move) : Stepped y (step y move).1 (step y move).2 := by
  cases move with
  | env env => exact .meet env
  | vmlist vms => exact .vmlist vms
  | get c id view formatName comments acl => exact get ..
  | lock c request => exact lock h request
  | assertExists c => exact assertExists h
  | check c => exact check h
  | plan c => exact plan h
  | apply c => exact apply h

/-! ### What a step leaves -/

variable {y' : System} {acks : List Ack}

theorem steady (h : Steady y) (hs : Stepped y y' acks) : Steady y' := by
  cases hs with
  | stay => exact h
  | meet env => exact h.meet env
  | vmlist vms => exact ⟨h.phases, h.held⟩
  | read c seen hidle hok => exact h.setPhase hok fun job hj => by cases hj
  | acquire c job hok hfree hepoch => exact h.acquire hok hfree
  | advance c job phase hj hj' hok => exact h.advance hj hj' hok
  | release c job hj => exact h.release hj
  | wrote a ha => exact h.written ha

/-- A step leaves the files of the documents, or it is the write of one plan, which is acknowledged. -/
theorem own (hs : Stepped y y' acks) : (acks = [] ∧ y'.store.own = y.store.own) ∨
    ∃ a, Acked y a ∧ acks = [a] ∧ y'.store.own = a.apply y.store.own := by
  cases hs with
  | wrote a ha =>
    refine Or.inr ⟨a, ha, rfl, funext fun d => ?_⟩
    by_cases hd : d = a.job.doc
    · subst hd
      rw [Ack.apply_self, Ack.file, ha.now_eq]
      exact Change.own_apply
    · rw [Ack.apply_ne hd]
      exact Change.own_apply_ne hd
  | _ => exact Or.inl ⟨rfl, rfl⟩

theorem packaged (hs : Stepped y y' acks) : y'.store.packaged = y.store.packaged := by
  cases hs with
  | wrote a ha => exact funext fun d => Change.packaged_apply
  | _ => rfl

theorem epoch (hs : Stepped y y' acks) : y'.epoch = y.epoch := by cases hs <;> rfl

/-- No client's step takes a hook's lock from it. -/
theorem holder_hook {lock : String} (h : Steady y) (hs : Stepped y y' acks) (hl : y.holder lock = some .hook) :
    y'.holder lock = some .hook := by
  have hne : ∀ {c job}, (y.phase c).job? = some job → lock ≠ job.lock := by
    rintro c job hj rfl
    rw [h.held c job hj] at hl
    cases hl
  cases hs with
  | acquire c job hok hfree hepoch =>
    have hne : lock ≠ job.lock := by
      rintro rfl
      rw [hfree] at hl
      cases hl
    rwa [System.holder_acquire_ne hne]
  | release c job hj => rwa [System.holder_release_ne (hne hj)]
  | wrote a ha =>
    have hj : (y.phase a.client).job? = some a.job := by rw [ha.phase]; rfl
    rwa [System.holder_written, System.holder_release_ne (hne hj)]
  | _ => exact hl

/-- A write under way was so before the step, or it has just taken its lock. -/
theorem of_job (hs : Stepped y y' acks) (hj : (y'.phase c).job? = some job) :
    (y.phase c).job? = some job ∨ job.epoch = y.epoch := by
  have hrelease : ∀ {c' job'}, ((y.release c' job').phase c).job? = some job → (y.phase c).job? = some job := by
    intro c' job' hj
    by_cases hc : c = c'
    · rw [hc, System.phase_release_self] at hj
      cases hj
    · rwa [System.phase_release_ne hc] at hj
  cases hs with
  | stay => exact Or.inl hj
  | meet env => exact Or.inl hj
  | vmlist vms => exact Or.inl hj
  | read c' seen hidle hok =>
    by_cases hc : c = c'
    · rw [hc, System.phase_setPhase_self] at hj
      cases hj
    · rw [System.phase_setPhase_ne hc] at hj
      exact Or.inl hj
  | acquire c' job' hok hfree hepoch =>
    by_cases hc : c = c'
    · rw [hc, System.phase_acquire_self] at hj
      cases hj
      exact Or.inr hepoch
    · rw [System.phase_acquire_ne hc] at hj
      exact Or.inl hj
  | advance c' job' phase hold hnew hok =>
    by_cases hc : c = c'
    · rw [hc, System.phase_setPhase_self, hnew] at hj
      cases hj
      exact Or.inl (hc ▸ hold)
    · rw [System.phase_setPhase_ne hc] at hj
      exact Or.inl hj
  | release c' job' hold => exact Or.inl (hrelease hj)
  | wrote a ha => exact Or.inl (hrelease hj)

end Stepped

end

/-! ### Moves in a row -/

def root : CallerAcl := ⟨"root@pam", true, true, [], none⟩

/-- Client `c` writes, from the lock to the end. -/
def writes (c : Nat) (request : Request) : List Move := [.lock c request, .assertExists c, .check c, .plan c, .apply c]

end Clients
end PveMeta
