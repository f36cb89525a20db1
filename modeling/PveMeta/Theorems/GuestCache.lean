import PveMeta.Guest.Daemon
import PveMeta.Guest.Sample
import PveMeta.Theorems.Reads

/-! # The files that the daemon keeps

The digest of a document and its files are read one after the other, and the files are then kept under the digest. They are
those of the content it is of, unless the document was written in between. -/

namespace PveMeta
namespace Guest
open MetaStore

section Cache

variable [Deps] [RustDebug] {s : MetaStore} {vmid v : UInt32} {vmids : List UInt32} {stores : Nat → MetaStore} {k : Nat}
  {wanted next left : Wanted} {digest : Option String} {files : GuestFiles} {content content' : Option File}

/-! ### A document's files -/

/-- A store with nothing but a guest's document. -/
def aloneIn (vmid : UInt32) (content : Option File) : MetaStore :=
  ⟨(content.map fun f => (FsPath.root (fileName (.guest vmid)), f)).toList, 0, none, none, none, 0⟩

/-- The files that a document of this content asks for. -/
def filesOf (vmid : UInt32) (content : Option File) : Except String GuestFiles := readGuestFiles (aloneIn vmid content) vmid

omit [Deps] [RustDebug] in
theorem content_aloneIn : (aloneIn vmid content).content (.guest vmid) = content := by
  rw [content_guest]
  cases content with
  | none => rfl
  | some f =>
    show Assoc.get? _ [(_, f)] = some f
    rw [Assoc.get?_cons]
    exact if_pos rfl

theorem readGuestFiles_of_readable (h : s.Readable) : readGuestFiles s vmid = filesOf vmid (s.content (.guest vmid)) := by
  have hread : s.read (.guest vmid) = (aloneIn vmid (s.content (.guest vmid))).read (.guest vmid) := by
    rw [read_of_readable h, read_of_readable (s := aloneIn vmid (s.content (.guest vmid))) ⟨rfl, rfl⟩, content_aloneIn]
    rfl
  rw [filesOf, readGuestFiles, hread]
  rfl

theorem readable_of_readGuestFiles (h : readGuestFiles s vmid = .ok files) : s.Readable := by
  by_contra hnot
  rcases read_of_not_readable hnot (.guest vmid) with ⟨why, hwhy⟩ | ⟨why, hwhy⟩
  · rw [readGuestFiles, hwhy] at h
    cases h
  · rw [readGuestFiles, hwhy] at h
    cases h

theorem filesOf_of_readGuestFiles (h : readGuestFiles s vmid = .ok files) :
    filesOf vmid (s.content (.guest vmid)) = .ok files := by
  rw [← readGuestFiles_of_readable (readable_of_readGuestFiles h)]
  exact h

/-- The files depend on the bytes alone. -/
theorem filesOf_congr (h : content.map File.bytes = content'.map File.bytes) :
    filesOf vmid content = filesOf vmid content' := by
  cases content with
  | none =>
    cases content' with
    | none => rfl
    | some f' => cases h
  | some f =>
    cases content' with
    | none => cases h
    | some f' =>
      obtain ⟨bytes, mtime⟩ := f
      obtain ⟨bytes', mtime'⟩ := f'
      cases h
      simp only [filesOf, readGuestFiles]
      rw [read_of_readable (s := aloneIn vmid (some ⟨bytes, mtime⟩)) ⟨rfl, rfl⟩,
        read_of_readable (s := aloneIn vmid (some ⟨bytes, mtime'⟩)) ⟨rfl, rfl⟩, content_aloneIn, content_aloneIn]
      simp only [parseDocument]
      cases checkReadSize bytes.size with
      | error e => rfl
      | ok _ =>
        cases hraw : Text.decode? bytes with
        | none => rfl
        | some raw =>
          cases hparse : diskFormat.parseRaw raw with
          | error e => simp only [Except.ok_bind, hparse]; rfl
          | ok tree => simp only [Except.ok_bind, hparse]; rfl

/-! ### The reads of a poll -/

/-- The digest of a document of this content, which the files are kept under. -/
def docDigest (content : Option File) : Option String := content.map identityOf

/-- A document that is read again has other files than at its digest, the `k`-th read of the store finding it as `stores
    k`. -/
def Torn (stores : Nat → MetaStore) : List UInt32 → Nat → Wanted → Prop
  | [], _, _ => False
  | vmid :: vmids, k, wanted =>
    match cached (docDigest ((stores k).content (.guest vmid))) (wanted vmid) with
    | some _ => Torn stores vmids (k + 1) (Function.update wanted vmid none)
    | none =>
      filesOf vmid ((stores k).content (.guest vmid)) ≠ filesOf vmid ((stores (k + 1)).content (.guest vmid)) ∨
        Torn stores vmids (k + 2) (Function.update wanted vmid none)

/-- What one entry of the poll's result comes from. -/
inductive ReadFrom (stores : Nat → MetaStore) (wanted : Wanted) (v : UInt32) (digest : Option String)
    (files : GuestFiles) : Prop
  | kept (j : Nat) (hdigest : docDigest ((stores j).content (.guest v)) = digest) (hkept : wanted v = some (digest, files))
  | read (j : Nat) (hdigest : docDigest ((stores j).content (.guest v)) = digest)
      (hfiles : filesOf v ((stores (j + 1)).content (.guest v)) = .ok files)

omit [RustDebug] in
theorem cached_eq_some {old : Option (Option String × GuestFiles)} (h : cached digest old = some files) :
    old = some (digest, files) := by
  unfold cached at h
  split at h
  · split at h
    · next heq =>
      cases h
      rw [heq]
    · cases h
  · cases h

/-- The step of a poll's reads: a document whose digest is read, and that is kept or read. -/
theorem readAll_cons (h : (readAll stores (vmid :: vmids) k wanted).1 = .ok next) :
    ∃ files rest, next = Function.update rest vmid (some (docDigest ((stores k).content (.guest vmid)), files)) ∧
      ((cached (docDigest ((stores k).content (.guest vmid))) (wanted vmid) = some files ∧
          (readAll stores vmids (k + 1) (Function.update wanted vmid none)).1 = .ok rest) ∨
        (cached (docDigest ((stores k).content (.guest vmid))) (wanted vmid) = none ∧
          filesOf vmid ((stores (k + 1)).content (.guest vmid)) = .ok files ∧
          (readAll stores vmids (k + 2) (Function.update wanted vmid none)).1 = .ok rest)) := by
  unfold readAll at h
  split at h
  · cases h
  · next digest hdigest =>
    have hread := readable_of_digestOf hdigest
    rw [digestOf_of_readable hread] at hdigest
    cases hdigest
    dsimp only at h
    split at h
    · next files hcached =>
      obtain ⟨rest, hrest, hnext⟩ := Except.map_eq_ok.mp h
      exact ⟨files, rest, hnext.symm, Or.inl ⟨hcached, hrest⟩⟩
    · next hcached =>
      split at h
      · cases h
      · next files hfiles =>
        obtain ⟨rest, hrest, hnext⟩ := Except.map_eq_ok.mp h
        exact ⟨files, rest, hnext.symm, Or.inr ⟨hcached, filesOf_of_readGuestFiles hfiles, hrest⟩⟩

/-- What is kept for one container only is what was kept for it. -/
theorem ReadFrom.of_update (h : ReadFrom stores (Function.update wanted vmid none) v digest files) :
    ReadFrom stores wanted v digest files := by
  cases h with
  | read j hdigest hfiles => exact .read j hdigest hfiles
  | kept j hdigest hkept =>
    refine .kept j hdigest ?_
    by_cases hv : v = vmid
    · rw [hv, Function.update_self] at hkept
      cases hkept
    · rwa [Function.update_of_ne hv] at hkept

/-- Every document has an entry, which is the one that was kept or was read. -/
theorem readAll_spec (h : (readAll stores vmids k wanted).1 = .ok next) :
    (∀ v ∈ vmids, ∃ digest files, next v = some (digest, files)) ∧
      ∀ v digest files, next v = some (digest, files) → v ∈ vmids ∧ ReadFrom stores wanted v digest files := by
  induction vmids generalizing k wanted next with
  | nil =>
    cases h
    refine ⟨fun v hv => absurd hv List.not_mem_nil, ?_⟩
    rintro v digest files ⟨⟩
  | cons vmid vmids ih =>
    obtain ⟨files, rest, rfl, hcases⟩ := readAll_cons h
    have hrest : ∃ k', (readAll stores vmids k' (Function.update wanted vmid none)).1 = .ok rest := by
      rcases hcases with ⟨-, hrest⟩ | ⟨-, -, hrest⟩
      · exact ⟨_, hrest⟩
      · exact ⟨_, hrest⟩
    obtain ⟨k', hrest⟩ := hrest
    obtain ⟨hall, hfrom⟩ := ih hrest
    constructor
    · intro v hv
      by_cases heq : v = vmid
      · exact ⟨_, _, by rw [heq, Function.update_self]⟩
      · rw [Function.update_of_ne heq]
        exact hall v ((List.mem_cons.mp hv).resolve_left heq)
    · intro v digest files' hnext
      by_cases heq : v = vmid
      · subst heq
        rw [Function.update_self, Option.some.injEq, Prod.mk.injEq] at hnext
        obtain ⟨rfl, rfl⟩ := hnext
        refine ⟨List.mem_cons_self, ?_⟩
        rcases hcases with ⟨hcached, -⟩ | ⟨-, hfiles, -⟩
        · exact .kept k rfl (cached_eq_some hcached)
        · exact .read k rfl hfiles
      · rw [Function.update_of_ne heq] at hnext
        obtain ⟨hv, hread⟩ := hfrom v digest files' hnext
        exact ⟨List.mem_cons_of_mem _ hv, hread.of_update⟩

/-! ### What is kept under a digest -/

/-- Among these contents, a digest is of one content. -/
def Distinct (C : Option File → Prop) : Prop :=
  ∀ c c', C c → C c' → docDigest c = docDigest c' → c.map File.bytes = c'.map File.bytes

/-- The files that are kept under a digest are those of the content whose digest it is. -/
def Consistent (C : Option File → Prop) (wanted : Wanted) : Prop :=
  ∀ v digest files, wanted v = some (digest, files) → ∀ c, C c → docDigest c = digest → filesOf v c = .ok files

variable {C : Option File → Prop}

theorem Consistent.forget (h : Consistent C wanted) (vmid : UInt32) : Consistent C (Function.update wanted vmid none) := by
  intro v digest files hv
  by_cases heq : v = vmid
  · rw [heq, Function.update_self] at hv
    cases hv
  · rw [Function.update_of_ne heq] at hv
    exact h v digest files hv

theorem Consistent.put (h : Consistent C wanted) (hfiles : ∀ c, C c → docDigest c = digest → filesOf vmid c = .ok files) :
    Consistent C (Function.update wanted vmid (some (digest, files))) := by
  intro v digest' files' hv
  by_cases heq : v = vmid
  · subst heq
    rw [Function.update_self, Option.some.injEq, Prod.mk.injEq] at hv
    obtain ⟨rfl, rfl⟩ := hv
    exact hfiles
  · rw [Function.update_of_ne heq] at hv
    exact h v digest' files' hv

/-- Reads that nothing is written between keep the cache consistent. -/
theorem Consistent.readAll (hdistinct : Distinct C) (hC : ∀ j v, C ((stores j).content (.guest v)))
    (h : Consistent C wanted)
    (hread : (readAll stores vmids k wanted).1 = .ok next) (hwhole : ¬ Torn stores vmids k wanted) : Consistent C next := by
  induction vmids generalizing k wanted next with
  | nil =>
    cases hread
    rintro v digest files ⟨⟩
  | cons vmid vmids ih =>
    obtain ⟨files, rest, rfl, hcases⟩ := readAll_cons hread
    unfold Torn at hwhole
    rcases hcases with ⟨hcached, hrest⟩ | ⟨hcached, hfiles, hrest⟩
    · rw [hcached] at hwhole
      exact (ih (h.forget vmid) hrest hwhole).put (h vmid _ _ (cached_eq_some hcached))
    · rw [hcached] at hwhole
      obtain ⟨hsame, hwhole⟩ := not_or.mp hwhole
      refine (ih (h.forget vmid) hrest hwhole).put fun c hc hdigest => ?_
      rw [filesOf_congr (hdistinct _ _ hc (hC k vmid) hdigest), not_not.mp hsame]
      exact hfiles

/-- A document that is written between its two reads makes it inconsistent. -/
theorem not_consistent_of_torn (hC : ∀ j v, C ((stores j).content (.guest v))) (hnodup : vmids.Nodup)
    (hread : (readAll stores vmids k wanted).1 = .ok next) (htorn : Torn stores vmids k wanted) : ¬ Consistent C next := by
  induction vmids generalizing k wanted next with
  | nil => exact htorn.elim
  | cons vmid vmids ih =>
    obtain ⟨hvmid, hnodup⟩ := List.nodup_cons.mp hnodup
    obtain ⟨files, rest, rfl, hcases⟩ := readAll_cons hread
    intro hnext
    have hrest' : ∀ k', (Guest.readAll stores vmids k' (Function.update wanted vmid none)).1 = .ok rest →
        Consistent C rest := by
      intro k' hrest v digest files' hv
      have hne : v ≠ vmid := fun heq => hvmid (heq ▸ ((readAll_spec hrest).2 v digest files' hv).1)
      exact hnext v digest files' (by rwa [Function.update_of_ne hne])
    unfold Torn at htorn
    rcases hcases with ⟨hcached, hrest⟩ | ⟨hcached, hfiles, hrest⟩
    · rw [hcached] at htorn
      exact ih hnodup hrest htorn (hrest' _ hrest)
    · rw [hcached] at htorn
      rcases htorn with hne | htorn
      · exact hne ((hnext vmid _ _ (Function.update_self ..) _ (hC k vmid) rfl).trans hfiles.symm)
      · exact ih hnodup hrest htorn (hrest' _ hrest)

/-! ### A poll -/

omit [Deps] [RustDebug] in
theorem localTo_nodup (node : String) (vmlist : VmList) : (localTo node vmlist).Nodup := by
  have hkeys : (vmlist.entries.map Prod.fst).Nodup := by
    refine List.Nodup.of_map UInt32.toNat ?_
    rw [List.map_map]
    exact vmlist.sorted.imp fun hlt => Nat.ne_of_lt hlt
  exact hkeys.sublist (List.filter_sublist.map _)

/-- What is left of the files that were kept was kept. -/
theorem readAll_left {x : Option String × GuestFiles} (h : (readAll stores vmids k wanted).2 v = some x) :
    wanted v = some x := by
  induction vmids generalizing k wanted with
  | nil => exact h
  | cons vmid vmids ih =>
    have hforget : Function.update wanted vmid none v = some x → wanted v = some x := by
      intro hx
      by_cases heq : v = vmid
      · rw [heq, Function.update_self] at hx
        cases hx
      · rwa [Function.update_of_ne heq] at hx
    unfold readAll at h
    split at h
    · exact h
    · dsimp only at h
      split at h
      · exact hforget (ih h)
      · split at h
        · exact hforget h
        · exact hforget (ih h)

variable [Serde] {h : Host} {node : String} {timing : Timing} {p : Found}

/-- The poll can read everything, and this is what the documents ask for. -/
structure Completes (h : Host) (node : String) (p : Found) (vmlist : VmList) (active : UInt32 → Option UInt64)
    (next : Wanted) :
    Prop where
  listed : p.vmlist = .ok vmlist
  running : p.active = .ok active
  read : (readAll p.stores (localTo node vmlist) 0 h.daemon.wanted).1 = .ok next

theorem Completes.tick {vmlist : VmList} {active : UInt32 → Option UInt64} (hp : Completes h node p vmlist active next) :
    h.tick node timing p =
      Host.serveAll { h with daemon := h.daemon.retain (localTo node vmlist) next } timing p active
        (localTo node vmlist) := by
  have hread : readAll p.stores (localTo node vmlist) 0 h.daemon.wanted =
      (.ok next, (readAll p.stores (localTo node vmlist) 0 h.daemon.wanted).2) := Prod.ext hp.read rfl
  rw [Host.tick, hp.listed, hp.running]
  dsimp only
  rw [hread]

/-- A poll that does not complete loses some of the files that are kept, and nothing else happens. -/
theorem tick_of_not_completes (timing : Timing) (hp : ¬ ∃ vmlist active next, Completes h node p vmlist active next) :
    ∃ left, h.tick node timing p = { h with daemon := { h.daemon with wanted := left } } ∧
      ∀ v x, left v = some x → h.daemon.wanted v = some x := by
  unfold Host.tick
  split
  · next vmlist active hvmlist hactive =>
    dsimp only
    split
    · next e left hread =>
      refine ⟨left, rfl, fun v x hx => ?_⟩
      have hx : (readAll p.stores (localTo node vmlist) 0 h.daemon.wanted).2 v = some x := by rwa [hread]
      exact readAll_left hx
    · next next left hread => exact absurd ⟨vmlist, active, next, hvmlist, hactive, by rw [hread]⟩ hp
  · exact ⟨h.daemon.wanted, rfl, fun _ _ hx => hx⟩

theorem wanted_sync (active : UInt32 → Option UInt64) (vmid : UInt32) :
    (h.sync timing p active vmid).2.daemon.wanted = h.daemon.wanted := by
  unfold Host.sync
  split <;> rfl

theorem wanted_serve (active : UInt32 → Option UInt64) (entry : Reason × UInt32) :
    (Host.serve timing p active h entry).daemon.wanted = h.daemon.wanted := by
  unfold Host.serve
  dsimp only
  split
  · exact wanted_sync active entry.2
  · exact wanted_sync active entry.2

theorem wanted_foldl_serve (active : UInt32 → Option UInt64) (entries : List (Reason × UInt32)) :
    (entries.foldl (Host.serve timing p active) h).daemon.wanted = h.daemon.wanted := by
  induction entries generalizing h with
  | nil => rfl
  | cons entry entries ih => exact ih.trans (wanted_serve active entry)

/-- Nothing but the reads changes the files that are kept. -/
theorem wanted_tick {vmlist : VmList} {active : UInt32 → Option UInt64} (hp : Completes h node p vmlist active next) :
    (h.tick node timing p).daemon.wanted = next := by
  rw [hp.tick, Host.serveAll]
  exact wanted_foldl_serve active _

/-! ### Every run -/

/-- The daemon of a node, poll after poll. -/
def Host.run (node : String) (timing : Timing) (polls : List Found) (h : Host) : Host :=
  polls.foldl (fun h p => h.tick node timing p) h

/-- A poll that can read everything, and finds a document written between its digest and its content. -/
def TornAt (h : Host) (node : String) (p : Found) : Prop :=
  ∃ vmlist active next, Completes h node p vmlist active next ∧ Torn p.stores (localTo node vmlist) 0 h.daemon.wanted

/-- What is kept can be trusted: under a digest are the files of the content whose digest it is; and a poll that can read
    everything, while a document stays as it is, wants the files of what is stored. -/
structure Trusted (C : Option File → Prop) (h : Host) : Prop where
  cache : Consistent C h.daemon.wanted
  settled : ∀ node timing p vmlist active next, Completes h node p vmlist active next →
    ∀ v ∈ localTo node vmlist, ∀ c, C c →
    (∀ k, (p.stores k).content (.guest v) = c) →
    ∃ files, filesOf v c = .ok files ∧ (h.tick node timing p).daemon.wanted v = some (docDigest c, files)

theorem Consistent.trusted (hcache : Consistent C h.daemon.wanted) : Trusted C h := by
  refine ⟨hcache, fun node timing p vmlist active next hp v hv c hc hstays => ?_⟩
  obtain ⟨hall, hfrom⟩ := readAll_spec hp.read
  obtain ⟨digest, files, hnext⟩ := hall v hv
  rw [wanted_tick hp, hnext]
  cases (hfrom v digest files hnext).2 with
  | kept j hdigest hkept =>
    rw [hstays j] at hdigest
    exact ⟨files, hcache v digest files hkept c hc hdigest, by rw [hdigest]⟩
  | read j hdigest hfiles =>
    rw [hstays j] at hdigest
    rw [hstays (j + 1)] at hfiles
    exact ⟨files, hfiles, by rw [hdigest]⟩

theorem Consistent.tick (hdistinct : Distinct C) (hC : ∀ k v, C ((p.stores k).content (.guest v)))
    (hcache : Consistent C h.daemon.wanted) (hwhole : ¬ TornAt h node p) :
      Consistent C (h.tick node timing p).daemon.wanted := by
  by_cases hp : ∃ vmlist active next, Completes h node p vmlist active next
  · obtain ⟨vmlist, active, next, hp⟩ := hp
    rw [wanted_tick hp]
    exact hcache.readAll hdistinct hC hp.read fun htorn => hwhole ⟨vmlist, active, next, hp, htorn⟩
  · obtain ⟨left, htick, hleft⟩ := tick_of_not_completes timing hp
    rw [htick]
    exact fun v digest files hv => hcache v digest files (hleft v _ hv)

theorem not_consistent_tick (hC : ∀ k v, C ((p.stores k).content (.guest v))) (htorn : TornAt h node p) :
    ¬ Consistent C (h.tick node timing p).daemon.wanted := by
  obtain ⟨vmlist, active, next, hp, htorn⟩ := htorn
  rw [wanted_tick hp]
  exact not_consistent_of_torn hC (localTo_nodup node vmlist) hp.read htorn

omit [Serde] in
theorem consistent_default : Consistent C Daemon.default.wanted := by
  rintro v digest files ⟨⟩

/-- What the daemon keeps can be trusted in every state it reaches if and only if no poll finds a document written between
    its digest and its content, so that its files are others. -/
theorem trusted_iff (hdistinct : Distinct C) (node : String) (timing : Timing) (guests : UInt32 → World)
    (polls : List Found) (hC : ∀ p ∈ polls, ∀ k v, C ((p.stores k).content (.guest v))) :
    (∀ before rest, polls = before ++ rest → Trusted C (Host.run node timing before ⟨.default, guests, []⟩)) ↔
      ∀ before p rest, polls = before ++ p :: rest →
        ¬ TornAt (Host.run node timing before ⟨.default, guests, []⟩) node p := by
  have hstep : ∀ before (p : Found), Host.run node timing (before ++ [p]) ⟨.default, guests, []⟩ =
      (Host.run node timing before ⟨.default, guests, []⟩).tick node timing p := fun before p => List.foldl_concat ..
  constructor
  · rintro h before p rest rfl htorn
    have hnext := (h (before ++ [p]) rest (by simp)).cache
    rw [hstep] at hnext
    exact not_consistent_tick (hC p (by simp)) htorn hnext
  · intro h before
    induction before using List.reverseRecOn with
    | nil => exact fun _ _ => consistent_default.trusted
    | append_singleton before p ih =>
      intro rest hrest
      rw [List.append_assoc, List.singleton_append] at hrest
      have hbefore := (ih (p :: rest) hrest).cache
      rw [hstep]
      exact (hbefore.tick hdistinct (hC p (by rw [hrest]; simp)) (h before p rest hrest)).trusted

end Cache

/-! ### A document that is damaged for a moment -/

section
open Sample GuestSample

/-- Contents below the read cap. -/
def Small (content : Option File) : Prop := ∀ f, content = some f → f.bytes.size ≤ maxReadBytes

theorem distinct_small : Distinct Small := by
  intro c c' hc hc' hdigest
  cases c with
  | none =>
    cases c' with
    | none => rfl
    | some f' => cases hdigest
  | some f =>
    cases c' with
    | none => cases hdigest
    | some f' =>
      have hid : identityOf f = identityOf f' := Option.some.inj hdigest
      rw [identityOf_of_le (hc f rfl), identityOf_of_le (hc' f' rfl)] at hid
      exact congrArg some (sha256Hex_injective hid)

def sound : MetaStore := storeOf [(101, "a: 1\n".toList)]

def damaged : MetaStore := storeOf [(101, "a: [\n".toList)]

/-- A poll of the node of one container, which is stopped. -/
def samplePoll (stores : Nat → MetaStore) : Found where
  now := 0
  vmlist := .ok ⟨[(101, ⟨"pve1", .lxc⟩)], List.pairwise_singleton _ _⟩
  active := .ok fun _ => none
  stores := stores
  containerLock _ := .ok none
  guestLock _ := .ok true
  turns _ := []

def sampleHost : Host := ⟨.default, fun _ => World.start guest, []⟩

/-- What a document that does not parse asks for. -/
def heldFiles : GuestFiles := .held "the document does not parse: failed to parse yaml document: not a sample"

/-- The document is damaged after the first read, which is that of its digest. -/
def tornStores (k : Nat) : MetaStore := if k = 0 then sound else damaged

/-- Its files are then kept under the digest of the sound one. -/
def heldUnder : Wanted := Function.update (fun _ => none) 101 (some (docDigest (sound.content (.guest 101)), heldFiles))

theorem completes_torn :
    Completes sampleHost "pve1" (samplePoll tornStores) ⟨[(101, ⟨"pve1", .lxc⟩)], List.pairwise_singleton _ _⟩
    (fun _ => none) heldUnder := ⟨rfl, rfl, rfl⟩

theorem small_content {text : String} (htext : Text.byteLen text.toList ≤ maxReadBytes) (v : UInt32) :
    Small ((storeOf [(101, text.toList)]).content (.guest v)) := by
  intro f hf
  rw [content_guest] at hf
  have hmem := Assoc.mem_of_get? hf
  rw [show (storeOf [(101, text.toList)]).files = [(_, ⟨Text.encode text.toList, 0⟩)] from rfl, List.mem_singleton] at hmem
  obtain ⟨-, rfl⟩ := Prod.mk.inj hmem
  rw [Text.size_encode]
  exact htext

theorem small_torn (k : Nat) (v : UInt32) : Small ((tornStores k).content (.guest v)) := by
  unfold tornStores
  split
  · exact small_content (by decide) v
  · exact small_content (by decide) v

/-- The document is sound again at the next poll and stays so, and what a sync wants are the files of the damaged one. -/
theorem damage_is_trusted : Distinct Small ∧ (∀ k v, Small ((tornStores k).content (.guest v))) ∧
    Small (sound.content (.guest 101)) ∧ filesOf 101 (sound.content (.guest 101)) = .ok .nothing ∧
    (Host.run "pve1" {} [samplePoll tornStores, samplePoll fun _ => sound] sampleHost).daemon.wanted 101 =
      some (docDigest (sound.content (.guest 101)), heldFiles) ∧
    ¬ Trusted Small (Host.run "pve1" {} [samplePoll tornStores] sampleHost) := by
  have hfirst : (Host.run "pve1" {} [samplePoll tornStores] sampleHost).daemon.wanted = heldUnder :=
    wanted_tick completes_torn
  have hsecond : Completes (Host.run "pve1" {} [samplePoll tornStores] sampleHost) "pve1" (samplePoll fun _ => sound)
      ⟨[(101, ⟨"pve1", .lxc⟩)], List.pairwise_singleton _ _⟩ (fun _ => none) heldUnder := by
    refine ⟨rfl, rfl, ?_⟩
    rw [hfirst]
    rfl
  refine ⟨distinct_small, small_torn, small_content (by decide) 101, rfl, ?_, fun htrusted => ?_⟩
  · have hwanted :
      ((Host.run "pve1" {} [samplePoll tornStores] sampleHost).tick "pve1" {} (samplePoll fun _ => sound)).daemon.wanted =
        heldUnder := wanted_tick hsecond
    exact congrFun hwanted 101
  · have hfiles := htrusted.cache 101 _ heldFiles (congrFun hfirst 101) _ (small_content (by decide) 101) rfl
    cases hfiles

/-- Between the polls the document is damaged and made good again, but not while it is read. -/
def quietPolls : List Found := [samplePoll fun _ => sound, samplePoll fun _ => damaged, samplePoll fun _ => sound]

theorem not_torn_of_still {store : MetaStore} {vmids : List UInt32} {k : Nat} {wanted : Wanted} :
    ¬ Torn (fun _ => store) vmids k wanted := by
  induction vmids generalizing k wanted with
  | nil => exact id
  | cons vmid vmids ih =>
    rw [Torn]
    split
    · exact ih
    · exact not_or.mpr ⟨not_not.mpr rfl, ih⟩

theorem trusted_iff_sound :
    ((∀ before rest, quietPolls = before ++ rest → Trusted Small (Host.run "pve1" {} before sampleHost)) ↔
      ∀ before p rest, quietPolls = before ++ p :: rest → ¬ TornAt (Host.run "pve1" {} before sampleHost) "pve1" p) ∧
    ∀ before rest, quietPolls = before ++ rest → Trusted Small (Host.run "pve1" {} before sampleHost) := by
  have hsmall : ∀ p ∈ quietPolls, ∀ k v, Small ((p.stores k).content (.guest v)) := by
    intro p hp k v
    simp only [quietPolls, List.mem_cons, List.not_mem_nil, or_false] at hp
    rcases hp with rfl | rfl | rfl <;> exact small_content (by decide) v
  have hiff := trusted_iff distinct_small "pve1" {} (fun _ => World.start guest) quietPolls hsmall
  refine ⟨hiff, hiff.mpr ?_⟩
  rintro before p rest hpolls ⟨vmlist, active, next, -, htorn⟩
  have hp : p ∈ quietPolls := hpolls ▸ List.mem_append_right _ List.mem_cons_self
  simp only [quietPolls, List.mem_cons, List.not_mem_nil, or_false] at hp
  rcases hp with rfl | rfl | rfl <;> exact not_torn_of_still htorn

end

end Guest
end PveMeta
