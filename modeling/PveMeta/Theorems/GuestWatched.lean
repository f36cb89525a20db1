import PveMeta.Guest.Cluster
import PveMeta.Theorems.GuestAlone
import PveMeta.Theorems.GuestCache

/-! # Files that a document leaves behind

A container whose document lost its key is watched by what its node's daemon remembers of the last sync. That is all it
takes, as long as it is remembered. -/

namespace PveMeta
namespace Guest

section Watched

variable [Deps] [RustDebug] [Serde] {files : GuestFiles} {force : Bool} {w w' : World} {h h' : Host} {timing : Timing}
    {p : Found}
  {active : UInt32 → Option UInt64} {v vmid : UInt32} {digest : Option String}

/-! ### What a sync reports -/

/-- The manifest in the guest has records. -/
def World.recorded (w : World) : Bool := ! (manifestAt (w.fs manifestPath)).isEmpty

omit [Deps] in
theorem recorded_congr (hsame : w'.fs manifestPath = w.fs manifestPath) : w'.recorded = w.recorded := by
  rw [World.recorded, World.recorded, hsame]

omit [Deps] [RustDebug] [Serde] in
theorem keyed_of_isEmpty {m : Manifest} (h : m.isEmpty = true) : m.Keyed := by
  intro q r hr
  rw [SortedMap.get?_of_isEmpty h] at hr
  cases hr

/-- A sync that gets through reports the records that it leaves. -/
theorem hasRecords_of_sync (hserde : Manifest.SerdeReads) {report : Report} (h : sync files force w = (.ok report, w'))
    (hrecorded : w'.recorded = true) : report.hasRecords = true := by
  have hnot : ∀ m : Manifest, manifestAt (w'.fs manifestPath) = m → m.isEmpty = false := by
    rintro m rfl
    exact Bool.not_eq_true' _ |>.mp hrecorded
  simp only [sync, Calls.sync, World.calls_inspect, World.calls_commit, World.calls_saveManifest] at h
  split at h
  · cases h
  · next ins w₁ hins =>
    obtain ⟨nodes, -, hold, hplan, hlooked⟩ := inspect_eq_ok hins
    split at h
    · split at h
      · cases h
      · next outcomes w₂ hcommit =>
        obtain ⟨hacts, -⟩ := commit_plan hplan hcommit
        split at h
        · cases h
        · next w₃ hsave =>
          cases h
          dsimp only
          rw [Bool.not_eq_true']
          rcases saveManifest_leaves (ne_manifestPath_of_left hplan) hsave with ⟨hsame, rfl⟩ | hwritten | ⟨hstays, hleads⟩
          · rw [hsame]
            exact hnot _ (by rw [hold, hacts.manifest, hlooked.acts.manifest])
          · by_contra hempty
            refine hempty (hnot _ ?_)
            rw [hwritten, manifestAt_render hserde (keyed_of_isEmpty ((Bool.not_eq_false _).mp hempty))]
          · cases hnot .empty (by rw [hstays, manifestAt_of_leads hleads])
    · cases h
      dsimp only
      rw [Bool.not_eq_true']
      exact hnot _ (by rw [hold, hlooked.acts.manifest])

/-! ### What a poll does to one container -/

/-- A container that is not synced: nothing becomes of it, and of what is remembered the sync stays. -/
structure Passed (h h' : Host) (v : UInt32) : Prop where
  guest : h'.guests v = h.guests v
  digest : (h'.daemon.memos v).map Memo.digest = (h.daemon.memos v).map Memo.digest
  watched : (h'.daemon.memos v).map Memo.watched = (h.daemon.memos v).map Memo.watched
  synced : v ∈ h'.synced ↔ v ∈ h.synced

/-- A container that is synced: it is remembered of which document, and that it has records. -/
structure Served (h : Host) (v : UInt32) (digest : Option String) : Prop where
  synced : v ∈ h.synced
  memo : ∃ m, h.daemon.memos v = some m ∧ m.digest = digest ∧ ((h.guests v).recorded = true → m.watched = true)

omit [RustDebug] [Serde] in
theorem Passed.refl (h : Host) (v : UInt32) : Passed h h v := ⟨rfl, rfl, rfl, .rfl⟩

omit [RustDebug] [Serde] in
theorem Passed.trans {h₁ : Host} (hfirst : Passed h h₁ v) (hrest : Passed h₁ h' v) : Passed h h' v :=
  ⟨hrest.guest.trans hfirst.guest, hrest.digest.trans hfirst.digest, hrest.watched.trans hfirst.watched,
    hrest.synced.trans hfirst.synced⟩

omit [RustDebug] [Serde] in
theorem Passed.memo {m : Memo} (hpassed : Passed h h' v) (hm : h.daemon.memos v = some m) :
    ∃ m', h'.daemon.memos v = some m' ∧ m'.digest = m.digest ∧ m'.watched = m.watched := by
  have hdigest := hpassed.digest
  have hwatched := hpassed.watched
  rw [hm] at hdigest hwatched
  obtain ⟨m', hm', hdigest⟩ := Option.map_eq_some_iff.mp hdigest
  rw [hm', Option.map_some, Option.map_some, Option.some_inj] at hwatched
  exact ⟨m', hm', hdigest, hwatched⟩

theorem Served.passed (hserved : Served h v digest) (hpassed : Passed h h' v) : Served h' v digest := by
  obtain ⟨hsynced, m, hm, hdigest, hwatched⟩ := hserved
  obtain ⟨m', hm', hdigest', hwatched'⟩ := hpassed.memo hm
  refine ⟨hpassed.synced.mpr hsynced, m', hm', hdigest'.trans hdigest, fun hrecorded => ?_⟩
  rw [hwatched', hwatched (hpassed.guest ▸ hrecorded)]

/-- A container that may be synced: its document has the key, or it is watched. -/
def Worth (h : Host) (v : UInt32) : Prop :=
  ∃ digest files, h.daemon.wanted v = some (digest, files) ∧
    (files.hasGuestFilesKey = true ∨ (h.daemon.memos v).any Memo.watched = true)

omit [RustDebug] [Serde] in
theorem Worth.passed (hworth : Worth h v) (hwanted : h'.daemon.wanted = h.daemon.wanted) (hpassed : Passed h h' v) :
    Worth h' v := by
  have hany : ∀ memo : Option Memo, memo.any Memo.watched = (memo.map Memo.watched).any id := by
    intro memo
    cases memo <;> rfl
  obtain ⟨digest, files, hfiles, hworth⟩ := hworth
  refine ⟨digest, files, by rw [hwanted, hfiles], ?_⟩
  rwa [hany, hpassed.watched, ← hany]

/-- A container is tried again at the next poll, or synced. -/
theorem host_sync_cases (h : Host) (timing : Timing) (p : Found) (active : UInt32 → Option UInt64) (vmid : UInt32) :
    h.sync timing p active vmid = (false, h) ∨
      ∃ digest files result guest, h.daemon.wanted vmid = some (digest, files) ∧
        Guest.sync files false { h.guests vmid with turns := p.turns vmid } = (result, guest) ∧
        h.sync timing p active vmid =
          (true, ⟨h.daemon.modifyMemo vmid (Memo.synced timing p.now digest files result),
            Function.update h.guests vmid guest, h.synced ++ [vmid]⟩) := by
  unfold Host.sync
  split
  · next hstatus hlock hwanted => exact .inr ⟨_, _, _, _, hwanted, rfl, rfl⟩
  · exact .inl rfl

theorem serve_cases (h : Host) (timing : Timing) (p : Found) (active : UInt32 → Option UInt64) (entry : Reason × UInt32) :
    Host.serve timing p active h entry = h ∨
      ∃ digest files result guest, h.daemon.wanted entry.2 = some (digest, files) ∧
        Guest.sync files false { h.guests entry.2 with turns := p.turns entry.2 } = (result, guest) ∧
        Host.serve timing p active h entry =
          ⟨(h.daemon.modifyMemo entry.2 (Memo.synced timing p.now digest files result)).modifyMemo entry.2
              fun m => { m with inode := active entry.2 },
            Function.update h.guests entry.2 guest, h.synced ++ [entry.2]⟩ := by
  rcases host_sync_cases h timing p active entry.2 with heq | ⟨digest, files, result, guest, hwanted, hsync, heq⟩
  · refine .inl ?_
    rw [Host.serve, heq]
    rfl
  · refine .inr ⟨digest, files, result, guest, hwanted, hsync, ?_⟩
    rw [Host.serve, heq]
    rfl

theorem serve_other {entry : Reason × UInt32} (hne : v ≠ entry.2) : Passed h (Host.serve timing p active h entry) v := by
  rcases serve_cases h timing p active entry with heq | ⟨digest, files, result, guest, -, -, heq⟩
  · rw [heq]
    exact .refl h v
  · rw [heq]
    refine ⟨Function.update_of_ne hne _ _, ?_, ?_, by simp [hne]⟩
    · simp [Daemon.modifyMemo, hne]
    · simp [Daemon.modifyMemo, hne]

theorem serve_self (hserde : Manifest.SerdeReads) {entry : Reason × UInt32} (hworth : Worth h entry.2) :
    Passed h (Host.serve timing p active h entry) entry.2 ∨
      ∀ digest files, h.daemon.wanted entry.2 = some (digest, files) →
        Served (Host.serve timing p active h entry) entry.2 digest := by
  rcases serve_cases h timing p active entry with heq | ⟨digest', files, result, guest, hwanted, hsync, heq⟩
  · rw [heq]
    exact .inl (.refl h entry.2)
  · obtain ⟨digest, files', hfiles, hworth⟩ := hworth
    cases hwanted.symm.trans hfiles
    rw [heq]
    refine .inr fun digest' files' hwanted' => ?_
    cases hwanted.symm.trans hwanted'
    refine ⟨List.mem_append_right _ (List.mem_singleton_self _), ?_⟩
    cases result with
    | error e =>
      refine ⟨_, Function.update_self _ _ _, by simp [Daemon.modifyMemo, Memo.synced], fun _ => ?_⟩
      simp only [Daemon.modifyMemo, Memo.synced, Function.update_self, Option.getD_some, Bool.or_eq_true]
      refine hworth.symm.imp_left fun hany => ?_
      cases hmemo : h.daemon.memos entry.2 with
      | none =>
        rw [hmemo] at hany
        cases hany
      | some m => rwa [hmemo] at hany
    | ok report =>
      refine ⟨_, Function.update_self _ _ _, by simp [Daemon.modifyMemo, Memo.synced], fun hrecorded => ?_⟩
      have hrecorded : (Function.update h.guests entry.2 guest entry.2).recorded = true := hrecorded
      rw [Function.update_self] at hrecorded
      simpa [Daemon.modifyMemo, Memo.synced] using hasRecords_of_sync hserde hsync hrecorded

/-- The queue is served: what is not in it is passed, what is in it is passed or synced. -/
theorem foldl_serve (hserde : Manifest.SerdeReads) (timing : Timing) (p : Found) (active : UInt32 → Option UInt64)
    {entries : List (Reason × UInt32)} (hnodup : (entries.map Prod.snd).Nodup)
    (hworth : ∀ entry ∈ entries, Worth h entry.2) (v : UInt32) :
    Passed h (entries.foldl (Host.serve timing p active) h) v ∨
      v ∈ entries.map Prod.snd ∧ ∀ digest files, h.daemon.wanted v = some (digest, files) →
        Served (entries.foldl (Host.serve timing p active) h) v digest := by
  induction entries generalizing h with
  | nil => exact .inl (.refl h v)
  | cons entry entries ih =>
    obtain ⟨hentry, hnodup⟩ := List.nodup_cons.mp hnodup
    have hwanted : (Host.serve timing p active h entry).daemon.wanted = h.daemon.wanted := wanted_serve active entry
    have hrest : ∀ e ∈ entries, Worth (Host.serve timing p active h entry) e.2 := by
      intro e he
      have hne : e.2 ≠ entry.2 := fun heq => hentry (heq ▸ List.mem_map_of_mem he)
      exact (hworth e (List.mem_cons_of_mem _ he)).passed hwanted (serve_other hne)
    rw [List.foldl_cons, List.map_cons]
    by_cases hv : v = entry.2
    · subst hv
      have hpassed := (ih hnodup hrest).resolve_right fun hserved => hentry hserved.1
      rcases serve_self hserde (hworth entry List.mem_cons_self) with hfirst | hserved
      · exact .inl (hfirst.trans hpassed)
      · exact .inr ⟨List.mem_cons_self, fun digest files hfiles => (hserved digest files hfiles).passed hpassed⟩
    · rcases ih hnodup hrest with hpassed | ⟨hmem, hserved⟩
      · exact .inl ((serve_other hv).trans hpassed)
      · exact .inr ⟨List.mem_cons_of_mem _ hmem, fun digest files hfiles => hserved digest files (by rw [hwanted, hfiles])⟩

omit [RustDebug] [Serde] in
/-- The queue holds the containers that are due. -/
theorem mem_queue {d : Daemon} {now : Nat} {vmids : List UInt32} {reason : Reason} :
    (reason, v) ∈ d.queue active now vmids ↔ v ∈ vmids ∧ d.reason active now v = some reason := by
  rw [Daemon.queue, List.mem_mergeSort, List.mem_filterMap]
  simp only [Option.map_eq_some_iff, Prod.mk.injEq]
  constructor
  · rintro ⟨v', hv', reason', hreason, rfl, rfl⟩
    exact ⟨hv', hreason⟩
  · rintro ⟨hv, hreason⟩
    exact ⟨v, hv, reason, hreason, rfl, rfl⟩

omit [RustDebug] [Serde] in
theorem queue_nodup (d : Daemon) (active : UInt32 → Option UInt64) (now : Nat) {vmids : List UInt32}
    (hnodup : vmids.Nodup) :
    ((d.queue active now vmids).map Prod.snd).Nodup := by
  refine ((List.mergeSort_perm _ _).map Prod.snd).nodup_iff.mpr ?_
  rw [List.map_filterMap]
  refine hnodup.filterMap fun v v' x hx hx' => ?_
  simp only [Option.mem_def, Option.map_map, Option.map_eq_some_iff, Function.comp_apply] at hx hx'
  obtain ⟨-, -, rfl⟩ := hx
  obtain ⟨-, -, rfl⟩ := hx'
  rfl

omit [RustDebug] [Serde] in
theorem queue_singleton {d : Daemon} {now : Nat} {reason : Reason} (h : d.reason active now v = some reason) :
    d.queue active now [v] = [(reason, v)] := by
  simp [Daemon.queue, h]

omit [Deps] [RustDebug] [Serde] in
/-- What is due may be synced. -/
theorem due_eq_some {memo : Option Memo} {inode : Option UInt64} {key : Bool} {now : Nat} {reason : Reason}
    (hdue : due memo inode digest key now = some reason) : key = true ∨ memo.any Memo.watched = true := by
  unfold due at hdue
  split at hdue
  · cases hdue
  · split at hdue
    · cases hdue
    · next hworth =>
      simpa [or_iff_not_imp_left] using hworth

omit [RustDebug] [Serde] in
theorem worth_of_mem_queue {now : Nat} {vmids : List UInt32} {entry : Reason × UInt32}
    (hentry : entry ∈ h.daemon.queue active now vmids) : Worth h entry.2 := by
  obtain ⟨-, hreason⟩ := mem_queue.mp hentry
  obtain ⟨⟨digest, files⟩, hwanted, hdue⟩ := Option.bind_eq_some_iff.mp hreason
  exact ⟨digest, files, hwanted, due_eq_some hdue⟩

omit [RustDebug] [Serde] in
theorem passed_seen (h : Host) (active : UInt32 → Option UInt64) (now : Nat) (vmids : List UInt32) (v : UInt32) :
    Passed h { h with daemon := h.daemon.seen active now vmids } v := by
  refine ⟨rfl, ?_, ?_, .rfl⟩
  · dsimp only [Daemon.seen]
    split
    · rw [Option.map_map]
      rfl
    · rfl
  · dsimp only [Daemon.seen]
    split
    · rw [Option.map_map]
      rfl
    · rfl

/-- The containers are served once every document was read. -/
theorem serveAll_spec (hserde : Manifest.SerdeReads) {vmids : List UInt32} (hnodup : vmids.Nodup) (v : UInt32) :
    Passed h (h.serveAll timing p active vmids) v ∨
      v ∈ vmids ∧ ∀ digest files, h.daemon.wanted v = some (digest, files) →
        Served (h.serveAll timing p active vmids) v digest := by
  have hseen := passed_seen h active p.now vmids
  have hworth : ∀ entry ∈ h.daemon.queue active p.now vmids,
      Worth { h with daemon := h.daemon.seen active p.now vmids } entry.2 :=
    fun entry hentry => (worth_of_mem_queue hentry).passed rfl (hseen entry.2)
  rcases foldl_serve hserde timing p active (queue_nodup _ active p.now hnodup) hworth v with
    hpassed | ⟨hmem, hserved⟩
  · exact .inl ((hseen v).trans hpassed)
  · obtain ⟨entry, hentry, rfl⟩ := List.mem_map.mp hmem
    exact .inr ⟨(mem_queue.mp hentry).1, hserved⟩

/-- What a poll does to a container: it passes it; or it drops what it remembers of it, where that is on another node; or it
    syncs it, with the document that it has read. -/
theorem tick_spec (hserde : Manifest.SerdeReads) (h : Host) (timing : Timing) {node : String} {vmlist : VmList}
    (hvmlist : ∀ l, p.vmlist = .ok l → l = vmlist) (v : UInt32) :
    Passed h (h.tick node timing p) v ∨
      (v ∉ localTo node vmlist ∧ (h.tick node timing p).guests v = h.guests v ∧
        (v ∈ (h.tick node timing p).synced ↔ v ∈ h.synced)) ∨
      v ∈ localTo node vmlist ∧ ∃ k, Served (h.tick node timing p) v (docDigest ((p.stores k).content (.guest v))) := by
  by_cases hp : ∃ vmlist active next, Completes h node p vmlist active next
  · obtain ⟨vmlist', active, next, hp⟩ := hp
    obtain rfl := hvmlist vmlist' hp.listed
    rw [hp.tick]
    have hspec :=
      @serveAll_spec _ _ _ { h with daemon := h.daemon.retain (localTo node vmlist') next } timing p active hserde
      (localTo node vmlist') (localTo_nodup node vmlist') v
    by_cases hv : v ∈ localTo node vmlist'
    · have hretain : Passed h { h with daemon := h.daemon.retain (localTo node vmlist') next } v := by
        have hmemo : (h.daemon.retain (localTo node vmlist') next).memos v = h.daemon.memos v :=
          if_pos (List.contains_iff_mem.mpr hv)
        exact ⟨rfl, congrArg _ hmemo, congrArg _ hmemo, .rfl⟩
      rcases hspec with hpassed | ⟨-, hserved⟩
      · exact .inl (hretain.trans hpassed)
      · obtain ⟨hall, hfrom⟩ := readAll_spec hp.read
        obtain ⟨digest, files, hnext⟩ := hall v hv
        have hserved := hserved digest files hnext
        refine .inr (.inr ⟨hv, ?_⟩)
        cases (hfrom v digest files hnext).2 with
        | kept k hdigest _ => exact ⟨k, hdigest ▸ hserved⟩
        | read k hdigest _ => exact ⟨k, hdigest ▸ hserved⟩
    · have hpassed := hspec.resolve_right fun hserved => hv hserved.1
      exact .inr (.inl ⟨hv, hpassed.guest, hpassed.synced⟩)
  · obtain ⟨left, htick, -⟩ := tick_of_not_completes timing hp
    rw [htick]
    exact .inl ⟨rfl, rfl, rfl, .rfl⟩

/-! ### Where a container is -/

section

omit [Deps] [RustDebug] [Serde]

variable {l : VmList} {node node' : String}

theorem mem_localTo : v ∈ localTo node l ↔ ∃ g, (v, g) ∈ l.entries ∧ g.node = node ∧ g.kind = .lxc := by
  simp only [localTo, List.mem_map, List.mem_filter, Bool.and_eq_true, beq_iff_eq, decide_eq_true_eq]
  constructor
  · rintro ⟨⟨v', g⟩, ⟨hmem, hnode, hkind⟩, rfl⟩
    exact ⟨g, hmem, hnode, hkind⟩
  · rintro ⟨g, hmem, hnode, hkind⟩
    exact ⟨(v, g), ⟨hmem, hnode, hkind⟩, rfl⟩

/-- A container is on one node. -/
theorem node_unique (h : v ∈ localTo node l) (h' : v ∈ localTo node' l) : node = node' := by
  obtain ⟨g, hmem, rfl, -⟩ := mem_localTo.mp h
  obtain ⟨g', hmem', rfl, -⟩ := mem_localTo.mp h'
  have hnodup : (l.entries.map fun e => e.1.toNat).Nodup := l.sorted.imp fun hlt => Nat.ne_of_lt hlt
  cases List.inj_on_of_nodup_map hnodup hmem hmem' rfl
  rfl

theorem mem_localTo_of_migrate (hne : v ≠ vmid) (h : v ∈ localTo node (l.migrate vmid node')) : v ∈ localTo node l := by
  obtain ⟨g, hmem, hnode, hkind⟩ := mem_localTo.mp h
  obtain ⟨e, he, heq⟩ := List.mem_map.mp hmem
  split at heq
  · next hvmid =>
    cases heq
    exact absurd hvmid hne
  · cases heq
    exact mem_localTo.mpr ⟨g, he, hnode, hkind⟩

end

/-! ### The history of a cluster -/

/-- The document is there without the key, or is not there. -/
def keyless (store : MetaStore) (vmid : UInt32) : Bool :=
  match filesOf vmid (store.content (.guest vmid)) with
  | .ok files => ! files.hasGuestFilesKey
  | .error _ => false

omit [Serde] in
theorem Completes.active_eq {c : Cluster} {node : String} {view : View} {next : Wanted}
    (hp : Completes (c.host node) node (c.pollOf node view) c.vmlist active next) (hv : v ∈ localTo node c.vmlist) :
    active v = c.running v := by
  obtain ⟨-, -, rfl⟩ := Except.map_eq_ok.mp hp.running
  exact if_pos (List.contains_iff_mem.mpr hv)

namespace Cluster

/-- The manifest in the guest has records, and the document has no key. -/
def orphaned (c : Cluster) (vmid : UInt32) : Bool := (c.guests vmid).recorded && keyless c.store vmid

theorem orphaned_congr {c c' : Cluster} (hmanifest : (c'.guests v).fs manifestPath = (c.guests v).fs manifestPath)
    (hstore : c'.store = c.store) : c'.orphaned v = c.orphaned v := by
  rw [orphaned, orphaned, recorded_congr hmanifest, hstore]

/-- The containers that are synced. -/
def syncedAt (c : Cluster) (timing : Timing) : Cluster.Event → List UInt32
  | .poll node view => (c.polled timing node view).synced
  | _ => []

end Cluster

/-- A cluster, and what was synced. -/
structure History where
  cluster : Cluster
  /-- The digest of the document at a container's last sync, by the daemon of its node and since that runs and the container
      is there -/
  last : UInt32 → Option (Option String)
  /-- The container was synced since it is orphaned -/
  settled : UInt32 → Bool

namespace History

def start (c : Cluster) : History := ⟨c, fun _ => none, fun _ => false⟩

def lastAfter (h : History) (timing : Timing) : Cluster.Event → UInt32 → Option (Option String)
  | .restart node, vmid => if (localTo node h.cluster.vmlist).contains vmid then none else h.last vmid
  | .migrate moved _ _, vmid => if vmid = moved then none else h.last vmid
  | .poll node view, vmid =>
    if (h.cluster.polled timing node view).synced.contains vmid then some
      (docDigest (h.cluster.store.content (.guest vmid)))
    else h.last vmid
  | _, vmid => h.last vmid

def step (timing : Timing) (h : History) (e : Cluster.Event) : History where
  cluster := h.cluster.step timing e
  last := h.lastAfter timing e
  settled vmid := (h.cluster.step timing e).orphaned vmid &&
    ((h.cluster.syncedAt timing e).contains vmid || h.cluster.orphaned vmid && h.settled vmid)

def run (timing : Timing) (h : History) (events : List Cluster.Event) : History := events.foldl (step timing) h

/-- A poll that can read everything finds every local container due that runs, is unlocked and orphaned, and was not synced
    since. -/
def NoneAbandoned (h : History) : Prop :=
  ∀ node view active next, Completes (h.cluster.host node) node (h.cluster.pollOf node view) h.cluster.vmlist active next →
    ∀ vmid ∈ localTo node h.cluster.vmlist, h.cluster.running vmid ≠ none → h.cluster.lock vmid = none →
      h.cluster.orphaned vmid = true → h.settled vmid = false →
        ∃ reason, (reason, vmid) ∈ ((h.cluster.daemon node).retain (localTo node h.cluster.vmlist) next).queue active
          view.now
          (localTo node h.cluster.vmlist)

/-- What keeps a container watched: it is orphaned by the documents only while its daemon remembers a sync of it, of another
    document; and what is remembered is not lost before it is synced. -/
def Careful (h : History) : Cluster.Event → Prop
  | .documents store => ∀ node, ∀ vmid ∈ localTo node h.cluster.vmlist,
    (h.cluster.guests vmid).recorded = true → keyless store vmid = true →
      ¬ (h.cluster.orphaned vmid = true ∧ h.settled vmid = true) →
        ∃ digest, h.last vmid = some digest ∧ digest ≠ docDigest (store.content (.guest vmid))
  | .migrate vmid _ _ => h.cluster.orphaned vmid = true → h.settled vmid = true
  | .restart node => ∀ vmid ∈ localTo node h.cluster.vmlist, h.cluster.orphaned vmid = true → h.settled vmid = true
  | _ => True

/-- What is remembered of a container that is local to a node, and that an orphaned one waits for its sync. -/
structure Watched (h : History) : Prop where
  memo : ∀ node, ∀ vmid ∈ localTo node h.cluster.vmlist, ∀ digest, h.last vmid = some digest →
    ∃ m, (h.cluster.daemon node).memos vmid = some m ∧ m.digest = digest ∧
      ((h.cluster.guests vmid).recorded = true → m.watched = true)
  waits : ∀ node, ∀ vmid ∈ localTo node h.cluster.vmlist, h.cluster.orphaned vmid = true → h.settled vmid = false →
    ∃ digest, h.last vmid = some digest ∧ digest ≠ docDigest (h.cluster.store.content (.guest vmid))

/-! ### Every run -/

variable {hist : History} {e : Cluster.Event}

/-- An orphaned container that is not settled was not synced just now, and not before if it was orphaned. -/
theorem unsettled (horphaned : (hist.step timing e).cluster.orphaned v = true)
    (hsettled : (hist.step timing e).settled v = false) :
    v ∉ hist.cluster.syncedAt timing e ∧ (hist.cluster.orphaned v = true → hist.settled v = false) := by
  have hnow : (hist.cluster.step timing e).orphaned v = true := horphaned
  simp only [History.step, hnow, Bool.true_and, Bool.or_eq_false_iff] at hsettled
  obtain ⟨hsynced, hbefore⟩ := hsettled
  refine ⟨fun hmem => ?_, fun horphaned => by rwa [horphaned, Bool.true_and] at hbefore⟩
  rw [List.contains_iff_mem.mpr hmem] at hsynced
  cases hsynced

theorem settled_eq_false (hsynced : v ∉ hist.cluster.syncedAt timing e) (hbefore : hist.cluster.orphaned v = false) :
    (hist.step timing e).settled v = false := by
  simp [History.step, hsynced, hbefore]

/-- What a poll does to a container of the cluster. -/
theorem polled_spec (hserde : Manifest.SerdeReads) (c : Cluster) (timing : Timing) (node : String) (view : View)
    (v : UInt32) :
    (v ∉ (c.polled timing node view).synced ∧ (c.polled timing node view).guests v = c.guests v ∧
        (v ∈ localTo node c.vmlist → Passed (c.host node) (c.polled timing node view) v)) ∨
      v ∈ localTo node c.vmlist ∧ Served (c.polled timing node view) v (docDigest (c.store.content (.guest v))) := by
  have hvmlist : ∀ l, (c.pollOf node view).vmlist = .ok l → l = c.vmlist := by
    intro l hl
    obtain ⟨-, -, rfl⟩ := Except.map_eq_ok.mp hl
    rfl
  have hnone : v ∉ (c.host node).synced := List.not_mem_nil
  rcases tick_spec hserde (c.host node) timing hvmlist v with hpassed | ⟨hv, hguest, hsynced⟩ | ⟨hv, k, hserved⟩
  · exact .inl ⟨fun h => hnone (hpassed.synced.mp h), hpassed.guest, fun _ => hpassed⟩
  · exact .inl ⟨fun h => hnone (hsynced.mp h), hguest, fun h => absurd h hv⟩
  · exact .inr ⟨hv, hserved⟩

theorem Watched.poll (hserde : Manifest.SerdeReads) (hw : hist.Watched) (node : String) (view : View) :
    (hist.step timing (.poll node view)).Watched := by
  have hlast : ∀ v, v ∉ (hist.cluster.polled timing node view).synced →
      (hist.step timing (.poll node view)).last v = hist.last v :=
    fun v hv => if_neg fun hcontains => hv (List.contains_iff_mem.mp hcontains)
  constructor
  · intro node' v hv digest hdigest
    have hspec := polled_spec hserde hist.cluster timing node view v
    by_cases hnode : node' = node
    · subst hnode
      have hdaemon : (hist.step timing (.poll node' view)).cluster.daemon node' =
          (hist.cluster.polled timing node' view).daemon := Function.update_self _ _ _
      rw [hdaemon]
      rcases hspec with ⟨hnone, hguest, hpassed⟩ | ⟨-, hserved⟩
      · rw [hlast v hnone] at hdigest
        obtain ⟨m, hm, hmdigest, hwatched⟩ := hw.memo node' v hv digest hdigest
        obtain ⟨m', hm', hdigest', hwatched'⟩ := (hpassed hv).memo hm
        refine ⟨m', hm', hdigest'.trans hmdigest, fun hrecorded => ?_⟩
        rw [hwatched']
        exact hwatched (hguest ▸ hrecorded)
      · have hnow : (hist.step timing (.poll node' view)).last v =
            some (docDigest (hist.cluster.store.content (.guest v))) :=
          if_pos (List.contains_iff_mem.mpr hserved.synced)
        cases hnow.symm.trans hdigest
        exact hserved.memo
    · have helsewhere : v ∉ localTo node hist.cluster.vmlist := fun h => hnode (node_unique hv h)
      obtain ⟨hnone, hguest, -⟩ := hspec.resolve_right fun h => helsewhere h.1
      have hdaemon : (hist.step timing (.poll node view)).cluster.daemon node' = hist.cluster.daemon node' :=
        Function.update_of_ne hnode _ _
      rw [hlast v hnone] at hdigest
      rw [hdaemon]
      have hsame : (hist.step timing (.poll node view)).cluster.guests v = hist.cluster.guests v := hguest
      rw [hsame]
      exact hw.memo node' v hv digest hdigest
  · intro node' v hv horphaned hsettled
    obtain ⟨hnone, hbefore⟩ := unsettled horphaned hsettled
    rw [hlast v hnone]
    have hguest : (hist.cluster.polled timing node view).guests v = hist.cluster.guests v := by
      rcases polled_spec hserde hist.cluster timing node view v with ⟨-, hguest, -⟩ | ⟨-, hserved⟩
      · exact hguest
      · exact absurd hserved.synced hnone
    have hsame : (hist.step timing (.poll node view)).cluster.orphaned v = hist.cluster.orphaned v :=
      Cluster.orphaned_congr (congrArg (fun w : World => w.fs manifestPath) hguest) rfl
    rw [hsame] at horphaned
    exact hw.waits node' v hv horphaned (hbefore horphaned)

theorem Watched.step (hserde : Manifest.SerdeReads) (hw : hist.Watched) (hcareful : hist.Careful e) :
    (hist.step timing e).Watched := by
  cases e with
  | documents store =>
    refine ⟨hw.memo, fun node v hv horphaned hsettled => ?_⟩
    obtain ⟨-, hbefore⟩ := unsettled horphaned hsettled
    obtain ⟨hrecorded, hkeyless⟩ := (Bool.and_eq_true _ _).mp horphaned
    refine hcareful node v hv hrecorded hkeyless fun hwas => ?_
    cases hwas.2.symm.trans (hbefore hwas.1)
  | container vmid inode =>
    exact ⟨hw.memo, fun node v hv horphaned hsettled =>
      hw.waits node v hv horphaned ((unsettled horphaned hsettled).2 horphaned)⟩
  | lock vmid lock =>
    exact ⟨hw.memo, fun node v hv horphaned hsettled =>
      hw.waits node v hv horphaned ((unsettled horphaned hsettled).2 horphaned)⟩
  | others vmid fs =>
    have hmanifest : ∀ v, ((hist.step timing (.others vmid fs)).cluster.guests v).fs manifestPath =
        (hist.cluster.guests v).fs manifestPath := by
      intro v
      by_cases hv : v = vmid
      · subst hv
        exact (congrArg (fun w : World => w.fs manifestPath) (Function.update_self _ _ _)).trans (quiet_edit _ fs).manifest
      · exact congrArg (fun w : World => w.fs manifestPath) (Function.update_of_ne hv _ _)
    refine ⟨fun node v hv => ?_, fun node v hv horphaned hsettled => ?_⟩
    · rw [recorded_congr (hmanifest v)]
      exact hw.memo node v hv
    · obtain ⟨-, hbefore⟩ := unsettled horphaned hsettled
      rw [Cluster.orphaned_congr (hmanifest v) rfl] at horphaned
      exact hw.waits node v hv horphaned (hbefore horphaned)
  | migrate vmid node inode =>
    have hlast : ∀ v, v ≠ vmid → (hist.step timing (.migrate vmid node inode)).last v = hist.last v := fun v hv => if_neg hv
    refine ⟨fun node' v hv digest hdigest => ?_, fun node' v hv horphaned hsettled => ?_⟩
    · by_cases hmoved : v = vmid
      · cases (if_pos hmoved).symm.trans hdigest
      · rw [hlast v hmoved] at hdigest
        exact hw.memo node' v (mem_localTo_of_migrate hmoved hv) digest hdigest
    · have hbefore := (unsettled horphaned hsettled).2 horphaned
      have hmoved : v ≠ vmid := by
        rintro rfl
        cases (hcareful horphaned).symm.trans hbefore
      rw [hlast v hmoved]
      exact hw.waits node' v (mem_localTo_of_migrate hmoved hv) horphaned hbefore
  | restart node =>
    have hlast : ∀ v, v ∉ localTo node hist.cluster.vmlist → (hist.step timing (.restart node)).last v = hist.last v :=
      fun v hv => if_neg fun hcontains => hv (List.contains_iff_mem.mp hcontains)
    refine ⟨fun node' v hv digest hdigest => ?_, fun node' v hv horphaned hsettled => ?_⟩
    · have helsewhere : v ∉ localTo node hist.cluster.vmlist := by
        intro hlocal
        cases (if_pos (List.contains_iff_mem.mpr hlocal)).symm.trans hdigest
      have hdaemon : (hist.step timing (.restart node)).cluster.daemon node' = hist.cluster.daemon node' :=
        Function.update_of_ne (fun hnode : node' = node => helsewhere (hnode ▸ hv)) _ _
      rw [hlast v helsewhere] at hdigest
      rw [hdaemon]
      exact hw.memo node' v hv digest hdigest
    · have hbefore := (unsettled horphaned hsettled).2 horphaned
      have helsewhere : v ∉ localTo node hist.cluster.vmlist := fun hlocal => by
        cases (hcareful v hlocal horphaned).symm.trans hbefore
      rw [hlast v helsewhere]
      exact hw.waits node' v hv horphaned hbefore
  | poll node view => exact hw.poll hserde node view

/-- A container whose memo is there and watched is due once its document is another. -/
theorem Watched.noneAbandoned (hw : hist.Watched) : hist.NoneAbandoned := by
  intro node view active next hp vmid hv hrunning _ horphaned hsettled
  obtain ⟨digest, hlast, hne⟩ := hw.waits node vmid hv horphaned hsettled
  obtain ⟨m, hm, rfl, hwatched⟩ := hw.memo node vmid hv digest hlast
  have hm' : ((hist.cluster.daemon node).retain (localTo node hist.cluster.vmlist) next).memos vmid = some m :=
    (if_pos (List.contains_iff_mem.mpr hv)).trans hm
  have hactive : (active vmid).isNone = false := by
    rw [hp.active_eq hv]
    exact Option.isNone_eq_false_iff.mpr (Option.isSome_iff_ne_none.mpr hrunning)
  obtain ⟨hall, hfrom⟩ := readAll_spec hp.read
  obtain ⟨digest, files, hnext⟩ := hall vmid hv
  have hdigest : docDigest (hist.cluster.store.content (.guest vmid)) = digest := by
    cases (hfrom vmid digest files hnext).2 with
    | kept k hdigest _ => exact hdigest
    | read k hdigest _ => exact hdigest
  refine ⟨.changed, mem_queue.mpr ⟨hv, ?_⟩⟩
  rw [Daemon.reason, hm', show Daemon.wanted _ vmid = next vmid from rfl, hnext, Option.bind_some]
  have hrecorded := ((Bool.and_eq_true _ _).mp horphaned).1
  simp [due, hactive, hwatched hrecorded, hdigest ▸ hne]

/-- A container whose memo is lost is not due, and never will be while its document has no key. -/
theorem not_noneAbandoned (node : String) (view : View) (next : Wanted)
    (hp : Completes (hist.cluster.host node) node (hist.cluster.pollOf node view) hist.cluster.vmlist active next)
    (hv : v ∈ localTo node hist.cluster.vmlist) (hrunning : hist.cluster.running v ≠ none)
      (hlock : hist.cluster.lock v = none)
    (horphaned : hist.cluster.orphaned v = true) (hsettled : hist.settled v = false)
    (hlost : (hist.cluster.daemon node).memos v = none)
    (hkeyless : ∀ digest files, next v = some (digest, files) → files.hasGuestFilesKey = false) : ¬ hist.NoneAbandoned := by
  intro h
  obtain ⟨reason, hmem⟩ := h node view active next hp v hv hrunning hlock horphaned hsettled
  obtain ⟨-, hreason⟩ := mem_queue.mp hmem
  obtain ⟨⟨digest, files⟩, hnext, hdue⟩ := Option.bind_eq_some_iff.mp hreason
  have hmemo : ((hist.cluster.daemon node).retain (localTo node hist.cluster.vmlist) next).memos v = none :=
    (if_pos (List.contains_iff_mem.mpr hv)).trans hlost
  rw [hmemo] at hdue
  rcases due_eq_some hdue with hkey | hwatched
  · cases (hkeyless digest files hnext).symm.trans hkey
  · cases hwatched

theorem watched_start {c : Cluster} (hstart : ∀ node, ∀ vmid ∈ localTo node c.vmlist, c.orphaned vmid = false) :
    (History.start c).Watched := by
  refine ⟨?_, fun node vmid hv horphaned => ?_⟩
  · rintro node vmid hv digest ⟨⟩
  · cases (hstart node vmid hv).symm.trans horphaned

/-- A container whose files its document has left behind is due at every poll, in every run from where there is none, as
    long as it is orphaned only while its daemon remembers a sync of it, of another document, and that is not lost before
    it is synced. -/
theorem none_abandoned (hserde : Manifest.SerdeReads) (timing : Timing) (c : Cluster) (events : List Cluster.Event)
    (hstart : ∀ node, ∀ vmid ∈ localTo node c.vmlist, c.orphaned vmid = false)
    (hcareful : ∀ before e rest, events = before ++ e :: rest → ((History.start c).run timing before).Careful e) :
    ∀ before rest, events = before ++ rest → ((History.start c).run timing before).NoneAbandoned := by
  intro before rest heq
  refine Watched.noneAbandoned ?_
  induction before using List.reverseRecOn generalizing rest with
  | nil => exact watched_start hstart
  | append_singleton before e ih =>
    rw [List.append_assoc, List.singleton_append] at heq
    rw [History.run, List.foldl_concat]
    exact (ih (e :: rest) heq).step hserde (hcareful before e rest heq)

end History

end Watched

/-! ### A key that is removed -/

section
open GuestSample

/-- A document with a file `app`, as it is written. -/
def keyedText : Text := "a: |\n  a: 1\nguest-files:\n  app:\n    view: a\n    path: app\n    format: raw\n".toList

def keyedRow : Value := .object [("view", .string "a"), ("path", .string "app"), ("format", .string "raw")]

theorem wf_keyedRow : keyedRow.WF := .object (by decide) (by simp [Value.WF.string])

def keyedDoc : PveMeta.Tree :=
  ⟨.object [("a", .string "a: 1\n"), ("guest-files", .object [("app", keyedRow)])],
    .object (by decide) (by simpa using ⟨Value.WF.string _, Value.WF.object (by decide) (by simpa using wf_keyedRow)⟩)⟩

def scalarAt (line column : Nat) : Except (String × Marker) (PveMeta.Event × Marker) :=
  .ok (.scalar false false, ⟨line, column⟩)

def keyedEvents : List (Except (String × Marker) (PveMeta.Event × Marker)) :=
  [.ok (.mappingStart false false, ⟨1, 0⟩), scalarAt 1 0, scalarAt 1 3, scalarAt 3 0,
    .ok (.mappingStart false false, ⟨4, 2⟩),
    scalarAt 4 2, .ok (.mappingStart false false, ⟨5, 4⟩), scalarAt 5 4, scalarAt 5 10, scalarAt 6 4, scalarAt 6 10,
      scalarAt 7 4,
    scalarAt 7 12, .ok (.mappingEnd, ⟨8, 0⟩), .ok (.mappingEnd, ⟨8, 0⟩), .ok (.mappingEnd, ⟨8, 0⟩)]

/-- The sample, with the document above. -/
local instance keyedDeps : Deps := { Sample.deps with
  yamlFromStr := fun t => if t = keyedText then .ok keyedDoc else Sample.yamlFromStr t
  yamlEvents := fun t => if t = keyedText then keyedEvents else Sample.yamlEvents t }

def withKey : MetaStore := Sample.storeOf [(101, keyedText)]

def withoutKey : MetaStore := Sample.storeOf [(101, "a: 1\n".toList)]

def sampleEntries : List (UInt32 × VmGuest) := [(101, ⟨"pve1", .lxc⟩)]

theorem sorted_sampleEntries : (sampleEntries.map fun e => e.1.toNat).Pairwise (· < ·) := List.pairwise_singleton _ _

/-- A container that runs on the first of two nodes. -/
def sampleCluster : Cluster where
  store := withKey
  vmlist := ⟨sampleEntries, sorted_sampleEntries⟩
  running _ := some 7
  lock _ := none
  guests _ := .start guest
  daemon _ := .default

def sampleView : View where
  now := 0
  vmlist := .ok ()
  active := .ok ()
  containerLock _ := .ok ()
  guestLock _ := .ok true
  turns _ := []

def sampleActive (vmid : UInt32) : Option UInt64 := if [(101 : UInt32)].contains vmid then some 7 else none

def keyedNext : Wanted :=
  Function.update (fun _ => none) 101 (some (docDigest (withKey.content (.guest 101)), .ofDocument keyedDoc.val))

def keylessNext : Wanted :=
  Function.update (fun _ => none) 101 (some (docDigest (withoutKey.content (.guest 101)), .nothing))

/-- The first poll serves the container. -/
def sampleServed : Host :=
  Host.serve {} (sampleCluster.pollOf "pve1" sampleView) sampleActive
    { sampleCluster.host "pve1" with
      daemon := ((sampleCluster.daemon "pve1").retain [101] keyedNext).seen sampleActive 0 [101] } (.changed, 101)

theorem polled_sample : sampleCluster.polled {} "pve1" sampleView = sampleServed := by
  have hp : Completes (sampleCluster.host "pve1") "pve1" (sampleCluster.pollOf "pve1" sampleView) sampleCluster.vmlist
      sampleActive keyedNext := ⟨rfl, rfl, rfl⟩
  have hqueue : ((sampleCluster.daemon "pve1").retain [101] keyedNext).queue sampleActive 0 [101] = [(.changed, 101)] :=
    queue_singleton rfl
  rw [Cluster.polled, hp.tick, Host.serveAll]
  exact congrArg (List.foldl _ _) hqueue

/-- What that leaves as the manifest. -/
def keyedManifest : Manifest :=
  (plan (.ofDocument keyedDoc.val) .empty (probed guest (probePaths (.ofDocument keyedDoc.val) .empty)) false).manifest

theorem keyed_keyedManifest : keyedManifest.Keyed := by
  have hentries : ∀ e ∈ keyedManifest.records.entries, e.2.path = e.1 ∧ e.2.source ≠ [] := by decide +kernel
  exact fun q r hr => hentries (q, r) (SortedMap.mem_entries_iff.mpr hr)

theorem recorded_sample : (sampleServed.guests 101).recorded = true := by
  have hmanifest : (sampleServed.guests 101).fs manifestPath = .file .root Manifest.mode keyedManifest.render := rfl
  rw [World.recorded, hmanifest, manifestAt_render serdeReads keyed_keyedManifest]
  decide +kernel

/-- No container has files of its document's that are left behind when the daemons start. -/
theorem not_orphaned_sample (vmid : UInt32) : sampleCluster.orphaned vmid = false := by
  have hrecorded : (sampleCluster.guests vmid).recorded = false := rfl
  rw [Cluster.orphaned, hrecorded, Bool.false_and]

/-- The key is removed once the daemon has synced the container. -/
theorem orphaned_sample {c : Cluster} (hguests : c.guests = (sampleCluster.polled {} "pve1" sampleView).guests)
    (hstore : c.store = withoutKey) : c.orphaned 101 = true := by
  rw [Cluster.orphaned, hguests, hstore, polled_sample, recorded_sample]
  rfl

theorem keyless_keylessNext (digest : Option String) (files : GuestFiles) (h : keylessNext 101 = some (digest, files)) :
    files.hasGuestFilesKey = false := by
  cases h
  rfl

/-- The daemon is restarted, or the container migrated, before the key is removed: the files stay in the guest. -/
theorem lost_with_the_memo :
    (∀ node, ∀ vmid ∈ localTo node sampleCluster.vmlist, sampleCluster.orphaned vmid = false) ∧
      ¬ ((History.start sampleCluster).run {}
        [.poll "pve1" sampleView, .restart "pve1", .documents withoutKey]).NoneAbandoned ∧
      ¬ ((History.start sampleCluster).run {}
        [.poll "pve1" sampleView, .migrate 101 "pve2" (some 8), .documents withoutKey]).NoneAbandoned := by
  refine ⟨fun _ vmid _ => not_orphaned_sample vmid, ?_, ?_⟩
  · have hsettled : ((History.start sampleCluster).run {}
        [.poll "pve1" sampleView, .restart "pve1", .documents withoutKey]).settled 101 = false :=
      History.settled_eq_false List.not_mem_nil (Bool.and_false _)
    exact History.not_noneAbandoned "pve1" sampleView keylessNext ⟨rfl, rfl, rfl⟩ (by decide +kernel)
      (by rintro ⟨⟩) rfl (orphaned_sample rfl rfl) hsettled rfl keyless_keylessNext
  · have hsettled : ((History.start sampleCluster).run {}
        [.poll "pve1" sampleView, .migrate 101 "pve2" (some 8), .documents withoutKey]).settled 101 = false :=
      History.settled_eq_false List.not_mem_nil (Bool.and_false _)
    exact History.not_noneAbandoned "pve2" sampleView keylessNext ⟨rfl, rfl, rfl⟩ (by decide +kernel)
      (by rintro ⟨⟩) rfl (orphaned_sample rfl rfl) hsettled rfl keyless_keylessNext

/-- The key is removed while the daemon remembers its sync of the container. -/
theorem none_abandoned_sample :
    ((History.start sampleCluster).run {} [.poll "pve1" sampleView, .documents withoutKey]).cluster.orphaned 101 = true ∧
      ((History.start sampleCluster).run {} [.poll "pve1" sampleView, .documents withoutKey]).NoneAbandoned := by
  refine ⟨orphaned_sample rfl rfl, ?_⟩
  refine History.none_abandoned serdeReads {} sampleCluster [.poll "pve1" sampleView, .documents withoutKey]
    (fun _ vmid _ => not_orphaned_sample vmid) (fun before e rest heq => ?_) _ [] (List.append_nil _).symm
  rcases List.cons_eq_append_iff.mp heq with ⟨rfl, hrest⟩ | ⟨before', rfl, heq'⟩
  · cases hrest
    trivial
  · rcases List.cons_eq_append_iff.mp heq' with ⟨rfl, hrest⟩ | ⟨before'', rfl, heq''⟩
    · cases hrest
      rintro node vmid hv - - -
      have hvmid : vmid = 101 := by
        obtain ⟨g, hmem, -, -⟩ := mem_localTo.mp hv
        exact (Prod.mk.inj (List.mem_singleton.mp hmem)).1
      subst hvmid
      refine ⟨docDigest (withKey.content (.guest 101)), if_pos ?_, by decide +kernel⟩
      rw [History.start, polled_sample]
      rfl
    · cases (List.append_eq_nil_iff.mp heq''.symm).2

end

end Guest
end PveMeta
