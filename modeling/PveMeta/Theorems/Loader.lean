import Mathlib.Data.List.Forall2
import Mathlib.Data.List.Nodup
import PveMeta.Loader

/-! # Every panel gets its tabs once

A panel that is built while the list of pages is there has its tabs from the start; one that is built earlier waits, and is
told once. Whichever way they come, a panel's tabs stand behind its own cards, one for each page, and stay. -/

namespace PveMeta
namespace Loader

open ConfigPanel (savedItems origInitComponent insertNodes hasSeam)

/-! ### Places of a list -/

section Places

variable {α β : Type} {l : List α} {f : α → α} {place : β → Nat} {act : β → α → α} {bs : List β}

theorem modify_concat (l : List α) (a : α) (f : α → α) : (l ++ [a]).modify l.length f = l ++ [f a] := by
  induction l with
  | nil => rfl
  | cons b l ih => exact congrArg (b :: ·) ih

theorem length_foldl_modify : (bs.foldl (fun l b => l.modify (place b) (act b)) l).length = l.length := by
  induction bs generalizing l with
  | nil => rfl
  | cons b bs ih => rw [List.foldl_cons, ih, List.length_modify]

/-- Nothing happens where nobody acts. -/
theorem getElem?_foldl_modify_of_notMem {i : Nat} (h : i ∉ bs.map place) :
    (bs.foldl (fun l b => l.modify (place b) (act b)) l)[i]? = l[i]? := by
  induction bs generalizing l with
  | nil => rfl
  | cons b bs ih =>
    rw [List.map_cons, List.mem_cons, not_or] at h
    rw [List.foldl_cons, ih h.2, List.getElem?_modify_ne _ _ (Ne.symm h.1)]

/-- Where one acts, it acts once. -/
theorem getElem?_foldl_modify_of_mem (hnodup : (bs.map place).Nodup) {b : β} (h : b ∈ bs) :
    (bs.foldl (fun l b => l.modify (place b) (act b)) l)[place b]? = l[place b]?.map (act b) := by
  induction bs generalizing l with
  | nil => cases h
  | cons b' bs ih =>
    rw [List.map_cons, List.nodup_cons] at hnodup
    rw [List.foldl_cons]
    rcases List.mem_cons.mp h with rfl | h
    · rw [getElem?_foldl_modify_of_notMem hnodup.1, List.getElem?_modify_eq]
      rfl
    · rw [ih hnodup.2 h, List.getElem?_modify_ne]
      intro heq
      exact hnodup.1 (heq ▸ List.mem_map_of_mem h)

end Places

section Panels

variable [ConfigPanel] {c : Construction} {context : Context} {pages : List PageManifest} {tabs : List TabItem}
  {items : List Card} {b : ConfigPanel.Built} {p : Panel} {s t : Session} {throws : Bool} {i : Nat} {e : Event}

/-! ### The tabs of one panel -/

/-- A page that names the panel's kind. -/
def Names (target : Target) (manifest : PageManifest) : Bool := manifest.targets.contains target.keyword

/-- The component of a tab is made for the panel's own guest or node, as far as its kind has one. -/
def Carries (c : Construction) (target : Target) (config : InstanceConfig) : Prop :=
  match target with
  | .lxc | .qemu => config.vmid = c.selData.bind SelData.vmid ∧ config.node = c.selData.bind SelData.node
  | .node => config.node = c.selData.bind SelData.node
  | .dc => config.dc = some 1

/-- The tab of a page on a panel. -/
structure TabFor (c : Construction) (target : Target) (manifest : PageManifest) (tab : TabItem) : Prop where
  itemId : tab.itemId = "pve-ext-" ++ manifest.id
  xtype : tab.xtype = manifest.xtype
  config : Carries c target tab.instanceConfig

/-- The cards of the panel's own have their ids, and none of them one of the loader's. -/
structure Construction.Plain (c : Construction) : Prop where
  nodup : c.items.Nodup
  foreign : ∀ id ∈ c.items, ∀ page, id ≠ "pve-ext-" ++ page

def Construction.own (c : Construction) : List Card := c.items.map .own

omit [ConfigPanel] in
theorem Construction.itemIds_own (c : Construction) : c.own.map Card.itemId = c.items := by
  rw [Construction.own, List.map_map]
  exact List.map_id _

omit [ConfigPanel] in
/-- The context has the panel's own vmid and node. -/
theorem carries_of_context (h : targetContextFor c = some context) :
    Carries c context.target (buildInstanceConfig context.target context.vars) := by
  obtain ⟨target, -, h⟩ := Option.bind_eq_some_iff.mp h
  cases target with
  | lxc | qemu =>
    dsimp only at h
    split at h
    · cases h
    · cases h
      exact ⟨rfl, rfl⟩
  | node =>
    dsimp only at h
    split at h
    · cases h
    · cases h
      rfl
  | dc =>
    cases h
    rfl

omit [ConfigPanel] in
theorem tabFor_buildTabItems (h : targetContextFor c = some context) :
    List.Forall₂ (TabFor c context.target) (pages.filter (Names context.target)) (buildTabItems context pages) := by
  refine List.forall₂_map_right_iff.mpr (List.forall₂_same.mpr fun manifest _ => ?_)
  exact ⟨rfl, rfl, carries_of_context h⟩

omit [ConfigPanel] in
theorem itemIds_buildTabItems : (buildTabItems context pages).map TabItem.itemId =
    ((pages.filter (Names context.target)).map PageManifest.id).map ("pve-ext-" ++ ·) := by
  rw [buildTabItems, List.map_map, List.map_map]
  rfl

omit [ConfigPanel] in
theorem nodup_buildTabItems (h : (pages.map PageManifest.id).Nodup) :
    ((buildTabItems context pages).map TabItem.itemId).Nodup := by
  rw [itemIds_buildTabItems]
  refine List.Nodup.map ?_ (h.sublist (List.filter_sublist.map _))
  intro x y hxy
  exact String.append_right_inj _ |>.mp hxy

omit [ConfigPanel] in
/-- The panel's own cards are in no tab's way. -/
theorem Construction.Plain.fresh (h : c.Plain) {tab : TabItem} (htab : tab ∈ buildTabItems context pages) :
    tab.itemId ∉ c.own.map Card.itemId := by
  rw [Construction.itemIds_own]
  intro hmem
  obtain ⟨manifest, -, rfl⟩ := List.mem_map.mp htab
  exact h.foreign _ hmem manifest.id rfl

/-! ### The two ways in -/

/-- The tabs have ids of their own, none of which is a card's. -/
structure Fresh (items : List Card) (tabs : List TabItem) : Prop where
  nodup : (tabs.map TabItem.itemId).Nodup
  new : ∀ tab ∈ tabs, tab.itemId ∉ items.map Card.itemId

omit [ConfigPanel] in
theorem fresh_buildTabItems (h : c.Plain) (hids : (pages.map PageManifest.id).Nodup) :
    Fresh c.own (buildTabItems context pages) := ⟨nodup_buildTabItems hids, fun _ => h.fresh⟩

omit [ConfigPanel] in
/-- Once the first tab is a card, the others are still new. -/
theorem Fresh.tail {tab : TabItem} (h : Fresh items (tab :: tabs)) : Fresh (items ++ [.tab tab]) tabs := by
  obtain ⟨hnew, hnodup⟩ := List.nodup_cons.mp h.nodup
  refine ⟨hnodup, fun tab' htab' hmem => ?_⟩
  rw [List.map_append, List.mem_append] at hmem
  rcases hmem with hmem | hmem
  · exact h.new tab' (List.mem_cons_of_mem _ htab') hmem
  · exact hnew ((List.mem_singleton.mp hmem : tab'.itemId = tab.itemId) ▸ List.mem_map_of_mem htab')

omit [ConfigPanel] in
theorem addTabConfigs_eq (h : Fresh items tabs) : addTabConfigs items tabs = items ++ tabs.map .tab := by
  induction tabs generalizing items with
  | nil => exact (List.append_nil items).symm
  | cons tab tabs ih =>
    have hany : (items.any fun it => it.itemId == tab.itemId) = false := by
      refine List.any_eq_false.mpr fun it hit heq => h.new tab List.mem_cons_self ?_
      exact beq_iff_eq.mp heq ▸ List.mem_map_of_mem hit
    simp only [addTabConfigs, hany, Bool.false_eq_true, if_false, ih h.tail, List.append_assoc, List.map_cons,
      List.singleton_append]

theorem savedItems_insertTabs (doc : ConfigPanel.Documented) (h : Fresh (savedItems b) tabs) :
    savedItems (insertTabs b tabs) = savedItems b ++ tabs.map .tab := by
  induction tabs generalizing b with
  | nil => exact (List.append_nil _).symm
  | cons tab tabs ih =>
    have hnew := h.new tab List.mem_cons_self
    obtain ⟨hthrew, hsaved⟩ := doc.inserted b (.tab tab) hnew
    have hstep : insertTabs b (tab :: tabs) = insertTabs (insertNodes b [.tab tab]).1 tabs := by
      simp only [insertTabs, List.contains_eq_mem, hnew, decide_false, Bool.false_eq_true, if_false, hthrew]
    rw [hstep, ih (hsaved ▸ h.tail), hsaved, List.append_assoc, List.map_cons, List.singleton_append]

theorem addTabs_nil (context : Context) (p : Panel) : p.addTabs context [] = p := rfl

theorem made_addTabs : (p.addTabs context pages).made = p.made := by
  unfold Panel.addTabs
  split
  · rfl
  · split
    · rfl
    · split <;> rfl

omit [ConfigPanel] in
theorem nodup_cards (context : Context) (h : c.Plain) (hids : (pages.map PageManifest.id).Nodup) :
    ((c.own ++ (buildTabItems context pages).map Card.tab).map Card.itemId).Nodup := by
  have htabs : ((buildTabItems context pages).map Card.tab).map Card.itemId =
      (buildTabItems context pages).map TabItem.itemId := List.map_map ..
  rw [List.map_append, htabs]
  refine List.nodup_append.mpr ⟨c.itemIds_own ▸ h.nodup, nodup_buildTabItems hids, ?_⟩
  intro id hid _ hmem heq
  obtain ⟨tab, htab, rfl⟩ := List.mem_map.mp hmem
  exact h.fresh htab (heq ▸ hid)

/-- A live panel that is told of the pages shows its own cards, and then a tab for each page. -/
theorem built_addTabs (doc : ConfigPanel.Documented) (context : Context) (hplain : p.made.Plain)
    (hids : (pages.map PageManifest.id).Nodup)
    (hlive : p.destroying = false ∧ p.destroyed = false) (hbuilt : p.built = some b) (hseam : hasSeam b = true)
    (hsaved : savedItems b = p.made.own) : ∃ b', (p.addTabs context pages).built = some b' ∧
      savedItems b' = p.made.own ++ (buildTabItems context pages).map .tab := by
  cases pages with
  | nil => exact ⟨b, hbuilt, by rw [hsaved]; exact (List.append_nil _).symm⟩
  | cons manifest pages =>
    refine ⟨insertTabs b (buildTabItems context (manifest :: pages)), ?_, ?_⟩
    · simp only [Panel.addTabs, List.isEmpty_cons, hlive.1, hlive.2, Bool.or_false, Bool.false_eq_true, if_false, hbuilt,
        hseam, if_true]
    · rw [savedItems_insertTabs doc (hsaved ▸ fresh_buildTabItems hplain hids), hsaved]

/-- One that is gone, or being destroyed, is left alone. -/
theorem addTabs_of_gone (h : ¬ (p.destroying = false ∧ p.destroyed = false)) : p.addTabs context pages = p := by
  have hgone : (pages.isEmpty || p.destroying || p.destroyed) = true := by
    cases hdestroying : p.destroying <;> cases hdestroyed : p.destroyed <;> simp_all
  rw [Panel.addTabs, if_pos hgone]

/-! ### What happens to the session -/

/-- Panels have cards of their own, and the pages of an answer have distinct ids. -/
def Event.Plain : Event → Prop
  | .construct c _ => c.Plain
  | .onload _ (.data pages) => (pages.map PageManifest.id).Nodup
  | .onload .. | .destroying _ | .destroyed _ | .onerror => True

omit [ConfigPanel] in
theorem Event.Plain.nodup_of_pagesOf {status : Nat} {body : Body} (h : (Event.onload status body).Plain)
    (hpages : pagesOf status body = some pages) : (pages.map PageManifest.id).Nodup := by
  cases body with
  | unparsable => cases hpages
  | noData => cases hpages
  | data found =>
    rw [pagesOf] at hpages
    split at hpages
    · exact Option.some.inj hpages ▸ h
    · cases hpages

/-- A panel whose `initComponent` is done, with these cards. -/
def Panel.fresh (c : Construction) (items : List Card) : Panel := ⟨c, items, some (origInitComponent items), false, false⟩

namespace Session

/-- The panels that wait. -/
def waiting (s : Session) : List Nat := s.pagesWaiters.map Waiter.panel

theorem foldl_callWaiter (ws : List Waiter) : ws.foldl (callWaiter pages) s =
    { s with
      panels := ws.foldl (fun panels w => panels.modify w.panel (Panel.addTabs w.context pages)) s.panels
      answered := s.answered ++ ws.map Waiter.panel } := by
  induction ws generalizing s with
  | nil => simp
  | cons w ws ih =>
    rw [List.foldl_cons, ih]
    simp [callWaiter]

theorem notifyPagesWaiters_eq : s.notifyPagesWaiters pages =
    { s with
      pagesWaiters := []
      panels := s.pagesWaiters.foldl (fun panels w => panels.modify w.panel (Panel.addTabs w.context pages)) s.panels
      answered := s.answered ++ s.waiting } := foldl_callWaiter s.pagesWaiters

/-- To be told of no pages changes no panel. -/
theorem foldl_addTabs_nil (ws : List Waiter) (panels : List Panel) :
    ws.foldl (fun panels w => panels.modify w.panel (Panel.addTabs w.context [])) panels = panels := by
  induction ws generalizing panels with
  | nil => rfl
  | cons w ws ih =>
    have hid : Panel.addTabs w.context [] = id := funext (addTabs_nil w.context)
    rw [List.foldl_cons, hid, List.modify_id, ih]

theorem pagesFailed_eq : s.pagesFailed =
    { s with pagesState := .failed, pagesWaiters := [], answered := s.answered ++ s.waiting } := by
  rw [pagesFailed, notifyPagesWaiters_eq, foldl_addTabs_nil]
  rfl

/-! ### A panel is built -/

/-- A panel that is no target. -/
theorem initComponent_other (h : targetContextFor c = none) :
    s.initComponent throws c = { s with panels := s.panels ++ [.fresh c c.own] } := by
  simp only [initComponent, injectTabs, h, modify_concat]
  rfl

/-- The list is there. -/
theorem initComponent_ready (h : targetContextFor c = some context) (hready : s.pagesState = .ready) :
    s.initComponent throws c =
      { s with panels := s.panels ++ [.fresh c (addTabConfigs c.own (buildTabItems context s.pagesList))] } := by
  simp only [initComponent, injectTabs, h, hready, if_true, modify_concat]
  rfl

/-- A request is in flight. -/
theorem initComponent_loading (h : targetContextFor c = some context) (hloading : s.pagesState = .loading) :
    s.initComponent throws c =
      { s with
        pagesWaiters := s.pagesWaiters ++ [⟨s.panels.length, context⟩]
        panels := s.panels ++ [.fresh c c.own] } := by
  simp [initComponent, injectTabs, h, hloading, whenPagesReady, startPagesPrefetch, modify_concat]
  rfl

/-- The last request failed, and the panel sends another. -/
theorem initComponent_asks (h : targetContextFor c = some context) (hfailed : s.pagesState = .failed) :
    s.initComponent false c =
      { s with
        pagesState := .loading
        pagesWaiters := s.pagesWaiters ++ [⟨s.panels.length, context⟩]
        panels := s.panels ++ [.fresh c c.own]
        inFlight := s.inFlight + 1 } := by
  simp [initComponent, injectTabs, h, hfailed, whenPagesReady, startPagesPrefetch, requestPages, modify_concat]
  rfl

/-- The last request failed, and the next one cannot be sent. -/
theorem initComponent_throws (h : targetContextFor c = some context) (hfailed : s.pagesState = .failed) :
    s.initComponent true c =
      { s with
        pagesWaiters := []
        panels := s.panels ++ [.fresh c c.own]
        answered := s.answered ++ (s.waiting ++ [s.panels.length]) } := by
  simp [initComponent, injectTabs, h, hfailed, whenPagesReady, startPagesPrefetch, requestPages, pagesFailed_eq,
    modify_concat, waiting]
  rfl

/-! ### Between two events -/

/-- A request is in flight while the loader waits for one, and only then do panels wait; each is told once at most, and
    until then it holds its own cards. -/
structure Calm (s : Session) : Prop where
  asked : s.pagesState ≠ .idle
  loading : s.inFlight = if s.pagesState = .loading then 1 else 0
  waiters : s.pagesState ≠ .loading → s.pagesWaiters = []
  once : (s.waiting ++ s.answered).Nodup
  there : ∀ i ∈ s.waiting ++ s.answered, i < s.panels.length
  list : (s.pagesList.map PageManifest.id).Nodup
  plain : ∀ (i : Nat) (p : Panel), s.panels[i]? = some p → p.made.Plain
  waiter : ∀ w ∈ s.pagesWaiters, ∃ (p : Panel) (b : ConfigPanel.Built), s.panels[w.panel]? = some p ∧
    targetContextFor p.made = some w.context ∧
    p.built = some b ∧ hasSeam b = true ∧ savedItems b = p.made.own
  cards : ∀ (i : Nat) (p : Panel) b, s.panels[i]? = some p → p.built = some b → ((savedItems b).map Card.itemId).Nodup

/-- What was built stays as it is, unless it waits; and who waits is told, or waits on. -/
structure Onward (s t : Session) : Prop where
  panel : ∀ (i : Nat) (p : Panel), s.panels[i]? = some p → ∃ q : Panel, t.panels[i]? = some q ∧ q.made = p.made ∧
    (i ∉ s.waiting → q.built = p.built)
  answered : s.answered ⊆ t.answered
  waited : ∀ i ∈ s.waiting, i ∈ t.waiting ∨ i ∈ t.answered
  settled : ∀ i < s.panels.length, i ∉ s.waiting → i ∉ t.waiting

theorem Onward.refl (s : Session) : Onward s s :=
  ⟨fun _ p hp => ⟨p, hp, rfl, fun _ => rfl⟩, List.Subset.refl _, fun _ hi => Or.inl hi, fun _ _ hi => hi⟩

theorem Onward.trans {u : Session} (h : Onward s t) (h' : Onward t u) : Onward s u where
  panel i p hp := by
    obtain ⟨q, hq, hmade, hbuilt⟩ := h.panel i p hp
    obtain ⟨r, hr, hmade', hbuilt'⟩ := h'.panel i q hq
    refine ⟨r, hr, hmade'.trans hmade, fun hi => (hbuilt' ?_).trans (hbuilt hi)⟩
    exact h.settled i (List.getElem?_eq_some_iff.mp hp).1 hi
  answered := List.Subset.trans h.answered h'.answered
  waited i hi := by
    rcases h.waited i hi with hi | hi
    · exact h'.waited i hi
    · exact Or.inr (h'.answered hi)
  settled i hlt hi := by
    refine h'.settled i ?_ (h.settled i hlt hi)
    obtain ⟨q, hq, -⟩ := h.panel i _ (List.getElem?_eq_getElem hlt)
    exact (List.getElem?_eq_some_iff.mp hq).1

/-! ### An answer -/

/-- The panels once those that wait are told of the pages. -/
def told (s : Session) (pages : List PageManifest) : List Panel :=
  s.pagesWaiters.foldl (fun panels w => panels.modify w.panel (Panel.addTabs w.context pages)) s.panels

theorem length_told : (s.told pages).length = s.panels.length := length_foldl_modify

theorem getElem?_told_of_notMem (h : i ∉ s.waiting) : (s.told pages)[i]? = s.panels[i]? := getElem?_foldl_modify_of_notMem h

theorem Calm.getElem?_told (h : s.Calm) {w : Waiter} (hw : w ∈ s.pagesWaiters) :
    (s.told pages)[w.panel]? = s.panels[w.panel]?.map (Panel.addTabs w.context pages) :=
  getElem?_foldl_modify_of_mem (List.nodup_append.mp h.once).1 hw

/-- A panel after an answer: one that did not wait is as it was. -/
theorem Calm.told_cases (h : s.Calm) {q : Panel} (hq : (s.told pages)[i]? = some q) :
    s.panels[i]? = some q ∨ ∃ w ∈ s.pagesWaiters, ∃ (p : Panel) (b : ConfigPanel.Built), w.panel = i ∧
      s.panels[i]? = some p ∧
      p.built = some b ∧ hasSeam b = true ∧ savedItems b = p.made.own ∧ q = p.addTabs w.context pages := by
  by_cases hi : i ∈ s.waiting
  · obtain ⟨w, hw, rfl⟩ := List.mem_map.mp hi
    obtain ⟨p, b, hp, -, hbuilt, hseam, hsaved⟩ := h.waiter w hw
    rw [h.getElem?_told hw, hp] at hq
    exact Or.inr ⟨w, hw, p, b, rfl, hp, hbuilt, hseam, hsaved, (Option.some.inj hq).symm⟩
  · exact Or.inl ((getElem?_told_of_notMem hi).symm.trans hq)

/-- The pages come while a request is in flight. -/
theorem step_onload_of_pages {status : Nat} {body : Body} (hflight : s.inFlight ≠ 0)
    (hpages : pagesOf status body = some pages) :
    s.step (.onload status body) =
      { s with
        pagesState := .ready
        pagesList := pages
        pagesWaiters := []
        panels := s.told pages
        inFlight := s.inFlight - 1
        answered := s.answered ++ s.waiting } := by
  simp only [step, hflight, if_false, onload, hpages, notifyPagesWaiters_eq]
  rfl

/-- The session once the request in flight has failed. -/
def afterFailure (s : Session) : Session :=
  { s with pagesState := .failed, pagesWaiters := [], inFlight := s.inFlight - 1, answered := s.answered ++ s.waiting }

theorem step_onload_of_none {status : Nat} {body : Body} (hflight : s.inFlight ≠ 0) (hpages : pagesOf status body = none) :
    s.step (.onload status body) = s.afterFailure := by
  simp only [step, hflight, if_false, onload, hpages, pagesFailed_eq]
  rfl

theorem step_onerror (hflight : s.inFlight ≠ 0) : s.step .onerror = s.afterFailure := by
  simp only [step, hflight, if_false, pagesFailed_eq]
  rfl

theorem Calm.inFlight_le (h : s.Calm) : s.inFlight ≤ 1 := by
  have := h.loading
  split at this <;> omega

theorem Calm.nodup_answered (h : s.Calm) : (s.answered ++ s.waiting).Nodup := (List.perm_append_comm.nodup_iff).mp h.once

theorem Calm.afterFailure (h : s.Calm) : s.afterFailure.Calm where
  asked := PagesState.noConfusion
  loading := Nat.sub_eq_zero_of_le h.inFlight_le
  waiters _ := rfl
  once := h.nodup_answered
  there i hi := h.there i (List.perm_append_comm.mem_iff.mp hi)
  list := h.list
  plain := h.plain
  waiter _ hw := absurd hw List.not_mem_nil
  cards := h.cards

theorem onward_afterFailure (s : Session) : Onward s s.afterFailure where
  panel _ p hp := ⟨p, hp, rfl, fun _ => rfl⟩
  answered := List.subset_append_left _ _
  waited _ hi := Or.inr (List.mem_append_right _ hi)
  settled _ _ _ := List.not_mem_nil

/-- The session once the pages have come. -/
def afterPages (s : Session) (pages : List PageManifest) : Session :=
  { s with
    pagesState := .ready
    pagesList := pages
    pagesWaiters := []
    panels := s.told pages
    inFlight := s.inFlight - 1
    answered := s.answered ++ s.waiting }

theorem Calm.afterPages (doc : ConfigPanel.Documented) (h : s.Calm) (hids : (pages.map PageManifest.id).Nodup) :
    (s.afterPages pages).Calm where
  asked := PagesState.noConfusion
  loading := Nat.sub_eq_zero_of_le h.inFlight_le
  waiters _ := rfl
  once := h.nodup_answered
  there i hi := length_told.symm ▸ h.there i (List.perm_append_comm.mem_iff.mp hi)
  list := hids
  plain i q hq := by
    rcases h.told_cases hq with hq | ⟨w, -, p, b, -, hp, -, -, -, rfl⟩
    · exact h.plain i q hq
    · rw [made_addTabs]
      exact h.plain i p hp
  waiter _ hw := absurd hw List.not_mem_nil
  cards i q b' hq hb' := by
    rcases h.told_cases hq with hq | ⟨w, -, p, b, -, hp, hbuilt, hseam, hsaved, rfl⟩
    · exact h.cards i q b' hq hb'
    · by_cases hlive : p.destroying = false ∧ p.destroyed = false
      · obtain ⟨b'', hbuilt', hsaved'⟩ := built_addTabs doc w.context (h.plain i p hp) hids hlive hbuilt hseam hsaved
        rw [hbuilt'] at hb'
        rw [← Option.some.inj hb', hsaved']
        exact nodup_cards w.context (h.plain i p hp) hids
      · rw [addTabs_of_gone hlive] at hb'
        exact h.cards i p b' hp hb'

theorem onward_afterPages (s : Session) (pages : List PageManifest) (h : s.Calm) : Onward s (s.afterPages pages) where
  panel i p hp := by
    by_cases hi : i ∈ s.waiting
    · obtain ⟨w, hw, rfl⟩ := List.mem_map.mp hi
      refine ⟨p.addTabs w.context pages, ?_, made_addTabs, fun hnot => absurd hi hnot⟩
      exact (h.getElem?_told hw).trans (congrArg _ hp)
    · exact ⟨p, (getElem?_told_of_notMem hi).trans hp, rfl, fun _ => rfl⟩
  answered := List.subset_append_left _ _
  waited _ hi := Or.inr (List.mem_append_right _ hi)
  settled _ _ _ := List.not_mem_nil

/-! ### A panel goes -/

theorem Calm.mark (h : s.Calm) (i : Nat) {f : Panel → Panel} (hmade : ∀ p, (f p).made = p.made)
    (hbuilt : ∀ p, (f p).built = p.built) : ({ s with panels := s.panels.modify i f } : Session).Calm := by
  have hcases : ∀ (j : Nat) (q : Panel), (s.panels.modify i f)[j]? = some q →
      ∃ p, s.panels[j]? = some p ∧ q.made = p.made ∧ q.built = p.built := by
    intro j q hq
    rw [List.getElem?_modify] at hq
    obtain ⟨p, hp, rfl⟩ := Option.map_eq_some_iff.mp hq
    refine ⟨p, hp, ?_⟩
    split
    · exact ⟨hmade p, hbuilt p⟩
    · exact ⟨rfl, rfl⟩
  refine { h with there := ?_, plain := ?_, waiter := ?_, cards := ?_ }
  · intro j hj
    rw [List.length_modify]
    exact h.there j hj
  · intro j q hq
    obtain ⟨p, hp, hqp, -⟩ := hcases j q hq
    exact hqp ▸ h.plain j p hp
  · intro w hw
    obtain ⟨p, b, hp, hcontext, hb, hseam, hsaved⟩ := h.waiter w hw
    obtain ⟨q, hq⟩ : ∃ q, (s.panels.modify i f)[w.panel]? = some q := by
      rw [List.getElem?_modify, hp]
      exact ⟨_, rfl⟩
    obtain ⟨p', hp', hqmade, hqbuilt⟩ := hcases w.panel q hq
    cases hp.symm.trans hp'
    exact ⟨q, b, hq, hqmade ▸ hcontext, hqbuilt.trans hb, hseam, hqmade ▸ hsaved⟩
  · intro j q b hq hb
    obtain ⟨p, hp, -, hqp⟩ := hcases j q hq
    exact h.cards j p b hp (hqp ▸ hb)

theorem onward_mark (s : Session) (i : Nat) {f : Panel → Panel} (hmade : ∀ p, (f p).made = p.made)
    (hbuilt : ∀ p, (f p).built = p.built) : Onward s { s with panels := s.panels.modify i f } where
  panel j p hp := by
    refine ⟨if i = j then f p else p, ?_, ?_, fun _ => ?_⟩
    · rw [List.getElem?_modify, hp]
      rfl
    · split
      · exact hmade p
      · rfl
    · split
      · exact hbuilt p
      · rfl
  answered := List.Subset.refl _
  waited _ hi := Or.inl hi
  settled _ _ hi := hi

/-! ### A panel comes -/

/-- The session with one more panel, which does not wait. -/
def withPanel (s : Session) (c : Construction) (items : List Card) : Session :=
  { s with panels := s.panels ++ [.fresh c items] }

theorem getElem?_withPanel (s : Session) (c : Construction) (items : List Card) :
    (s.withPanel c items).panels[s.panels.length]? = some (.fresh c items) :=
  List.getElem?_concat_length

theorem Calm.withPanel (doc : ConfigPanel.Documented) (h : s.Calm) (hplain : c.Plain)
    (hitems : (items.map Card.itemId).Nodup) :
    (s.withPanel c items).Calm := by
  have hcases : ∀ (i : Nat) (p : Panel), (s.withPanel c items).panels[i]? = some p →
      s.panels[i]? = some p ∨ p = .fresh c items := by
    intro i p hp
    rcases List.mem_append.mp (List.mem_of_getElem? hp) with hmem | hmem
    · by_cases hi : i < s.panels.length
      · exact Or.inl ((List.getElem?_append_left hi).symm.trans hp)
      · rw [Session.withPanel, List.getElem?_append_right (Nat.le_of_not_lt hi)] at hp
        exact Or.inr (List.mem_singleton.mp (List.mem_of_getElem? hp))
    · exact Or.inr (List.mem_singleton.mp hmem)
  refine { h with there := ?_, plain := ?_, waiter := ?_, cards := ?_ }
  · intro i hi
    rw [Session.withPanel, List.length_append]
    exact Nat.lt_add_right _ (h.there i hi)
  · intro i p hp
    rcases hcases i p hp with hp | rfl
    · exact h.plain i p hp
    · exact hplain
  · intro w hw
    obtain ⟨p, b, hp, hrest⟩ := h.waiter w hw
    exact ⟨p, b, (List.getElem?_append_left (List.getElem?_eq_some_iff.mp hp).1).trans hp, hrest⟩
  · intro i p b hp hb
    rcases hcases i p hp with hp | rfl
    · exact h.cards i p b hp hb
    · cases hb
      rw [doc.filed items hitems]
      exact hitems

theorem onward_withPanel (s : Session) (c : Construction) (items : List Card) : Onward s (s.withPanel c items) where
  panel _ p hp := ⟨p, (List.getElem?_append_left (List.getElem?_eq_some_iff.mp hp).1).trans hp, rfl, fun _ => rfl⟩
  answered := List.Subset.refl _
  waited _ hi := Or.inl hi
  settled _ _ hi := hi

/-- The next panel is in nobody's list yet. -/
theorem Calm.length_notMem (h : s.Calm) : s.panels.length ∉ s.waiting ++ s.answered :=
  fun hmem => Nat.lt_irrefl _ (h.there _ hmem)

/-- The session once the panel that was built last waits. -/
def withWaiter (s : Session) (context : Context) : Session :=
  { s with pagesState := .loading, pagesWaiters := s.pagesWaiters ++ [⟨s.panels.length - 1, context⟩], inFlight := 1 }

theorem waiting_withWaiter : (s.withWaiter context).waiting = s.waiting ++ [s.panels.length - 1] := by
  simp [waiting, withWaiter]

theorem length_withPanel : (s.withPanel c items).panels.length - 1 = s.panels.length := by
  rw [withPanel, List.length_append]
  rfl

theorem nodup_waiting_concat (h : s.Calm) : (s.waiting ++ [s.panels.length] ++ s.answered).Nodup := by
  rw [List.append_assoc, List.singleton_append]
  exact List.perm_middle.nodup_iff.mpr (List.nodup_cons.mpr ⟨h.length_notMem, h.once⟩)

theorem Calm.withWaiter (doc : ConfigPanel.Documented) (h : s.Calm) (hplain : c.Plain)
    (hcontext : targetContextFor c = some context) :
    ((s.withPanel c c.own).withWaiter context).Calm := by
  have hown : (c.own.map Card.itemId).Nodup := c.itemIds_own ▸ hplain.nodup
  have hpanel := h.withPanel doc hplain hown
  have hwaiting : ((s.withPanel c c.own).withWaiter context).waiting = s.waiting ++ [s.panels.length] := by
    rw [waiting_withWaiter, length_withPanel]
    rfl
  refine { hpanel with asked := PagesState.noConfusion, loading := rfl, waiters := fun hne => absurd rfl hne, once := ?_,
                       there := ?_, waiter := ?_ }
  · rw [hwaiting]
    exact nodup_waiting_concat h
  · intro i hi
    rw [hwaiting, List.append_assoc, List.singleton_append, List.perm_middle.mem_iff, List.mem_cons] at hi
    rcases hi with rfl | hi
    · exact (List.getElem?_eq_some_iff.mp (getElem?_withPanel s c c.own)).1
    · exact hpanel.there i hi
  · intro w hw
    rcases List.mem_append.mp hw with hw | hw
    · exact hpanel.waiter w hw
    · cases List.mem_singleton.mp hw
      refine ⟨.fresh c c.own, origInitComponent c.own, ?_, hcontext, rfl, doc.hasSeam _, doc.filed _ hown⟩
      rw [length_withPanel]
      exact getElem?_withPanel s c c.own

theorem onward_withWaiter (s : Session) (c : Construction) (context : Context) :
    Onward s ((s.withPanel c c.own).withWaiter context) := by
  refine { onward_withPanel s c c.own with waited := ?_, settled := ?_ }
  · intro i hi
    rw [waiting_withWaiter]
    exact Or.inl (List.mem_append_left _ hi)
  · intro i hlt hi hmem
    rw [waiting_withWaiter, length_withPanel] at hmem
    rcases List.mem_append.mp hmem with hmem | hmem
    · exact hi hmem
    · exact Nat.lt_irrefl _ (List.mem_singleton.mp hmem ▸ hlt)

/-- The session once the panel that was built last has been told of no pages, as the request could not be sent. -/
def withAnswered (s : Session) : Session := { s with answered := s.answered ++ [s.panels.length - 1] }

theorem Calm.withAnswered (doc : ConfigPanel.Documented) (h : s.Calm) (hplain : c.Plain) :
    (s.withPanel c c.own).withAnswered.Calm := by
  have hpanel := h.withPanel doc hplain (c.itemIds_own ▸ hplain.nodup)
  have hanswered : (s.withPanel c c.own).withAnswered.answered = s.answered ++ [s.panels.length] := by
    rw [Session.withAnswered, length_withPanel]
    rfl
  refine { hpanel with once := ?_, there := ?_ }
  · rw [hanswered, ← List.append_assoc]
    exact List.nodup_append_comm.mp (List.nodup_cons.mpr ⟨h.length_notMem, h.once⟩)
  · intro i hi
    rw [hanswered, ← List.append_assoc] at hi
    rcases List.mem_append.mp hi with hi | hi
    · exact hpanel.there i hi
    · cases List.mem_singleton.mp hi
      exact (List.getElem?_eq_some_iff.mp (getElem?_withPanel s c c.own)).1

theorem onward_withAnswered (s : Session) (c : Construction) : Onward s (s.withPanel c c.own).withAnswered :=
  { onward_withPanel s c c.own with
    answered := List.subset_append_left _ _
    waited := fun _ hi => Or.inl hi }

/-- What the construction of a panel does. -/
inductive Constructs (s : Session) (c : Construction) : Session → Prop
  | other (h : targetContextFor c = none) : Constructs s c (s.withPanel c c.own)
  | ready {context : Context} (h : targetContextFor c = some context) (hready : s.pagesState = .ready) :
      Constructs s c (s.withPanel c (addTabConfigs c.own (buildTabItems context s.pagesList)))
  | waits {context : Context} (h : targetContextFor c = some context) (hnot : s.pagesState ≠ .ready) :
      Constructs s c ((s.withPanel c c.own).withWaiter context)
  | answered {context : Context} (h : targetContextFor c = some context) (hnot : s.pagesState ≠ .ready) :
      Constructs s c (s.withPanel c c.own).withAnswered

theorem Calm.constructs (h : s.Calm) (c : Construction) (throws : Bool) : Constructs s c (s.initComponent throws c) := by
  cases hcontext : targetContextFor c with
  | none =>
    rw [initComponent_other hcontext]
    exact .other hcontext
  | some context =>
    have hflight := h.loading
    have hwaiters := h.waiters
    cases hstate : s.pagesState with
    | idle => exact absurd hstate h.asked
    | ready =>
      rw [initComponent_ready hcontext hstate]
      exact .ready hcontext hstate
    | loading =>
      rw [hstate, if_pos rfl] at hflight
      rw [initComponent_loading hcontext hstate]
      have heq : (s.withPanel c c.own).withWaiter context =
          { s with
            pagesWaiters := s.pagesWaiters ++ [⟨s.panels.length, context⟩]
            panels := s.panels ++ [.fresh c c.own] } := by
        rw [Session.withWaiter, length_withPanel, Session.withPanel, hstate, hflight]
      exact heq ▸ .waits hcontext (hstate ▸ PagesState.noConfusion)
    | failed =>
      have hno : s.pagesWaiters = [] := hwaiters (hstate ▸ PagesState.noConfusion)
      rw [hstate, if_neg PagesState.noConfusion] at hflight
      cases throws with
      | false =>
        rw [initComponent_asks hcontext hstate]
        have heq : (s.withPanel c c.own).withWaiter context =
            { s with
              pagesState := .loading
              pagesWaiters := s.pagesWaiters ++ [⟨s.panels.length, context⟩]
              panels := s.panels ++ [.fresh c c.own]
              inFlight := s.inFlight + 1 } := by
          rw [Session.withWaiter, length_withPanel, Session.withPanel, hflight]
        exact heq ▸ .waits hcontext (hstate ▸ PagesState.noConfusion)
      | true =>
        rw [initComponent_throws hcontext hstate]
        have heq : (s.withPanel c c.own).withAnswered =
            { s with
              pagesWaiters := []
              panels := s.panels ++ [.fresh c c.own]
              answered := s.answered ++ (s.waiting ++ [s.panels.length]) } := by
          rw [Session.withAnswered, length_withPanel, Session.withPanel, waiting, hno]
          rfl
        exact heq ▸ .answered hcontext (hstate ▸ PagesState.noConfusion)

/-! ### Step by step -/

theorem Calm.step (doc : ConfigPanel.Documented) (h : s.Calm) (he : e.Plain) : (s.step e).Calm ∧ Onward s (s.step e) := by
  cases e with
  | construct c throws =>
    have hown : (c.own.map Card.itemId).Nodup := c.itemIds_own ▸ he.nodup
    have hconstructs := h.constructs c throws
    show (s.initComponent throws c).Calm ∧ Onward s (s.initComponent throws c)
    generalize s.initComponent throws c = t at hconstructs ⊢
    cases hconstructs with
    | other => exact ⟨h.withPanel doc he hown, onward_withPanel s c _⟩
    | ready hcontext hready =>
      refine ⟨h.withPanel doc he ?_, onward_withPanel s c _⟩
      rw [addTabConfigs_eq (fresh_buildTabItems he h.list)]
      exact nodup_cards _ he h.list
    | waits hcontext => exact ⟨h.withWaiter doc he hcontext, onward_withWaiter s c _⟩
    | answered => exact ⟨h.withAnswered doc he, onward_withAnswered s c⟩
  | destroying i => exact ⟨h.mark i (fun _ => rfl) fun _ => rfl, onward_mark s i (fun _ => rfl) fun _ => rfl⟩
  | destroyed i => exact ⟨h.mark i (fun _ => rfl) fun _ => rfl, onward_mark s i (fun _ => rfl) fun _ => rfl⟩
  | onload status body =>
    by_cases hflight : s.inFlight = 0
    · simp only [Session.step, hflight, if_true]
      exact ⟨h, Onward.refl s⟩
    · cases hpages : pagesOf status body with
      | none =>
        rw [step_onload_of_none hflight hpages]
        exact ⟨h.afterFailure, onward_afterFailure s⟩
      | some pages =>
        rw [step_onload_of_pages hflight hpages]
        exact ⟨h.afterPages doc (he.nodup_of_pagesOf hpages), onward_afterPages s pages h⟩
  | onerror =>
    by_cases hflight : s.inFlight = 0
    · simp only [Session.step, hflight, if_true]
      exact ⟨h, Onward.refl s⟩
    · rw [step_onerror hflight]
      exact ⟨h.afterFailure, onward_afterFailure s⟩

theorem Calm.run (doc : ConfigPanel.Documented) (h : s.Calm) {events : List Event} (plain : ∀ e ∈ events, e.Plain) :
    (events.foldl Session.step s).Calm ∧ Onward s (events.foldl Session.step s) := by
  induction events generalizing s with
  | nil => exact ⟨h, Onward.refl s⟩
  | cons e events ih =>
    obtain ⟨he, hevents⟩ := List.forall_mem_cons.mp plain
    obtain ⟨hcalm, honward⟩ := h.step doc he
    obtain ⟨hcalm', honward'⟩ := ih hcalm hevents
    exact ⟨hcalm', honward.trans honward'⟩

theorem calm_start (throws : Bool) : (start throws).Calm := by
  cases throws with
  | false => constructor <;> simp [start, startPagesPrefetch, requestPages, waiting]
  | true => constructor <;> simp [start, startPagesPrefetch, requestPages, pagesFailed_eq, waiting]

theorem after_append (throws : Bool) (before : List Event) (e : Event) (rest : List Event) :
    after throws (before ++ e :: rest) = rest.foldl Session.step ((after throws before).step e) := by
  rw [after, List.foldl_append, List.foldl_cons]
  rfl

theorem calm_after (doc : ConfigPanel.Documented) (throws : Bool) {events : List Event} (plain : ∀ e ∈ events, e.Plain) :
    (after throws events).Calm := ((calm_start throws).run doc plain).1

/-- The session before an event, right after it, and at the end of the run. -/
theorem around (doc : ConfigPanel.Documented) (throws : Bool) {before rest : List Event}
    (plain : ∀ e' ∈ before ++ e :: rest, e'.Plain) :
    (after throws before).Calm ∧ ((after throws before).step e).Calm ∧
      Onward (after throws before) ((after throws before).step e) ∧
      Onward ((after throws before).step e) (after throws (before ++ e :: rest)) := by
  obtain ⟨hbefore, hcons⟩ := List.forall_mem_append.mp plain
  obtain ⟨he, hrest⟩ := List.forall_mem_cons.mp hcons
  have hcalm := calm_after doc throws hbefore
  obtain ⟨hcalm', honward⟩ := hcalm.step doc he
  rw [after_append]
  exact ⟨hcalm, hcalm', honward, (hcalm'.run doc hrest).2⟩

end Session

/-! ### The result -/

open Session (after)

/-- Whether the event answers the request in flight, or reports its failure. -/
def Event.answers : Event → Bool
  | .onload .. | .onerror => true
  | .construct .. | .destroying _ | .destroyed _ => false

/-- The panel holds its own cards and, behind them, one tab for each page that names its kind, in the order of the pages. -/
def Panel.Tabbed (pages : List PageManifest) (p : Panel) : Prop :=
  ∃ context b tabs, targetContextFor p.made = some context ∧ p.built = some b ∧
    List.Forall₂ (TabFor p.made context.target) (pages.filter (Names context.target)) tabs ∧
    savedItems b = p.made.own ++ tabs.map .tab

/-- What the panels of a run get. -/
structure Served (throws : Bool) (events : List Event) : Prop where
  /-- At most one request is in flight, -/
  request : (after throws events).inFlight ≤ 1
  /-- and it is while a panel waits. -/
  waiting : (after throws events).waiting ≠ [] → (after throws events).inFlight = 1
  /-- A target panel that was built before the list was there waits or was told, once; -/
  registered : ∀ before c throws' rest, events = before ++ .construct c throws' :: rest → targetContextFor c ≠ none →
    (after throws before).pagesState ≠ .ready →
    ((after throws events).waiting ++ (after throws events).answered).count (after throws before).panels.length = 1
  /-- whoever waits is told by the answer, once and for all. -/
  answered : ∀ before e rest, events = before ++ e :: rest → e.answers = true → ∀ i ∈ (after throws before).waiting,
    (after throws before).answered.count i = 0 ∧ (after throws events).answered.count i = 1
  /-- A target panel that was built while the list was there has its tabs, -/
  ready : ∀ before c throws' rest, events = before ++ .construct c throws' :: rest → targetContextFor c ≠ none →
    (after throws before).pagesState = .ready →
      ∃ p, (after throws events).panels[(after throws before).panels.length]? = some p ∧
      p.made = c ∧ p.Tabbed (after throws before).pagesList
  /-- and so has one that waited when the pages came, if it was alive. -/
  late : ∀ before status body rest pages, events = before ++ .onload status body :: rest →
    pagesOf status body = some pages →
    ∀ i ∈ (after throws before).waiting, ∀ p, (after throws before).panels[i]? = some p →
      p.destroying = false ∧ p.destroyed = false →
      ∃ q, (after throws events).panels[i]? = some q ∧ q.made = p.made ∧ q.Tabbed pages
  /-- No panel gets a tab twice. -/
  once : ∀ p ∈ (after throws events).panels, ∀ b, p.built = some b → ((savedItems b).map Card.itemId).Nodup

section Result

variable {events before rest : List Event} {throws' : Bool}

open Session

/-- Who is told or waits after an event has been told once, or waits, at the end. -/
theorem count_of_onward (hs : t.Calm) (h : Onward s t) (hi : i ∈ s.waiting ++ s.answered) :
    (t.waiting ++ t.answered).count i = 1 := by
  refine List.count_eq_one_of_mem hs.once ?_
  rcases List.mem_append.mp hi with hi | hi
  · exact List.mem_append.mpr (h.waited i hi)
  · exact List.mem_append_right _ (h.answered hi)

theorem waiting_of_calm (h : s.Calm) (hne : s.waiting ≠ []) : s.inFlight = 1 := by
  have hloading : s.pagesState = .loading := by
    by_contra hnot
    exact hne (by rw [Session.waiting, h.waiters hnot]; rfl)
  rw [h.loading, if_pos hloading]

/-- The answer tells everyone who waits. -/
theorem waiting_subset_answered (h : s.Calm) (he : e.answers = true) : s.waiting ⊆ (s.step e).answered := by
  intro i hi
  have hflight : s.inFlight ≠ 0 := waiting_of_calm h (List.ne_nil_of_mem hi) ▸ Nat.one_ne_zero
  cases e with
  | construct | destroying | destroyed => cases he
  | onload status body =>
    cases hpages : pagesOf status body with
    | none =>
      rw [step_onload_of_none hflight hpages]
      exact List.mem_append_right _ hi
    | some pages =>
      rw [step_onload_of_pages hflight hpages]
      exact List.mem_append_right _ hi
  | onerror =>
    rw [step_onerror hflight]
    exact List.mem_append_right _ hi

/-- A panel that is built with the list there has its tabs. -/
theorem tabbed_of_ready (doc : ConfigPanel.Documented) (h : s.Calm) (hplain : c.Plain)
    (hcontext : targetContextFor c = some context) :
    (Panel.fresh c (addTabConfigs c.own (buildTabItems context s.pagesList))).Tabbed s.pagesList := by
  refine ⟨context, _, buildTabItems context s.pagesList, hcontext, rfl, tabFor_buildTabItems hcontext, ?_⟩
  have hcards := nodup_cards context hplain h.list
  have heq : addTabConfigs c.own (buildTabItems context s.pagesList) = c.own ++
      (buildTabItems context s.pagesList).map .tab :=
    addTabConfigs_eq (fresh_buildTabItems hplain h.list)
  rw [heq]
  exact doc.filed _ hcards

theorem Panel.Tabbed.of_built {q : Panel} (h : p.Tabbed pages) (hmade : q.made = p.made) (hbuilt : q.built = p.built) :
    q.Tabbed pages := by
  obtain ⟨context, b, tabs, hcontext, hb, htabs, hsaved⟩ := h
  exact ⟨context, b, tabs, hmade ▸ hcontext, hbuilt.trans hb, hmade ▸ htabs, hmade ▸ hsaved⟩

/-- One that waits, and is alive when the pages come, has them then. -/
theorem tabbed_of_pages (doc : ConfigPanel.Documented) (h : s.Calm) (hids : (pages.map PageManifest.id).Nodup) {w : Waiter}
    (hw : w ∈ s.pagesWaiters) (hp : s.panels[w.panel]? = some p) (hlive : p.destroying = false ∧ p.destroyed = false) :
    (s.told pages)[w.panel]? = some (p.addTabs w.context pages) ∧ (p.addTabs w.context pages).Tabbed pages := by
  obtain ⟨p', b, hp', hcontext, hbuilt, hseam, hsaved⟩ := h.waiter w hw
  cases hp.symm.trans hp'
  obtain ⟨b', hbuilt', hsaved'⟩ := built_addTabs doc w.context (h.plain _ p hp) hids hlive hbuilt hseam hsaved
  refine ⟨by rw [h.getElem?_told hw, hp]; rfl, w.context, b', buildTabItems w.context pages, ?_, hbuilt', ?_, ?_⟩
  · rw [made_addTabs]
    exact hcontext
  · rw [made_addTabs]
    exact tabFor_buildTabItems hcontext
  · rw [made_addTabs]
    exact hsaved'

/-- Every panel gets its tabs once, whatever the order of panels, answers and failures. -/
theorem every_panel_gets_its_tabs_once (doc : ConfigPanel.Documented) (throws : Bool) (events : List Event)
    (plain : ∀ e ∈ events, e.Plain) : Served throws events where
  request := (calm_after doc throws plain).inFlight_le
  waiting := waiting_of_calm (calm_after doc throws plain)
  registered := by
    rintro before c throws' rest rfl hcontext hnot
    obtain ⟨hcalm, -, -, honward⟩ := around doc throws plain
    have hend := calm_after doc throws plain
    refine count_of_onward hend honward ?_
    have hconstructs := hcalm.constructs c throws'
    show _ ∈ ((after throws before).initComponent throws' c).waiting ++
      ((after throws before).initComponent throws' c).answered
    generalize (after throws before).initComponent throws' c = t at hconstructs ⊢
    cases hconstructs with
    | other h => exact absurd h hcontext
    | ready _ hready => exact absurd hready hnot
    | waits =>
      rw [waiting_withWaiter, length_withPanel]
      exact List.mem_append_left _ (List.mem_append_right _ List.mem_cons_self)
    | answered =>
      rw [withAnswered, length_withPanel]
      exact List.mem_append_right _ (List.mem_append_right _ List.mem_cons_self)
  answered := by
    rintro before e rest rfl he i hi
    obtain ⟨hcalm, -, -, honward⟩ := around doc throws plain
    have hend := calm_after doc throws plain
    refine ⟨List.count_eq_zero_of_not_mem fun hmem => ?_, List.count_eq_one_of_mem ?_ ?_⟩
    · exact (List.nodup_append.mp hcalm.once).2.2 i hi i hmem rfl
    · exact (List.nodup_append.mp hend.once).2.1
    · exact honward.answered (waiting_subset_answered hcalm he hi)
  ready := by
    rintro before c throws' rest rfl hcontext hready
    obtain ⟨hcalm, -, -, honward⟩ := around doc throws plain
    have hplain : c.Plain := plain (.construct c throws') (List.mem_append_right _ List.mem_cons_self)
    obtain ⟨context, hcontext⟩ := Option.ne_none_iff_exists'.mp hcontext
    have hstep : (after throws before).step (.construct c throws') =
        (after throws before).withPanel c (addTabConfigs c.own (buildTabItems context (after throws before).pagesList)) :=
      initComponent_ready hcontext hready
    rw [hstep] at honward
    obtain ⟨q, hq, hmade, hbuilt⟩ := honward.panel _ _ (getElem?_withPanel _ _ _)
    refine ⟨q, hq, hmade, (tabbed_of_ready doc hcalm hplain hcontext).of_built hmade (hbuilt fun hmem => ?_)⟩
    exact hcalm.length_notMem (List.mem_append_left _ hmem)
  late := by
    rintro before status body rest pages rfl hpages i hi p hp hlive
    obtain ⟨hcalm, -, -, honward⟩ := around doc throws plain
    have hids := (plain (.onload status body) (List.mem_append_right _ List.mem_cons_self)).nodup_of_pagesOf hpages
    have hflight : (after throws before).inFlight ≠ 0 := waiting_of_calm hcalm (List.ne_nil_of_mem hi) ▸ Nat.one_ne_zero
    obtain ⟨w, hw, rfl⟩ := List.mem_map.mp hi
    obtain ⟨htold, htabbed⟩ := tabbed_of_pages doc hcalm hids hw hp hlive
    rw [step_onload_of_pages hflight hpages] at honward
    obtain ⟨q, hq, hmade, hbuilt⟩ := honward.panel _ _ htold
    exact ⟨q, hq, hmade.trans made_addTabs, htabbed.of_built hmade (hbuilt List.not_mem_nil)⟩
  once p hp b hb := by
    obtain ⟨i, hi⟩ := List.getElem?_of_mem hp
    exact (calm_after doc throws plain).cards i p b hi hb

end Result

end Panels

/-! ### A session -/

/-- A panel that files its cards in a list. -/
abbrev listPanel : ConfigPanel where
  Built := List Card
  origInitComponent := id
  savedItems := id
  hasSeam _ := true
  insertNodes b cards :=
    if cards.any fun card => (b.map Card.itemId).contains card.itemId then (b, true) else (b ++ cards, false)

theorem inserted_listPanel (b : List Card) (card : Card) (h : card.itemId ∉ b.map Card.itemId) :
    listPanel.insertNodes b [card] = (b ++ [card], false) := by
  have hany : ([card].any fun card => (b.map Card.itemId).contains card.itemId) = false := by
    rw [List.any_cons, List.any_nil, Bool.or_false]
    rw [List.contains_eq_mem]
    exact decide_eq_false h
  exact if_neg (Bool.eq_false_iff.mp hany)

theorem documented_listPanel : @ConfigPanel.Documented listPanel :=
  @ConfigPanel.Documented.mk listPanel (fun _ => rfl) (fun _ _ => rfl) fun b card h => by
    rw [inserted_listPanel b card h]
    exact ⟨rfl, rfl⟩

/-- The pages of this repository. -/
def metaPages : List PageManifest :=
  [⟨"pve-meta", "Metadata", some "fa fa-tags", ["lxc", "qemu"], "/pve2/js/pve-meta-extjs/pve-meta-tree.js",
    "pveMetaTreePanel",
      none⟩,
    ⟨"pve-meta-dc", "Metadata", some "fa fa-tags", ["dc"], "/pve2/js/pve-meta-extjs/pve-meta-tree.js",
      "pveMetaDatacenterPanel", none⟩]

/-- A container's panel is built before anyone is logged in, and the request fails; another one asks again, a third is
    built while that request is in flight, and the fourth once it is answered. -/
def sampleEvents : List Event :=
  [.construct ⟨"PVE.lxc.Config", some ⟨some 101, some "pve1"⟩, ["summary"]⟩ false,
    .onload 401 .noData,
    .construct ⟨"PVE.lxc.Config", some ⟨some 102, some "pve1"⟩, ["summary"]⟩ false,
    .construct ⟨"PVE.dc.Config", none, ["search"]⟩ false,
    .destroyed 0,
    .onload 200 (.data metaPages),
    .construct ⟨"PVE.qemu.Config", some ⟨some 103, some "pve2"⟩, ["summary", "hardware"]⟩ false]

theorem every_panel_gets_its_tabs_once_sample : @Served listPanel false sampleEvents := by
  refine @every_panel_gets_its_tabs_once listPanel documented_listPanel false sampleEvents ?_
  have hplain : ∀ c : Construction, c.items.Nodup → (∀ name ∈ c.items, name.toList.head? ≠ some 'p') → c.Plain := by
    refine fun c hnodup hhead => ⟨hnodup, ?_⟩
    rintro _ hname page rfl
    exact hhead _ hname (by rw [String.toList_append]; rfl)
  simp only [sampleEvents, List.forall_mem_cons]
  refine ⟨hplain _ (by decide) (by decide), True.intro, hplain _ (by decide) (by decide), hplain _ (by decide) (by decide),
    True.intro, ?_, hplain _ (by decide) (by decide), List.forall_mem_nil _⟩
  show (metaPages.map PageManifest.id).Nodup
  decide

end Loader
end PveMeta
