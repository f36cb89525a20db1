import Mathlib.Data.List.Basic
import Mathlib.Data.String.Defs

/-! # The loader of extension tabs

`pve-ext-loader.js`: the list of extension pages is asked for once, and every configuration panel of the web interface
gets a tab for each page that names its kind, be it built before the list is there or after. Warnings to the console are
left out, and so is what a tab does once it is shown. -/

namespace PveMeta
namespace Loader

/-! ### Page manifests -/

/-- A page manifest, as `GET /ext/pages` lists it. -/
structure PageManifest where
  id : String
  title : String
  iconCls : Option String
  targets : List String
  script : String
  xtype : String
  fingerprint : Option String

/-- The panels that get tabs. -/
inductive Target where
  | lxc
  | qemu
  | node
  | dc
  deriving DecidableEq

/-- The loader's own keyword for them. -/
def Target.keyword : Target → String
  | .lxc => "lxc"
  | .qemu => "qemu"
  | .node => "node"
  | .dc => "dc"

/-- `TARGETS` -/
def targetOf (className : String) : Option Target :=
  if className = "PVE.lxc.Config" then some .lxc
  else if className = "PVE.qemu.Config" then some .qemu
  else if className = "PVE.node.Config" then some .node
  else if className = "PVE.dc.Config" then some .dc
  else none

/-- What the markup has for `&`, `<`, `>` and the two quotes. -/
def escapes : List (Char × String) :=
  [('&', "&amp;"), ('<', "&lt;"), ('>', "&gt;"), (Char.ofNat 34, "&quot;"), (Char.ofNat 39, "&#39;")]

def escapeHtml (s : String) : String := String.join (s.toList.map fun c => (escapes.lookup c).getD (String.singleton c))

/-- A class list with nothing but letters, digits, blanks, `_` and `-`, else nothing. -/
def sanitizeIconCls (cls : Option String) : String :=
  let s := cls.getD ""
  if s.toList.all fun c => c.isAlphanum || " _-".toList.contains c then s else ""

/-- A byte in a URI. -/
def percentEncode (b : UInt8) : List Char :=
  ['%', (Nat.digitChar (b.toNat / 16)).toUpper, (Nat.digitChar (b.toNat % 16)).toUpper]

def encodeURIComponent (s : String) : String :=
  String.ofList <| s.toList.flatMap fun c =>
    if c.isAlphanum || "-_.!~*'()".toList.contains c then [c]
    else (String.singleton c).toUTF8.data.toList.flatMap percentEncode

def withVersion (url : String) (fingerprint : Option String) : String :=
  let ver := fingerprint.getD ""
  if url = "" ∨ ver = "" then url
  else url ++ (if url.toList.contains '?' then "&" else "?") ++ "ver=" ++ encodeURIComponent ver

/-! ### Tabs -/

/-- What a tab's own component is made with, next to its xtype. -/
structure InstanceConfig where
  type : String
  vmid : Option Nat := none
  node : Option String := none
  dc : Option Nat := none
  deriving DecidableEq

structure Vars where
  vmid : Option Nat := none
  node : Option String := none
  type : String
  deriving DecidableEq

/-- What the tabs of a panel are built from. -/
structure Context where
  target : Target
  vars : Vars
  deriving DecidableEq

def buildInstanceConfig (target : Target) (vars : Vars) : InstanceConfig :=
  match target with
  | .lxc | .qemu => { type := vars.type, vmid := vars.vmid, node := vars.node }
  | .node => { type := vars.type, node := vars.node }
  | .dc => { type := vars.type, dc := some 1 }

/-- A tab, with what it loads when it is shown. -/
structure TabItem where
  itemId : String
  title : String
  iconCls : String
  scriptSrc : String
  xtype : String
  instanceConfig : InstanceConfig

def buildScriptTabItem (manifest : PageManifest) (scriptSrc : String) (instanceConfig : InstanceConfig) : TabItem where
  itemId := "pve-ext-" ++ manifest.id
  title := escapeHtml manifest.title
  iconCls := if sanitizeIconCls manifest.iconCls = "" then "fa fa-puzzle-piece" else sanitizeIconCls manifest.iconCls
  scriptSrc := scriptSrc
  xtype := manifest.xtype
  instanceConfig := instanceConfig

/-- `pveSelNode.data` -/
structure SelData where
  vmid : Option Nat
  node : Option String
  deriving DecidableEq

/-- A panel about to be built: its class, its place in the resource tree, and the `itemId`s of its own cards. -/
structure Construction where
  className : String
  selData : Option SelData
  items : List String

/-- `null` where the class is not a target, or its vmid or node is missing. -/
def targetContextFor (c : Construction) : Option Context :=
  (targetOf c.className).bind fun target =>
    let vmid := c.selData.bind SelData.vmid
    let node := c.selData.bind SelData.node
    match target with
    | .lxc | .qemu =>
      if vmid.getD 0 = 0 ∨ node.getD "" = "" then none
      else some ⟨target, { vmid := vmid, node := node, type := target.keyword }⟩
    | .node => if node.getD "" = "" then none else some ⟨.node, { node := node, type := "node" }⟩
    | .dc => some ⟨.dc, { type := "dc" }⟩

def buildTabItems (context : Context) (pages : List PageManifest) : List TabItem :=
  (pages.filter fun manifest => manifest.targets.contains context.target.keyword).map fun manifest =>
    buildScriptTabItem manifest (withVersion manifest.script manifest.fingerprint)
      (buildInstanceConfig context.target context.vars)

/-! ### Panels -/

/-- A card of a panel: one of its own, or a tab of an extension page. -/
inductive Card where
  | own (itemId : String)
  | tab (item : TabItem)

def Card.itemId : Card → String
  | .own itemId => itemId
  | .tab item => item.itemId

/-- `PVE.panel.Config`, which is part of the web interface. -/
class ConfigPanel where
  /-- A panel whose own `initComponent` is done -/
  Built : Type
  /-- That `initComponent`, on the panel's `items` -/
  origInitComponent : List Card → Built
  /-- The cards in `savedItems`, in the order of the navigation -/
  savedItems : Built → List Card
  /-- The panel has `insertNodes`, `savedItems` and a `store` -/
  hasSeam : Built → Bool
  /-- `insertNodes`, and whether it threw -/
  insertNodes : Built → List Card → Built × Bool

/-- What the loader relies on: the cards are filed in order, and one more behind them unless its `itemId` is taken. -/
structure ConfigPanel.Documented [ConfigPanel] : Prop where
  hasSeam : ∀ items, ConfigPanel.hasSeam (ConfigPanel.origInitComponent items) = true
  filed : ∀ items, (items.map Card.itemId).Nodup → ConfigPanel.savedItems (ConfigPanel.origInitComponent items) = items
  inserted : ∀ b card, card.itemId ∉ (ConfigPanel.savedItems b).map Card.itemId →
    (ConfigPanel.insertNodes b [card]).2 = false ∧
      ConfigPanel.savedItems (ConfigPanel.insertNodes b [card]).1 = ConfigPanel.savedItems b ++ [card]

open ConfigPanel (savedItems origInitComponent insertNodes hasSeam)

variable [ConfigPanel]

/-- A panel, from the moment its `initComponent` is called. -/
structure Panel where
  made : Construction
  /-- `me.items` -/
  items : List Card
  /-- The panel once its own `initComponent` is done -/
  built : Option ConfigPanel.Built
  destroying : Bool
  destroyed : Bool

/-- Tabs of a panel that is still being built. -/
def addTabConfigs (items : List Card) : List TabItem → List Card
  | [] => items
  | tab :: tabs =>
    addTabConfigs (if items.any fun it => it.itemId == tab.itemId then items else items ++ [.tab tab]) tabs

/-- Tabs of a panel that is built: one whose `itemId` it holds is passed over, and a throw ends it. -/
def insertTabs (b : ConfigPanel.Built) : List TabItem → ConfigPanel.Built
  | [] => b
  | tab :: tabs =>
    if ((savedItems b).map Card.itemId).contains tab.itemId then insertTabs b tabs
    else
      let (b, threw) := insertNodes b [.tab tab]
      if threw then b else insertTabs b tabs

/-- What `addTabsWhenPagesArrive` waits with. -/
def Panel.addTabs (context : Context) (pages : List PageManifest) (me : Panel) : Panel :=
  if pages.isEmpty || me.destroying || me.destroyed then me
  else
    match me.built with
    | none => me
    | some b => if hasSeam b then { me with built := some (insertTabs b (buildTabItems context pages)) } else me

/-! ### The request -/

inductive PagesState where
  | idle
  | loading
  | ready
  | failed
  deriving DecidableEq

/-- The panel that waits, by its number, and what it was built for. -/
structure Waiter where
  panel : Nat
  context : Context
  deriving DecidableEq

/-- The loader's variables and the panels of the interface, in the order they were built. -/
structure Session where
  pagesState : PagesState
  pagesList : List PageManifest
  pagesWaiters : List Waiter
  panels : List Panel
  /-- Requests sent that are not answered yet -/
  inFlight : Nat
  /-- The panels whose waiter was called, in order -/
  answered : List Nat

/-- What a response's body is. -/
inductive Body where
  | unparsable
  | noData
  | data (pages : List PageManifest)

/-- The list of pages that `onload` finds, if it finds one. -/
def pagesOf (status : Nat) : Body → Option (List PageManifest)
  | .data pages => if 200 ≤ status ∧ status < 300 then some pages else none
  | .unparsable | .noData => none

namespace Session

/-- One waiter is called. -/
def callWaiter (pages : List PageManifest) (s : Session) (w : Waiter) : Session :=
  { s with panels := s.panels.modify w.panel (Panel.addTabs w.context pages), answered := s.answered ++ [w.panel] }

def notifyPagesWaiters (s : Session) (pages : List PageManifest) : Session :=
  s.pagesWaiters.foldl (callWaiter pages) { s with pagesWaiters := [] }

def pagesFailed (s : Session) : Session := notifyPagesWaiters { s with pagesState := .failed } []

/-- Sends a request, or fails to. -/
def requestPages (throws : Bool) (s : Session) : Session :=
  if throws then s.pagesFailed else { s with inFlight := s.inFlight + 1 }

def startPagesPrefetch (throws : Bool) (s : Session) : Session :=
  if s.pagesState = .idle ∨ s.pagesState = .failed then requestPages throws { s with pagesState := .loading } else s

def whenPagesReady (throws : Bool) (s : Session) (w : Waiter) : Session :=
  if s.pagesState = .ready then callWaiter s.pagesList s w
  else startPagesPrefetch throws { s with pagesWaiters := s.pagesWaiters ++ [w] }

/-- What the patched `initComponent` does before it calls the original one. -/
def injectTabs (throws : Bool) (c : Construction) (s : Session) : Session :=
  let me := s.panels.length
  let s := { s with panels := s.panels ++ [⟨c, c.items.map .own, none, false, false⟩] }
  match targetContextFor c with
  | none => s
  | some context =>
    if s.pagesState = .ready then
      { s with panels := s.panels.modify me fun p =>
          { p with items := addTabConfigs p.items (buildTabItems context s.pagesList) } }
    else whenPagesReady throws s ⟨me, context⟩

/-- The patched `initComponent`. -/
def initComponent (throws : Bool) (c : Construction) (s : Session) : Session :=
  let me := s.panels.length
  let s := injectTabs throws c s
  { s with panels := s.panels.modify me fun p => { p with built := some (origInitComponent p.items) } }

/-- `xhr.onload` -/
def onload (status : Nat) (body : Body) (s : Session) : Session :=
  match pagesOf status body with
  | some pages => notifyPagesWaiters { s with pagesState := .ready, pagesList := pages } pages
  | none => s.pagesFailed

end Session

/-- What happens in the interface. A panel that is built may have the loader send a request, which may throw; a request in
    flight is answered, or its failure reported. -/
inductive Event where
  | construct (c : Construction) (throws : Bool)
  | destroying (panel : Nat)
  | destroyed (panel : Nat)
  | onload (status : Nat) (body : Body)
  | onerror

namespace Session

def step (s : Session) : Event → Session
  | .construct c throws => s.initComponent throws c
  | .destroying i => { s with panels := s.panels.modify i fun p => { p with destroying := true } }
  | .destroyed i => { s with panels := s.panels.modify i fun p => { p with destroying := false, destroyed := true } }
  | .onload status body => if s.inFlight = 0 then s else onload status body { s with inFlight := s.inFlight - 1 }
  | .onerror => if s.inFlight = 0 then s else pagesFailed { s with inFlight := s.inFlight - 1 }

/-- The script was just loaded. -/
def start (throws : Bool) : Session := startPagesPrefetch throws ⟨.idle, [], [], [], 0, []⟩

def after (throws : Bool) (events : List Event) : Session := events.foldl step (start throws)

end Session
end Loader
end PveMeta
