import PveMeta.Lib.Except
import PveMeta.Sample

/-! # What the YAML scan lets through

A parser tells a document as the events of its nodes, nested to any depth. The scan sees the events only, and knows
from its stack where a mapping's next key stands. -/

namespace PveMeta
open Format

/-! ### Nodes -/

/-- A node of a document, with what the parser says of its anchor and tag. -/
inductive YamlNode where
  | alias
  | scalar (anchored tagged : Bool)
  | sequence (anchored tagged : Bool) (items : List YamlNode)
  | mapping (anchored tagged : Bool) (pairs : List (YamlNode × YamlNode))

namespace YamlNode

mutual

/-- The events of a node. -/
def events : YamlNode → List Event
  | .alias => [.alias]
  | .scalar anchored tagged => [.scalar anchored tagged]
  | .sequence anchored tagged items => .sequenceStart anchored tagged :: (itemsEvents items ++ [.sequenceEnd])
  | .mapping anchored tagged pairs => .mappingStart anchored tagged :: (pairsEvents pairs ++ [.mappingEnd])

def itemsEvents : List YamlNode → List Event
  | [] => []
  | n :: items => events n ++ itemsEvents items

def pairsEvents : List (YamlNode × YamlNode) → List Event
  | [] => []
  | (key, value) :: pairs => events key ++ (events value ++ pairsEvents pairs)

end

/-- `In m n`: `m` is `n` or stands in it, at any depth. -/
inductive In (m : YamlNode) : YamlNode → Prop
  | self : In m m
  | item {anchored tagged : Bool} {items : List YamlNode} {n : YamlNode} (hn : n ∈ items) (h : In m n) :
      In m (.sequence anchored tagged items)
  | key {anchored tagged : Bool} {pairs : List (YamlNode × YamlNode)} {p : YamlNode × YamlNode} (hp : p ∈ pairs)
      (h : In m p.1) :
      In m (.mapping anchored tagged pairs)
  | value {anchored tagged : Bool} {pairs : List (YamlNode × YamlNode)} {p : YamlNode × YamlNode} (hp : p ∈ pairs)
      (h : In m p.2) :
      In m (.mapping anchored tagged pairs)

/-- A sequence or a mapping. -/
def isCollection : YamlNode → Bool
  | .sequence .. | .mapping .. => true
  | .alias | .scalar .. => false

/-- The keys of a mapping. -/
def keys : YamlNode → List YamlNode
  | .mapping _ _ pairs => pairs.map Prod.fst
  | .alias | .scalar .. | .sequence .. => []

end YamlNode

def Event.anchored : Event → Bool
  | .scalar anchored _ | .sequenceStart anchored _ | .mappingStart anchored _ => anchored
  | .alias | .sequenceEnd | .mappingEnd | .other => false

def Event.tagged : Event → Bool
  | .scalar _ tagged | .sequenceStart _ tagged | .mappingStart _ tagged => tagged
  | .alias | .sequenceEnd | .mappingEnd | .other => false

/-- The event opens a sequence or a mapping. -/
def Event.opens : Event → Bool
  | .sequenceStart .. | .mappingStart .. => true
  | .alias | .scalar .. | .sequenceEnd | .mappingEnd | .other => false

/-- No alias, no anchor and no explicit tag. -/
structure Event.Plain (e : Event) : Prop where
  notAlias : e ≠ .alias
  notAnchored : e.anchored = false
  notTagged : e.tagged = false

/-- A node without aliases, anchors, explicit tags and collections as keys. -/
structure YamlNode.Plain (n : YamlNode) : Prop where
  ofEvents : ∀ e ∈ n.events, e.Plain
  ofKeys : ∀ m : YamlNode, m.In n → ∀ key ∈ m.keys, key.isCollection = false

namespace SafeYaml

/-! ### What makes a node plain -/

theorem plain_alias : ¬ Event.alias.Plain := fun h => h.notAlias rfl

theorem plain_iff {e : Event} (h : e ≠ .alias) : e.Plain ↔ (e.anchored || e.tagged) = false := by
  rw [Bool.or_eq_false_iff]
  exact ⟨fun hp => ⟨hp.notAnchored, hp.notTagged⟩, fun hp => ⟨h, hp.1, hp.2⟩⟩

theorem plain_scalar {anchored tagged : Bool} : (Event.scalar anchored tagged).Plain ↔ (anchored || tagged) = false :=
  plain_iff (by simp)

theorem plain_sequenceStart {anchored tagged : Bool} :
    (Event.sequenceStart anchored tagged).Plain ↔ (anchored || tagged) = false := plain_iff (by simp)

theorem plain_mappingStart {anchored tagged : Bool} :
    (Event.mappingStart anchored tagged).Plain ↔ (anchored || tagged) = false := plain_iff (by simp)

theorem plain_mark {e : Event} (h : e ∈ [Event.sequenceEnd, .mappingEnd, .other]) : e.Plain := by
  simp only [List.mem_cons, List.not_mem_nil, or_false] at h
  rcases h with rfl | rfl | rfl <;> exact (plain_iff (by simp)).mpr rfl

theorem mem_itemsEvents {items : List YamlNode} {e : Event} :
    e ∈ YamlNode.itemsEvents items ↔ ∃ n ∈ items, e ∈ n.events := by
  induction items with
  | nil => simp [YamlNode.itemsEvents]
  | cons n items ih => simp [YamlNode.itemsEvents, ih]

theorem mem_pairsEvents {pairs : List (YamlNode × YamlNode)} {e : Event} :
    e ∈ YamlNode.pairsEvents pairs ↔ ∃ p ∈ pairs, e ∈ p.1.events ∨ e ∈ p.2.events := by
  induction pairs with
  | nil => simp [YamlNode.pairsEvents]
  | cons p pairs ih => simp [YamlNode.pairsEvents, ih, or_assoc]

theorem not_plain_alias : ¬ YamlNode.alias.Plain := fun h => plain_alias (h.ofEvents _ (List.mem_singleton_self _))

theorem scalar_plain_iff {anchored tagged : Bool} : (YamlNode.scalar anchored tagged).Plain ↔
    (anchored || tagged) = false := by
  refine ⟨fun h => plain_scalar.mp (h.ofEvents _ (List.mem_singleton_self _)), fun h => ⟨fun e he => ?_, fun m hm => ?_⟩⟩
  · rw [List.mem_singleton.mp he]
    exact plain_scalar.mpr h
  · cases hm
    simp [YamlNode.keys]

theorem sequence_plain_iff {anchored tagged : Bool} {items : List YamlNode} :
    (YamlNode.sequence anchored tagged items).Plain ↔ (anchored || tagged) = false ∧ ∀ n ∈ items, n.Plain := by
  constructor
  · intro h
    refine ⟨plain_sequenceStart.mp (h.ofEvents _ (by simp [YamlNode.events])), fun n hn => ⟨fun e he => ?_, fun m hm => ?_⟩⟩
    · refine h.ofEvents e ?_
      rw [YamlNode.events, List.mem_cons, List.mem_append, mem_itemsEvents]
      exact .inr (.inl ⟨n, hn, he⟩)
    · exact h.ofKeys m (.item hn hm)
  · rintro ⟨hstart, hitems⟩
    refine ⟨fun e he => ?_, fun m hm => ?_⟩
    · rw [YamlNode.events, List.mem_cons, List.mem_append, mem_itemsEvents, List.mem_singleton] at he
      rcases he with rfl | ⟨n, hn, he⟩ | rfl
      · exact plain_sequenceStart.mpr hstart
      · exact (hitems n hn).ofEvents e he
      · exact plain_mark (by simp)
    · cases hm with
      | self => simp [YamlNode.keys]
      | item hn hm => exact (hitems _ hn).ofKeys m hm

theorem mapping_plain_iff {anchored tagged : Bool} {pairs : List (YamlNode × YamlNode)} :
    (YamlNode.mapping anchored tagged pairs).Plain ↔ (anchored || tagged) = false ∧
      ∀ p ∈ pairs, p.1.isCollection = false ∧ p.1.Plain ∧ p.2.Plain := by
  constructor
  · intro h
    have hevents : ∀ p ∈ pairs, ∀ e, (e ∈ p.1.events ∨ e ∈ p.2.events) → e.Plain := by
      intro p hp e he
      refine h.ofEvents e ?_
      rw [YamlNode.events, List.mem_cons, List.mem_append, mem_pairsEvents]
      exact .inr (.inl ⟨p, hp, he⟩)
    refine ⟨plain_mappingStart.mp (h.ofEvents _ (by simp [YamlNode.events])), fun p hp =>
      ⟨?_, ⟨fun e he => ?_, fun m hm => ?_⟩, ⟨fun e he => ?_, fun m hm => ?_⟩⟩⟩
    · exact h.ofKeys _ .self p.1 (List.mem_map.mpr ⟨p, hp, rfl⟩)
    · exact hevents p hp e (.inl he)
    · exact h.ofKeys m (.key hp hm)
    · exact hevents p hp e (.inr he)
    · exact h.ofKeys m (.value hp hm)
  · rintro ⟨hstart, hpairs⟩
    refine ⟨fun e he => ?_, fun m hm => ?_⟩
    · rw [YamlNode.events, List.mem_cons, List.mem_append, mem_pairsEvents, List.mem_singleton] at he
      rcases he with rfl | ⟨p, hp, he | he⟩ | rfl
      · exact plain_mappingStart.mpr hstart
      · exact (hpairs p hp).2.1.ofEvents e he
      · exact (hpairs p hp).2.2.ofEvents e he
      · exact plain_mark (by simp)
    · cases hm with
      | self =>
        intro key hkey
        obtain ⟨p, hp, rfl⟩ := List.mem_map.mp hkey
        exact (hpairs p hp).1
      | key hp hm => exact (hpairs _ hp).2.1.ofKeys m hm
      | value hp hm => exact (hpairs _ hp).2.2.ofKeys m hm

/-! ### The stack -/

/-- The stack that an event leaves. -/
def after (stack : List Ctx) : Event → List Ctx
  | .alias | .scalar .. => noteChild stack
  | .sequenceStart .. => .seq :: stack
  | .mappingStart .. => .map true :: stack
  | .sequenceEnd | .mappingEnd => noteChild stack.tail
  | .other => stack

mutual

/-- A node leaves the stack as one key or one value does, whatever is nested in it. -/
theorem after_events (stack : List Ctx) : ∀ n : YamlNode, n.events.foldl after stack = noteChild stack
  | .alias => rfl
  | .scalar _ _ => rfl
  | .sequence _ _ items => by
    rw [YamlNode.events, List.foldl_cons, List.foldl_append, after, after_itemsEvents]
    rfl
  | .mapping _ _ pairs => by
    rw [YamlNode.events, List.foldl_cons, List.foldl_append, after, after_pairsEvents]
    rfl

theorem after_itemsEvents (stack : List Ctx) :
    ∀ items : List YamlNode, (YamlNode.itemsEvents items).foldl after (.seq :: stack) = .seq :: stack
  | [] => rfl
  | n :: items => by
    rw [YamlNode.itemsEvents, List.foldl_append, after_events _ n]
    exact after_itemsEvents stack items

/-- After a key the mapping expects a value, and after the value a key. -/
theorem after_pairsEvents (stack : List Ctx) :
    ∀ pairs : List (YamlNode × YamlNode), (YamlNode.pairsEvents pairs).foldl after (.map true :: stack) = .map true :: stack
  | [] => rfl
  | (key, value) :: pairs => by
    rw [YamlNode.pairsEvents, List.foldl_append, List.foldl_append, after_events _ key, after_events _ value]
    exact after_pairsEvents stack pairs

end

/-! ### What the scan needs of the events -/

/-- The next node is a key. -/
def atKey (stack : List Ctx) : Bool := stack.head? = some (.map true)

theorem rejectIfKeyPosition_eq_ok {stack : List Ctx} {at_ : Location} {u : Unit} :
    rejectIfKeyPosition stack at_ = .ok u ↔ atKey stack = false := by
  rcases stack with _ | ⟨_ | (_ | _), stack⟩ <;> simp [rejectIfKeyPosition, atKey]

theorem rejectAnchorOrTag_eq_ok {anchored tagged : Bool} {at_ : Location} {u : Unit} :
    rejectAnchorOrTag anchored tagged at_ = .ok u ↔ (anchored || tagged) = false := by
  cases anchored <;> cases tagged <;> simp [rejectAnchorOrTag]

theorem scanEvent_eq_ok {stack out : List Ctx} {event : Event} {at_ : Location} :
    scanEvent stack event at_ = .ok out ↔
      (event.Plain ∧ (event.opens = true → atKey stack = false)) ∧ after stack event = out := by
  cases event with
  | «alias» => simp [scanEvent, plain_alias]
  | scalar anchored tagged =>
    simp only [scanEvent, Except.bind_eq_ok, rejectAnchorOrTag_eq_ok, plain_scalar]
    simp [Event.opens, after, pure, Except.pure]
  | sequenceStart anchored tagged =>
    simp only [scanEvent, Except.bind_eq_ok, rejectAnchorOrTag_eq_ok, rejectIfKeyPosition_eq_ok, plain_sequenceStart]
    simp [Event.opens, after, pure, Except.pure, and_assoc]
  | mappingStart anchored tagged =>
    simp only [scanEvent, Except.bind_eq_ok, rejectAnchorOrTag_eq_ok, rejectIfKeyPosition_eq_ok, plain_mappingStart]
    simp [Event.opens, after, pure, Except.pure, and_assoc]
  | sequenceEnd => simp [scanEvent, plain_mark, Event.opens, after, pure, Except.pure]
  | mappingEnd => simp [scanEvent, plain_mark, Event.opens, after, pure, Except.pure]
  | other => simp [scanEvent, plain_mark, Event.opens, after, pure, Except.pure]

/-- Every event of a stream is plain, and none opens a collection where the stack expects a key. -/
def Passes (stack : List Ctx) : List Event → Prop
  | [] => True
  | event :: events => (event.Plain ∧ (event.opens = true → atKey stack = false)) ∧ Passes (after stack event) events

theorem scanEvents_eq_ok {stack : List Ctx} {stream : List (Event × Marker)} :
    scanEvents stack (stream.map .ok) = .ok () ↔ Passes stack (stream.map Prod.fst) := by
  induction stream generalizing stack with
  | nil => simp [scanEvents, Passes]
  | cons e stream ih =>
    simp only [List.map_cons, scanEvents, Passes, Except.bind_eq_ok, scanEvent_eq_ok, ← ih]
    exact ⟨fun ⟨_, ⟨hstep, hout⟩, hrest⟩ => ⟨hstep, hout ▸ hrest⟩, fun ⟨hstep, hrest⟩ => ⟨_, ⟨hstep, rfl⟩, hrest⟩⟩

theorem passes_append {stack : List Ctx} {es fs : List Event} :
    Passes stack (es ++ fs) ↔ Passes stack es ∧ Passes (es.foldl after stack) fs := by
  induction es generalizing stack with
  | nil => simp [Passes]
  | cons e es ih => rw [List.cons_append, Passes, Passes, ih, List.foldl_cons, and_assoc (c := Passes _ fs)]

/-- The marks between the documents change nothing. -/
theorem passes_filter {stack : List Ctx} {es : List Event} :
    Passes stack (es.filter (· ≠ .other)) ↔ Passes stack es := by
  induction es generalizing stack with
  | nil => rfl
  | cons e es ih =>
    by_cases he : e = .other
    · subst he
      rw [List.filter_cons_of_neg (by simp), ih, Passes]
      simp [plain_mark, Event.opens, after]
    · rw [List.filter_cons_of_pos (by simpa using he), Passes, Passes, ih]

/-! ### What the scan needs of the nodes -/

theorem passes_end {stack : List Ctx} {event : Event} (h : event ∈ [Event.sequenceEnd, .mappingEnd]) :
    Passes stack [event] := by
  simp only [List.mem_cons, List.not_mem_nil, or_false] at h
  rcases h with rfl | rfl <;> simp [Passes, plain_mark, Event.opens]

mutual

theorem passes_events (stack : List Ctx) :
    ∀ n : YamlNode, Passes stack n.events ↔ n.Plain ∧ (n.isCollection = true → atKey stack = false)
  | .alias => by simp [YamlNode.events, Passes, plain_alias, not_plain_alias]
  | .scalar anchored tagged => by
    simp [YamlNode.events, Passes, plain_scalar, scalar_plain_iff, Event.opens, YamlNode.isCollection]
  | .sequence anchored tagged items => by
    have hend : Passes (.seq :: stack) [Event.sequenceEnd] := passes_end (by simp)
    rw [YamlNode.events, Passes, passes_append, after, after_itemsEvents, passes_itemsEvents stack items,
      sequence_plain_iff, plain_sequenceStart]
    simp only [hend, and_true, Event.opens, YamlNode.isCollection]
    tauto
  | .mapping anchored tagged pairs => by
    have hend : Passes (.map true :: stack) [Event.mappingEnd] := passes_end (by simp)
    rw [YamlNode.events, Passes, passes_append, after, after_pairsEvents, passes_pairsEvents stack pairs, mapping_plain_iff,
      plain_mappingStart]
    simp only [hend, and_true, Event.opens, YamlNode.isCollection]
    tauto

theorem passes_itemsEvents (stack : List Ctx) :
    ∀ items : List YamlNode, Passes (.seq :: stack) (YamlNode.itemsEvents items) ↔ ∀ n ∈ items, n.Plain
  | [] => by simp [YamlNode.itemsEvents, Passes]
  | n :: items => by
    have hkey : atKey (.seq :: stack) = false := rfl
    have hafter : n.events.foldl after (.seq :: stack) = .seq :: stack := after_events _ n
    rw [YamlNode.itemsEvents, passes_append, passes_events _ n, hafter, passes_itemsEvents stack items,
      List.forall_mem_cons]
    simp [hkey]

theorem passes_pairsEvents (stack : List Ctx) :
    ∀ pairs : List (YamlNode × YamlNode), Passes (.map true :: stack) (YamlNode.pairsEvents pairs) ↔
      ∀ p ∈ pairs, p.1.isCollection = false ∧ p.1.Plain ∧ p.2.Plain
  | [] => by simp [YamlNode.pairsEvents, Passes]
  | (key, value) :: pairs => by
    have hkey : atKey (.map true :: stack) = true := rfl
    have hvalue : atKey (.map false :: stack) = false := rfl
    have hafterKey : key.events.foldl after (.map true :: stack) = .map false :: stack := after_events _ key
    have hafterValue : value.events.foldl after (.map false :: stack) = .map true :: stack := after_events _ value
    rw [YamlNode.pairsEvents, passes_append, passes_append, passes_events _ key, hafterKey, passes_events _ value,
      hafterValue, passes_pairsEvents stack pairs, List.forall_mem_cons]
    simp only [hkey, hvalue, Bool.true_eq_false, imp_false, Bool.not_eq_true, implies_true, and_true]
    tauto

end

theorem passes_documents {docs : List YamlNode} : Passes [] (docs.flatMap YamlNode.events) ↔ ∀ d ∈ docs, d.Plain := by
  induction docs with
  | nil => simp [Passes]
  | cons d docs ih =>
    have hafter : d.events.foldl after [] = [] := after_events [] d
    rw [List.flatMap_cons, passes_append, passes_events, hafter, ih, List.forall_mem_cons]
    simp [atKey]

/-- The scan accepts a stream, given as the nodes of its documents with marks between them, exactly if it has no
    alias, anchor or explicit tag and no collection as a key. -/
theorem scan_accepts_plain_streams [Deps] {text : Text} {stream : List (Event × Marker)} {docs : List YamlNode}
    (hevents : Deps.yamlEvents text = stream.map .ok)
    (hdocs : (stream.map Prod.fst).filter (· ≠ .other) = docs.flatMap YamlNode.events) :
    scanYamlSafety text = .ok () ↔ (∀ e ∈ stream, e.1.Plain) ∧
      ∀ d ∈ docs, ∀ m : YamlNode, m.In d → ∀ key ∈ m.keys, key.isCollection = false := by
  have hplain : (∀ e ∈ stream, e.1.Plain) ↔ ∀ d ∈ docs, ∀ e ∈ d.events, e.Plain := by
    have hmem : ∀ e : Event, e ∈ stream.map Prod.fst ∧ e ≠ .other ↔ ∃ d ∈ docs, e ∈ d.events := by
      intro e
      rw [← List.mem_flatMap, ← hdocs, List.mem_filter, decide_eq_true_eq]
    constructor
    · intro h d hd e he
      obtain ⟨f, hf, rfl⟩ := List.mem_map.mp ((hmem e).mpr ⟨d, hd, he⟩).1
      exact h f hf
    · intro h e he
      by_cases hother : e.1 = .other
      · exact plain_mark (by simp [hother])
      · obtain ⟨d, hd, hde⟩ := (hmem e.1).mp ⟨List.mem_map.mpr ⟨e, he, rfl⟩, hother⟩
        exact h d hd e.1 hde
  rw [scanYamlSafety, hevents, scanEvents_eq_ok, ← passes_filter, hdocs, passes_documents, hplain, ← forall₂_and]
  exact forall₂_congr fun d _ => ⟨fun h => ⟨h.ofEvents, h.ofKeys⟩, fun h => ⟨h.1, h.2⟩⟩

/-- The events of a list under a key and of a list as a key, between the marks of their stream. -/
def markedEvents (t : Text) : List (Except (String × Marker) (Event × Marker)) :=
  if t = "? - a\n: b\n".toList then
    [.ok (.other, ⟨1, 0⟩), .ok (.other, ⟨1, 0⟩), .ok (.mappingStart false false, ⟨1, 0⟩),
      .ok (.sequenceStart false false, ⟨1, 2⟩), .ok (.scalar false false, ⟨1, 4⟩), .ok (.sequenceEnd, ⟨2, 0⟩),
      .ok (.scalar false false, ⟨2, 2⟩), .ok (.mappingEnd, ⟨3, 0⟩), .ok (.other, ⟨3, 0⟩), .ok (.other, ⟨3, 0⟩)]
  else
    [.ok (.other, ⟨1, 0⟩), .ok (.other, ⟨1, 0⟩)] ++ Sample.yamlEvents t ++ [.ok (.other, ⟨3, 0⟩), .ok (.other, ⟨3, 0⟩)]

@[reducible] def marked : Deps := { Sample.deps with yamlEvents := markedEvents }

theorem scan_accepts_nested_value :
    @scanYamlSafety marked "a:\n- a\n".toList = .ok () ∧ @scanYamlSafety marked "? - a\n: b\n".toList ≠ .ok () := by
  refine ⟨by rfl, fun h => ?_⟩
  -- The sequence `- a` is the key of the one pair.
  have hkeys := ((@scan_accepts_plain_streams marked _
    [(.other, ⟨1, 0⟩), (.other, ⟨1, 0⟩), (.mappingStart false false, ⟨1, 0⟩),
      (.sequenceStart false false, ⟨1, 2⟩), (.scalar false false, ⟨1, 4⟩), (.sequenceEnd, ⟨2, 0⟩),
      (.scalar false false, ⟨2, 2⟩), (.mappingEnd, ⟨3, 0⟩), (.other, ⟨3, 0⟩), (.other, ⟨3, 0⟩)]
    [.mapping false false [(.sequence false false [.scalar false false], .scalar false false)]] (by rfl) (by rfl)).mp h).2
  have hkey := hkeys _ (List.mem_singleton_self _) _ .self _ (List.mem_singleton_self _)
  cases hkey

end SafeYaml
end PveMeta
