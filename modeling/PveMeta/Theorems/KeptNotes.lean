import PveMeta.Theorems.KeepComments

/-! # Notes that come back in place

Notes are put back from the first to the last, each behind the key that preceded it. While every key and every
note so far is back, that is where it was; but a note about a note is put back only if the note it is about
already is. So a map gets its notes back exactly if each of them stands behind the note it is about. -/

namespace PveMeta

namespace Value

/-- `w` is `v` or a value in it, at any depth. -/
inductive Inside (w : Value) : Value → Prop where
  | self : Inside w w
  | member {m : Members} {e : String × Value} (he : e ∈ m) (h : Inside w e.2) : Inside w (.object m)
  | item {items : List Value} {v : Value} (hv : v ∈ items) (h : Inside w v) : Inside w (.array items)

end Value

namespace View
open Value

/-- Each note is about the map it is in, or about a key of it. -/
def Annotated (m : Members) : Prop :=
  ∀ k ∈ Assoc.keys m, ∀ subject, noteSubject k = some subject → subject = "" ∨ subject ∈ Assoc.keys m

/-- Each note about a note stands behind it. -/
def Ordered (m : Members) : Prop :=
  ∀ before k v after, m = before ++ (k, v) :: after →
    ∀ subject, noteSubject k = some subject → isCommentKey subject = true → subject ∈ Assoc.keys before

def Bare (v : Value) : Prop := ∀ m, Inside (.object m) v → ∀ k ∈ Assoc.keys m, isCommentKey k = false

/-- What a document with notes is: each of them is a text about the map it is in or a key of it, and none is in
    a list. -/
structure Noted (v : Value) : Prop where
  texts : ∀ m, Inside (.object m) v → ∀ e ∈ m, isCommentKey e.1 = true → e.2.isString = true
  annotated : ∀ m, Inside (.object m) v → Annotated m
  lists : ∀ items, Inside (.array items) v → Bare (.array items)

variable {whole out om nm m done rest : Members} {k : String} {v : Value}

/-! ### Values in values -/

theorem Noted.member {e : String × Value} (h : Noted (.object m)) (he : e ∈ m) : Noted e.2 where
  texts n hn := h.texts n (.member he hn)
  annotated n hn := h.annotated n (.member he hn)
  lists items hi := h.lists items (.member he hi)

theorem Bare.member {e : String × Value} (h : Bare (.object m)) (he : e ∈ m) : Bare e.2 :=
  fun n hn => h n (.member he hn)

theorem Bare.item {items : List Value} (h : Bare (.array items)) (hv : v ∈ items) : Bare v :=
  fun n hn => h n (.item hv hn)

/-! ### Stripping -/

theorem isCommentKey_iff_noteSubject : isCommentKey k = true ↔ ∃ subject, noteSubject k = some subject := by
  unfold isCommentKey noteSubject Text.stripSuffix
  split
  · next h => simp [h]
  · next h => simp [h]

theorem noteSubject_eq_none (h : isCommentKey k = false) : noteSubject k = none := by
  cases hs : noteSubject k with
  | none => rfl
  | some subject =>
    rw [isCommentKey_iff_noteSubject.mpr ⟨subject, hs⟩] at h
    cases h

theorem stripItems_eq (items : List Value) : stripItems items = items.map stripComments := by
  induction items with
  | nil => rfl
  | cons v items ih => rw [stripItems, ih, List.map_cons]

theorem stripMembers_eq (m : Members) :
    stripMembers m = (m.filter fun e => ! isCommentKey e.1).map fun e => (e.1, stripComments e.2) := by
  induction m with
  | nil => rfl
  | cons e m ih =>
    rw [stripMembers, List.filter_cons]
    cases isCommentKey e.1 <;> simp [ih]

theorem stripComments_of_bare (h : Bare v) : stripComments v = v := by
  induction v using Value.ind with
  | array items ih =>
    rw [stripComments, stripItems_eq]
    exact congrArg _ ((List.map_congr_left fun v hv => ih v hv (h.item hv)).trans (List.map_id' _))
  | object m ih =>
    have hplain : m.filter (fun e => ! isCommentKey e.1) = m := by
      refine List.filter_eq_self.mpr fun e he => ?_
      rw [h m .self e.1 (Assoc.mem_keys_of_mem he)]
      rfl
    rw [stripComments, stripMembers_eq, hplain]
    refine congrArg _ ((List.map_congr_left fun e he => ?_).trans (List.map_id _))
    rw [ih e he (h.member he)]
    rfl
  | _ => rfl

theorem isObject_stripComments : (stripComments v).isObject = v.isObject := by cases v <;> rfl

/-! ### Putting one note back -/

/-- `placeNotes` for one stored member. -/
def placeNote (whole : Members) (before : List String) (out : Members) (e : String × Value) : Members :=
  match noteSubject e.1 with
  | none => out
  | some subject =>
    let alive := subject.isEmpty ||
      ((Assoc.get? subject whole).isSome && (Assoc.get? subject out).isSome)
    if ! alive || (Assoc.get? e.1 out).isSome then out
    else out.insertIdx (((before.findSome? (position · out)).map (· + 1)).getD 0) e

theorem placeNotes_cons {before : List String} {e : String × Value} :
    placeNotes whole before out (e :: rest) = placeNotes whole (e.1 :: before) (placeNote whole before out e) rest := rfl

theorem placeNotes_append {before : List String} :
    placeNotes whole before out (done ++ rest) =
      placeNotes whole ((Assoc.keys done).reverse ++ before) (placeNotes whole before out done) rest := by
  induction done generalizing before out with
  | nil => rfl
  | cons e done ih =>
    rw [List.cons_append, placeNotes_cons, ih, placeNotes_cons, Assoc.keys_cons, List.reverse_cons, List.append_assoc]
    rfl

theorem insertIdx_length_append {e : String × Value} : (done ++ rest).insertIdx done.length e = done ++ e :: rest := by
  induction done with
  | nil => rfl
  | cons d done ih => rw [List.cons_append, List.length_cons, List.insertIdx_succ_cons, ih, List.cons_append]

/-- The last key of what is in place stands at its end. -/
theorem position_last {e : String × Value} (hkeys : (Assoc.keys (done ++ [e])).Nodup) :
    position e.1 ((done ++ [e]) ++ rest) = some done.length := by
  have hnot : ∀ d ∈ done, (d.1 == e.1) = false := by
    intro d hd
    rw [Assoc.keys, List.map_append, List.nodup_append] at hkeys
    exact beq_eq_false_iff_ne.mpr (hkeys.2.2 d.1 (List.mem_map_of_mem hd) e.1 (by simp))
  rw [position, List.append_assoc, List.findIdx?_append, List.findIdx?_eq_none_iff.mpr hnot]
  simp [List.findIdx?_cons]

/-- The place of a note is behind everything that stood before it, once that is back. -/
theorem place_eq (hkeys : (Assoc.keys done).Nodup) :
    ((((Assoc.keys done).reverse ++ []).findSome? (position · (done ++ rest))).map (· + 1)).getD 0 = done.length := by
  rcases List.eq_nil_or_concat done with rfl | ⟨init, e, rfl⟩
  · rfl
  · rw [List.concat_eq_append] at hkeys ⊢
    have hlast : (Assoc.keys (init ++ [e])).reverse = e.1 :: (Assoc.keys init).reverse := by
      simp [Assoc.keys]
    rw [hlast, List.cons_append, List.findSome?_cons, position_last hkeys]
    simp

/-! ### All of them -/

/-- The members that are no notes. -/
def plain (m : Members) : Members := m.filter fun e => ! isCommentKey e.1

theorem mem_keys_plain : k ∈ Assoc.keys (plain m) ↔ k ∈ Assoc.keys m ∧ isCommentKey k = false := by
  simp [Assoc.keys, plain]

theorem plain_cons_note {e : String × Value} (h : isCommentKey e.1 = true) : plain (e :: m) = plain m := by
  simp [plain, h]

theorem plain_cons_key {e : String × Value} (h : isCommentKey e.1 = false) : plain (e :: m) = e :: plain m := by
  simp [plain, h]

theorem placeNote_eq {e : String × Value} (hkeys : (Assoc.keys (done ++ e :: rest)).Nodup)
    (hann : Annotated (done ++ e :: rest)) (hord : Ordered (done ++ e :: rest)) :
    placeNote (done ++ e :: rest) ((Assoc.keys done).reverse ++ []) (done ++ plain (e :: rest)) e =
      (done ++ [e]) ++ plain rest := by
  have hmem : e.1 ∈ Assoc.keys (done ++ e :: rest) := Assoc.mem_keys_of_mem (by simp)
  rw [Assoc.keys_append, List.nodup_append] at hkeys
  obtain ⟨hdone, hrest, hdisjoint⟩ := hkeys
  unfold placeNote
  cases hs : noteSubject e.1 with
  | none =>
    have hkey : isCommentKey e.1 = false := by
      rw [← Bool.not_eq_true, isCommentKey_iff_noteSubject, hs]
      simp
    rw [plain_cons_key hkey]
    simp
  | some subject =>
    have hnote : isCommentKey e.1 = true := isCommentKey_iff_noteSubject.mpr ⟨subject, hs⟩
    rw [plain_cons_note hnote]
    have hback : subject ∈ Assoc.keys (done ++ e :: rest) → subject ∈ Assoc.keys (done ++ plain rest) := by
      intro hsub
      rw [Assoc.keys_append, List.mem_append, mem_keys_plain]
      cases hc : isCommentKey subject with
      | true => exact Or.inl (hord done e.1 e.2 rest rfl subject hs hc)
      | false =>
        rw [Assoc.keys_append, List.mem_append, Assoc.keys_cons, List.mem_cons] at hsub
        rcases hsub with hsub | rfl | hsub
        · exact Or.inl hsub
        · rw [hnote] at hc
          cases hc
        · exact Or.inr ⟨hsub, rfl⟩
    have halive : (subject.isEmpty || ((Assoc.get? subject (done ++ e :: rest)).isSome &&
        (Assoc.get? subject (done ++ plain rest)).isSome)) = true := by
      rcases hann e.1 hmem subject hs with rfl | hsub
      · rfl
      · rw [Bool.or_eq_true, Bool.and_eq_true, Assoc.get?_isSome_iff, Assoc.get?_isSome_iff]
        exact Or.inr ⟨hsub, hback hsub⟩
    have hnew : (Assoc.get? e.1 (done ++ plain rest)).isSome = false := by
      rw [← Bool.not_eq_true, Assoc.get?_isSome_iff, Assoc.keys_append, List.mem_append, mem_keys_plain, not_or]
      exact ⟨fun h => hdisjoint e.1 h e.1 List.mem_cons_self rfl, fun h => (List.nodup_cons.mp hrest).1 h.1⟩
    simp only [halive, hnew, Bool.not_true, Bool.or_self, Bool.false_eq_true, if_false]
    rw [place_eq hdone, insertIdx_length_append, List.append_assoc, List.singleton_append]

theorem placeNotes_eq (hwhole : whole = done ++ rest) (hkeys : (Assoc.keys whole).Nodup) (hann : Annotated whole)
    (hord : Ordered whole) :
    placeNotes whole ((Assoc.keys done).reverse ++ []) (done ++ plain rest) rest = whole := by
  subst hwhole
  induction rest generalizing done with
  | nil => rfl
  | cons e rest ih =>
    have happend : done ++ e :: rest = (done ++ [e]) ++ rest := by simp
    rw [placeNotes_cons, placeNote_eq hkeys hann hord]
    have hnext := @ih (done ++ [e]) (happend ▸ hkeys) (happend ▸ hann) (happend ▸ hord)
    rw [Assoc.keys_append, List.reverse_append] at hnext
    rwa [happend]

/-- What a replace hands to `placeNotes`: the plain members, with their own notes back. -/
theorem keepMembers_stripMembers (hkeys : (Assoc.keys om).Nodup) (hsub : ∀ e ∈ m, e ∈ om)
    (h : ∀ e ∈ m, isCommentKey e.1 = false → keepComments e.2 (stripComments e.2) = e.2)
    (hother : ∀ e ∈ m, e.2.isObject = false → stripComments e.2 = e.2) :
    keepMembers om (stripMembers m) = plain m := by
  induction m with
  | nil => rfl
  | cons e m ih =>
    obtain ⟨he, hsub⟩ := List.forall_mem_cons.mp hsub
    obtain ⟨hh, h⟩ := List.forall_mem_cons.mp h
    obtain ⟨hho, hother⟩ := List.forall_mem_cons.mp hother
    rw [stripMembers]
    cases hc : isCommentKey e.1 with
    | true =>
      rw [if_pos rfl, plain_cons_note hc, ih hsub h hother]
    | false =>
      have hget := Assoc.get?_of_mem hkeys he
      rw [if_neg Bool.false_ne_true, plain_cons_key hc, keepMembers, hget, ih hsub h hother]
      dsimp only
      rw [isObject_stripComments]
      cases hobj : e.2.isObject with
      | true => rw [Bool.and_self, if_pos rfl, hh hc]
      | false => rw [Bool.and_self, if_neg Bool.false_ne_true, hho hobj]

/-- A document whose notes about notes stand behind them gets them all back. -/
theorem keepComments_stripComments (hv : v.WF) (hn : Noted v) (hord : ∀ m, Inside (.object m) v → Ordered m) :
    keepComments v (stripComments v) = v := by
  induction v using Value.ind with
  | object m ih =>
    have hmembers : ∀ e ∈ m, keepComments e.2 (stripComments e.2) = e.2 := fun e he =>
      ih e he (hv.members e he) (hn.member he) fun n hi => hord n (.member he hi)
    have hother : ∀ e ∈ m, e.2.isObject = false → stripComments e.2 = e.2 := by
      rintro ⟨k, v⟩ he hobj
      cases v with
      | object n => cases hobj
      | array items => exact stripComments_of_bare ((hn.member he).lists items .self)
      | _ => rfl
    rw [stripComments, keepComments, keepMembers_stripMembers hv.keys (fun _ h => h) (fun e he _ => hmembers e he) hother]
    exact congrArg Value.object
      (@placeNotes_eq m [] m rfl hv.keys (hn.annotated m .self) (hord m .self))
  | array items => exact stripComments_of_bare (hn.lists items .self)
  | _ => rfl

/-! ### A note before its subject -/

theorem get?_insertIdx_ne {i : Nat} {e : String × Value} (h : k ≠ e.1) :
    Assoc.get? k (out.insertIdx i e) = Assoc.get? k out := by
  induction out generalizing i with
  | nil =>
    cases i with
    | zero => simp [Assoc.get?_cons, Ne.symm h]
    | succ i => rfl
  | cons d out ih =>
    cases i with
    | zero => rw [List.insertIdx_zero, Assoc.get?_cons, if_neg (Ne.symm h)]
    | succ i => rw [List.insertIdx_succ_cons, Assoc.get?_cons, Assoc.get?_cons, ih]

theorem get?_placeNote_ne {before : List String} {e : String × Value} (h : k ≠ e.1) :
    Assoc.get? k (placeNote whole before out e) = Assoc.get? k out := by
  unfold placeNote
  split
  · rfl
  · dsimp only
    split
    · rfl
    · exact get?_insertIdx_ne h

theorem get?_placeNotes_of_not_mem {before : List String} (h : k ∉ Assoc.keys rest) :
    Assoc.get? k (placeNotes whole before out rest) = Assoc.get? k out := by
  induction rest generalizing before out with
  | nil => rfl
  | cons e rest ih =>
    rw [Assoc.keys_cons, List.mem_cons, not_or] at h
    rw [placeNotes_cons, ih h.2, get?_placeNote_ne h.1]

theorem get?_placeNotes_of_plain {before : List String} (hk : isCommentKey k = false) :
    Assoc.get? k (placeNotes whole before out rest) = Assoc.get? k out := by
  induction rest generalizing before out with
  | nil => rfl
  | cons e rest ih =>
    rw [placeNotes_cons, ih]
    by_cases he : k = e.1
    · rw [placeNote, ← he, noteSubject_eq_none hk]
    · exact get?_placeNote_ne he

/-- A note whose subject is not there when its turn comes is not put back. -/
theorem placeNote_of_missing {before : List String} {e : String × Value} {subject : String}
    (hs : noteSubject e.1 = some subject) (hne : subject ≠ "") (hmissing : Assoc.get? subject out = none) :
    placeNote whole before out e = out := by
  have hdead : subject.isEmpty = false := by simpa [String.isEmpty_iff] using hne
  simp [placeNote, hs, hdead, hmissing]

/-- If a map gets its notes back, those about notes stand behind them. -/
theorem ordered_of_placeNotes (hkeys : (Assoc.keys om).Nodup) (hout : ∀ k ∈ Assoc.keys out, isCommentKey k = false)
    (h : placeNotes om [] out om = om) : Ordered om := by
  intro before k v after hom subject hs hc
  by_contra hnot
  have hnone : ∀ j, isCommentKey j = true → Assoc.get? j out = none := by
    intro j hj
    rw [Assoc.get?_eq_none_iff]
    intro hmem
    rw [hout j hmem] at hj
    cases hj
  have hk : isCommentKey k = true := isCommentKey_iff_noteSubject.mpr ⟨subject, hs⟩
  rw [hom, Assoc.keys_append, List.nodup_append, Assoc.keys_cons, List.nodup_cons] at hkeys
  obtain ⟨-, ⟨hafter, -⟩, hdisjoint⟩ := hkeys
  have hbefore : k ∉ Assoc.keys before := fun hmem => hdisjoint k hmem k List.mem_cons_self rfl
  have hne : subject ≠ "" := by
    rintro rfl
    exact absurd hc (by decide)
  have hmissing : Assoc.get? subject (placeNotes om [] out before) = none := by
    rw [get?_placeNotes_of_not_mem hnot, hnone subject hc]
  have hget : Assoc.get? k (placeNotes om [] out om) = none := by
    nth_rewrite 2 [hom]
    rw [placeNotes_append, placeNotes_cons, get?_placeNotes_of_not_mem hafter,
      placeNote_of_missing (e := (k, v)) hs hne hmissing, get?_placeNotes_of_not_mem hbefore, hnone k hk]
  rw [h, Assoc.get?_eq_none_iff] at hget
  exact hget (by simp [hom])

/-- What a replace makes of the value of a key. -/
def keptValue (om : Members) (k : String) (v : Value) : Value :=
  match Assoc.get? k om with
  | some ov => if ov.isObject && v.isObject then keepComments ov v else v
  | none => v

theorem keepMembers_cons {e : String × Value} :
    keepMembers om (e :: nm) = (e.1, keptValue om e.1 e.2) :: keepMembers om nm := by
  rw [keepMembers]
  congr 1
  unfold keptValue
  cases Assoc.get? e.1 om with
  | none => rfl
  | some ov =>
    dsimp only
    split <;> rfl

theorem get?_keepMembers : Assoc.get? k (keepMembers om nm) = (Assoc.get? k nm).map (keptValue om k) := by
  induction nm with
  | nil => rfl
  | cons e nm ih =>
    rw [keepMembers_cons, Assoc.get?_cons, Assoc.get?_cons, ih]
    by_cases he : e.1 = k
    · rw [if_pos he, if_pos he, he, Option.map_some]
    · rw [if_neg he, if_neg he]

theorem get?_stripMembers (hk : isCommentKey k = false) :
    Assoc.get? k (stripMembers m) = (Assoc.get? k m).map stripComments := by
  induction m with
  | nil => rfl
  | cons e m ih =>
    rw [stripMembers, Assoc.get?_cons]
    by_cases he : e.1 = k
    · rw [he, hk, if_neg Bool.false_ne_true, if_pos rfl, Assoc.get?_cons_self, Option.map_some]
    · rw [if_neg he]
      split
      · exact ih
      · rw [Assoc.get?_cons, if_neg he, ih]

/-- What a map that a key holds is after a replace, whatever notes are put back beside it. -/
theorem get?_keepComments {ov : Value} (hk : isCommentKey k = false) (hov : Assoc.get? k om = some ov) {w : Value}
    (hw : Assoc.get? k nm = some w) (hobj : ov.isObject = true) (hwobj : w.isObject = true) :
    Assoc.get? k (placeNotes om [] (keepMembers om nm) om) = some (keepComments ov w) := by
  rw [get?_placeNotes_of_plain hk, get?_keepMembers, hw]
  simp [keptValue, hov, hobj, hwobj]

theorem ordered_of_bare (h : Bare v) (hm : Inside (.object m) v) : Ordered m := by
  intro before k w after heq subject hs hc
  have hkey := h m hm k (heq ▸ by simp)
  rw [isCommentKey_iff_noteSubject.mpr ⟨subject, hs⟩] at hkey
  cases hkey

/-- If a document gets all its notes back, those about notes stand behind them. -/
theorem ordered_of_keepComments (hv : v.WF) (hn : Noted v) (h : keepComments v (stripComments v) = v) :
    ∀ m, Inside (.object m) v → Ordered m := by
  induction v using Value.ind with
  | object om ih =>
    rw [stripComments, keepComments, Value.object.injEq] at h
    intro m hm
    cases hm with
    | self =>
      refine ordered_of_placeNotes hv.keys (fun k hk => ?_) h
      rw [keys_keepMembers, stripMembers_eq] at hk
      obtain ⟨d, hd, rfl⟩ := List.mem_map.mp hk
      obtain ⟨e, he, rfl⟩ := List.mem_map.mp hd
      simpa using (List.mem_filter.mp he).2
    | member he hm =>
      rename_i e
      cases hc : isCommentKey e.1 with
      | true =>
        -- A note is a text, with no map in it.
        have htext := hn.texts om .self e he hc
        cases hv2 : e.2 with
        | string s =>
          rw [hv2] at hm
          cases hm
        | _ =>
          rw [hv2] at htext
          cases htext
      | false =>
        cases hobj : e.2.isObject with
        | true =>
          refine ih e he (hv.members e he) (hn.member he) ?_ m hm
          have hown := Assoc.get?_of_mem hv.keys he
          have hstripped : Assoc.get? e.1 (stripMembers om) = some (stripComments e.2) := by
            rw [get?_stripMembers hc, hown, Option.map_some]
          have hkept := get?_keepComments hc hown hstripped hobj (isObject_stripComments.trans hobj)
          rw [h, hown] at hkept
          exact (Option.some.inj hkept).symm
        | false =>
          cases hv2 : e.2 with
          | object n =>
            rw [hv2] at hobj
            cases hobj
          | array items =>
            rw [hv2] at hm
            exact ordered_of_bare ((hn.member he).lists items (hv2 ▸ .self)) hm
          | _ =>
            rw [hv2] at hm
            cases hm
  | array items ih => exact fun m hm => ordered_of_bare (hn.lists items .self) hm
  | _ => intro m hm; cases hm

/-- A document gets its notes back in place exactly if each note about a note stands behind it. -/
theorem keepComments_stripComments_iff (hv : v.WF) (hn : Noted v) :
    keepComments v (stripComments v) = v ↔ ∀ m, Inside (.object m) v → Ordered m :=
  ⟨ordered_of_keepComments hv hn, keepComments_stripComments hv hn⟩

end View
end PveMeta
