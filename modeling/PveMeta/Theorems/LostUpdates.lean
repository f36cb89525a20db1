import PveMeta.Theorems.Clients

/-! # No lost update

The documents are the fold of the acknowledged plans, each made on what the fold had come to; and a digest is used up
by the write that changes the content, until a write brings the content back. -/

namespace PveMeta
namespace Clients
open Api MetaStore

/-- The fold of the acknowledged plans over what the store `s` has. -/
def folded (s : MetaStore) (log : List Ack) : Docs := log.foldl (fun docs a => a.apply docs) s.own

/-- The content of `d`: its own file, or the packaged one of `s`. -/
def contentIn (s : MetaStore) (docs : Docs) (d : DocId) : Option File := (docs d).or (s.packaged d)

theorem folded_append (s : MetaStore) (before mid : List Ack) :
    folded s (before ++ mid) = mid.foldl (fun docs a => a.apply docs) (folded s before) := List.foldl_append

theorem folded_concat (s : MetaStore) (before : List Ack) (a : Ack) :
    folded s (before ++ [a]) = a.apply (folded s before) := folded_append s before [a]

section

variable [Deps] {s : MetaStore} {y : System} {log : List Ack}

/-- What an acknowledged write was checked and planned against: the content that the writes before it left. -/
structure Planned (s : MetaStore) (before : List Ack) (a : Ack) : Prop where
  carried : a.job.request.digest = some a.job.digest
  target : a.job.request.target = .ok (a.job.doc, a.view)
  seen : contentDigest a.job.seen.content = a.job.digest
  fresh : contentDigest (contentIn s (folded s before) a.job.doc) = a.job.digest
  plan : a.job.request.planOn (folded s before a.job.doc) (s.packaged a.job.doc) = .ok (a.stored, a.plan)
  fits : Request.Fits a.change

/-- The state of a run from the store `s`: the documents are the fold of the log. -/
structure Inv (s : MetaStore) (y : System) (log : List Ack) : Prop where
  steady : Steady y
  own : y.store.own = folded s log
  packaged : y.store.packaged = s.packaged
  planned : Log.Justified (Planned s) log

namespace Inv

theorem step (h : Inv s y log) (move : Move) : Inv s (step y move).1 (log ++ (step y move).2) := by
  have hs := Stepped.of_step h.steady move
  have hsteady := hs.steady h.steady
  have hpackaged := hs.packaged.trans h.packaged
  rcases hs.own with ⟨hlog, hown⟩ | ⟨a, ha, hlog, hown⟩
  · rw [hlog, List.append_nil]
    exact ⟨hsteady, hown.trans h.own, hpackaged, h.planned⟩
  · rw [hlog]
    refine ⟨hsteady, by rw [hown, folded_concat, h.own], hpackaged, h.planned.concat ?_⟩
    refine ⟨ha.carried, ha.target, ha.seen, ?_, ?_, ha.fits⟩
    · rw [contentIn, ← h.own, ← h.packaged]
      exact ha.fresh
    · rw [← h.own, ← h.packaged]
      exact ha.plan

theorem start (s : MetaStore) (vms : List UInt32) : Inv s (System.start s vms) [] :=
  ⟨Steady.start s vms, rfl, rfl, Log.justified_nil⟩

theorem run (s : MetaStore) (vms : List UInt32) (moves : List Move) :
    Inv s (run (.start s vms) moves).1 (run (.start s vms) moves).2 :=
  @Log.run_keeps _ _ _ Clients.step (Inv s) (fun _ _ move h => h.step move) _ (start s vms) moves

end Inv

/-! ### Digests in the log -/

variable {d : DocId} {dg : String} {before mid : List Ack} {a : Ack}

/-- One of the writes in `mid`, which follow those in `before`, brings back a content of `d` with the digest `dg`. -/
def Restored (s : MetaStore) (before mid : List Ack) (d : DocId) (dg : String) : Prop :=
  ∃ m₁ k m₂, mid = m₁ ++ k :: m₂ ∧ k.job.doc = d ∧
    contentDigest (contentIn s (folded s (before ++ m₁)) d) ≠ dg ∧
    contentDigest (contentIn s (folded s (before ++ m₁ ++ [k])) d) = dg

/-- A digest that a content has lost, and has again, was brought back. -/
theorem restored (h₀ : contentDigest (contentIn s (folded s before) d) ≠ dg)
    (h₁ : contentDigest (contentIn s (folded s (before ++ mid)) d) = dg) : Restored s before mid d dg := by
  rw [folded_append] at h₁
  obtain ⟨m₁, k, m₂, hmid, hbefore, hafter⟩ :=
    Log.exists_crossing (P := fun docs => contentDigest (contentIn s docs d) = dg) h₀ h₁
  rw [← folded_append] at hbefore hafter
  refine ⟨m₁, k, m₂, hmid, ?_, hbefore, by rw [folded_concat]; exact hafter⟩
  by_contra hd
  rw [contentIn, Ack.apply_ne (Ne.symm hd)] at hafter
  exact hbefore hafter

/-- The write changes the bytes of the document's file, or whether there is one. -/
def Ack.Alters (a : Ack) (docs : Docs) : Prop :=
  (a.file (docs a.job.doc)).map (·.bytes) ≠ (docs a.job.doc).map (·.bytes)

instance (a : Ack) (docs : Docs) : Decidable (a.Alters docs) := inferInstanceAs (Decidable (_ ≠ _))

/-- A write that changes the file and leaves the digest has the packaged file to thank for it. -/
theorem Planned.packaged_of_alters (hinj : ∀ a b, Deps.sha256Hex a = Deps.sha256Hex b → a = b) (h : Planned s before a)
    (halters : a.Alters (folded s before))
    (hsame : contentDigest (contentIn s (folded s (before ++ [a])) a.job.doc) = a.job.digest) :
    ∃ f, s.packaged a.job.doc = some f ∧ identityOf f = a.job.digest := by
  have hfresh := h.fresh
  rw [folded_concat, contentIn, Ack.apply_self, Ack.file] at hsame
  unfold Ack.Alters Ack.file at halters
  cases hc : a.change with
  | keep =>
    rw [hc] at halters
    exact absurd rfl halters
  | remove =>
    rw [hc, Change.file, Option.none_or] at hsame
    cases hp : s.packaged a.job.doc with
    | some f =>
      rw [hp] at hsame
      exact ⟨f, rfl, hsame⟩
    | none =>
      -- The digest is that of no content, so there was no file to remove.
      rw [hp] at hsame
      rw [← hsame, contentIn, hp, Option.or_none] at hfresh
      cases ho : folded s before a.job.doc with
      | none =>
        rw [hc, ho] at halters
        exact absurd rfl halters
      | some f =>
        rw [ho] at hfresh
        exact absurd hfresh (identityOf_ne_empty f)
  | write text =>
    rw [hc, Change.file, Option.some_or] at hsame
    rw [← hsame] at hfresh
    obtain ⟨f, hf, hid⟩ := exists_of_contentDigest hfresh
    rw [contentIn] at hf
    cases ho : folded s before a.job.doc with
    | none =>
      rw [ho, Option.none_or] at hf
      exact ⟨f, hf, hid.trans hsame⟩
    | some g =>
      rw [ho, Option.some_or, Option.some.injEq] at hf
      subst hf
      have hfits := h.fits
      rw [hc] at hfits
      have htext : normalizeTrailingNewline text = text := by
        rw [(Request.change_eq_write hc).trans (Request.planOn_text h.plan), normalize_dump]
      have hbytes := bytes_eq_of_identityOf hinj rfl hfits.1 htext hid
      rw [hc, ho, Change.file, Option.map_some, Option.map_some, hbytes] at halters
      exact absurd rfl halters

/-- Every acknowledged write was planned against the content whose digest it carries, which is the one its client saw;
    the documents are the fold of the acknowledged plans; and a digest is used up by the first write that changes the
    content, and by the first that changes the file unless the packaged file has it too, until a write in between brings
    the content back. -/
structure NoLostUpdate (s : MetaStore) (y : System) (log : List Ack) : Prop where
  planned : ∀ before a after, log = before ++ a :: after → Planned s before a ∧
    (contentIn s (folded s before) a.job.doc).map hashed = a.job.seen.content.map hashed
  final : ∀ d, y.store.own d = folded s log d ∧ y.store.content d = contentIn s (folded s log) d
  content_once : ∀ before a mid b after, log = before ++ a :: mid ++ b :: after → a.job.doc = b.job.doc →
    a.job.digest = b.job.digest → contentDigest (contentIn s (folded s (before ++ [a])) a.job.doc) ≠ a.job.digest →
    Restored s (before ++ [a]) mid a.job.doc a.job.digest
  file_once : ∀ before a mid b after, log = before ++ a :: mid ++ b :: after → a.job.doc = b.job.doc →
    a.job.digest = b.job.digest → a.Alters (folded s before) →
    Restored s (before ++ [a]) mid a.job.doc a.job.digest ∨
      ∃ f, s.packaged a.job.doc = some f ∧ identityOf f = a.job.digest

theorem no_lost_update (hinj : ∀ a b, Deps.sha256Hex a = Deps.sha256Hex b → a = b) (s : MetaStore) (vms : List UInt32)
    (moves : List Move) : NoLostUpdate s (run (.start s vms) moves).1 (run (.start s vms) moves).2 := by
  have hinv := Inv.run s vms moves
  have honce : ∀ before a mid b after, (run (.start s vms) moves).2 = before ++ a :: mid ++ b :: after →
      a.job.doc = b.job.doc → a.job.digest = b.job.digest →
      contentDigest (contentIn s (folded s (before ++ [a])) a.job.doc) ≠ a.job.digest →
      Restored s (before ++ [a]) mid a.job.doc a.job.digest := by
    intro before a mid b after hlog hdoc hdigest hlost
    have hb := (hinv.planned (before ++ a :: mid) b after hlog).fresh
    rw [← hdoc, ← hdigest] at hb
    refine restored hlost ?_
    rwa [List.append_assoc, List.singleton_append]
  refine ⟨fun before a after hlog => ?_, fun d => ⟨by rw [hinv.own], ?_⟩, honce, fun before a mid b after hlog hdoc
    hdigest halters => ?_⟩
  · have ha := hinv.planned before a after hlog
    exact ⟨ha, hashed_eq_of_contentDigest hinj (ha.fresh.trans ha.seen.symm)⟩
  · rw [content, contentIn, hinv.own, hinv.packaged]
  · by_cases hsame : contentDigest (contentIn s (folded s (before ++ [a])) a.job.doc) = a.job.digest
    · have ha := hinv.planned before a (mid ++ b :: after) (by rw [hlog]; simp)
      exact Or.inr (ha.packaged_of_alters hinj halters hsame)
    · exact Or.inl (honce before a mid b after hlog hdoc hdigest hsame)

end

section Samples
open Sample

/-- A packaged prefix file, and a cluster file of the same bytes over it. -/
def shadowed : MetaStore :=
  ⟨[(.prefixDir 0 "app.yaml", ⟨Text.encode "selector:\n  all: true\n".toList, 0⟩),
    (.prefixDir 1 "app.yaml", ⟨Text.encode "selector:\n  all: true\n".toList, 0⟩)], 2, none, none, none, 1⟩

/-- Two clients read the file; one deletes it, and the other then replaces it. -/
def deleteThenPut : List Move :=
  let digest := some (Sample.sha256Hex (Text.encode "selector:\n  all: true\n".toList))
  [.get 0 "prefixes/app" none "yaml" true root, .get 1 "prefixes/app" none "yaml" true root] ++
    writes 0 (.delete ⟨"prefixes/app", none, digest, root⟩) ++
    writes 1 (.put ⟨[], "prefixes/app", none, "yaml", "selector:\n  tag: web\n".toList, "replace", digest, false, false,
      true, root⟩)

theorem no_lost_update_shadowed :
    NoLostUpdate shadowed (run (.start shadowed []) deleteThenPut).1 (run (.start shadowed []) deleteThenPut).2 :=
  no_lost_update (fun _ _ => Sample.sha256Hex_injective) shadowed [] deleteThenPut

/-- The delete leaves the digest, as the packaged file has it too. So both writes carry it, and both change the file,
    with nothing in between. -/
theorem digest_used_twice : (∀ a b, Deps.sha256Hex a = Deps.sha256Hex b → a = b) ∧
    ∃ before a mid b after, (run (.start shadowed []) deleteThenPut).2 = before ++ a :: mid ++ b :: after ∧
      a.job.doc = b.job.doc ∧ a.job.digest = b.job.digest ∧ a.job.request.dryRun = false ∧ b.job.request.dryRun = false ∧
      a.Alters (folded shadowed before) ∧ b.Alters (folded shadowed (before ++ a :: mid)) ∧
      ¬ Restored shadowed (before ++ [a]) mid a.job.doc a.job.digest := by
  refine ⟨fun _ _ => Sample.sha256Hex_injective, ?_⟩
  have hlen : (run (.start shadowed []) deleteThenPut).2.length = 2 := by decide +kernel
  obtain ⟨a, b, hlog⟩ := List.length_eq_two.mp hlen
  have hjobs : ((run (.start shadowed []) deleteThenPut).2.map fun x => (x.job.doc, x.job.digest, x.job.request.dryRun)) =
      List.replicate 2
        (.registry .prefixDef "app", Sample.sha256Hex (Text.encode "selector:\n  all: true\n".toList), false) := by
    decide +kernel
  have hfirst : ∀ x ∈ (run (.start shadowed []) deleteThenPut).2.head?, x.Alters (folded shadowed []) := by decide +kernel
  have hsecond : ∀ x ∈ (run (.start shadowed []) deleteThenPut).2.getLast?,
      x.Alters (folded shadowed ((run (.start shadowed []) deleteThenPut).2.take 1)) := by decide +kernel
  rw [hlog] at hjobs hfirst hsecond
  simp only [List.map_cons, List.map_nil, List.replicate_succ, List.replicate_zero, List.cons.injEq, Prod.mk.injEq,
    and_true] at hjobs
  obtain ⟨⟨hdoc, hdigest, hdry⟩, hdoc', hdigest', hdry'⟩ := hjobs
  refine ⟨[], a, [], b, [], hlog, hdoc.trans hdoc'.symm, hdigest.trans hdigest'.symm, hdry, hdry', hfirst a rfl,
    hsecond b rfl, ?_⟩
  rintro ⟨m₁, k, m₂, hmid, -⟩
  cases m₁ <;> cases hmid

end Samples

end Clients
end PveMeta
