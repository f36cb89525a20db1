import PveMeta.Lib.Decimal
import PveMeta.Lib.Except
import PveMeta.Perl

/-! # One document, one lock

Perl tells a guest's id from a prefix file's by a regular expression and takes the lock of the id as it is
spelled; Rust parses a number. The two agree on the spellings that are the number's own, and on no other. -/

namespace PveMeta
namespace Perl
open Api

/-- No sign and no superfluous leading zero. -/
def Plain (id : String) : Prop := id.toList.head? ≠ some '+' ∧ (id.toList.head? = some '0' → id = "0")

instance (id : String) : Decidable (Plain id) := inferInstanceAs (Decidable (_ ∧ _))

/-- Perl's reading of an id is Rust's: the same kind of document, the guest's own lock, a write only if the
    guest exists, and the guest's own tags and node. -/
structure Reads (id : String) (doc : DocId) : Prop where
  kind : isGuestId id = doc.isGuest
  lock : ∀ v, doc = .guest v → lockDomainFor id = .ok (hookLock v)
  exists_ : ∀ v vms domain, doc = .guest v → locked vms id = .ok domain →
    (Assoc.get? (DocId.decimal v.toNat) vms.ids).isSome
  acl : ∀ v vms, doc = .guest v → (aclFor vms id).tags = vms.tags (DocId.decimal v.toNat) ∧
    (aclFor vms id).node = (Assoc.get? (DocId.decimal v.toNat) vms.ids).join

variable {s t : String} {a b : DocId}

/-! ### What an accepted id is -/

/-- An accepted id is `prefixes/` and the file's name, or a number with a sign and zeros before it. -/
theorem parseId_eq_ok (h : parseId s = .ok a) :
    (∃ name, a = .registry .prefixDef name ∧ s.toList = "prefixes".toList ++ '/' :: name.toList ∧ nameOf s = name) ∨
      ∃ v ds, a = .guest v ∧ (s.toList = ds ∨ s.toList = '+' :: ds) ∧ ds ≠ [] ∧ ds.all Char.isDigit = true ∧
        Nat.ofDigitChars 10 ds 0 = v.toNat := by
  unfold parseId at h
  split at h
  · next kind name hsplit =>
    dsimp only at h
    split at h
    · cases h
    · next hkind =>
      split at h
      · cases h
      · cases h
        have hk : kind = "prefixes".toList := by
          have := congrArg String.toList (not_not.mp hkind)
          simpa using this
        refine Or.inl ⟨_, rfl, ?_, ?_⟩
        · rw [Text.splitOnce_eq_some hsplit, hk]
          simp
        · rw [nameOf, hsplit]
  · split at h
    · next v hv =>
      cases h
      obtain ⟨ds, hds⟩ := Decimal.parseU32_eq_some hv
      exact Or.inr ⟨v, ds, rfl, hds⟩
    · cases h

theorem decimal_toList (n : Nat) : (DocId.decimal n).toList = Nat.toDigits 10 n := by simp [DocId.decimal]

theorem isGuestId_eq_true (hne : s.toList ≠ []) (hds : s.toList.all Char.isDigit = true) : isGuestId s = true := by
  have hlast : s.toList.getLast? ≠ some '\n' := by
    intro h
    have := List.all_eq_true.mp hds _ (List.mem_of_getLast? h)
    simp at this
  simp [isGuestId, hlast, hds, hne]

/-- A character that is neither a digit nor a newline, and not the last, makes an id no guest's. -/
theorem isGuestId_eq_false {c : Char} {u : Text} (hs : s.toList = c :: u) (hc : c.isDigit = false) :
    isGuestId s = false := by
  unfold isGuestId
  rw [hs]
  dsimp only
  split
  · cases u with
    | nil => rfl
    | cons d u => simp [hc]
  · simp [hc]

theorem plain_decimal (n : Nat) : Plain (DocId.decimal n) := by
  rw [Plain, decimal_toList]
  refine ⟨fun h => ?_, fun h => ?_⟩
  · have := List.all_eq_true.mp (Decimal.all_isDigit_toDigits n) _ (List.mem_of_head? h)
    simp at this
  · rw [Decimal.eq_zero_of_head h]
    rfl

/-- The spellings of a number that Perl reads as Rust does are the number's own. -/
theorem eq_decimal_iff {v : UInt32} {ds : Text} (hs : s.toList = ds ∨ s.toList = '+' :: ds) (hne : ds ≠ [])
    (hds : ds.all Char.isDigit = true) (hv : Nat.ofDigitChars 10 ds 0 = v.toNat) :
    s = DocId.decimal v.toNat ↔ Plain s := by
  constructor
  · rintro rfl
    exact plain_decimal _
  · rintro ⟨hplus, hzero⟩
    have hs : s.toList = ds := hs.resolve_right fun h => hplus (by rw [h]; rfl)
    have hdigits : Nat.toDigits 10 (Nat.ofDigitChars 10 ds 0) = ds := by
      refine Decimal.toDigits_ofDigitChars hne hds fun h => ?_
      rw [← hs, hzero (hs ▸ h)]
      rfl
    rw [← String.toList_inj, decimal_toList, ← hv, hdigits, hs]

/-! ### Reading one id -/

theorem lockDomainFor_guest (h : parseId s = .ok a) (hg : isGuestId s = true) :
    lockDomainFor s = .ok ("pve-meta-" ++ s) := by
  simp only [lockDomainFor, h, Except.ok_bind, hg, if_true]
  rfl

theorem lockDomainFor_registry (h : parseId s = .ok a) (hg : isGuestId s = false) :
    lockDomainFor s = .ok ("pve-meta-prefix-" ++ nameOf s) := by
  simp only [lockDomainFor, h, Except.ok_bind, hg]
  rfl

/-- A prefix file's id is read right however it is spelled: there is one spelling. -/
theorem registry_reads {name : String} (hs : s.toList = "prefixes".toList ++ '/' :: name.toList) :
    Plain s ∧ isGuestId s = false := by
  have hcons : s.toList = 'p' :: ("refixes".toList ++ '/' :: name.toList) := hs
  refine ⟨⟨?_, fun h => ?_⟩, isGuestId_eq_false hcons rfl⟩
  · rw [hcons]
    simp
  · rw [hcons] at h
    cases h

theorem reads_of_plain (h : parseId s = .ok a) (hp : Plain s) : Reads s a := by
  rcases parseId_eq_ok h with ⟨name, rfl, hs, -⟩ | ⟨v, ds, rfl, hs, hne, hds, hv⟩
  · refine ⟨?_, ?_, ?_, ?_⟩
    · rw [(registry_reads hs).2]
      rfl
    all_goals intros; contradiction
  · obtain rfl := (eq_decimal_iff hs hne hds hv).mpr hp
    have hg : isGuestId (DocId.decimal v.toNat) = true := by
      refine isGuestId_eq_true ?_ ?_
      · rw [decimal_toList]
        exact Nat.toDigits_ne_nil
      · rw [decimal_toList]
        exact Decimal.all_isDigit_toDigits _
    refine ⟨hg, ?_, ?_, ?_⟩
    · rintro w ⟨⟩
      exact lockDomainFor_guest h hg
    · rintro w vms domain ⟨⟩ hlocked
      simp only [locked, lockDomainFor_guest h hg, hg, Bool.true_and] at hlocked
      split at hlocked
      · cases hlocked
      · next hsome => simpa [Option.isSome_iff_ne_none] using hsome
    · rintro w vms ⟨⟩
      simp only [aclFor, hg, if_true, and_self]

theorem plain_of_reads (h : parseId s = .ok a) (hr : Reads s a) : Plain s := by
  rcases parseId_eq_ok h with ⟨name, rfl, hs, -⟩ | ⟨v, ds, rfl, hs, hne, hds, hv⟩
  · exact (registry_reads hs).1
  · have hlock := hr.lock v rfl
    rw [lockDomainFor_guest h hr.kind, hookLock] at hlock
    have heq : "pve-meta-" ++ s = "pve-meta-" ++ DocId.decimal v.toNat := by injection hlock
    refine (eq_decimal_iff hs hne hds hv).mp ?_
    simpa [← String.toList_inj] using heq

/-! ### Two ids -/

/-- The two readings agree on both ids, and two ids name one document exactly when their writes take one
    lock. -/
structure Agree (s t : String) (a b : DocId) : Prop where
  left : Reads s a
  right : Reads t b
  lock : lockDomainFor s = lockDomainFor t ↔ a = b

theorem decimal_injective {m n : Nat} (h : DocId.decimal m = DocId.decimal n) : m = n := by
  refine Decimal.toDigits_injective ?_
  rw [← decimal_toList, ← decimal_toList, h]

theorem hookLock_ne (v : UInt32) (name : String) : hookLock v ≠ "pve-meta-prefix-" ++ name := by
  intro h
  have hlist : Nat.toDigits 10 v.toNat = "prefix-".toList ++ name.toList := by
    have hsplit : "pve-meta-prefix-" = "pve-meta-" ++ "prefix-" := by decide
    have hchars := congrArg String.toList h
    rw [hookLock, hsplit, String.append_assoc, String.toList_append, String.toList_append] at hchars
    rw [← decimal_toList, List.append_cancel_left hchars, String.toList_append]
  have hdigit := Decimal.all_isDigit_toDigits v.toNat
  rw [hlist] at hdigit
  simp at hdigit

def lockOf : DocId → String
  | .guest v => hookLock v
  | .registry _ name => "pve-meta-prefix-" ++ name

theorem lockDomainFor_of_reads (h : parseId s = .ok a) (hr : Reads s a) : lockDomainFor s = .ok (lockOf a) := by
  rcases parseId_eq_ok h with ⟨name, rfl, hs, hname⟩ | ⟨v, _, rfl, _⟩
  · rw [lockDomainFor_registry h hr.kind, hname]
    rfl
  · exact hr.lock v rfl

/-- A route's id of a guest that the vmlist has, or of a prefix file, is spelled as both sides read it. -/
theorem plain_of_exists {vms : List UInt32} (hr : isRouted s = true) (hg : guestExists vms s = true) : Plain s := by
  rw [guestExists, Bool.or_eq_true, Bool.not_eq_true', List.any_eq_true] at hg
  rcases hg with hg | ⟨v, -, hv⟩
  · rw [isRouted, hg, Bool.false_or, List.isPrefixOf_iff_prefix] at hr
    obtain ⟨t, ht⟩ := hr
    rw [Plain, ← ht]
    exact ⟨by simp, by simp⟩
  · rw [← beq_iff_eq.mp hv]
    exact plain_decimal _

/-- A write that gets past `assert_guest_exists` runs under its document's own lock. -/
theorem lockDomainFor_of_exists {vms : List UInt32} (h : parseId s = .ok a) (hr : isRouted s = true)
    (hg : guestExists vms s = true) : lockDomainFor s = .ok (lockOf a) :=
  lockDomainFor_of_reads h (reads_of_plain h (plain_of_exists hr hg))

theorem lockOf_inj : lockOf a = lockOf b ↔ a = b := by
  cases a with
  | guest v =>
    cases b with
    | guest w =>
      rw [DocId.guest.injEq]
      refine ⟨fun h => ?_, fun h => by rw [h]⟩
      have hdec : DocId.decimal v.toNat = DocId.decimal w.toNat := (String.append_right_inj "pve-meta-").mp h
      exact UInt32.toNat_inj.mp (decimal_injective hdec)
    | registry kind name => exact iff_of_false (hookLock_ne v name) (fun h => nomatch h)
  | registry kind name =>
    cases b with
    | guest w => exact iff_of_false (hookLock_ne w name).symm (fun h => nomatch h)
    | registry kind' name' =>
      cases kind
      cases kind'
      rw [DocId.registry.injEq]
      exact ⟨fun h => ⟨rfl, (String.append_right_inj "pve-meta-prefix-").mp h⟩, fun h => by rw [h.2]⟩

theorem agree_of_reads (hs : parseId s = .ok a) (ht : parseId t = .ok b) (ha : Reads s a) (hb : Reads t b) :
    Agree s t a b := by
  refine ⟨ha, hb, ?_⟩
  rw [lockDomainFor_of_reads hs ha, lockDomainFor_of_reads ht hb, Except.ok.injEq]
  exact lockOf_inj

/-- Perl and Rust agree on two accepted ids exactly when both are spelled plainly. -/
theorem ids_agree_iff (hs : parseId s = .ok a) (ht : parseId t = .ok b) : Agree s t a b ↔ Plain s ∧ Plain t :=
  ⟨fun h => ⟨plain_of_reads hs h.left, plain_of_reads ht h.right⟩,
    fun h => agree_of_reads hs ht (reads_of_plain hs h.1) (reads_of_plain ht h.2)⟩

/-- Two spellings of guest 100, one of them with a sign. -/
theorem ids_agree_iff_signed : Agree "+100" "100" (.guest 100) (.guest 100) ↔ Plain "+100" ∧ Plain "100" :=
  ids_agree_iff rfl rfl

/-- With its sign, guest 100 is a guest to Rust and none to Perl: its writes take another lock, are not
    checked against the guests there are, and resolve no prefix of the guest's tags. -/
theorem signed_id_disagrees : parseId "+100" = .ok (.guest 100) ∧ parseId "100" = .ok (.guest 100) ∧
    ¬ Agree "+100" "100" (.guest 100) (.guest 100) :=
  ⟨rfl, rfl, fun h => absurd h.left.kind (by decide)⟩

end Perl
end PveMeta
