import GoMedibloc.Ledger.Registry

/-!
# Certificates agree on both sides

A certificate is stored twice, with its issuer and with the certified account, under its hash.
Adding one needs both places to be free; revoking one overwrites the copy of the issuer, and the
copy that is found through it.  Hashes are chosen by issuers, so several issuers may use one hash
for different accounts, and the copies must not be mixed up.

Revoking sets the time of revocation to the timestamp of the block.  Timestamps start at zero and
increase, so a revoked certificate is never taken for one that is not, and stays as it is.
-/

namespace GoMedibloc

open Except

/-! ## The two copies in the registry -/

namespace Registry

variable {g : Registry} {a : Address} {hash : Bytes} {cert : Certification}

lemma receive_certReceived (b : Address) (k : Bytes) :
    ((g.receive a hash cert).data b).certReceived k =
      if b = a ∧ k = hash then some cert else (g.data b).certReceived k := by
  unfold receive
  by_cases hb : b = a
  · rw [hb, setData_self]
    by_cases hk : k = hash
    · rw [hk, if_pos ⟨rfl, rfl⟩]
      exact Function.update_self _ _ _
    · rw [if_neg fun h => hk h.2]
      exact Function.update_of_ne hk _ _
  · rw [setData_of_ne hb, if_neg fun h => hb h.1]

lemma issue_certIssued (b : Address) (k : Bytes) :
    ((g.issue a hash cert).data b).certIssued k =
      if b = a ∧ k = hash then some cert else (g.data b).certIssued k := by
  unfold issue
  by_cases hb : b = a
  · rw [hb, setData_self]
    by_cases hk : k = hash
    · rw [hk, if_pos ⟨rfl, rfl⟩]
      exact Function.update_self _ _ _
    · rw [if_neg fun h => hk h.2]
      exact Function.update_of_ne hk _ _
  · rw [setData_of_ne hb, if_neg fun h => hb h.1]

@[simp] lemma receive_certIssued (b : Address) :
    ((g.receive a hash cert).data b).certIssued = (g.data b).certIssued := by
  refine setData_proj (f := AccountData.certIssued) ?_ b
  rfl

@[simp] lemma issue_certReceived (b : Address) :
    ((g.issue a hash cert).data b).certReceived = (g.data b).certReceived := by
  refine setData_proj (f := AccountData.certReceived) ?_ b
  rfl

end Registry

/-- The copies of certificates: what accounts have issued and received under a hash. -/
structure Copies where
  issued : Address → Bytes → Option Certification
  received : Address → Bytes → Option Certification

/-- The copies in a registry. -/
def Registry.copies (g : Registry) : Copies :=
  ⟨fun a => (g.data a).certIssued, fun a => (g.data a).certReceived⟩

/-- Other data of one account. -/
lemma Registry.copies_eq {g g' : Registry} {a : Address} {d : AccountData}
    (hdata : g'.data = Function.update g.data a d) (hissued : d.certIssued = (g.data a).certIssued)
    (hreceived : d.certReceived = (g.data a).certReceived) : g'.copies = g.copies := by
  unfold copies
  rw [hdata, Copies.mk.injEq]
  refine ⟨funext fun b => ?_, funext fun b => ?_⟩
  · by_cases hb : b = a
    · rw [hb, Function.update_self, hissued]
    · rw [Function.update_of_ne hb]
  · by_cases hb : b = a
    · rw [hb, Function.update_self, hreceived]
    · rw [Function.update_of_ne hb]

/-- Both copies of a certificate are there and equal, and a time of revocation is none or not
negative. -/
structure CertificatesMirrored (k : Copies) : Prop where
  issued : ∀ a hash c, k.issued a hash = some c →
    c.issuer = a ∧ k.received c.certified hash = some c
  received : ∀ b hash c, k.received b hash = some c →
    c.certified = b ∧ k.issued c.issuer hash = some c
  revoked : ∀ a hash c, k.issued a hash = some c →
    c.revocationTime = -1 ∨ 0 ≤ c.revocationTime

/-- Both copies of one certificate are written. -/
def Copies.Write (k k' : Copies) (hash : Bytes) (c : Certification) : Prop :=
  (∀ a h, k'.issued a h = if a = c.issuer ∧ h = hash then some c else k.issued a h) ∧
    ∀ b h, k'.received b h = if b = c.certified ∧ h = hash then some c else k.received b h

/-- Certificates stay mirrored if both copies are written where there was no certificate, or
over both copies of one of the same issuer and certified account. -/
lemma CertificatesMirrored.write {k k' : Copies} {hash : Bytes} {c : Certification}
    (h : CertificatesMirrored k) (hwrite : k.Write k' hash c)
    (hissued : ∀ d, k.issued c.issuer hash = some d → d.certified = c.certified)
    (hreceived : ∀ d, k.received c.certified hash = some d → d.issuer = c.issuer)
    (htime : c.revocationTime = -1 ∨ 0 ≤ c.revocationTime) : CertificatesMirrored k' := by
  obtain ⟨hissue, hreceive⟩ := hwrite
  refine ⟨?_, ?_, ?_⟩
  · intro a k₁ d hd
    rw [hissue] at hd
    split_ifs at hd with hcase
    · obtain ⟨rfl, rfl⟩ := hcase
      obtain rfl := Option.some_inj.1 hd
      exact ⟨rfl, by rw [hreceive, if_pos ⟨rfl, rfl⟩]⟩
    · obtain ⟨hissuer, hcopy⟩ := h.issued a k₁ d hd
      refine ⟨hissuer, ?_⟩
      rw [hreceive, if_neg, hcopy]
      -- a copy that is overwritten belongs to the issuer that writes
      rintro ⟨hcert, rfl⟩
      rw [hcert] at hcopy
      exact hcase ⟨hissuer.symm.trans (hreceived d hcopy), rfl⟩
  · intro b k₁ d hd
    rw [hreceive] at hd
    split_ifs at hd with hcase
    · obtain ⟨rfl, rfl⟩ := hcase
      obtain rfl := Option.some_inj.1 hd
      exact ⟨rfl, by rw [hissue, if_pos ⟨rfl, rfl⟩]⟩
    · obtain ⟨hcert, hcopy⟩ := h.received b k₁ d hd
      refine ⟨hcert, ?_⟩
      rw [hissue, if_neg, hcopy]
      rintro ⟨hissuer, rfl⟩
      rw [hissuer] at hcopy
      exact hcase ⟨hcert.symm.trans (hissued d hcopy), rfl⟩
  · intro a k₁ d hd
    rw [hissue] at hd
    split_ifs at hd with hcase
    · obtain rfl := Option.some_inj.1 hd
      exact htime
    · exact h.revoked a k₁ d hd

/-- What a step does to the copies: nothing, or one certificate is written, which was not there
or not revoked. -/
lemma RegistryStep.copies {ts : ℤ} {g g' : Registry} {op : Operation}
    (h : RegistryStep ts g op g') :
    g'.copies = g.copies ∨ ∃ hash c, g.copies.Write g'.copies hash c ∧
      ((g.copies.issued c.issuer hash = none ∧ g.copies.received c.certified hash = none ∧
          c.revocationTime = -1) ∨
        ∃ d, g.copies.issued c.issuer hash = some d ∧ d.revocationTime ≤ -1 ∧
          c = { d with revocationTime := ts }) := by
  cases h with
  | keep hop => exact .inl rfl
  | registerAlias hnone hfree => exact .inl (Registry.copies_eq rfl rfl rfl)
  | deregisterAlias hrecord howner => exact .inl (Registry.copies_eq rfl rfl rfl)
  | becomeCandidate hnone halias => exact .inl (Registry.copies_eq rfl rfl rfl)
  | quitCandidacy hid hc => exact .inl (Registry.copies_eq rfl rfl rfl)
  | @addCertification issuer certified hash issueTime expirationTime hreceived hissued =>
      refine .inr ⟨hash, ⟨hash, issuer, certified, issueTime, expirationTime, -1⟩, ⟨?_, ?_⟩,
        .inl ⟨hissued, hreceived, rfl⟩⟩
      · intro a k
        simp only [Registry.copies, Registry.issue_certIssued, Registry.receive_certIssued]
      · intro b k
        simp only [Registry.copies, Registry.issue_certReceived, Registry.receive_certReceived]
  | @revokeCertification revoker hash cert hcert hissuer hrevoked hexpired =>
      refine .inr ⟨hash, { cert with revocationTime := ts }, ⟨?_, ?_⟩,
        .inr ⟨cert, by rw [← hissuer] at hcert; exact hcert, hrevoked, rfl⟩⟩
      · intro a k
        simp only [Registry.copies, Registry.receive_certIssued, Registry.issue_certIssued, hissuer]
      · intro b k
        simp only [Registry.copies, Registry.receive_certReceived, Registry.issue_certReceived]

/-- A step at a timestamp that is not negative keeps certificates mirrored, and leaves the copies
of a revoked one. -/
lemma CertificatesMirrored.step {ts : ℤ} {g g' : Registry} {op : Operation}
    (h : CertificatesMirrored g.copies) (hts : 0 ≤ ts) (hstep : RegistryStep ts g op g') :
    CertificatesMirrored g'.copies ∧
      ∀ a hash c, g.copies.issued a hash = some c → c.revocationTime ≠ -1 →
        g'.copies.issued a hash = some c := by
  obtain heq | ⟨hash, c, hwrite, ⟨hissued, hreceived, htime⟩ | ⟨d, hd, hrevoked, rfl⟩⟩ :=
    hstep.copies
  · rw [heq]
    exact ⟨h, fun _ _ _ hc _ => hc⟩
  · refine ⟨h.write hwrite ?_ ?_ (.inl htime), fun a k x hx _ => ?_⟩
    · intro d hd
      rw [hissued] at hd
      cases hd
    · intro d hd
      rw [hreceived] at hd
      cases hd
    · rw [hwrite.1, if_neg, hx]
      rintro ⟨rfl, rfl⟩
      rw [hissued] at hx
      cases hx
  · obtain ⟨hissuer, hcopy⟩ := h.issued _ _ _ hd
    refine ⟨h.write hwrite ?_ ?_ (.inr hts), fun a k x hx hset => ?_⟩
    · intro d' hd'
      rw [Option.some_inj.1 (hd'.symm.trans hd)]
    · intro d' hd'
      rw [Option.some_inj.1 (hd'.symm.trans hcopy)]
    · rw [hwrite.1, if_neg, hx]
      -- the certificate that is written over was not revoked
      rintro ⟨rfl, rfl⟩
      obtain rfl := Option.some_inj.1 (hx.symm.trans hd)
      obtain hnone | hnonneg := h.revoked _ _ _ hx
      · exact hset hnone
      · omega

/-! ## Certificates along runs -/

section Runs

variable {env : Env} {rule : ℕ → Transaction → Prop} {l l' : Ledger}

lemma CertificatesMirrored.ledgerStep (h : CertificatesMirrored l.state.registry.copies)
    (hts : 0 ≤ l.state.timestamp) (hstep : LedgerStep env (· < ·) rule l l') :
    CertificatesMirrored l'.state.registry.copies ∧
      ∀ a hash c, l.state.registry.copies.issued a hash = some c → c.revocationTime ≠ -1 →
        l'.state.registry.copies.issued a hash = some c := by
  cases hstep.registry with
  | still haccepted hregistry =>
      rw [hregistry]
      exact ⟨h, fun _ _ _ hc _ => hc⟩
  | accept hrule haccept haccepted hfrom hregistry =>
      obtain heq | hmove := hregistry
      · rw [heq]
        exact ⟨h, fun _ _ _ hc _ => hc⟩
      · exact h.step hts hmove

lemma Reachable.certificatesMirrored (h : Reachable env (· < ·) rule l) :
    CertificatesMirrored l.state.registry.copies := by
  induction h with
  | refl => exact ⟨fun _ _ _ h => (by cases h), fun _ _ _ h => (by cases h),
      fun _ _ _ h => (by cases h)⟩
  | tail hrun hstep ih =>
      exact (ih.ledgerStep (Reachable.timestamp_nonneg hrun fun _ _ h => h) hstep).1

/-- A revoked certificate of an issuer stays along every run. -/
lemma Reachable.revoked_stays (h : Reachable env (· < ·) rule l)
    (hrun : Relation.ReflTransGen (LedgerStep env (· < ·) rule) l l') {a : Address} {hash : Bytes}
    {c : Certification} (hc : l.state.registry.copies.issued a hash = some c)
    (hset : c.revocationTime ≠ -1) : l'.state.registry.copies.issued a hash = some c := by
  induction hrun with
  | refl => exact hc
  | tail hrun hstep ih =>
      have hreach : Reachable env (· < ·) rule _ := h.trans hrun
      have hmirrored := hreach.certificatesMirrored
      have hts := hreach.timestamp_nonneg fun _ _ h => h
      exact (hmirrored.ledgerStep hts hstep).2 a hash c ih hset

/-- The certificate that a stored account has issued under a hash. -/
def BlockState.certIssued (s : BlockState) (a : Address) (hash : Bytes) : Option Certification :=
  (s.account? a).bind fun acc => acc.certIssued.lookup hash

/-- The certificate that a stored account has received under a hash. -/
def BlockState.certReceived (s : BlockState) (a : Address) (hash : Bytes) :
    Option Certification :=
  (s.account? a).bind fun acc => acc.certReceived.lookup hash

lemma BlockState.copies_issued (s : BlockState) (a : Address) (hash : Bytes) :
    s.registry.copies.issued a hash = s.certIssued a hash := by
  change ((s.account? a).elim default Account.data).certIssued hash = _
  unfold certIssued
  cases s.account? a <;> rfl

lemma BlockState.copies_received (s : BlockState) (a : Address) (hash : Bytes) :
    s.registry.copies.received a hash = s.certReceived a hash := by
  change ((s.account? a).elim default Account.data).certReceived hash = _
  unfold certReceived
  cases s.account? a <;> rfl

/-- **Certificates agree on both sides.**  An account has issued a certificate for another under
a hash if and only if that account has received one of the issuer under the hash, and then the
two are equal.  A certificate that is revoked stays as it is, on both sides. -/
theorem certificates_agree (env : Env) (rule : ℕ → Transaction → Prop) {l : Ledger}
    (h : Reachable env (· < ·) rule l) :
    (∀ a b hash, (∃ c, l.state.certIssued a hash = some c ∧ c.certified = b) ↔
      ∃ c, l.state.certReceived b hash = some c ∧ c.issuer = a) ∧
    (∀ a b hash c d, l.state.certIssued a hash = some c → c.certified = b →
      l.state.certReceived b hash = some d → d.issuer = a → c = d) ∧
    (∀ l', Relation.ReflTransGen (LedgerStep env (· < ·) rule) l l' → ∀ a hash c,
      c.revocationTime ≠ -1 →
      (l.state.certIssued a hash = some c → l'.state.certIssued a hash = some c) ∧
      (l.state.certReceived a hash = some c → l'.state.certReceived a hash = some c)) := by
  have hm := h.certificatesMirrored
  refine ⟨fun a b hash => ⟨?_, ?_⟩, ?_, ?_⟩
  · rintro ⟨c, hc, rfl⟩
    rw [← BlockState.copies_issued] at hc
    obtain ⟨hissuer, hcopy⟩ := hm.issued a hash c hc
    exact ⟨c, by rw [← BlockState.copies_received, hcopy], hissuer⟩
  · rintro ⟨c, hc, rfl⟩
    rw [← BlockState.copies_received] at hc
    obtain ⟨hcert, hcopy⟩ := hm.received b hash c hc
    exact ⟨c, by rw [← BlockState.copies_issued, hcopy], hcert⟩
  · rintro a b hash c d hc rfl hd hissuer
    rw [← BlockState.copies_issued] at hc
    rw [← BlockState.copies_received] at hd
    exact Option.some_inj.1 ((hm.issued a hash c hc).2.symm.trans hd)
  · intro l' hrun a hash c hset
    constructor
    · intro hc
      rw [← BlockState.copies_issued] at hc ⊢
      exact h.revoked_stays hrun hc hset
    · intro hc
      rw [← BlockState.copies_received] at hc ⊢
      obtain ⟨hcert, hcopy⟩ := hm.received a hash c hc
      have hreach : Reachable env (· < ·) rule l' := h.trans hrun
      have hstays := hreach.certificatesMirrored.issued _ _ _ (h.revoked_stays hrun hcopy hset)
      rw [← hcert, hstays.2]

/-- A genesis configuration with a certificate that one account issues for another. -/
def certificateConfiguration : List Transaction :=
  [Plain.distribution 1 (Plain.address 1) (.ofUint 1000),
    Plain.signed ⟨.addCertification, Plain.address 1, Plain.address 2, .zero, 1, 0,
      List.replicate 32 7⟩]

/-- The certificate of the configuration is found on both sides. -/
theorem configured_certificate_agrees :
    ∃ l, Reachable .plain (· < ·) (Admitted .plain 0) l ∧
      (∃ c, l.state.certIssued (Plain.address 1) (List.replicate 32 7) = some c ∧
        c.certified = Plain.address 2) ∧
      ∃ c, l.state.certReceived (Plain.address 2) (List.replicate 32 7) = some c ∧
        c.issuer = Plain.address 1 := by
  have hrule : ∀ tx ∈ certificateConfiguration, Admitted .plain 0 genesisHeight tx := by
    decide +kernel
  have hrun : (Ledger.start.acceptAll .plain certificateConfiguration).map (fun l =>
      (l.state.certIssued (Plain.address 1) (List.replicate 32 7)).map Certification.certified) =
      .ok (some (Plain.address 2)) := by
    decide +kernel
  obtain ⟨l, hl, heq⟩ := Reachable.of_acceptAll hrule hrun
  have hissued := Option.map_eq_some_iff.1 heq
  exact ⟨l, hl, hissued, ((certificates_agree .plain _ hl).1 _ _ _).1 hissued⟩

end Runs

end GoMedibloc
