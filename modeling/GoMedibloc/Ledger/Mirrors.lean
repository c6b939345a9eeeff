import GoMedibloc.Ledger.Registry

/-!
# The registries of candidates and aliases mirror the accounts

Both copies of each fact agree: a candidate record belongs to the account that has its id, and
an alias to the account that has its record.  For candidates this needs that no two accepted
transactions have the same hash, since the hash is the id.

A candidate needs an alias to become one, but nothing keeps it from deregistering the alias
later: `DeregisterAliasTx.Execute` does not look at the candidate id.
-/

namespace GoMedibloc

open Except

variable {env : Env} {height : ℕ} {s s' : BlockState}

/-! ## Both copies of a candidacy agree -/

/-- Candidate records belong to the accounts with their ids, and the ids are hashes of accepted
transactions. -/
structure CandidatesMirrored (hashes : List Bytes) (g : Registry) : Prop where
  owner : ∀ i p, g.candidates i = some p →
    p.1 = i ∧ (g.data p.2).candidateID = i ∧ i ≠ [] ∧ i ∈ hashes
  record : ∀ a, (g.data a).candidateID ≠ [] →
    g.candidates (g.data a).candidateID = some ((g.data a).candidateID, a)

namespace CandidatesMirrored

variable {hashes : List Bytes} {hash : Bytes} {g g' : Registry} {ts : ℤ} {op : Operation}

lemma empty : CandidatesMirrored [] .empty where
  owner i p h := by cases h
  record a h := absurd rfl h

lemma congr (h : CandidatesMirrored hashes g) (hcandidates : g'.candidates = g.candidates)
    (hid : ∀ a, (g'.data a).candidateID = (g.data a).candidateID) :
    CandidatesMirrored (hash :: hashes) g' where
  owner i p hp := by
    rw [hcandidates] at hp
    obtain ⟨hkey, hdata, hne, hmem⟩ := h.owner i p hp
    exact ⟨hkey, (hid _).trans hdata, hne, List.mem_cons_of_mem _ hmem⟩
  record a ha := by
    rw [hid] at ha ⊢
    rw [hcandidates]
    exact h.record a ha

/-- A new candidate under a new hash. -/
lemma become (h : CandidatesMirrored hashes g) {addr : Address}
    (hnone : (g.data addr).candidateID = []) (hne : hash ≠ []) (hnew : hash ∉ hashes) :
    CandidatesMirrored (hash :: hashes)
      { g.setData addr { g.data addr with candidateID := hash } with
        candidates := Function.update g.candidates hash (some (hash, addr)) } where
  owner i p hp := by
    dsimp only at hp ⊢
    by_cases hi : i = hash
    · rw [hi, Function.update_self, Option.some_inj] at hp
      rw [hi, ← hp, Registry.setData_self]
      exact ⟨rfl, rfl, hne, List.mem_cons_self⟩
    · rw [Function.update_of_ne hi] at hp
      obtain ⟨hkey, hdata, hnil, hmem⟩ := h.owner i p hp
      -- its account is another one, since the new candidate had no id before
      have hp2 : p.2 ≠ addr := by
        intro heq
        rw [heq, hnone] at hdata
        exact hnil hdata.symm
      rw [Registry.setData_of_ne hp2]
      exact ⟨hkey, hdata, hnil, List.mem_cons_of_mem _ hmem⟩
  record a ha := by
    dsimp only at ha ⊢
    by_cases haddr : a = addr
    · rw [haddr, Registry.setData_self, Function.update_self]
    · rw [Registry.setData_of_ne haddr] at ha ⊢
      have hrecord := h.record a ha
      have hi : (g.data a).candidateID ≠ hash := by
        intro heq
        rw [heq] at hrecord
        exact hnew (h.owner _ _ hrecord).2.2.2
      rw [Function.update_of_ne hi, hrecord]

/-- A candidate quits. -/
lemma quit (h : CandidatesMirrored hashes g) {addr : Address}
    (hid : (g.data addr).candidateID ≠ []) :
    CandidatesMirrored (hash :: hashes)
      { g.setData addr { g.data addr with candidateID := [] } with
        candidates := Function.update g.candidates (g.data addr).candidateID none } where
  owner i p hp := by
    dsimp only at hp ⊢
    have hi : i ≠ (g.data addr).candidateID := by
      rintro rfl
      rw [Function.update_self] at hp
      cases hp
    rw [Function.update_of_ne hi] at hp
    obtain ⟨hkey, hdata, hnil, hmem⟩ := h.owner i p hp
    have hp2 : p.2 ≠ addr := by
      intro heq
      rw [heq] at hdata
      exact hi hdata.symm
    rw [Registry.setData_of_ne hp2]
    exact ⟨hkey, hdata, hnil, List.mem_cons_of_mem _ hmem⟩
  record a ha := by
    dsimp only at ha ⊢
    have haddr : a ≠ addr := by
      rintro rfl
      rw [Registry.setData_self] at ha
      exact ha rfl
    rw [Registry.setData_of_ne haddr] at ha ⊢
    have hrecord := h.record a ha
    -- two accounts with one id would both be the owner of its record
    have hi : (g.data a).candidateID ≠ (g.data addr).candidateID := by
      intro heq
      rw [heq, h.record addr hid, Option.some_inj, Prod.mk.injEq] at hrecord
      exact haddr hrecord.2.symm
    rw [Function.update_of_ne hi, hrecord]

lemma step (h : CandidatesMirrored hashes g) (hstep : RegistryStep ts g op g')
    (hnew : ∀ txHash addr collateral url, op = .becomeCandidate txHash addr collateral url →
      txHash = hash ∧ hash ≠ [] ∧ hash ∉ hashes) :
    CandidatesMirrored (hash :: hashes) g' := by
  cases hstep with
  | keep hop => exact h.congr rfl fun _ => rfl
  | registerAlias hnone hfree =>
      exact h.congr rfl (Registry.setData_proj rfl)
  | deregisterAlias hrecord howner =>
      exact h.congr rfl (Registry.setData_proj rfl)
  | addCertification hreceived hissued =>
      refine h.congr rfl fun a => ?_
      rw [Registry.issue_candidateID, Registry.receive_candidateID]
  | revokeCertification hcert hissuer hrevoked hexpired =>
      refine h.congr rfl fun a => ?_
      rw [Registry.receive_candidateID, Registry.issue_candidateID]
  | becomeCandidate hnone halias =>
      obtain ⟨rfl, hne, hmem⟩ := hnew _ _ _ _ rfl
      exact h.become hnone hne hmem
  | quitCandidacy hid hc => exact h.quit hid

end CandidatesMirrored

/-! ## Both copies of an alias agree -/

/-- Alias entries belong to the accounts with their records. -/
def AliasesMirrored (g : Registry) : Prop :=
  ∀ n a, g.aliases n = some a ↔ ∃ r, (g.data a).aliasRecord = some r ∧ r.aliasName = n

namespace AliasesMirrored

variable {g g' : Registry} {ts : ℤ} {op : Operation}

lemma empty : AliasesMirrored .empty := by
  intro n a
  simp [Registry.empty, default]

lemma congr (h : AliasesMirrored g) (haliases : g'.aliases = g.aliases)
    (hrecord : ∀ a, (g'.data a).aliasRecord = (g.data a).aliasRecord) : AliasesMirrored g' := by
  intro n a
  rw [haliases, hrecord]
  exact h n a

lemma register (h : AliasesMirrored g) {addr : Address} {collateral : Uint128} {name : Bytes}
    (hnone : (g.data addr).aliasRecord = none) (hfree : g.aliases name = none) :
    AliasesMirrored
      { g.setData addr { g.data addr with aliasRecord := some ⟨name, collateral⟩ } with
        aliases := Function.update g.aliases name (some addr) } := by
  intro n a
  dsimp only
  by_cases ha : a = addr
  · rw [ha, Registry.setData_self]
    by_cases hn : n = name
    · simp [hn]
    · rw [Function.update_of_ne hn, h n addr]
      simp [hnone, Ne.symm hn]
  · rw [Registry.setData_of_ne ha]
    by_cases hn : n = name
    · rw [hn, Function.update_self, ← h name a, hfree]
      simp [Ne.symm ha]
    · rw [Function.update_of_ne hn]
      exact h n a

lemma deregister (h : AliasesMirrored g) {addr : Address} {record : Alias}
    (hrecord : (g.data addr).aliasRecord = some record)
    (howner : g.aliases record.aliasName = some addr) :
    AliasesMirrored
      { g.setData addr { g.data addr with aliasRecord := none } with
        aliases := Function.update g.aliases record.aliasName none } := by
  intro n a
  dsimp only
  by_cases ha : a = addr
  · rw [ha, Registry.setData_self]
    by_cases hn : n = record.aliasName
    · simp [hn]
    · rw [Function.update_of_ne hn, h n addr, hrecord]
      simp [Ne.symm hn]
  · rw [Registry.setData_of_ne ha]
    by_cases hn : n = record.aliasName
    · rw [hn, Function.update_self, ← h record.aliasName a, howner]
      simp [Ne.symm ha]
    · rw [Function.update_of_ne hn]
      exact h n a

lemma step (h : AliasesMirrored g) (hstep : RegistryStep ts g op g') : AliasesMirrored g' := by
  cases hstep with
  | keep hop => exact h
  | registerAlias hnone hfree => exact h.register hnone hfree
  | deregisterAlias hrecord howner => exact h.deregister hrecord howner
  | addCertification hreceived hissued =>
      refine h.congr rfl fun a => ?_
      rw [Registry.issue_aliasRecord, Registry.receive_aliasRecord]
  | revokeCertification hcert hissuer hrevoked hexpired =>
      refine h.congr rfl fun a => ?_
      rw [Registry.receive_aliasRecord, Registry.issue_aliasRecord]
  | becomeCandidate hnone halias => exact h.congr rfl (Registry.setData_proj rfl)
  | quitCandidacy hid hc => exact h.congr rfl (Registry.setData_proj rfl)

end AliasesMirrored

/-! ## The registries along runs -/

section Mirrors

variable {chainID : UInt32} {tick : ℤ → ℤ → Prop} {l l' : Ledger}

/-- The invariant of runs whose accepted transactions differ in their hashes. -/
structure Mirrored (l : Ledger) : Prop where
  candidates : CandidatesMirrored (l.accepted.map fun tx => tx.hash) l.state.registry
  aliases : AliasesMirrored l.state.registry

lemma Mirrored.step (h : Mirrored l) (hstep : LedgerStep env tick (Admitted env chainID) l l')
    (hnodup : (l'.accepted.map fun tx => tx.hash).Nodup) : Mirrored l' := by
  cases hstep.registry with
  | still haccepted hregistry =>
      refine ⟨?_, ?_⟩
      · rw [haccepted, hregistry]
        exact h.candidates
      · rw [hregistry]
        exact h.aliases
  | @accept tx r exeTx hrule haccept haccepted hfrom hregistry =>
      rw [haccepted, List.map_cons, List.nodup_cons] at hnodup
      have hnew : ∀ txHash addr collateral url,
          exeTx.op = .becomeCandidate txHash addr collateral url →
          txHash = tx.hash ∧ tx.hash ≠ [] ∧ tx.hash ∉ l.accepted.map fun tx => tx.hash := by
        intro txHash addr collateral url hop
        have hfits := hfrom.fits
        have hkind := hfrom.kind
        rw [hop] at hfits hkind
        have htype : ¬ tx.txType.IsGenesis := by
          rw [← hkind]
          change ¬ TxType.IsGenesis .becomeCandidate
          decide
        have hsigner := (hrule.signer htype).2
        refine ⟨hfits.1, fun hnil => ?_, hnodup.1⟩
        rw [hnil, env.recoverPublic_nil] at hsigner
        cases hsigner
      refine ⟨?_, ?_⟩
      · rw [haccepted, List.map_cons]
        obtain heq | hmove := hregistry
        · rw [heq]
          exact h.candidates.congr rfl fun _ => rfl
        · exact h.candidates.step hmove hnew
      · obtain heq | hmove := hregistry
        · rw [heq]
          exact h.aliases
        · exact h.aliases.step hmove

/-- A genesis configuration that makes address 1 a candidate with an alias and a stake. -/
def candidateConfiguration : List Transaction :=
  let collateral := Uint128.ofUint 1000000000000000000
  [Plain.distribution 1 (Plain.address 1) (.ofUint 3000000000000000000),
    Plain.signed
      ⟨.registerAlias, Plain.address 1, .none, collateral, 1, 0, List.replicate 12 97⟩,
    Plain.signed ⟨.becomeCandidate, Plain.address 1, .none, collateral, 2, 0, []⟩,
    Plain.signed ⟨.stake, Plain.address 1, .none, .ofUint 500000000000000000, 3, 0, []⟩]

end Mirrors

/-! ## Candidates and their aliases -/

section Aliases

variable {tick : ℤ → ℤ → Prop} {rule : ℕ → Transaction → Prop} {l l' : Ledger}

/-- Every candidate has an alias. -/
def CandidatesAliased (g : Registry) : Prop :=
  ∀ a, (g.data a).candidateID ≠ [] → (g.data a).aliasRecord ≠ none

lemma CandidatesAliased.congr {g g' : Registry} (h : CandidatesAliased g)
    (hid : ∀ a, (g'.data a).candidateID = (g.data a).candidateID)
    (hrecord : ∀ a, (g'.data a).aliasRecord = (g.data a).aliasRecord) :
    CandidatesAliased g' := by
  intro a
  rw [hid, hrecord]
  exact h a

/-- One account is given data with which it is no candidate or has an alias. -/
lemma CandidatesAliased.update {g g' : Registry} (h : CandidatesAliased g) {a : Address}
    {d : AccountData} (hdata : g'.data = Function.update g.data a d)
    (hd : d.candidateID ≠ [] → d.aliasRecord ≠ none) : CandidatesAliased g' := by
  intro b
  rw [hdata]
  by_cases hb : b = a
  · rw [hb, Function.update_self]
    exact hd
  · rw [Function.update_of_ne hb]
    exact h b

/-- All steps but the deregistration of a candidate's alias keep the aliases of candidates. -/
lemma CandidatesAliased.step {g g' : Registry} {ts : ℤ} {op : Operation}
    (h : CandidatesAliased g) (hstep : RegistryStep ts g op g')
    (hkeep : ∀ addr, op = .deregisterAlias addr → (g.data addr).candidateID = []) :
    CandidatesAliased g' := by
  cases hstep with
  | keep hop => exact h
  | registerAlias hnone hfree => exact h.update rfl fun _ => Option.some_ne_none _
  | deregisterAlias hrecord howner => exact h.update rfl fun hne => absurd (hkeep _ rfl) hne
  | addCertification hreceived hissued =>
      refine h.congr (fun a => ?_) fun a => ?_
      · rw [Registry.issue_candidateID, Registry.receive_candidateID]
      · rw [Registry.issue_aliasRecord, Registry.receive_aliasRecord]
  | revokeCertification hcert hissuer hrevoked hexpired =>
      refine h.congr (fun a => ?_) fun a => ?_
      · rw [Registry.receive_candidateID, Registry.issue_candidateID]
      · rw [Registry.receive_aliasRecord, Registry.issue_aliasRecord]
  | becomeCandidate hnone halias => exact h.update rfl fun _ => halias
  | quitCandidacy hid hc => exact h.update rfl fun hne => absurd rfl hne

/-- The step is not a deregistration by an account that is a candidate. -/
def KeepsAliases (env : Env) (l l' : Ledger) : Prop :=
  ∀ tx : Transaction, tx.txType = .deregisterAlias → l.accept env tx = .ok l' →
    ∀ acc, l.state.account? tx.fromAddr = some acc → acc.candidateID = []

lemma CandidatesAliased.ledgerStep (h : CandidatesAliased l.state.registry)
    (hstep : LedgerStep env tick rule l l') (hkeep : KeepsAliases env l l') :
    CandidatesAliased l'.state.registry := by
  cases hstep.registry with
  | still haccepted hregistry =>
      rw [hregistry]
      exact h
  | @accept tx r exeTx hrule haccept haccepted hfrom hregistry =>
      obtain heq | hmove := hregistry
      · rw [heq]
        exact h
      · refine h.step hmove fun addr hop => ?_
        have hfits := hfrom.fits
        have hkind := hfrom.kind
        rw [hop] at hfits hkind
        by_contra hne
        have hnew : l.state.registry.data addr ≠ default := fun heq => hne (by rw [heq]; rfl)
        obtain ⟨acc, hacc, heq⟩ := BlockState.account?_of_registry hnew
        rw [heq] at hne
        exact hne (hkeep tx hkind.symm haccept acc (by rw [← hfits]; exact hacc))

/-- A run in which no candidate deregisters its alias. -/
def AliasKeepingRun (env : Env) (tick : ℤ → ℤ → Prop) (rule : ℕ → Transaction → Prop)
    (l : Ledger) : Prop :=
  Relation.ReflTransGen (fun l l' => LedgerStep env tick rule l l' ∧ KeepsAliases env l l')
    Ledger.start l

lemma AliasKeepingRun.aliased (h : AliasKeepingRun env tick rule l) :
    CandidatesAliased l.state.registry := by
  induction h with
  | refl => exact fun _ hne => absurd rfl hne
  | tail _ hstep ih => exact ih.ledgerStep hstep.1 hstep.2

/-- **Candidates have aliases** in every run in which no candidate deregisters its alias. -/
theorem candidates_have_aliases (env : Env) (tick : ℤ → ℤ → Prop)
    (rule : ℕ → Transaction → Prop) {l : Ledger} (h : AliasKeepingRun env tick rule l)
    {a : Address} {acc : Account} (hacc : l.state.account? a = some acc)
    (hid : acc.candidateID ≠ []) : acc.aliasRecord ≠ none := by
  have haliased := h.aliased a
  rw [BlockState.registry_data hacc] at haliased
  exact haliased hid

/-- A step that accepts no deregistration keeps aliases. -/
lemma LedgerStep.keepsAliases
    (h : LedgerStep env tick (fun _ tx => tx.txType ≠ .deregisterAlias) l l') :
    KeepsAliases env l l' := by
  intro tx htype haccept
  obtain ⟨r, s₁, exeTx, usage, haccepts⟩ := Ledger.accept_spec haccept
  have haccepted : l'.accepted = tx.setReceipt r :: l.accepted := by rw [haccepts.next]
  cases h.registry with
  | still hsame _ =>
      have hlen := congrArg List.length (hsame.symm.trans haccepted)
      simp at hlen
  | @accept tx' r' _ hne _ haccepted' _ _ =>
      -- the transaction is the last one of the accepted list
      have heq : tx'.setReceipt r' = tx.setReceipt r :=
        (List.cons.inj (haccepted'.symm.trans haccepted)).1
      have hsame := congrArg Transaction.txType heq
      exact absurd (hsame.trans htype) hne

/-- The configured candidate has an alias. -/
theorem configured_candidate_has_alias :
    ∃ l acc, AliasKeepingRun .plain (· < ·) (fun _ tx => tx.txType ≠ .deregisterAlias) l ∧
      l.state.account? (Plain.address 1) = some acc ∧ acc.candidateID ≠ [] ∧
      acc.aliasRecord ≠ none := by
  have hrule : ∀ tx ∈ candidateConfiguration, tx.txType ≠ .deregisterAlias := by
    decide +kernel
  have hrun : (Ledger.start.acceptAll .plain candidateConfiguration).map (fun l =>
      (l.state.account? (Plain.address 1)).map fun acc => decide (acc.candidateID = [])) =
      .ok (some false) := by
    decide +kernel
  obtain ⟨l, hl, heq⟩ := map_eq_ok_iff.1 hrun
  obtain ⟨acc, hacc, hid⟩ := Option.map_eq_some_iff.1 heq
  have hid := of_decide_eq_false hid
  have hsteps : Relation.ReflTransGen
      (LedgerStep .plain (· < ·) fun _ tx => tx.txType ≠ .deregisterAlias) Ledger.start l :=
    Ledger.acceptAll_steps hrule hl
  have hkeep : AliasKeepingRun .plain (· < ·) (fun _ tx => tx.txType ≠ .deregisterAlias) l :=
    Relation.ReflTransGen.mono (fun _ _ hstep => ⟨hstep, hstep.keepsAliases⟩) _ _ hsteps
  exact ⟨l, acc, hkeep, hacc, hid, candidates_have_aliases .plain _ _ hkeep hacc hid⟩

/-- A candidate that has deregistered its alias is a candidate without one. -/
theorem candidate_without_alias :
    ∃ l acc, Reachable .plain (· < ·) (Admitted .plain 0) l ∧
      l.state.account? (Plain.address 1) = some acc ∧ acc.candidateID ≠ [] ∧
      acc.aliasRecord = none := by
  have hgenesis : ∀ tx ∈ candidateConfiguration, Admitted .plain 0 genesisHeight tx := by
    decide +kernel
  have htick : (0 : ℤ) < 3 := by decide
  have hrule : ∀ tx ∈ [Plain.signed ⟨.deregisterAlias, Plain.address 1, .none, .zero, 4, 0, []⟩],
      Admitted .plain 0 (genesisHeight + 1) tx := by
    decide +kernel
  have hrun : (Ledger.start.acceptAll .plain candidateConfiguration >>= fun l =>
      l.beginChild 3 >>= fun l => l.acceptAll .plain
        [Plain.signed ⟨.deregisterAlias, Plain.address 1, .none, .zero, 4, 0, []⟩]).map (fun l =>
      (l.state.account? (Plain.address 1)).map fun acc =>
        (decide (acc.candidateID = []), acc.aliasRecord)) = .ok (some (false, none)) := by
    decide +kernel
  obtain ⟨l, hl, heq⟩ := Reachable.of_second_block hgenesis htick hrule hrun
  obtain ⟨acc, hacc, heq⟩ := Option.map_eq_some_iff.1 heq
  rw [Prod.mk.injEq, decide_eq_false_iff_not] at heq
  exact ⟨l, acc, hl, hacc, heq⟩

end Aliases

end GoMedibloc
