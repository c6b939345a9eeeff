import GoMedibloc.Ledger.Run

/-!
# Tokens are conserved

Every token of the supply is somewhere: in a balance, staked, on its way back from staking, or
in the collateral of an alias or a candidate.  The sum of all these (`circulation`) equals the
supply in every reachable state, whatever the transactions, timestamps and payers are.

The one place where a token could get lost is the collateral of a candidate: its record is kept
under the hash of the transaction, and a second transaction with that hash would overwrite it.
The hash covers the sender, so it could only come from the same account, and that account still
has the candidate id as long as the record exists (`CandidatesOwned`).
-/

namespace GoMedibloc

open Except

variable {env : Env} {height : ℕ} {s s' : BlockState}

/-- What an account owns. -/
def Account.worth (acc : Account) : ℕ :=
  acc.balance.val + acc.staking.val + acc.unstaking.val + acc.aliasCollateral

/-- Reading an account moves its tokens around but keeps their sum. -/
lemma Account.stable_worth : Account.Stable Account.worth where
  fresh _ := rfl
  refreshed h := by
    have hliquid := h.liquid
    unfold worth aliasCollateral
    rw [h.staking, h.aliasRecord]
    omega

/-- All collateral of candidates. -/
def DposState.collateral (ds : DposState) : ℕ := ds.candidates.total fun c => c.collateral.val

/-- All tokens that are somewhere. -/
def BlockState.circulation (s : BlockState) : ℕ :=
  s.accState.accounts.total Account.worth + s.dposState.collateral

/-- Every candidate record is known to the account that made it: the sender in the hash under
which the record is kept. -/
def CandidatesOwned (env : Env) (s : BlockState) : Prop :=
  ∀ id c, s.candidate? id = some c → ∃ t, env.txHash t = id ∧
    ∃ acc, s.account? t.fromAddr = some acc ∧ acc.candidateID = id

/-! ## Light edits -/

/-- Light edits add their amount to what the accounts own. -/
lemma LightEdits.total_worth {d : ℤ} (h : LightEdits s s' d) :
    (s'.accState.accounts.total Account.worth : ℤ) =
      s.accState.accounts.total Account.worth + d := by
  induction h with
  | refl => simp
  | @edit s₁ s₂ acc acc' d _ hedit hlight ih =>
      have htotal := hedit.total Account.stable_worth
      have hworth : acc'.worth + acc.held = acc.worth + acc'.held := by
        unfold Account.worth Account.held
        rw [hlight.staking, hlight.unstaking]
        omega
      omega
  | setAliases _ _ haccounts ih =>
      dsimp only
      rwa [haccounts]

/-- Light edits keep candidate ids. -/
lemma LightEdits.candidateID {d : ℤ} (h : LightEdits s s' d) {a : Address} {x : Account}
    (hx : s.account? a = some x) :
    ∃ x', s'.account? a = some x' ∧ x'.candidateID = x.candidateID := by
  induction h with
  | refl => exact ⟨x, hx, rfl⟩
  | edit _ hedit hlight ih =>
      obtain ⟨x₁, hx₁, hid₁⟩ := ih
      obtain ⟨x₂, hx₂, hid₂⟩ := hedit.kept (fun h => h.candidateID) hlight.candidateID hx₁
      exact ⟨x₂, hx₂, hid₂.trans hid₁⟩
  | setAliases _ _ haccounts ih =>
      obtain ⟨x', hx', hid⟩ := ih
      refine ⟨x', ?_, hid⟩
      rw [← hx']
      exact congrArg (Finmap.lookup a) haccounts

/-- Ownership depends on the candidates that exist and on the candidate ids of accounts. -/
lemma CandidatesOwned.mono (h : CandidatesOwned env s)
    (hcand : ∀ id c', s'.candidate? id = some c' → ∃ c, s.candidate? id = some c)
    (hid : ∀ a x, s.account? a = some x →
      ∃ x', s'.account? a = some x' ∧ x'.candidateID = x.candidateID) :
    CandidatesOwned env s' := by
  intro id c' hc'
  obtain ⟨c, hc⟩ := hcand id c' hc'
  obtain ⟨t, ht, acc, hacc, haccid⟩ := h id c hc
  obtain ⟨acc', hacc', heq⟩ := hid _ _ hacc
  exact ⟨t, ht, acc', hacc', heq.trans haccid⟩

lemma CandidatesOwned.congr (h : CandidatesOwned env s)
    (haccounts : s'.accState.accounts = s.accState.accounts)
    (hcandidates : s'.dposState.candidates = s.dposState.candidates) :
    CandidatesOwned env s' := by
  unfold CandidatesOwned BlockState.candidate? BlockState.account?
  rw [haccounts, hcandidates]
  exact h

lemma CandidatesOwned.light (h : CandidatesOwned env s) {d : ℤ} (hl : LightEdits s s' d) :
    CandidatesOwned env s' := by
  refine h.mono (fun id c hc => ⟨c, ?_⟩) fun a x hx => hl.candidateID hx
  rw [hl.frame] at hc
  exact hc

/-! ## Stakes, votes and candidates -/

/-- The collateral of the candidate record that a transaction writes over. -/
def Operation.overwritten (op : Operation) (ds : DposState) : ℕ :=
  match op with
  | .becomeCandidate txHash _ _ _ => (ds.candidates.lookup txHash).elim 0 fun c => c.collateral.val
  | _ => 0

section Dpos

variable {acc acc' : Account} {op : Operation} {ds' : DposState} {s₁ : BlockState}

/-- A shift of vote power keeps all collateral. -/
lemma PowerShift.collateral {ds : DposState} {up down : Bytes → ℕ}
    (h : PowerShift ds ds' up down) : ds'.collateral = ds.collateral :=
  h.total fun _ _ => rfl

/-- What a change of stakes, votes and candidates does to the tokens. -/
lemma DposChange.circulation (hedit : Edit s acc acc' s₁)
    (h : DposChange s.timestamp s.dposState acc op acc' ds') :
    ({ s₁ with dposState := ds' } : BlockState).circulation + op.overwritten s.dposState =
      s.circulation := by
  have htotal := hedit.total Account.stable_worth
  unfold BlockState.circulation
  dsimp only
  cases h with
  | stake hbalance hstaking hpoints hds =>
      simp only [Account.worth, Account.aliasCollateral] at htotal
      simp only [hds.collateral, Operation.overwritten]
      omega
  | unstake hstaking hunstaking hds =>
      simp only [Account.worth, Account.aliasCollateral] at htotal
      simp only [hds.collateral, Operation.overwritten]
      omega
  | vote hmem hds =>
      simp only [Account.worth, Account.aliasCollateral] at htotal
      simp only [hds.collateral, Operation.overwritten]
      omega
  | @become txHash collateral balance url hnone halias hbalance =>
      have hinsert := s.dposState.candidates.total_insert txHash
        ⟨txHash, acc.address, collateral, .zero, url, s.timestamp⟩ fun c => c.collateral.val
      dsimp only at hinsert
      simp only [Account.worth, Account.aliasCollateral] at htotal
      simp only [DposState.collateral, DposState.putCandidate, Operation.overwritten]
      omega
  | @quit c balance hid hc hbalance =>
      have herase := s.dposState.candidates.total_erase acc.candidateID
        fun c => c.collateral.val
      rw [hc, Option.elim_some] at herase
      simp only [Account.worth, Account.aliasCollateral] at htotal
      simp only [DposState.collateral, Operation.overwritten]
      omega

/-- What an execution does to the tokens: only a distribution makes new ones, and only a
candidate record that is written over loses some. -/
lemma Effect.circulation (h : Effect height s op s') :
    s'.circulation + op.overwritten s.dposState + s.supply.val = s.circulation + s'.supply.val := by
  cases h with
  | light hop h =>
      have htotal := h.total_worth
      have hover : op.overwritten s.dposState = 0 := by
        cases op <;> first | rfl | cases hop
      rw [h.frame] at htotal ⊢
      simp only [BlockState.circulation] at htotal ⊢
      omega
  | distribute hheight h hsupply =>
      have htotal := h.total_worth
      rw [h.frame] at htotal ⊢
      simp only [BlockState.circulation, Operation.overwritten] at htotal ⊢
      omega
  | dpos hedit h =>
      have hcirc := h.circulation hedit
      rw [hedit.put] at hcirc ⊢
      simp only [BlockState.putAccount_supply] at hcirc ⊢
      omega

/-- An edit that keeps the candidate id, with a shift of vote power. -/
lemma CandidatesOwned.shift (h : CandidatesOwned env s) (hedit : Edit s acc acc' s₁)
    (hid : acc'.candidateID = acc.candidateID) {up down : Bytes → ℕ}
    (hds : PowerShift s.dposState ds' up down) :
    CandidatesOwned env { s₁ with dposState := ds' } := by
  refine h.mono (fun id c' hc' => Option.ne_none_iff_exists'.1 fun hnone => ?_)
    fun a x hx => hedit.kept (fun h => h.candidateID) hid hx
  have hnone' : ds'.candidates.lookup id = none := (hds.none_iff id).2 hnone
  exact absurd (hc'.symm.trans hnone') (Option.some_ne_none c')

/-- The owner of a record that is not that of the edited account has another address. -/
lemma CandidatesOwned.owner (h : CandidatesOwned env s) (hedit : Edit s acc acc' s₁) {id : Bytes}
    {c : Candidate} (hc : s.candidate? id = some c) (hid : acc.candidateID ≠ id) :
    ∃ t, env.txHash t = id ∧ t.fromAddr ≠ acc.address ∧
      ∃ x, s₁.account? t.fromAddr = some x ∧ x.candidateID = id := by
  obtain ⟨t, ht, stored, hstored, hstoredid⟩ := h id c hc
  have hne : t.fromAddr ≠ acc.address := by
    intro heq
    rw [heq] at hstored
    obtain ⟨hmissing, -⟩ | ⟨x, hx, hr⟩ := hedit.fresh_or_refreshed
    · exact absurd (hmissing.symm.trans hstored) (Option.some_ne_none stored).symm
    · obtain rfl := Option.some_inj.1 (hstored.symm.trans hx)
      exact hid (hr.candidateID.trans hstoredid)
  exact ⟨t, ht, hne, stored, (hedit.account?_of_ne hne).trans hstored, hstoredid⟩

/-- There is no record under the hash of a transaction of an account that is no candidate. -/
lemma CandidatesOwned.fresh (h : CandidatesOwned env s) (hedit : Edit s acc acc' s₁)
    (hnone : acc.candidateID = []) {t : TxHashTarget} (ht : t.fromAddr = acc.address) :
    s.candidate? (env.txHash t) = none := by
  by_contra hne
  obtain ⟨c, hc⟩ := Option.ne_none_iff_exists'.1 hne
  have hid : acc.candidateID ≠ env.txHash t := hnone ▸ (env.txHash_ne_nil t).symm
  obtain ⟨t', ht', hne', -⟩ := h.owner hedit hc hid
  exact hne' (env.txHash_injective ht' ▸ ht)

/-- The hash under which a transaction makes a candidate record covers its sender. -/
def Operation.HashCovers (env : Env) (op : Operation) : Prop :=
  ∀ txHash addr collateral url, op = .becomeCandidate txHash addr collateral url →
    ∃ t, env.txHash t = txHash ∧ t.fromAddr = addr

lemma CandidatesOwned.dpos (h : CandidatesOwned env s) (hedit : Edit s acc acc' s₁)
    (hchange : DposChange s.timestamp s.dposState acc op acc' ds') (hhash : op.HashCovers env) :
    CandidatesOwned env { s₁ with dposState := ds' } ∧ op.overwritten s.dposState = 0 := by
  cases hchange with
  | stake hbalance hstaking hpoints hds => exact ⟨h.shift hedit rfl hds, rfl⟩
  | unstake hstaking hunstaking hds => exact ⟨h.shift hedit rfl hds, rfl⟩
  | vote hmem hds => exact ⟨h.shift hedit rfl hds, rfl⟩
  | @become txHash collateral balance url hnone halias hbalance =>
      obtain ⟨t, rfl, ht⟩ := hhash _ _ _ _ rfl
      refine ⟨fun id c hc => ?_, ?_⟩
      · by_cases hid : id = env.txHash t
        · refine ⟨t, hid.symm, { acc with balance := balance, candidateID := env.txHash t }, ?_,
            hid.symm⟩
          rw [ht]
          exact hedit.account?_self
        · have hold : s.candidate? id = some c := (Finmap.lookup_insert_of_ne _ hid).symm.trans hc
          have hne : acc.candidateID ≠ id := by
            obtain ⟨t', ht', -⟩ := h id c hold
            rw [hnone, ← ht']
            exact (env.txHash_ne_nil t').symm
          obtain ⟨t', ht', -, hx⟩ := h.owner hedit hold hne
          exact ⟨t', ht', hx⟩
      · have hfresh := h.fresh hedit hnone ht
        unfold BlockState.candidate? at hfresh
        rw [Operation.overwritten, hfresh, Option.elim_none]
  | @quit c balance hid hc hbalance =>
      refine ⟨fun id c' hc' => ?_, rfl⟩
      have hne : id ≠ acc.candidateID := by
        rintro rfl
        exact absurd (hc'.symm.trans (Finmap.lookup_erase _ _)) (Option.some_ne_none c')
      have hold : s.candidate? id = some c' := (Finmap.lookup_erase_ne hne).symm.trans hc'
      obtain ⟨t', ht', -, hx⟩ := h.owner hedit hold hne.symm
      exact ⟨t', ht', hx⟩

lemma CandidatesOwned.effect (h : CandidatesOwned env s) (he : Effect height s op s')
    (hhash : op.HashCovers env) :
    CandidatesOwned env s' ∧ op.overwritten s.dposState = 0 := by
  cases he with
  | light hop hl =>
      refine ⟨h.light hl, ?_⟩
      cases op <;> first | rfl | cases hop
  | distribute hheight hl hsupply =>
      have howned := h.light hl
      exact ⟨howned, rfl⟩
  | dpos hedit hchange => exact h.dpos hedit hchange hhash

end Dpos

/-! ## Accepting -/

section Accepting

variable {tx : Transaction} {r : Receipt}

/-- Accepting a transaction moves no tokens. -/
lemma Accepted.circulation (h : Accepted tx r s s') :
    s'.circulation = s.circulation ∧ s'.supply = s.supply := by
  refine h.preserves (P := fun t => t.circulation = s.circulation ∧ t.supply = s.supply) ?_
    (fun _ ht => ht) ⟨rfl, rfl⟩
  rintro s₁ acc acc' s₂ hedit hcharged ⟨hcirc, hsupply⟩
  have htotal := hedit.total Account.stable_worth
  have hworth : acc'.worth = acc.worth := by
    simp only [Account.worth, Account.aliasCollateral, hcharged.balance, hcharged.staking,
      hcharged.unstaking, hcharged.aliasRecord]
  rw [hworth] at htotal
  rw [hedit.put] at htotal ⊢
  refine ⟨?_, hsupply⟩
  simp only [BlockState.circulation, BlockState.putAccount_dposState] at hcirc ⊢
  omega

lemma CandidatesOwned.accepted (howned : CandidatesOwned env s) (h : Accepted tx r s s') :
    CandidatesOwned env s' := by
  refine h.preserves ?_ (fun _ ht => ht) howned
  intro s₁ acc acc' s₂ hedit hcharged ht
  refine ht.mono (fun id c hc => ⟨c, ?_⟩) fun a x hx =>
    hedit.kept (fun h => h.candidateID) hcharged.candidateID hx
  rw [hedit.put] at hc
  exact hc

end Accepting

/-! ## Runs -/

section Runs

variable {tick : ℤ → ℤ → Prop} {rule : ℕ → Transaction → Prop} {l l' : Ledger}

/-- Above the genesis block no execution changes the supply. -/
lemma Effect.supply {op : Operation} (h : Effect height s op s') (hne : height ≠ genesisHeight) :
    s'.supply = s.supply := by
  cases h with
  | light hop h => rw [h.frame]
  | distribute hheight h hsupply => exact absurd hheight hne
  | dpos hedit h => rw [hedit.put, BlockState.putAccount_supply]

/-- A reward that is due is computed from the current supply, above the genesis block. -/
structure RewardDue (l : Ledger) : Prop where
  height : genesisHeight ≤ l.height
  due : ∀ supply, l.due = some supply → l.state.supply = supply ∧ l.height ≠ genesisHeight

lemma RewardDue.step (h : RewardDue l) (hstep : LedgerStep env tick rule l l') : RewardDue l' := by
  cases hstep with
  | @accept _ tx hrule haccept =>
      obtain ⟨r, s₁, exeTx, usage, haccepts⟩ := Ledger.accept_spec haccept
      rw [haccepts.next]
      refine ⟨h.height, fun supply hdue => ?_⟩
      obtain ⟨hsupply, hne⟩ := h.due supply hdue
      refine ⟨?_, hne⟩
      obtain heq | heffect := haccepts.executed.effect
      · rw [haccepts.accepted.circulation.2, heq, hsupply]
      · rw [haccepts.accepted.circulation.2, heffect.supply hne, hsupply]
  | reward hdue hpay => exact ⟨h.height, fun supply hnone => by cases hnone⟩
  | dynasty addrs => exact ⟨h.height, h.due⟩
  | child htick hchild =>
      have hheight := h.height
      refine ⟨hheight.trans (Nat.le_succ _), fun supply hsupply => ?_⟩
      rw [← Option.some_inj.1 hsupply, initChild_spec hchild]
      exact ⟨rfl, by dsimp only; omega⟩

/-- Each become_candidate transaction has the hash of its content. -/
def Transaction.CandidateHashed (env : Env) (tx : Transaction) : Prop :=
  tx.txType = .becomeCandidate → tx.Hashed env

lemma Executed.hashCovers {tx : Transaction} {r : Receipt} {s₁ : BlockState}
    {exeTx : ExecutableTx} {usage : Uint128} (h : Executed env height tx s r s₁ exeTx usage)
    (hhash : tx.CandidateHashed env) : exeTx.op.HashCovers env := by
  intro txHash addr collateral url hop
  have hfrom := txConv_spec h.conv
  have hfits := hfrom.fits
  rw [hop] at hfits
  obtain ⟨rfl, rfl, -⟩ := hfits
  have htype : tx.txType = .becomeCandidate := by
    rw [← hfrom.kind, hop]
    rfl
  exact ⟨tx.hashTarget, (hhash htype).symm, rfl⟩

/-- What one step does to the tokens: none come from nowhere, and none are lost if candidate
records are known to their accounts and the hashes of their transactions are right. -/
lemma LedgerStep.circulation (hdue : RewardDue l) (h : LedgerStep env tick rule l l') :
    ∃ lost, l'.state.circulation + lost + l.state.supply.val =
        l.state.circulation + l'.state.supply.val ∧
      (CandidatesOwned env l.state → (∀ tx, rule l.height tx → tx.CandidateHashed env) →
        lost = 0 ∧ CandidatesOwned env l'.state) := by
  cases h with
  | @accept _ tx hrule haccept =>
      obtain ⟨r, s₁, exeTx, usage, haccepts⟩ := Ledger.accept_spec haccept
      obtain ⟨hcirc, hsupply⟩ := haccepts.accepted.circulation
      rw [hcirc, hsupply]
      obtain rfl | heffect := haccepts.executed.effect
      · exact ⟨0, rfl, fun howned _ => ⟨rfl, howned.accepted haccepts.accepted⟩⟩
      · refine ⟨_, heffect.circulation, fun howned hhash => ?_⟩
        obtain ⟨howned', hlost⟩ :=
          howned.effect heffect (haccepts.executed.hashCovers (hhash tx hrule))
        exact ⟨hlost, howned'.accepted haccepts.accepted⟩
  | reward hsome hpay =>
      obtain ⟨reward, supply, s₁, hedits, hsupply, rfl⟩ := payReward_spec hpay
      have htotal := hedits.total_worth
      rw [(hdue.due _ hsome).1]
      refine ⟨0, ?_, fun howned _ => ⟨rfl, (howned.light hedits).congr rfl rfl⟩⟩
      rw [hedits.frame] at htotal ⊢
      simp only [BlockState.circulation] at htotal ⊢
      omega
  | dynasty addrs =>
      have hcandidates := l.state.dposState.setDynasty_candidates addrs
      refine ⟨0, ?_, fun howned _ => ⟨rfl, howned.congr rfl hcandidates⟩⟩
      simp only [BlockState.circulation, DposState.collateral, hcandidates, add_zero]
  | child htick hchild =>
      rw [initChild_spec hchild]
      exact ⟨0, rfl, fun howned _ => ⟨rfl, howned.congr rfl rfl⟩⟩

/-- The tokens that exist are backed by the supply. -/
structure Backed (l : Ledger) : Prop extends RewardDue l where
  circulation : l.state.circulation ≤ l.state.supply.val

/-- In every run there are at most as many tokens as supplied. -/
lemma Reachable.backed (h : Reachable env tick rule l) : Backed l := by
  induction h with
  | refl => exact ⟨⟨le_rfl, fun _ hnone => by cases hnone⟩, le_rfl⟩
  | tail _ hstep ih =>
      obtain ⟨lost, heq, -⟩ := hstep.circulation ih.toRewardDue
      have hle := ih.circulation
      exact ⟨ih.toRewardDue.step hstep, by omega⟩

/-- The invariant of runs in which the hashes of the transactions are right. -/
structure Conserved (env : Env) (l : Ledger) : Prop extends RewardDue l where
  circulation : l.state.circulation = l.state.supply.val
  owned : CandidatesOwned env l.state

lemma Conserved.start : Conserved env .start :=
  ⟨⟨le_rfl, fun _ hnone => by cases hnone⟩, rfl, fun _ _ hnone => by cases hnone⟩

lemma Conserved.step (h : Conserved env l) (hstep : LedgerStep env tick rule l l')
    (hhash : ∀ tx, rule l.height tx → tx.CandidateHashed env) : Conserved env l' := by
  obtain ⟨lost, heq, hlost⟩ := hstep.circulation h.toRewardDue
  obtain ⟨rfl, howned⟩ := hlost h.owned hhash
  have hcirc := h.circulation
  exact ⟨h.toRewardDue.step hstep, by omega, howned⟩

end Runs

end GoMedibloc
