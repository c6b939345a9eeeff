import GoMedibloc.Ledger.Points

/-!
# The vote power of candidates

Every account may vote for candidates, with all of its stake for each of them.  The stake is in the
account, the vote power in the record of the candidate, and the two are changed in different places:
staking and unstaking change the vote power of all candidates that the account has voted for, a vote
adds to the new candidates and then subtracts from the old ones, and a candidate that quits goes with
its vote power while the votes for it stay.

They fit together as long as no transaction is accepted twice.  The id of a candidate is the hash of
the transaction that made it, so a new candidate has an id that no account has voted for.  In every
such run the vote power of a candidate is the stake of those who have voted for it
(`vote_power_is_stake`), and so no subtraction of vote power falls below zero.
-/

namespace GoMedibloc

open Except

variable {env : Env} {height : ℕ} {s s' s₁ : BlockState} {acc acc' : Account} {H : List Bytes}

/-- The stake with which an account has voted for a candidate. -/
def Account.stakeFor (id : Bytes) (acc : Account) : ℕ :=
  if id ∈ acc.voted.keys then acc.staking.val else 0

/-- The stake of all accounts that have voted for a candidate. -/
def BlockState.votes (s : BlockState) (id : Bytes) : ℕ :=
  s.accState.accounts.total (Account.stakeFor id)

lemma Account.stable_stakeFor (id : Bytes) : Account.Stable (Account.stakeFor id) where
  fresh _ := if_neg List.not_mem_nil
  refreshed h := by rw [stakeFor, stakeFor, h.voted, h.staking]

/-- The vote power of every candidate is related to the stake of those who have voted for it. -/
def VotePowers (R : ℕ → ℕ → Prop) (s : BlockState) : Prop :=
  ∀ id c, s.candidate? id = some c → R c.votePower.val (s.votes id)

/-- A relation that depends on the difference of two numbers only. -/
def OnDifference (R : ℕ → ℕ → Prop) : Prop :=
  ∀ ⦃x y x' y'⦄, x' + y = x + y' → R x y → R x' y'

lemma onDifference_le : OnDifference (· ≤ ·) := fun _ _ _ _ hdiff hle => by omega

/-- The vote power of an account with distinct votes. -/
lemma count_voted (v : Voted) (id : Bytes) (n : ℕ) :
    v.keys.count id * n = if id ∈ v.keys then n else 0 := by
  rw [v.nodup.count]
  split_ifs <;> simp

namespace VotePowers

variable {R : ℕ → ℕ → Prop}

lemma congr (h : VotePowers R s) (haccounts : s'.accState.accounts = s.accState.accounts)
    (hcandidates : s'.dposState.candidates = s.dposState.candidates) : VotePowers R s' := by
  intro id c hc
  rw [BlockState.votes, haccounts]
  rw [BlockState.candidate?, hcandidates] at hc
  exact h id c hc

/-- An edit and a shift of vote power that match. -/
lemma shift (hR : OnDifference R) (h : VotePowers R s) (hedit : Edit s acc acc' s₁)
    {ds' : DposState} {up down : Bytes → ℕ} (hshift : PowerShift s.dposState ds' up down)
    (hstake : ∀ id, acc'.stakeFor id + down id = acc.stakeFor id + up id) :
    VotePowers R { s₁ with dposState := ds' } := by
  intro id c' hc'
  cases hc : s.dposState.candidates.lookup id with
  | none =>
      rw [BlockState.candidate?, (hshift.none_iff id).2 hc] at hc'
      cases hc'
  | some c =>
      have hpower := (hshift.power id c c' hc hc').2
      have htotal := hedit.total (Account.stable_stakeFor id)
      have hdiff := hstake id
      refine hR ?_ (h id c hc)
      unfold BlockState.votes
      dsimp only
      omega

/-- An edit that leaves votes and stake. -/
lemma edit (hR : OnDifference R) (h : VotePowers R s) (hedit : Edit s acc acc' s₁)
    (hvoted : acc'.voted = acc.voted) (hstaking : acc'.staking = acc.staking) :
    VotePowers R s₁ := by
  have hshift := h.shift hR hedit (PowerShift.refl s.dposState) fun id => by
    rw [Account.stakeFor, Account.stakeFor, hvoted, hstaking]
  refine hshift.congr rfl ?_
  rw [hedit.put]
  rfl

lemma light (hR : OnDifference R) (h : VotePowers R s) {d : ℤ} (hl : LightEdits s s' d) :
    VotePowers R s' := by
  induction hl with
  | refl => exact h
  | edit _ hedit hlight ih => exact ih.edit hR hedit hlight.voted hlight.staking
  | setAliases _ _ haccounts ih => exact ih.congr haccounts rfl

lemma accepted (hR : OnDifference R) (h : VotePowers R s) {tx : Transaction} {r : Receipt}
    (ha : Accepted tx r s s') : VotePowers R s' := by
  refine ha.preserves ?_ (fun _ ht => ht.congr rfl rfl) h
  intro s₁ acc acc' s₂ hedit hcharged ht
  exact ht.edit hR hedit hcharged.voted hcharged.staking

/-- A change of stakes, votes and candidates, where a new candidate has the right relation to the
votes for its id. -/
lemma dpos (hR : OnDifference R) (h : VotePowers R s) {op : Operation} {ds' : DposState}
    (hedit : Edit s acc acc' s₁) (hchange : DposChange s.timestamp s.dposState acc op acc' ds')
    (hnew : ∀ txHash addr collateral url, op = .becomeCandidate txHash addr collateral url →
      R 0 (s.votes txHash)) : VotePowers R { s₁ with dposState := ds' } := by
  have hds : s₁.dposState = s.dposState := by
    rw [hedit.put]
    rfl
  cases hchange with
  | stake hbalance hstaking hpoints hds =>
      refine h.shift hR hedit hds fun id => ?_
      simp only [Account.stakeFor, count_voted, Pi.zero_apply]
      split_ifs <;> omega
  | unstake hstaking hunstaking hds =>
      refine h.shift hR hedit hds fun id => ?_
      simp only [Account.stakeFor, count_voted, Pi.zero_apply]
      split_ifs <;> omega
  | vote hmem hds =>
      refine h.shift hR hedit hds fun id => ?_
      simp only [Account.stakeFor, count_voted]
      omega
  | @become txHash collateral balance url hnone halias hbalance =>
      have hkept := h.edit hR hedit rfl rfl
      intro id c hc
      by_cases hid : id = txHash
      · have htotal := hedit.total (Account.stable_stakeFor txHash)
        rw [BlockState.candidate?, hid, DposState.putCandidate, Finmap.lookup_insert,
          Option.some_inj] at hc
        rw [hid, ← hc]
        refine hR ?_ (hnew _ _ _ _ rfl)
        unfold BlockState.votes
        dsimp only [Account.stakeFor] at htotal ⊢
        exact congrArg _ (Nat.add_right_cancel htotal).symm
      · refine hkept id c ?_
        rw [BlockState.candidate?, DposState.putCandidate, Finmap.lookup_insert_of_ne _ hid] at hc
        rw [BlockState.candidate?, hds, hc]
  | quit hid hc hbalance =>
      have hkept := h.edit hR hedit rfl rfl
      intro id c hc
      refine hkept id c ?_
      by_cases heq : id = acc.candidateID
      · rw [BlockState.candidate?, heq, Finmap.lookup_erase] at hc
        cases hc
      · rw [BlockState.candidate?, Finmap.lookup_erase_ne heq] at hc
        rw [BlockState.candidate?, hds, hc]

lemma effect (hR : OnDifference R) (h : VotePowers R s) {op : Operation}
    (he : Effect height s op s') (hnew : ∀ txHash addr collateral url,
      op = .becomeCandidate txHash addr collateral url → R 0 (s.votes txHash)) :
    VotePowers R s' := by
  cases he with
  | light hlight hl => exact h.light hR hl
  | distribute hheight hl hsupply => exact (h.light hR hl).congr rfl rfl
  | dpos hedit hchange => exact h.dpos hR hedit hchange hnew

/-- One step, where a transaction that makes a candidate has a hash with the right relation. -/
lemma step (hR : OnDifference R) {tick : ℤ → ℤ → Prop} {rule : ℕ → Transaction → Prop}
    {l l' : Ledger} (h : VotePowers R l.state) (hstep : LedgerStep env tick rule l l')
    (hnew : ∀ tx, l.accept env tx = .ok l' → R 0 (l.state.votes tx.hash)) :
    VotePowers R l'.state := by
  cases hstep with
  | @accept _ tx hrule haccept =>
      obtain ⟨r, s₁, exeTx, usage, haccepts⟩ := Ledger.accept_spec haccept
      refine VotePowers.accepted hR ?_ haccepts.accepted
      obtain heq | heffect := haccepts.executed.effect
      · rw [heq]
        exact h
      · refine h.effect hR heffect fun txHash addr collateral url hop => ?_
        have hfits := (txConv_spec haccepts.executed.conv).fits
        rw [hop] at hfits
        rw [hfits.1]
        exact hnew tx haccept
  | reward hdue hpay =>
      obtain ⟨reward, supply, s₁, hedits, -, rfl⟩ := payReward_spec hpay
      exact (h.light hR hedits).congr rfl rfl
  | dynasty addrs => exact h.congr rfl (DposState.setDynasty_candidates _ _)
  | child htick hchild =>
      refine h.congr ?_ ?_ <;> rw [initChild_spec hchild]

end VotePowers

/-- In every run the vote power of a candidate is at most the stake of those who have voted for its
id; it is less if the id has been used before. -/
lemma Reachable.votePowers_le {tick : ℤ → ℤ → Prop} {rule : ℕ → Transaction → Prop} {l : Ledger}
    (h : Reachable env tick rule l) : VotePowers (· ≤ ·) l.state := by
  induction h with
  | refl => exact fun id c hc => by cases hc
  | tail _ hstep ih => exact ih.step onDifference_le hstep fun _ _ => Nat.zero_le _

/-! ## Ids that are used once -/

/-- All candidates are made, and all votes are given, for hashes in `H`. -/
structure VotesKnown (H : List Bytes) (s : BlockState) : Prop where
  keyed : ∀ id c, s.candidate? id = some c → c.id = id ∧ id ∈ H
  voted : ∀ a acc, s.account? a = some acc → ∀ id ∈ acc.voted.keys, id ∈ H

namespace VotesKnown

lemma mono (h : VotesKnown H s) {H' : List Bytes} (hsub : H ⊆ H') : VotesKnown H' s :=
  ⟨fun id c hc => ⟨(h.keyed id c hc).1, hsub (h.keyed id c hc).2⟩,
    fun a acc hacc id hid => hsub (h.voted a acc hacc id hid)⟩

lemma congr (h : VotesKnown H s) (haccounts : s'.accState.accounts = s.accState.accounts)
    (hcandidates : s'.dposState.candidates = s.dposState.candidates) : VotesKnown H s' := by
  refine ⟨fun id c hc => h.keyed id c ?_, fun a acc hacc => h.voted a acc ?_⟩
  · rwa [BlockState.candidate?, hcandidates] at hc
  · rwa [BlockState.account?, haccounts] at hacc

/-- An account that is read has voted for candidates that have been made. -/
lemma read (h : VotesKnown H s) (hedit : Edit s acc acc' s') : ∀ id ∈ acc.voted.keys, id ∈ H := by
  obtain ⟨-, hnew⟩ | ⟨stored, hstored, hr⟩ := hedit.fresh_or_refreshed
  · rw [hnew]
    exact fun id hid => absurd hid List.not_mem_nil
  · rw [hr.voted]
    exact h.voted _ _ hstored

/-- An edit with other candidates: old ones up to their vote power, or new ones. -/
lemma edit (h : VotesKnown H s) {H' : List Bytes} (hsub : H ⊆ H') (hedit : Edit s acc acc' s₁)
    (hvoted : ∀ id ∈ acc'.voted.keys, id ∈ H') {ds' : DposState}
    (hc : ∀ id c', ds'.candidates.lookup id = some c' →
      (∃ c, s.candidate? id = some c ∧ c'.id = c.id) ∨ c'.id = id ∧ id ∈ H') :
    VotesKnown H' { s₁ with dposState := ds' } := by
  refine ⟨fun id c' hc' => ?_, hedit.forall_accounts (h.mono hsub).voted hvoted⟩
  obtain ⟨c, hold, hid⟩ | hnew := hc id c' hc'
  · obtain ⟨hkey, hmem⟩ := (h.mono hsub).keyed id c hold
    exact ⟨hid.trans hkey, hmem⟩
  · exact hnew

/-- Candidates of which the vote power is shifted are old ones. -/
lemma old_of_shift {ds ds' : DposState} {up down : Bytes → ℕ} (hshift : PowerShift ds ds' up down)
    {id : Bytes} {c' : Candidate} (hc' : ds'.candidates.lookup id = some c') :
    ∃ c, ds.candidates.lookup id = some c ∧ c'.id = c.id := by
  cases hc : ds.candidates.lookup id with
  | none =>
      rw [(hshift.none_iff id).2 hc] at hc'
      cases hc'
  | some c => exact ⟨c, rfl, by rw [(hshift.power id c c' hc hc').1]⟩

/-- An edit that leaves the votes. -/
lemma keep (h : VotesKnown H s) (hedit : Edit s acc acc' s') (hvoted : acc'.voted = acc.voted) :
    VotesKnown H s' := by
  have hkept := h.edit (List.Subset.refl H) hedit (hvoted ▸ h.read hedit)
    fun id c' hc' => .inl ⟨c', hc', rfl⟩
  refine hkept.congr rfl ?_
  rw [hedit.put]
  rfl

lemma light (h : VotesKnown H s) {d : ℤ} (hl : LightEdits s s' d) : VotesKnown H s' := by
  induction hl with
  | refl => exact h
  | edit _ hedit hlight ih => exact ih.keep hedit hlight.voted
  | setAliases _ _ haccounts ih => exact ih.congr haccounts rfl

lemma accepted (h : VotesKnown H s) {tx : Transaction} {r : Receipt} (ha : Accepted tx r s s') :
    VotesKnown H s' :=
  ha.preserves (fun hedit hcharged ht => ht.keep hedit hcharged.voted)
    (fun _ ht => ht.congr rfl rfl) h

/-- An executed transaction; a new candidate has the hash `new`. -/
lemma effect (h : VotesKnown H s) {new : Bytes} {op : Operation} (he : Effect height s op s')
    (hop : ∀ txHash addr collateral url, op = .becomeCandidate txHash addr collateral url →
      txHash = new) : VotesKnown (new :: H) s' := by
  have hsub : H ⊆ new :: H := List.subset_cons_self _ _
  cases he with
  | light hlight hl => exact (h.light hl).mono hsub
  | distribute hheight hl hsupply =>
      refine VotesKnown.mono ?_ hsub
      exact (h.light hl).congr rfl rfl
  | @dpos _ acc _ _ _ hedit hchange =>
      have hread := fun id hid => hsub (h.read hedit id hid)
      cases hchange with
      | stake hbalance hstaking hpoints hds =>
          exact h.edit hsub hedit hread fun id c' hc' => .inl (old_of_shift hds hc')
      | unstake hstaking hunstaking hds =>
          exact h.edit hsub hedit hread fun id c' hc' => .inl (old_of_shift hds hc')
      | vote hmem hds =>
          refine h.edit hsub hedit (fun id hid => ?_) fun id c' hc' => .inl (old_of_shift hds hc')
          obtain ⟨c, hc⟩ := Option.ne_none_iff_exists'.1 (hmem id hid)
          exact hsub (h.keyed id c hc).2
      | @become txHash collateral balance url hnone halias hbalance =>
          obtain rfl := hop _ _ _ _ rfl
          refine h.edit hsub hedit hread fun id c hc => ?_
          by_cases hid : id = txHash
          · rw [hid, DposState.putCandidate, Finmap.lookup_insert, Option.some_inj] at hc
            rw [hid, ← hc]
            exact .inr ⟨rfl, List.mem_cons_self⟩
          · rw [DposState.putCandidate, Finmap.lookup_insert_of_ne _ hid] at hc
            exact .inl ⟨c, hc, rfl⟩
      | @quit c₀ balance hid hc₀ hbalance =>
          refine h.edit hsub hedit hread fun id c hc => .inl ⟨c, ?_, rfl⟩
          by_cases heq : id = acc.candidateID
          · rw [heq, Finmap.lookup_erase] at hc
            cases hc
          · rwa [Finmap.lookup_erase_ne heq] at hc

lemma step {tick : ℤ → ℤ → Prop} {rule : ℕ → Transaction → Prop} {l l' : Ledger}
    (h : VotesKnown (l.accepted.map Transaction.hash) l.state)
    (hstep : LedgerStep env tick rule l l') :
    VotesKnown (l'.accepted.map Transaction.hash) l'.state := by
  cases hstep with
  | @accept _ tx hrule haccept =>
      obtain ⟨r, s₁, exeTx, usage, haccepts⟩ := Ledger.accept_spec haccept
      have haccepted : l'.accepted = tx.setReceipt r :: l.accepted := by rw [haccepts.next]
      rw [haccepted, List.map_cons]
      refine VotesKnown.accepted ?_ haccepts.accepted
      obtain heq | heffect := haccepts.executed.effect
      · rw [heq]
        exact h.mono (List.subset_cons_self _ _)
      · refine h.effect heffect fun txHash addr collateral url hop => ?_
        have hfits := (txConv_spec haccepts.executed.conv).fits
        rw [hop] at hfits
        exact hfits.1
  | reward hdue hpay =>
      obtain ⟨reward, supply, s₁, hedits, -, rfl⟩ := payReward_spec hpay
      exact (h.light hedits).congr rfl rfl
  | dynasty addrs => exact h.congr rfl (DposState.setDynasty_candidates _ _)
  | child htick hchild =>
      refine h.congr ?_ ?_ <;> rw [initChild_spec hchild]

end VotesKnown

section Subtractions

variable {ds ds' : DposState} {ids : List Bytes} {amount : Uint128}

/-- A loop whose steps succeed at the candidates that exist, and change only these, succeeds. -/
lemma forVoted_isOk {f : DposState → Bytes → Except Err DposState} {P : Candidate → Prop}
    (hmissing : ∀ ds id, ds.candidates.lookup id = none → f ds id = .error .notFound)
    (hstep : ∀ ds id c, ds.candidates.lookup id = some c → P c →
      ∃ c', f ds id = .ok (ds.putCandidate id c'))
    (hnodup : ids.Nodup) (h : ∀ id ∈ ids, ∀ c, ds.candidates.lookup id = some c → P c) :
    ∃ ds', forVoted f ids ds = .ok ds' := by
  induction ids generalizing ds with
  | nil => exact ⟨ds, rfl⟩
  | cons id ids ih =>
      obtain ⟨hid, hnodup⟩ := List.nodup_cons.1 hnodup
      rw [forVoted]
      cases hc : ds.candidates.lookup id with
      | none =>
          rw [hmissing ds id hc]
          exact ih hnodup fun x hx => h x (List.mem_cons_of_mem _ hx)
      | some c =>
          obtain ⟨c', hput⟩ := hstep ds id c hc (h id List.mem_cons_self c hc)
          rw [hput]
          refine ih hnodup fun x hx c₁ hc₁ => h x (List.mem_cons_of_mem _ hx) c₁ ?_
          have hne : x ≠ id := fun heq => hid (heq ▸ hx)
          rwa [DposState.putCandidate, Finmap.lookup_insert_of_ne _ hne] at hc₁

/-- A loop that subtracts from candidates that have enough. -/
lemma forVoted_sub_isOk (hnodup : ids.Nodup)
    (h : ∀ id ∈ ids, ∀ c, ds.candidates.lookup id = some c → amount.val ≤ c.votePower.val) :
    ∃ ds', forVoted (fun ds id => ds.subVotePowerToCandidate id amount) ids ds = .ok ds' := by
  refine forVoted_isOk (fun ds id hc => ?_) (fun ds id c hc hle => ?_) hnodup h
  · rw [DposState.subVotePowerToCandidate, DposState.getCandidate, hc]
    rfl
  · obtain ⟨p, hp, -⟩ := Uint128.exists_sub hle
    refine ⟨{ c with votePower := p }, ?_⟩
    rw [DposState.subVotePowerToCandidate, bind_of_ok (DposState.getCandidate_eq_ok.2 hc),
      bind_of_ok hp]
    rfl

/-- A loop that adds to candidates that have room. -/
lemma forVoted_add_isOk (hnodup : ids.Nodup)
    (h : ∀ id ∈ ids, ∀ c, ds.candidates.lookup id = some c →
      c.votePower.val + amount.val < 2 ^ 128) :
    ∃ ds', forVoted (fun ds id => ds.addVotePowerToCandidate id amount) ids ds = .ok ds' := by
  refine forVoted_isOk (fun ds id hc => ?_) (fun ds id c hc hlt => ?_) hnodup h
  · rw [DposState.addVotePowerToCandidate, DposState.getCandidate, hc]
    rfl
  · obtain ⟨p, hp, -⟩ := Uint128.exists_add hlt
    refine ⟨{ c with votePower := p }, ?_⟩
    rw [DposState.addVotePowerToCandidate, bind_of_ok (DposState.getCandidate_eq_ok.2 hc),
      bind_of_ok hp]
    rfl

end Subtractions

namespace Plain

end Plain

end GoMedibloc
