import GoMedibloc.Ledger.Spending
import GoMedibloc.Ledger.VotePower

/-!
# Executed transactions and accepted ones

`ExecuteTransaction` checks that the points of the payer will do before it executes a transaction,
and `AcceptTransaction` subtracts them afterwards.  In between the execution may change the points,
so the check has to foresee what they will be.  It does so for a sender that pays for itself, by
`PointChange`, and takes no change into account for a payer.

The foresight is wrong in two cases.  A stake is expected to raise the points, and does not if it
fails for want of balance; an unstaking is expected to leave the points of a payer, and lowers them
if the payer is the sender.  `Starved` says when that happens, in terms of the state before, and it
is the only way to execute a transaction that cannot be accepted (`acceptable_iff_not_starved`).
That nothing else fails on the way takes what is known of reachable states: no points without
stake, tokens that are backed by a supply below `2 ^ 128`, and vote power within the stakes.
-/

namespace GoMedibloc

open Except

variable {env : Env} {height : ℕ} {s s' s₁ : BlockState} {acc acc' : Account} {a : Address}

/-! ## Reading accounts again -/

/-- A timestamp that a block can have. -/
def InTime (ts : ℤ) : Prop := 0 ≤ ts ∧ ts < 2 ^ 63

lemma inTime_zero : InTime 0 := ⟨le_rfl, by decide⟩

lemma Edit.timestamp (h : Edit s acc acc' s') : s'.timestamp = s.timestamp := by
  rw [h.put]
  rfl

/-- An idle account that has been put is read as it is, but for the date of its points. -/
lemma Edit.getAccount_self (h : Edit s acc acc' s') (hidle : acc'.Idle s.timestamp)
    (hts : InTime s.timestamp) :
    s'.getAccount acc.address = .ok { acc' with lastPointsTs := s.timestamp } := by
  rw [BlockState.getAccount_of_account? h.account?_self, h.timestamp]
  exact hidle.refresh hts.1 hts.2

lemma Edit.getAccount_of_ne (h : Edit s acc acc' s') (ha : a ≠ acc.address) :
    s'.getAccount a = s.getAccount a :=
  BlockState.getAccount_congr (h.account?_of_ne ha) h.timestamp

/-- Light edits leave all accounts readable, with the same points. -/
lemma LightEdits.getAccount {d : ℤ} (h : LightEdits s s' d) (hts : InTime s.timestamp)
    (hread : s.getAccount a = .ok acc) :
    ∃ acc', s'.getAccount a = .ok acc' ∧ acc'.points = acc.points := by
  induction h with
  | refl => exact ⟨acc, hread, rfl⟩
  | @edit s₁ s₂ x x' d hedits hedit hlight ih =>
      obtain ⟨acc₁, hread₁, hpoints⟩ := ih
      by_cases ha : a = x.address
      · rw [ha] at hread₁ ⊢
        obtain rfl : x = acc₁ := Except.ok.inj (hedit.read.symm.trans hread₁)
        have htime : InTime s₁.timestamp := hedits.timestamp ▸ hts
        exact ⟨_, hedit.getAccount_self (hlight.idle hedit.idle) htime,
          hlight.points.trans hpoints⟩
      · exact ⟨acc₁, (hedit.getAccount_of_ne ha).trans hread₁, hpoints⟩
  | @setAliases s₁ d hedits accState haccounts ih =>
      obtain ⟨acc₁, hread₁, hpoints⟩ := ih
      refine ⟨acc₁, ?_, hpoints⟩
      rw [← hread₁]
      exact BlockState.getAccount_congr (congrArg (Finmap.lookup a) haccounts) rfl

/-- The points that an account has after an operation that succeeds. -/
def Operation.pointsAfter (op : Operation) (a : Address) (acc : Account) : ℕ :=
  match op with
  | .stake user amount => if a = user then acc.points.val + amount.val else acc.points.val
  | .unstake user amount =>
    if a = user then min acc.points.val (acc.staking.val - amount.val) else acc.points.val
  | _ => acc.points.val

/-- A light operation leaves the points. -/
lemma Operation.pointsAfter_of_light {op : Operation} (h : op.isLight = true) (a : Address)
    (acc : Account) : op.pointsAfter a acc = acc.points.val := by
  cases op <;> first | rfl | cases h

/-- What a change does to the points of its sender. -/
lemma DposChange.pointsAfter {ts : ℤ} {ds ds' : DposState} {op : Operation}
    (h : DposChange ts ds acc op acc' ds') (a : Address) :
    acc'.points.val = op.pointsAfter acc.address acc ∧
      (a ≠ acc.address → ∀ x : Account, op.pointsAfter a x = x.points.val) := by
  cases h with
  | stake hbalance hstaking hpoints hds =>
      refine ⟨?_, fun ha x => if_neg ha⟩
      rw [Operation.pointsAfter, if_pos rfl]
      exact hpoints
  | unstake hstaking hunstaking hds =>
      refine ⟨?_, fun ha x => if_neg ha⟩
      rw [Operation.pointsAfter, if_pos rfl]
      dsimp only
      split_ifs <;> omega
  | become hnone halias hbalance => exact ⟨rfl, fun _ _ => rfl⟩
  | quit hid hc hbalance => exact ⟨rfl, fun _ _ => rfl⟩
  | vote hmem hds => exact ⟨rfl, fun _ _ => rfl⟩

/-- An operation that succeeds leaves all accounts readable. -/
lemma Effect.getAccount {op : Operation} (h : Effect height s op s') (hts : InTime s.timestamp)
    (hread : s.getAccount a = .ok acc) :
    ∃ acc', s'.getAccount a = .ok acc' ∧ acc'.points.val = op.pointsAfter a acc := by
  cases h with
  | light hop hl =>
      obtain ⟨acc', hread', hpoints⟩ := hl.getAccount hts hread
      exact ⟨acc', hread', by rw [Operation.pointsAfter_of_light hop, hpoints]⟩
  | distribute hheight hl hsupply =>
      obtain ⟨acc', hread', hpoints⟩ := hl.getAccount hts hread
      exact ⟨acc', hread', congrArg Uint128.val hpoints⟩
  | @dpos _ x x' ds' s₁ hedit hchange =>
      obtain ⟨hself, hother⟩ := hchange.pointsAfter a
      by_cases ha : a = x.address
      · rw [ha] at hread ⊢
        obtain rfl : x = acc := Except.ok.inj (hedit.read.symm.trans hread)
        exact ⟨_, hedit.getAccount_self (hchange.idle hedit) hts, hself⟩
      · exact ⟨acc, (hedit.getAccount_of_ne ha).trans hread, (hother ha acc).symm⟩

/-! ## Accepting -/

/-- Points are charged exactly if they are there. -/
lemma charge_isOk_iff {α : Type} {x y : Uint128} {f : Uint128 → Except Err α}
    (hf : ∀ p, ∃ b, f p = .ok b) : (∃ b, (x.sub y >>= f) = .ok b) ↔ y.val ≤ x.val := by
  constructor
  · rintro ⟨b, h⟩
    obtain ⟨p, hp, -⟩ := bind_eq_ok_iff.1 h
    rw [Uint128.sub_eq_ok] at hp
    omega
  · intro hle
    obtain ⟨p, hp, -⟩ := Uint128.exists_sub hle
    rw [bind_of_ok hp]
    exact hf p

/-- A transaction is accepted exactly if its payer has the points of its receipt. -/
lemma acceptTransaction_isOk_iff {tx : Transaction} {r : Receipt} {payer : Account}
    (hfrom : s.getAccount tx.fromAddr = .ok acc)
    (hpayer : s.getAccount tx.payerOrFrom = .ok payer) :
    (∃ s', acceptTransaction (tx.setReceipt r) s = .ok s') ↔ r.points.val ≤ payer.points.val := by
  have hr : ofOption Err.noTransactionReceipt (tx.setReceipt r).receipt = .ok r := rfl
  have hfrom' : s.getAccount (tx.setReceipt r).fromAddr = .ok acc := hfrom
  rw [acceptTransaction, bind_of_ok hr, bind_of_ok hfrom']
  unfold Transaction.payerOrFrom at hpayer
  dsimp only [Transaction.setReceipt]
  change (∃ s', (if tx.hasPayer then _ else _) = Except.ok s') ↔ _
  by_cases htx : tx.hasPayer
  · rw [if_pos htx] at hpayer
    rw [if_pos htx, bind_of_ok hpayer]
    exact charge_isOk_iff fun _ => ⟨_, rfl⟩
  · rw [if_neg htx] at hpayer
    obtain rfl : acc = payer := Except.ok.inj (hfrom.symm.trans hpayer)
    rw [if_neg htx]
    exact charge_isOk_iff fun _ => ⟨_, rfl⟩

/-! ## Stakes that do not fail -/

lemma Account.stakeFor_le_worth (acc : Account) (id : Bytes) : acc.stakeFor id ≤ acc.worth := by
  unfold stakeFor worth
  split_ifs <;> omega

lemma exists_subBalance {x y : Uint128} (h : y.val ≤ x.val) : ∃ z, subBalance x y = .ok z := by
  obtain ⟨z, -, hz⟩ := Uint128.exists_sub h
  exact ⟨z, subBalance_eq_ok.2 hz⟩

/-- Vote power that is taken from the candidates of an account was there. -/
lemma PowerShift.le_power {ds ds' : DposState} {v : Voted} {n : ℕ}
    (h : PowerShift ds ds' 0 fun x => v.keys.count x * n) {id : Bytes} (hid : id ∈ v.keys)
    {c : Candidate} (hc : ds.candidates.lookup id = some c) : n ≤ c.votePower.val := by
  cases hc' : ds'.candidates.lookup id with
  | none => exact absurd ((h.none_iff id).1 hc') (by rw [hc]; exact nofun)
  | some c' =>
      have hpower := (h.power id c c' hc hc').2
      rw [count_voted, if_pos hid, Pi.zero_apply] at hpower
      omega

/-- A rule for all timestamps is one for some. -/
lemma AccountRule.always {P : Account → Prop} {Q : ℤ → Prop}
    (h : AccountRule (fun _ => True) P) : AccountRule Q P :=
  ⟨h.fresh, fun _ => h.refreshed trivial, h.light, h.charged, h.dpos⟩

/-- What is known of the states of a run. -/
structure BlockState.Safe (s : BlockState) : Prop where
  time : InTime s.timestamp
  within : ∀ a acc, s.account? a = some acc → acc.Within
  power : VotePowers (· ≤ ·) s
  backed : s.accState.accounts.total Account.worth < 2 ^ 128

lemma Reachable.safe {rule : ℕ → Transaction → Prop} {l : Ledger}
    (h : Reachable env (fun _ ts => InTime ts) rule l) : l.state.Safe := by
  have hall : AllAccounts InTime Account.Within l.state :=
    AllAccounts.run Account.within_rule.always inTime_zero (fun _ _ hts => hts) h
  refine ⟨hall.timestamp, hall.accounts, Reachable.votePowers_le h, ?_⟩
  have hcirculation := (Reachable.backed h).circulation
  have hlt := l.state.supply.lt
  unfold BlockState.circulation at hcirculation
  omega

namespace BlockState.Safe

/-- An account that is read has at most as many points as it has staked. -/
lemma read_within (h : s.Safe) (hread : s.getAccount a = .ok acc) : acc.Within := by
  obtain ⟨-, rfl⟩ | ⟨stored, hstored, hr⟩ := BlockState.getAccount_cases hread
  · exact le_rfl
  · exact Account.within_rule.refreshed trivial (Account.refresh_spec hr) (h.within a _ hstored)

/-- An account that is read has at most as many tokens as there are. -/
lemma read_worth (h : s.Safe) (hread : s.getAccount a = .ok acc) : acc.worth < 2 ^ 128 := by
  have htotal := (Edit.of_getAccount hread (newAccount acc.address) rfl).total
    Account.stable_worth
  have hnone : (newAccount acc.address).worth = 0 := rfl
  have hlt := h.backed
  omega

/-- The votes for a candidate and the balance of an account together are tokens that exist. -/
lemma power_balance (h : s.Safe) (hread : s.getAccount a = .ok acc) {id : Bytes} {c : Candidate}
    (hc : s.candidate? id = some c) : c.votePower.val + acc.balance.val < 2 ^ 128 := by
  -- without its balance the account votes as before, and votes are tokens
  have hedit := Edit.of_getAccount hread { acc with balance := .zero } rfl
  have hworth := hedit.total Account.stable_worth
  have hvotes := hedit.total (Account.stable_stakeFor id)
  have hle := (s.putAccount { acc with balance := .zero }).accState.accounts.total_mono
    fun a acc _ => acc.stakeFor_le_worth id
  have hpower := h.power id c hc
  have hlt := h.backed
  have hsame : Account.stakeFor id { acc with balance := .zero } = acc.stakeFor id := rfl
  simp only [Account.worth, Account.aliasCollateral, Uint128.zero_val] at hworth
  unfold BlockState.votes at hpower
  omega

/-- A stake succeeds exactly if the balance will do. -/
lemma executeStake_isOk_iff (h : s.Safe) (hread : s.getAccount a = .ok acc) {amount : Uint128} :
    (∃ s', executeStake a amount s = .ok s') ↔ amount.val ≤ acc.balance.val := by
  have hwithin := h.read_within hread
  have hworth := h.read_worth hread
  unfold Account.Within at hwithin
  unfold Account.worth at hworth
  rw [executeStake, bind_of_ok hread]
  constructor
  · rintro ⟨s', hs'⟩
    obtain ⟨balance, hbalance, -⟩ := bind_eq_ok_iff.1 hs'
    rw [subBalance_eq_ok] at hbalance
    omega
  · intro hle
    obtain ⟨balance, hbalance⟩ := exists_subBalance hle
    obtain ⟨staking, hstaking, -⟩ := Uint128.exists_add (x := acc.staking) (y := amount) (by omega)
    obtain ⟨points, hpoints, -⟩ := Uint128.exists_add (x := acc.points) (y := amount) (by omega)
    rw [bind_of_ok hbalance, bind_of_ok hstaking, bind_of_ok hpoints]
    have hroom : ∀ id ∈ acc.voted.keys, ∀ c, s.dposState.candidates.lookup id = some c →
        c.votePower.val + amount.val < 2 ^ 128 := fun id _ c hc =>
      lt_of_le_of_lt (Nat.add_le_add_left hle _) (h.power_balance hread hc)
    obtain ⟨ds, hds⟩ := forVoted_add_isOk acc.voted.nodup hroom
    exact ⟨_, bind_of_ok hds _⟩

/-- An unstaking succeeds exactly if the stake and the vote power will do. -/
lemma executeUnstake_isOk_iff (h : s.Safe) (hread : s.getAccount a = .ok acc) {amount : Uint128} :
    (∃ s', executeUnstake a amount s = .ok s') ↔ amount.val ≤ acc.staking.val ∧
      ∀ id ∈ acc.voted.keys, ∀ c, s.candidate? id = some c → amount.val ≤ c.votePower.val := by
  have hworth := h.read_worth hread
  unfold Account.worth at hworth
  rw [executeUnstake, bind_of_ok hread]
  constructor
  · rintro ⟨s', hs'⟩
    obtain ⟨staking, hstaking, hs'⟩ := bind_eq_ok_iff.1 hs'
    obtain ⟨unstaking, -, hs'⟩ := bind_eq_ok_iff.1 hs'
    obtain ⟨ds, hds, -⟩ := bind_eq_ok_iff.1 hs'
    rw [rename_eq_ok, Uint128.sub_eq_ok] at hstaking
    refine ⟨by omega, fun id hid c hc => ?_⟩
    exact (forVoted_sub hds).le_power hid hc
  · rintro ⟨hle, hpower⟩
    obtain ⟨staking, hstaking, -⟩ := Uint128.exists_sub hle
    obtain ⟨unstaking, hunstaking, -⟩ :=
      Uint128.exists_add (x := acc.unstaking) (y := amount) (by omega)
    rw [bind_of_ok (rename_eq_ok.2 hstaking), bind_of_ok hunstaking]
    obtain ⟨ds, hds⟩ : ∃ ds, forVoted (fun ds id => ds.subVotePowerToCandidate id amount)
      acc.voted.keys s.dposState = .ok ds := forVoted_sub_isOk acc.voted.nodup hpower
    exact ⟨_, bind_of_ok hds _⟩

end BlockState.Safe

/-! ## The check and the charge -/

/-- The points that a transaction costs at the prices of the block. -/
def Bandwidth.cost (bw : Bandwidth) (s : BlockState) : ℕ :=
  s.cpuPrice.val * bw.cpuUsage.toNat + s.netPrice.val * bw.netUsage.toNat

/-- The points that the check expects the sender to have after the execution. -/
def Operation.foreseen (op : Operation) (acc : Account) : ℕ :=
  match op with
  | .stake _ amount => acc.points.val + amount.val
  | .unstake _ amount => acc.points.val - amount.val
  | _ => acc.points.val

/-- Only staking and unstaking change points. -/
lemma Operation.points_eq {op : Operation} (hstake : op.kind ≠ .stake)
    (hunstake : op.kind ≠ .unstake) (a : Address) (acc : Account) :
    op.foreseen acc = acc.points.val ∧ op.pointsAfter a acc = acc.points.val := by
  cases op with
  | stake => exact absurd rfl hstake
  | unstake => exact absurd rfl hunstake
  | _ => exact ⟨rfl, rfl⟩

/-- A sum that is returned, if an underflow were not an error. -/
lemma add_or_zero {x y avail : Uint128}
    (h : (match x.add y with
      | .ok avail => Except.ok avail
      | .error e => if e = Err.uint128Underflow then .ok .zero else .error e) = .ok avail) :
    avail.val = x.val + y.val := by
  cases hxy : x.add y with
  | ok z =>
      rw [hxy] at h
      rw [← Except.ok.inj h]
      exact Uint128.add_eq_ok.1 hxy
  | error e =>
      have hne : e ≠ .uint128Underflow := by
        rw [Uint128.ofNat_eq_error hxy]
        decide
      rw [hxy] at h
      dsimp only at h
      rw [if_neg hne] at h
      cases h

lemma availablePoint_val {op : Operation} {avail : Uint128}
    (h : availablePoint acc op = .ok avail) : avail.val = op.foreseen acc := by
  cases op with
  | stake user amount => exact add_or_zero h
  | unstake user amount =>
      unfold availablePoint at h
      dsimp only [Operation.pointChange] at h
      rw [if_pos rfl] at h
      dsimp only [Operation.foreseen]
      by_cases hlt : acc.points.val < amount.val
      · rw [Uint128.sub_of_lt hlt] at h
        dsimp only at h
        rw [if_pos rfl] at h
        rw [← Except.ok.inj h, Uint128.zero_val]
        omega
      · obtain ⟨z, hsub, hz⟩ := Uint128.exists_sub (Nat.le_of_not_lt hlt)
        rw [hsub] at h
        rw [← Except.ok.inj h]
        omega
  | _ => exact add_or_zero h

section Executed

variable {tx : Transaction} {r : Receipt} {exeTx : ExecutableTx} {usage : Uint128}

/-- The check has read the payer. -/
lemma Executed.payer (h : Executed env height tx s r s₁ exeTx usage) :
    ∃ payer, s.getAccount tx.payerOrFrom = .ok payer ∧
      usage.val ≤ if tx.hasPayer then payer.points.val else exeTx.op.foreseen payer := by
  have havailable := h.available
  unfold checkAvailablePoint at havailable
  unfold Transaction.payerOrFrom
  split_ifs at havailable ⊢ with htx
  · obtain ⟨payer, hread, hcheck⟩ := bind_eq_ok_iff.1 havailable
    rw [checkPayerAccountPoint, failIf_eq_ok] at hcheck
    exact ⟨payer, hread, Nat.le_of_not_lt hcheck⟩
  · obtain ⟨payer, hread, hcheck⟩ := bind_eq_ok_iff.1 havailable
    obtain ⟨avail, havail, hcheck⟩ := bind_eq_ok_iff.1 hcheck
    rw [failIf_eq_ok] at hcheck
    refine ⟨payer, hread, ?_⟩
    rw [← availablePoint_val havail]
    exact Nat.le_of_not_lt hcheck

lemma Executed.executed_iff (h : Executed env height tx s r s₁ exeTx usage) :
    r.executed = true ↔ ∃ s', exeTx.op.execute height s = .ok s' := by
  obtain ⟨hexec, hr⟩ | ⟨e, hexec, -, hr⟩ := h.result
  · rw [hr]
    exact iff_of_true rfl ⟨s₁, hexec⟩
  · rw [hr, hexec]
    exact iff_of_false nofun nofun

/-- An executed transaction is accepted exactly if the points of the payer will do when the
execution is over. -/
lemma Executed.acceptable_iff (h : Executed env height tx s r s₁ exeTx usage)
    (hts : InTime s.timestamp) {payer : Account} (hpayer : s.getAccount tx.payerOrFrom = .ok payer) :
    (∃ s', acceptTransaction (tx.setReceipt r) s₁ = .ok s') ↔
      usage.val ≤ if r.executed then exeTx.op.pointsAfter tx.payerOrFrom payer
        else payer.points.val := by
  obtain ⟨acc, hread, -⟩ := h.nonce
  have hpoints := h.receipt.1
  rw [← hpoints]
  obtain ⟨hexec, hr⟩ | ⟨e, -, hs, hr⟩ := h.result
  · have heffect := execute_effect hexec
    obtain ⟨acc₁, hread₁, -⟩ := heffect.getAccount hts hread
    obtain ⟨payer₁, hpayer₁, hafter⟩ := heffect.getAccount hts hpayer
    rw [acceptTransaction_isOk_iff hread₁ hpayer₁, hafter, if_pos (by rw [hr]; rfl)]
  · rw [hs, acceptTransaction_isOk_iff hread hpayer, if_neg (by rw [hr]; exact nofun)]

end Executed

/-! ## The two ways to fail -/

/-- A transaction that the check lets pass and that cannot be paid afterwards: a stake of more than
the balance, by a sender whose points alone do not pay for it, or an unstaking after which the
stake, and with it the points, of a sender that is named as payer do not pay for it. -/
def Starved (env : Env) (s : BlockState) (tx : Transaction) : Prop :=
  ∃ exeTx acc, txConv env tx = .ok exeTx ∧ s.getAccount tx.fromAddr = .ok acc ∧
    ((tx.txType = .stake ∧ ¬ tx.hasPayer ∧ acc.balance.val < tx.value.val ∧
        acc.points.val < exeTx.bandwidth.cost s) ∨
      (tx.txType = .unstake ∧ tx.hasPayer ∧ tx.payer = tx.fromAddr ∧
        tx.value.val ≤ acc.staking.val ∧
        (∀ id ∈ acc.voted.keys, ∀ c, s.candidate? id = some c →
          tx.value.val ≤ c.votePower.val) ∧
        acc.staking.val - tx.value.val < exeTx.bandwidth.cost s))

section Starved

variable {tx : Transaction} {r : Receipt} {exeTx : ExecutableTx} {usage : Uint128}

/-- The condition for the sender and the operation at hand. -/
lemma starved_iff (hconv : txConv env tx = .ok exeTx) (hread : s.getAccount tx.fromAddr = .ok acc) :
    Starved env s tx ↔
      (tx.txType = .stake ∧ ¬ tx.hasPayer ∧ acc.balance.val < tx.value.val ∧
        acc.points.val < exeTx.bandwidth.cost s) ∨
      (tx.txType = .unstake ∧ tx.hasPayer ∧ tx.payer = tx.fromAddr ∧
        tx.value.val ≤ acc.staking.val ∧
        (∀ id ∈ acc.voted.keys, ∀ c, s.candidate? id = some c →
          tx.value.val ≤ c.votePower.val) ∧
        acc.staking.val - tx.value.val < exeTx.bandwidth.cost s) := by
  constructor
  · rintro ⟨exeTx', acc', hconv', hread', h⟩
    obtain rfl := Except.ok.inj (hconv.symm.trans hconv')
    obtain rfl := Except.ok.inj (hread.symm.trans hread')
    exact h
  · exact fun h => ⟨exeTx, acc, hconv, hread, h⟩

/-- The transaction of a payer that is not the sender, or of a sender that pays for itself. -/
lemma Transaction.payerOrFrom_cases (tx : Transaction) :
    (tx.hasPayer ∧ tx.payerOrFrom = tx.payer) ∨ (¬ tx.hasPayer ∧ tx.payerOrFrom = tx.fromAddr) := by
  by_cases htx : tx.hasPayer
  · exact .inl ⟨htx, if_pos htx⟩
  · exact .inr ⟨htx, if_neg htx⟩

/-- A stake can be accepted unless it fails and the points do not do without it. -/
lemma Executed.stake_acceptable (h : Executed env height tx s r s₁ exeTx usage) (hs : s.Safe)
    {user : Address} {amount : Uint128} (hop : exeTx.op = .stake user amount) :
    (∃ s', acceptTransaction (tx.setReceipt r) s₁ = .ok s') ↔ ¬ Starved env s tx := by
  obtain ⟨acc, hread, -⟩ := h.nonce
  obtain ⟨payer, hpayer, hcheck⟩ := h.payer
  have hfrom := txConv_spec h.conv
  have hfits := hfrom.fits
  have hkind := hfrom.kind
  rw [hop] at hfits hkind hcheck
  obtain ⟨rfl, rfl, -⟩ := hfits
  have hexec := h.executed_iff
  rw [hop] at hexec
  have hcost : usage.val = exeTx.bandwidth.cost s := h.points
  have hstakes := hexec.trans (hs.executeStake_isOk_iff hread)
  rw [h.acceptable_iff hs.time hpayer, starved_iff h.conv hread, ← hcost, hop, ← hkind]
  obtain ⟨htx, hpf⟩ | ⟨htx, hpf⟩ := tx.payerOrFrom_cases
  · -- a payer pays what the check has seen, or more
    rw [if_pos htx] at hcheck
    refine iff_of_true ?_ ?_
    · dsimp only [Operation.pointsAfter]
      split_ifs <;> omega
    · rintro (⟨-, hno, -⟩ | ⟨hno, -⟩)
      · exact hno htx
      · cases hno
  · rw [hpf] at hpayer ⊢
    obtain rfl := Except.ok.inj (hread.symm.trans hpayer)
    rw [if_neg htx] at hcheck
    dsimp only [Operation.foreseen] at hcheck
    by_cases hbalance : tx.value.val ≤ acc.balance.val
    · rw [if_pos (hstakes.2 hbalance)]
      refine iff_of_true ?_ ?_
      · dsimp only [Operation.pointsAfter]
        rw [if_pos rfl]
        exact hcheck
      · rintro (⟨-, -, hno, -⟩ | ⟨hno, -⟩)
        · omega
        · cases hno
    · rw [if_neg fun hr => hbalance (hstakes.1 hr)]
      constructor
      · rintro hle (⟨-, -, -, hno⟩ | ⟨hno, -⟩)
        · omega
        · cases hno
      · intro hno
        by_contra hlt
        exact hno (.inl ⟨rfl, htx, Nat.lt_of_not_le hbalance, Nat.lt_of_not_le hlt⟩)

/-- An unstaking can be accepted unless it takes the points of the sender as its payer. -/
lemma Executed.unstake_acceptable (h : Executed env height tx s r s₁ exeTx usage) (hs : s.Safe)
    {user : Address} {amount : Uint128} (hop : exeTx.op = .unstake user amount) :
    (∃ s', acceptTransaction (tx.setReceipt r) s₁ = .ok s') ↔ ¬ Starved env s tx := by
  obtain ⟨acc, hread, -⟩ := h.nonce
  obtain ⟨payer, hpayer, hcheck⟩ := h.payer
  have hfrom := txConv_spec h.conv
  have hfits := hfrom.fits
  have hkind := hfrom.kind
  rw [hop] at hfits hkind hcheck
  obtain ⟨rfl, rfl⟩ := hfits
  have hexec := h.executed_iff
  rw [hop] at hexec
  have hcost : usage.val = exeTx.bandwidth.cost s := h.points
  have hunstakes := hexec.trans (hs.executeUnstake_isOk_iff hread)
  have hwithin := hs.read_within hread
  unfold Account.Within at hwithin
  rw [h.acceptable_iff hs.time hpayer, starved_iff h.conv hread, ← hcost, hop, ← hkind]
  dsimp only [Operation.pointsAfter]
  obtain ⟨htx, hpf⟩ | ⟨htx, hpf⟩ := tx.payerOrFrom_cases
  · rw [if_pos htx] at hcheck
    by_cases hself : tx.payer = tx.fromAddr
    · rw [hpf, hself] at hpayer
      obtain rfl := Except.ok.inj (hread.symm.trans hpayer)
      rw [if_pos (hpf.trans hself)]
      by_cases hr : r.executed
      · obtain ⟨hle, hpower⟩ := hunstakes.1 hr
        rw [if_pos hr]
        constructor
        · rintro hpaid (⟨hno, -⟩ | ⟨-, -, -, -, -, hno⟩)
          · cases hno
          · omega
        · intro hno
          by_contra hlt
          refine hno (.inr ⟨rfl, htx, hself, hle, hpower, ?_⟩)
          omega
      · rw [if_neg hr]
        refine iff_of_true hcheck ?_
        rintro (⟨hno, -⟩ | ⟨-, -, -, hle, hpower, -⟩)
        · cases hno
        · exact hr (hunstakes.2 ⟨hle, hpower⟩)
    · rw [hpf, if_neg hself, ite_self]
      refine iff_of_true hcheck ?_
      rintro (⟨hno, -⟩ | ⟨-, -, hno, -⟩)
      · cases hno
      · exact hself hno
  · -- the check has seen that the points do without the amount
    rw [hpf] at hpayer ⊢
    obtain rfl := Except.ok.inj (hread.symm.trans hpayer)
    rw [if_neg htx] at hcheck
    dsimp only [Operation.foreseen] at hcheck
    refine iff_of_true ?_ ?_
    · rw [if_pos rfl]
      split_ifs <;> omega
    · rintro (⟨hno, -⟩ | ⟨-, hno, -⟩)
      · cases hno
      · exact htx hno

/-- A transaction of another type can be accepted: its points do not change. -/
lemma Executed.other_acceptable (h : Executed env height tx s r s₁ exeTx usage) (hs : s.Safe)
    (hstake : exeTx.op.kind ≠ .stake) (hunstake : exeTx.op.kind ≠ .unstake) :
    (∃ s', acceptTransaction (tx.setReceipt r) s₁ = .ok s') ↔ ¬ Starved env s tx := by
  obtain ⟨payer, hpayer, hcheck⟩ := h.payer
  obtain ⟨hforeseen, hafter⟩ := Operation.points_eq hstake hunstake tx.payerOrFrom payer
  rw [(txConv_spec h.conv).kind] at hstake hunstake
  rw [hforeseen, ite_self] at hcheck
  rw [h.acceptable_iff hs.time hpayer, hafter, ite_self]
  refine iff_of_true hcheck ?_
  rintro ⟨-, -, -, -, ⟨hno, -⟩ | ⟨hno, -⟩⟩
  · exact hstake hno
  · exact hunstake hno

end Starved

/-- **Which executed transactions can be accepted.**  In every block state that is reached with
timestamps that headers hold, a transaction of any type that is executed, whether it succeeds or is
rolled back, is accepted with its receipt unless it is starved: it stakes more than the balance and
the points do not pay for it without the stake, or it unstakes what its own sender would pay it
with as the named payer. -/
theorem acceptable_iff_not_starved (env : Env) (rule : ℕ → Transaction → Prop) {l : Ledger}
    (h : Reachable env (fun _ ts => 0 ≤ ts ∧ ts < 2 ^ 63) rule l) {tx : Transaction} {r : Receipt}
    {s₁ : BlockState} (hexec : executeTransaction env l.height tx l.state = .ok (r, s₁)) :
    (∃ s', acceptTransaction (tx.setReceipt r) s₁ = .ok s') ↔ ¬ Starved env l.state tx := by
  have hs : l.state.Safe := Reachable.safe h
  obtain ⟨exeTx, usage, hexecuted⟩ := executeTransaction_spec hexec
  cases hop : exeTx.op with
  | stake user amount => exact hexecuted.stake_acceptable hs hop
  | unstake user amount => exact hexecuted.unstake_acceptable hs hop
  | _ => exact hexecuted.other_acceptable hs (by rw [hop]; exact nofun) (by rw [hop]; exact nofun)

namespace Plain

/-- A configuration with a supply of `10 ^ 16`, of which a tenth is staked. -/
def stakedConfiguration : List Transaction :=
  [distribution 1 (address 1) (.ofUint 10000000000000000),
    signed ⟨.stake, address 1, .none, .ofUint 1000000000000000, 1, 0, []⟩]

/-- The first block after it, without transactions yet. -/
def secondBlock : Except Err Ledger :=
  Ledger.start.acceptAll .plain stakedConfiguration >>= fun l => l.beginChild 3 >>= fun l =>
    l.acceptAll .plain []

/-- A transfer by the account with the stake. -/
def pointsTransfer : Transaction :=
  signed ⟨.transfer, address 1, address 2, .ofUint 5, 2, 0, []⟩

/-- A stake of `10 ^ 12` by an account that has nothing. -/
def unbackedStake : Transaction :=
  signed ⟨.stake, address 2, .none, .ofUint 1000000000000, 1, 0, []⟩

/-- The outcome of executing a transaction and accepting it. -/
def outcome (l : Ledger) (tx : Transaction) : Except Err (Bool × Except Err Unit) :=
  (executeTransaction .plain l.height tx l.state).map fun p =>
    (p.1.executed, (acceptTransaction (tx.setReceipt p.1) p.2).map fun _ => ())

lemma outcome_spec {l : Ledger} {tx : Transaction} {executed : Bool} {e : Except Err Unit}
    (h : outcome l tx = .ok (executed, e)) :
    ∃ r s₁, executeTransaction .plain l.height tx l.state = .ok (r, s₁) ∧
      r.executed = executed ∧ (acceptTransaction (tx.setReceipt r) s₁).map (fun _ => ()) = e := by
  obtain ⟨⟨r, s₁⟩, hexec, h⟩ := map_eq_ok_iff.1 h
  rw [Prod.mk.injEq] at h
  exact ⟨r, s₁, hexec, h.1, h.2⟩

/-- The second block is reached. -/
lemma secondBlock_reachable {β : Type} {f : Ledger → β} {b : β} (h : secondBlock.map f = .ok b) :
    ∃ l, Reachable .plain (fun _ ts => 0 ≤ ts ∧ ts < 2 ^ 63) (Admitted .plain 0) l ∧ f l = b := by
  refine Reachable.of_second_block ?_ ⟨by decide, by decide⟩ ?_ h
  · decide +kernel
  · exact fun tx hnone => absurd hnone List.not_mem_nil

end Plain

/-- A transfer that is paid with points. -/
theorem transfer_is_acceptable :
    ∃ l r s₁, Reachable .plain (fun _ ts => 0 ≤ ts ∧ ts < 2 ^ 63) (Admitted .plain 0) l ∧
      executeTransaction .plain l.height Plain.pointsTransfer l.state = .ok (r, s₁) ∧
      0 < r.points.val ∧
      ∃ s', acceptTransaction (Plain.pointsTransfer.setReceipt r) s₁ = .ok s' := by
  have hrun : Plain.secondBlock.map (fun l => (executeTransaction .plain l.height
      Plain.pointsTransfer l.state).map fun p => decide (0 < p.1.points.val)) =
      .ok (.ok true) := by
    decide +kernel
  obtain ⟨l, hl, heq⟩ := Plain.secondBlock_reachable hrun
  obtain ⟨⟨r, s₁⟩, hexec, hpoints⟩ := map_eq_ok_iff.1 heq
  refine ⟨l, r, s₁, hl, hexec, of_decide_eq_true hpoints, ?_⟩
  refine (acceptable_iff_not_starved .plain _ hl hexec).2 ?_
  rintro ⟨-, -, -, -, ⟨hno, -⟩ | ⟨hno, -⟩⟩
  · cases hno
  · cases hno

/-- A stake by an account that has nothing is executed, with a receipt that it has failed, and
cannot be accepted. -/
theorem stake_of_nothing_unpaid :
    ∃ l tx r s₁, Reachable .plain (fun _ ts => 0 ≤ ts ∧ ts < 2 ^ 63) (Admitted .plain 0) l ∧
      Admitted .plain 0 l.height tx ∧
      executeTransaction .plain l.height tx l.state = .ok (r, s₁) ∧ r.executed = false ∧
      ¬ ∃ s', acceptTransaction (tx.setReceipt r) s₁ = .ok s' := by
  have hrun : Plain.secondBlock.map (fun l =>
      (decide (Admitted .plain 0 l.height Plain.unbackedStake),
        Plain.outcome l Plain.unbackedStake)) =
      .ok (true, .ok (false, .error .uint128Underflow)) := by
    decide +kernel
  obtain ⟨l, hl, heq⟩ := Plain.secondBlock_reachable hrun
  rw [Prod.mk.injEq, decide_eq_true_iff] at heq
  obtain ⟨hadmitted, houtcome⟩ := heq
  obtain ⟨r, s₁, hexec, hexecuted, haccept⟩ := Plain.outcome_spec houtcome
  refine ⟨l, _, r, s₁, hl, hadmitted, hexec, hexecuted, ?_⟩
  rintro ⟨s', hs'⟩
  rw [hs'] at haccept
  cases haccept

end GoMedibloc
