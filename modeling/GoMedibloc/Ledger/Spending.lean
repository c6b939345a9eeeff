import GoMedibloc.Ledger.Points
import GoMedibloc.Ledger.Conservation

/-!
# What can be spent in one block

Transactions are paid with points, and points come from stakes.  Within one block nothing
regenerates, for all its transactions read accounts at the same timestamp.  But points can still be
made in a block: staking gives as many points as are staked.  What cannot be made is the sum of
points, balances and collateral, with accounts as they are read at the timestamp of the block: a
staked amount leaves the balance for good, since what is unstaked waits for seven days.

`BlockState.spendable` is that sum.  No transaction above the genesis block raises it, accepting a
transaction lowers it by the points of its receipt, and at the start of a block it is at most the
number of tokens.  So the points that the transactions of a block pay are at most the supply.
-/

namespace GoMedibloc

open Except

variable {s s' s₁ : BlockState} {acc acc' : Account} {ts : ℤ}

/-! ## The sum -/

/-- What an account can spend when it is read at a timestamp: balance, alias collateral and points.
An account that cannot be read spends nothing. -/
def Account.spendable (ts : ℤ) (acc : Account) : ℕ :=
  match acc.refresh ts with
  | .ok acc => acc.held + acc.points.val
  | .error _ => 0

/-- What all accounts can spend in a block, and the collateral of the candidates. -/
def BlockState.spendable (s : BlockState) : ℕ :=
  s.accState.accounts.total (Account.spendable s.timestamp) + s.dposState.collateral

lemma Account.spendable_of_refresh (h : acc.refresh ts = .ok acc') :
    acc.spendable ts = acc'.held + acc'.points.val := by
  rw [spendable, h]

/-- An account with at most as many points as it has staked spends at most what it is worth. -/
lemma Account.Within.spendable_le (h : acc.Within) (ts : ℤ) : acc.spendable ts ≤ acc.worth := by
  cases hread : acc.refresh ts with
  | error e =>
      rw [spendable, hread]
      exact Nat.zero_le _
  | ok acc' =>
      have hr := refresh_spec hread
      have hliquid := hr.liquid
      have hpoints := (hr.points h).2
      rw [spendable_of_refresh hread]
      unfold worth held aliasCollateral
      rw [hr.aliasRecord]
      omega

/-- Reading an idle account makes nothing. -/
lemma Account.Idle.spendable_le (h : Idle ts acc) : acc.spendable ts ≤ acc.held + acc.points.val := by
  cases hread : acc.refresh ts with
  | error e =>
      rw [spendable, hread]
      exact Nat.zero_le _
  | ok acc' =>
      rw [spendable_of_refresh hread]
      obtain ⟨mid, hmid, hread⟩ := bind_eq_ok_iff.1 hread
      have hunstaking : acc' = mid := by
        obtain ⟨-, hsame⟩ := updatePoints_spec hmid
        have hlast : mid.lastUnstakingTs = acc.lastUnstakingTs := by rw [hsame]
        unfold updateUnstaking at hread
        rw [hlast] at hread
        obtain hnone | hwait := h.unstaking
        · rw [if_pos hnone] at hread
          exact (Except.ok.inj hread).symm
        · split_ifs at hread
          · exact (Except.ok.inj hread).symm
          · exact (Except.ok.inj hread).symm
      have hpoints : mid.points.val ≤ acc.points.val := by
        obtain hdated | ⟨-, hstaking, hzero⟩ := h.points
        · rw [updatePoints, if_pos hdated] at hmid
          rw [← Except.ok.inj hmid]
        · obtain ⟨hbound, -⟩ := updatePoints_spec hmid
          have hle := (hbound (by rw [hstaking, hzero])).2
          rw [hstaking] at hle
          exact hle.trans (Nat.zero_le _)
      obtain ⟨-, hsame⟩ := updatePoints_spec hmid
      rw [hunstaking]
      have hheld : mid.held = acc.held := by rw [hsame]; rfl
      omega

/-- At the start of a block no more can be spent than there are tokens. -/
lemma BlockState.spendable_le (h : ∀ a acc, s.account? a = some acc → acc.Within) :
    s.spendable ≤ s.circulation :=
  Nat.add_le_add_right (Finmap.total_mono fun a acc hacc => (h a acc hacc).spendable_le _) _

/-! ## Idle accounts -/

/-- An account that has been read is idle. -/
lemma Edit.idle (h : Edit s acc acc' s') : Account.Idle s.timestamp acc := by
  obtain ⟨-, hnew⟩ | ⟨stored, -, hr⟩ := h.fresh_or_refreshed
  · rw [hnew]
    exact Account.idle_newAccount _ _
  · exact hr.idle

/-- An account without a stake and a balance, as a new one is. -/
def Account.Bare (acc : Account) : Prop :=
  acc.balance.val = 0 ∧ acc.staking.val = 0 ∧ acc.points.val = 0

/-- An account that is read has been dated, or is new. -/
lemma Edit.dated_or_bare (h : Edit s acc acc' s') :
    acc.lastPointsTs = s.timestamp ∨ acc.lastPointsTs = 0 ∧ acc.Bare := by
  obtain ⟨-, hnew⟩ | ⟨stored, -, hr⟩ := h.fresh_or_refreshed
  · rw [hnew]
    exact .inr ⟨rfl, rfl, rfl, rfl⟩
  · left
    rw [hr.same]

lemma Account.Charged.idle (h : acc.Charged acc') (hidle : acc.Idle ts) : acc'.Idle ts := by
  have hlast : acc'.lastPointsTs = acc.lastPointsTs := by rw [h.same]
  have hwait : acc'.lastUnstakingTs = acc.lastUnstakingTs := by rw [h.same]
  refine ⟨?_, hwait ▸ hidle.unstaking⟩
  obtain hdated | ⟨hzero, hstaking, hpoints⟩ := hidle.points
  · exact .inl (hlast.trans hdated)
  · refine .inr ⟨hlast.trans hzero, h.staking.trans hstaking, Uint128.ext ?_⟩
    have hle := h.points
    rw [hpoints, Uint128.zero_val] at hle
    exact Nat.le_zero.1 hle

/-- Operations leave an account idle: staking needs a balance, and what is unstaked waits. -/
lemma DposChange.idle {ds ds' : DposState} {op : Operation}
    (h : DposChange s.timestamp ds acc op acc' ds') (hedit : Edit s acc acc' s₁) :
    acc'.Idle s.timestamp := by
  have hidle := hedit.idle
  have hpoints := hedit.dated_or_bare
  have hnow : ¬ sevenDaysPassed (wrap64 (s.timestamp - s.timestamp)) := by
    rw [sub_self]
    decide
  have hzero : ∀ {x : Uint128}, x.val = 0 → x = .zero := fun h => Uint128.ext h
  cases h with
  | stake hbalance hstaking hpoints' hds =>
      refine ⟨hpoints.imp id ?_, hidle.unstaking⟩
      rintro ⟨hlast, hb, hs, hp⟩
      exact ⟨hlast, hzero (by dsimp only; omega), hzero (by dsimp only; omega)⟩
  | unstake hstaking hunstaking hds =>
      refine ⟨hpoints.imp id ?_, .inr hnow⟩
      rintro ⟨hlast, hb, hs, hp⟩
      exact ⟨hlast, hzero (by dsimp only; omega), hzero (by dsimp only; split_ifs <;> omega)⟩
  | become hnone halias hbalance => exact ⟨hidle.points, hidle.unstaking⟩
  | quit hid hc hbalance => exact ⟨hidle.points, hidle.unstaking⟩
  | vote hmem hds => exact ⟨hidle.points, hidle.unstaking⟩

/-! ## What transactions do to the sum -/

/-- An edit changes the sum by at most the difference between the account that is put, if it is
idle, and the one that was read. -/
lemma Edit.total_spendable (h : Edit s acc acc' s') (hidle : acc'.Idle s.timestamp) :
    s'.accState.accounts.total (Account.spendable s.timestamp) + (acc.held + acc.points.val) ≤
      s.accState.accounts.total (Account.spendable s.timestamp) +
        (acc'.held + acc'.points.val) := by
  have hread : (s.accState.accounts.lookup acc'.address).elim 0 (Account.spendable s.timestamp) =
      acc.held + acc.points.val := by
    rw [h.address]
    obtain ⟨hnone, hnew⟩ | ⟨stored, hstored, hr⟩ := BlockState.getAccount_cases h.read
    · rw [BlockState.account?] at hnone
      rw [hnone, hnew]
      rfl
    · rw [BlockState.account?] at hstored
      rw [hstored]
      exact Account.spendable_of_refresh hr
  have hput := Finmap.total_insert s.accState.accounts acc'.address acc'
    (Account.spendable s.timestamp)
  rw [hread] at hput
  have hle := hidle.spendable_le
  rw [h.put]
  change (s.accState.accounts.insert acc'.address acc').total _ + _ ≤ _
  omega

lemma LightEdits.timestamp {d : ℤ} (h : LightEdits s s' d) : s'.timestamp = s.timestamp := by
  rw [h.frame]

lemma LightEdits.total_spendable {d : ℤ} (h : LightEdits s s' d) :
    (s'.accState.accounts.total (Account.spendable s.timestamp) : ℤ) ≤
      s.accState.accounts.total (Account.spendable s.timestamp) + d := by
  induction h with
  | refl => simp
  | @edit s₁ s₂ acc acc' d hedits hedit hlight ih =>
      have hidle := hlight.idle hedit.idle
      have htotal := hedit.total_spendable hidle
      rw [hedits.timestamp] at htotal
      have hpoints := congrArg Uint128.val hlight.points
      omega
  | setAliases _ accState haccounts ih =>
      rw [← haccounts] at ih
      exact ih

/-- What the sender of a change has, with the collateral of the candidates, does not grow. -/
lemma DposChange.held_points {ds ds' : DposState} {op : Operation}
    (h : DposChange ts ds acc op acc' ds') :
    acc'.held + acc'.points.val + ds'.collateral ≤ acc.held + acc.points.val + ds.collateral := by
  cases h with
  | stake hbalance hstaking hpoints hds =>
      simp only [Account.held, Account.aliasCollateral, hds.collateral]
      omega
  | unstake hstaking hunstaking hds =>
      simp only [Account.held, Account.aliasCollateral, hds.collateral]
      split_ifs <;> omega
  | vote hmem hds =>
      simp only [Account.held, Account.aliasCollateral, hds.collateral]
      exact le_rfl
  | @become txHash collateral balance url hnone halias hbalance =>
      have hinsert := ds.candidates.total_insert txHash
        ⟨txHash, acc.address, collateral, .zero, url, ts⟩ fun c => c.collateral.val
      simp only [Account.held, Account.aliasCollateral, DposState.collateral,
        DposState.putCandidate]
      dsimp only at hinsert
      omega
  | @quit c balance hid hc hbalance =>
      have herase := ds.candidates.total_erase acc.candidateID fun c => c.collateral.val
      rw [hc, Option.elim_some] at herase
      simp only [Account.held, Account.aliasCollateral, DposState.collateral]
      omega

/-- No transaction raises the sum, above the genesis block. -/
lemma Effect.spendable_le {height : ℕ} {op : Operation} (h : Effect height s op s')
    (hheight : height ≠ genesisHeight) : s'.spendable ≤ s.spendable := by
  unfold BlockState.spendable
  rw [h.timestamp]
  cases h with
  | light hop hl =>
      have htotal := hl.total_spendable
      have hds : s'.dposState = s.dposState := by rw [hl.frame]
      rw [hds]
      omega
  | distribute hgenesis hl hsupply => exact absurd hgenesis hheight
  | dpos hedit hchange =>
      have htotal := hedit.total_spendable (hchange.idle hedit)
      have hheld := hchange.held_points
      dsimp only
      omega

/-- An edit that charges an account lowers the sum by what it charges. -/
lemma Edit.spendable_charged (h : Edit s acc acc' s') (hcharged : acc.Charged acc') :
    s'.spendable + acc.points.val ≤ s.spendable + acc'.points.val := by
  have htotal := h.total_spendable (hcharged.idle h.idle)
  have hheld : acc'.held = acc.held := by
    rw [Account.held, Account.held, Account.aliasCollateral, Account.aliasCollateral,
      hcharged.balance, hcharged.aliasRecord]
  have hts : s'.timestamp = s.timestamp := by rw [h.put]; rfl
  have hds : s'.dposState = s.dposState := by rw [h.put]; rfl
  unfold BlockState.spendable
  rw [hts, hds]
  omega

/-- Accepting a transaction lowers the sum by the points of its receipt. -/
lemma Accepted.spendable_le {tx : Transaction} {r : Receipt} (h : Accepted tx r s s') :
    s'.spendable + r.points.val ≤ s.spendable := by
  have hrecord : ∀ s : BlockState, (s.record tx r).spendable = s.spendable := fun _ => rfl
  cases h with
  | sender hpayer haddr hedit hpoints =>
      have hle := hedit.spendable_charged ⟨rfl, le_of_add_le_left hpoints.le⟩
      dsimp only at hle
      rw [hrecord]
      omega
  | payer hpayer haddr hpaddr hne hedit hedit₁ hpoints =>
      have hle := hedit.spendable_charged ⟨rfl, le_rfl⟩
      have hle₁ := hedit₁.spendable_charged ⟨rfl, le_of_add_le_left hpoints.le⟩
      dsimp only at hle hle₁
      rw [hrecord]
      omega
  | self hpayer haddr heq hedit hpoints =>
      have hle := hedit.spendable_charged ⟨rfl, le_of_add_le_left hpoints.le⟩
      dsimp only at hle
      rw [hrecord]
      omega

/-- **Transactions are paid.**  A transaction that is accepted above the genesis block lowers the
sum by its bandwidth at the prices of the block. -/
lemma Ledger.accept_spendable {env : Env} {tx : Transaction} {l l' : Ledger}
    (hheight : l.height ≠ genesisHeight) (h : l.accept env tx = .ok l') :
    ∃ exeTx, txConv env tx = .ok exeTx ∧
      l'.state.spendable + (l.state.cpuPrice.val * exeTx.bandwidth.cpuUsage.toNat +
        l.state.netPrice.val * exeTx.bandwidth.netUsage.toNat) ≤ l.state.spendable := by
  obtain ⟨r, s₁, exeTx, usage, haccepts⟩ := Ledger.accept_spec h
  refine ⟨exeTx, haccepts.executed.conv, ?_⟩
  have hpaid := haccepts.accepted.spendable_le
  have hexec : s₁.spendable ≤ l.state.spendable := by
    obtain heq | heffect := haccepts.executed.effect
    · rw [heq]
    · exact heffect.spendable_le hheight
  rw [haccepts.executed.receipt.1, haccepts.executed.points] at hpaid
  omega

end GoMedibloc
