import GoMedibloc.Ledger.Regeneration
import GoMedibloc.Ledger.Run

/-!
# Points stay within the stake

An account has at most as many points as it has staked: staking adds the same amount to both,
unstaking cuts the points to what is left, transactions only use points, and regeneration stops
at the stake.  The bound matters for more than fairness: `currentPoints` subtracts the points
from the stake first, so an account beyond the bound could never be read again.

`AccountRule` says what a property of single accounts has to satisfy in order to hold of every
stored account along a run.
-/

namespace GoMedibloc

open Except

/-! ## Properties of single accounts -/

/-- A property of accounts that holds of fresh ones and is kept by all that happens to an account
at the timestamps in `Q`. -/
structure AccountRule (Q : ℤ → Prop) (P : Account → Prop) : Prop where
  fresh : ∀ a, P (newAccount a)
  refreshed : ∀ {ts acc acc'}, Q ts → Account.Refreshed ts acc acc' → P acc → P acc'
  light : ∀ {acc acc'}, Account.Light acc acc' → P acc → P acc'
  charged : ∀ {acc acc'}, Account.Charged acc acc' → P acc → P acc'
  dpos : ∀ {ts ds acc op acc' ds'}, DposChange ts ds acc op acc' ds' → P acc → P acc'

/-- All stored accounts have the property, at a timestamp in `Q`. -/
structure AllAccounts (Q : ℤ → Prop) (P : Account → Prop) (s : BlockState) : Prop where
  timestamp : Q s.timestamp
  accounts : ∀ a acc, s.account? a = some acc → P acc

namespace AllAccounts

variable {Q : ℤ → Prop} {P : Account → Prop} {s s' : BlockState}

lemma congr (h : AllAccounts Q P s) (hts : s'.timestamp = s.timestamp)
    (haccounts : s'.accState.accounts = s.accState.accounts) : AllAccounts Q P s' := by
  refine ⟨hts ▸ h.timestamp, fun a acc hacc => h.accounts a acc ?_⟩
  rw [← hacc, BlockState.account?, BlockState.account?, haccounts]

/-- The account that is read has the property too. -/
lemma read (h : AllAccounts Q P s) (hP : AccountRule Q P) {acc acc' : Account}
    (hedit : Edit s acc acc' s') : P acc := by
  obtain ⟨-, hnew⟩ | ⟨stored, hstored, hr⟩ := hedit.fresh_or_refreshed
  · rw [hnew]
    exact hP.fresh _
  · exact hP.refreshed h.timestamp hr (h.accounts _ _ hstored)

lemma edit (h : AllAccounts Q P s) {acc acc' : Account} (hedit : Edit s acc acc' s')
    (hacc : P acc') : AllAccounts Q P s' := by
  refine ⟨?_, hedit.forall_accounts h.accounts hacc⟩
  rw [hedit.put]
  exact h.timestamp

lemma light (h : AllAccounts Q P s) (hP : AccountRule Q P) {d : ℤ} (hl : LightEdits s s' d) :
    AllAccounts Q P s' := by
  induction hl with
  | refl => exact h
  | edit _ hedit hlight ih => exact ih.edit hedit (hP.light hlight (ih.read hP hedit))
  | setAliases _ _ haccounts ih => exact ih.congr rfl haccounts

lemma effect (h : AllAccounts Q P s) (hP : AccountRule Q P) {height : ℕ} {op : Operation}
    (he : Effect height s op s') : AllAccounts Q P s' := by
  cases he with
  | light hop hl => exact h.light hP hl
  | distribute hheight hl hsupply => exact (h.light hP hl).congr rfl rfl
  | dpos hedit hchange =>
      exact (h.edit hedit (hP.dpos hchange (h.read hP hedit))).congr rfl rfl

lemma accepted (h : AllAccounts Q P s) (hP : AccountRule Q P) {tx : Transaction} {r : Receipt}
    (ha : Accepted tx r s s') : AllAccounts Q P s' := by
  refine ha.preserves ?_ (fun _ ht => ht.congr rfl rfl) h
  intro s₁ acc acc' s₂ hedit hcharged ht
  exact ht.edit hedit (hP.charged hcharged (ht.read hP hedit))

lemma step (hP : AccountRule Q P) {env : Env} {tick : ℤ → ℤ → Prop}
    {rule : ℕ → Transaction → Prop} (htick : ∀ ts ts', tick ts ts' → Q ts') {l l' : Ledger}
    (h : AllAccounts Q P l.state) (hstep : LedgerStep env tick rule l l') :
    AllAccounts Q P l'.state := by
  cases hstep with
  | @accept _ tx hrule haccept =>
      obtain ⟨r, s₁, exeTx, usage, haccepts⟩ := Ledger.accept_spec haccept
      obtain rfl | heffect := haccepts.executed.effect
      · exact h.accepted hP haccepts.accepted
      · exact (h.effect hP heffect).accepted hP haccepts.accepted
  | reward hdue hpay =>
      obtain ⟨reward, supply, s₁, hedits, -, rfl⟩ := payReward_spec hpay
      exact (h.light hP hedits).congr rfl rfl
  | dynasty addrs => exact h.congr rfl rfl
  | child hts hchild =>
      rw [initChild_spec hchild]
      exact ⟨htick _ _ hts, h.accounts⟩

/-- The property holds of all stored accounts in every run. -/
lemma run (hP : AccountRule Q P) {env : Env} {tick : ℤ → ℤ → Prop}
    {rule : ℕ → Transaction → Prop} (hzero : Q 0) (htick : ∀ ts ts', tick ts ts' → Q ts')
    {l : Ledger} (h : Reachable env tick rule l) : AllAccounts Q P l.state := by
  induction h with
  | refl => exact ⟨hzero, fun a acc hnone => by cases hnone⟩
  | tail _ hstep ih => exact ih.step hP htick hstep

end AllAccounts

/-! ## The bound -/

/-- No more points than staked. -/
def Account.Within (acc : Account) : Prop := acc.points.val ≤ acc.staking.val

/-- The points are dated at a time after 1970. -/
def Account.Dated (acc : Account) : Prop := 0 ≤ acc.lastPointsTs

lemma Account.within_rule : AccountRule (fun _ => True) Account.Within where
  fresh _ := le_rfl
  refreshed := by
    intro ts acc acc' _ hr h
    unfold Within
    rw [hr.staking]
    exact (hr.points h).2
  light := by
    intro acc acc' hl h
    unfold Within
    rw [hl.points, hl.staking]
    exact h
  charged := by
    intro acc acc' hc h
    unfold Within
    rw [hc.staking]
    exact hc.points.trans h
  dpos := by
    intro ts ds acc op acc' ds' hchange h
    unfold Within at h ⊢
    cases hchange with
    | stake hbalance hstaking hpoints hds =>
        dsimp only
        omega
    | unstake hstaking hunstaking hds =>
        dsimp only
        split_ifs with hcut <;> omega
    | become hnone halias hbalance => exact h
    | quit hid hc hbalance => exact h
    | vote hmem hds => exact h

lemma Account.dated_rule : AccountRule (fun ts => 0 ≤ ts) Account.Dated where
  fresh _ := le_rfl
  refreshed := by
    intro ts acc acc' hts hr _
    unfold Dated
    rw [hr.same]
    exact hts
  light := by
    intro acc acc' hl h
    unfold Dated
    rw [hl]
    exact h
  charged := by
    intro acc acc' hc h
    unfold Dated
    rw [hc.same]
    exact h
  dpos := by
    intro ts ds acc op acc' ds' hchange h
    cases hchange <;> exact h

/-! ## Accounts stay readable -/

namespace Account

variable {acc : Account} {ts : ℤ}

/-- An account can be read if moreover the returned amount fits into the balance. -/
lemma Within.refresh (h : acc.Within) (hlast : acc.Dated) (hts : acc.lastPointsTs ≤ ts)
    (h33 : ts < 2 ^ 33) (hstaking : acc.staking.val * 604799 < 2 ^ 128)
    (hbalance : acc.balance.val + acc.unstaking.val < 2 ^ 128) :
    ∃ acc', acc.refresh ts = .ok acc' ∧ acc'.Within := by
  obtain ⟨mid, hmid, -⟩ := updatePoints_eq ⟨h, hstaking, hlast⟩ hts h33
  obtain ⟨-, hsame⟩ := updatePoints_spec hmid
  obtain ⟨acc', hacc'⟩ : ∃ acc', mid.updateUnstaking ts = .ok acc' := by
    obtain ⟨b, hadd, -⟩ := Uint128.exists_add hbalance
    rw [hsame]
    unfold updateUnstaking
    split_ifs with hnone hpassed
    · exact ⟨_, rfl⟩
    · rw [bind_of_ok hadd]
      exact ⟨_, rfl⟩
    · exact ⟨_, rfl⟩
  have hrefresh : acc.refresh ts = .ok acc' := by
    rw [Account.refresh, bind_of_ok hmid, hacc']
  exact ⟨acc', hrefresh, within_rule.refreshed trivial (refresh_spec hrefresh) h⟩

end Account

/-- The timestamps of a chain increase, and stay below `2 ^ 33` seconds. -/
def Clock (ts ts' : ℤ) : Prop := ts < ts' ∧ 0 ≤ ts' ∧ ts' < 2 ^ 33

/-- **Points never exceed the stake, and accounts stay readable.**  In every run along increasing
timestamps each stored account has at most as many points as it has staked, and reading it at a
timestamp not before that of its points gives an account of which the same is true, as long as
the amounts of the account stay within 128 bits. -/
theorem points_within_stake (env : Env) (rule : ℕ → Transaction → Prop) {l : Ledger}
    (h : Reachable env Clock rule l) {a : Address} {acc : Account}
    (hacc : l.state.account? a = some acc) :
    acc.points.val ≤ acc.staking.val ∧
    ∀ ts, acc.lastPointsTs ≤ ts → 0 ≤ ts → ts < 2 ^ 33 →
      acc.staking.val * 604799 < 2 ^ 128 → acc.balance.val + acc.unstaking.val < 2 ^ 128 →
      ∃ acc', l.state.accState.getAccount a ts = .ok acc' ∧
        acc'.points.val ≤ acc'.staking.val := by
  have hwithin := (AllAccounts.run Account.within_rule trivial (fun _ _ _ => trivial) h).accounts
    a acc hacc
  have hdated := (AllAccounts.run Account.dated_rule le_rfl (fun _ _ hclock => hclock.2.1) h).accounts
    a acc hacc
  refine ⟨hwithin, fun ts hlast h0 h33 hstaking hbalance => ?_⟩
  obtain ⟨acc', hrefresh, hwithin'⟩ := hwithin.refresh hdated hlast h33 hstaking hbalance
  refine ⟨acc', ?_, hwithin'⟩
  unfold BlockState.account? at hacc
  rw [AccountState.getAccount, hacc]
  exact hrefresh

/-- A stake of 400 in the genesis block, read a second later. -/
theorem staked_account_readable :
    ∃ l acc, Reachable .plain Clock (Admitted .plain 0) l ∧
      l.state.account? (Plain.address 1) = some acc ∧ acc.staking.val = 400 ∧
      acc.points.val ≤ acc.staking.val ∧
      ∃ acc', l.state.accState.getAccount (Plain.address 1) 1 = .ok acc' ∧
        acc'.points.val ≤ acc'.staking.val := by
  have hrule : ∀ tx ∈ [Plain.distribution 1 (Plain.address 1) (.ofUint 1000),
      Plain.signed ⟨.stake, Plain.address 1, .none, .ofUint 400, 1, 0, []⟩],
      Admitted .plain 0 genesisHeight tx := by
    decide +kernel
  have hrun : (Ledger.start.acceptAll .plain
      [Plain.distribution 1 (Plain.address 1) (.ofUint 1000),
        Plain.signed ⟨.stake, Plain.address 1, .none, .ofUint 400, 1, 0, []⟩]).map
      (fun l => (l.state.account? (Plain.address 1)).map fun acc =>
        (acc.staking.val, acc.balance.val + acc.unstaking.val, acc.lastPointsTs)) =
      .ok (some (400, 600, 0)) := by
    decide +kernel
  obtain ⟨l, hl, heq⟩ := Reachable.of_acceptAll hrule hrun
  obtain ⟨acc, hacc, heq⟩ := Option.map_eq_some_iff.1 heq
  simp only [Prod.mk.injEq] at heq
  obtain ⟨hstaking, hliquid, hlast⟩ := heq
  obtain ⟨hwithin, hread⟩ := points_within_stake .plain _ hl hacc
  refine ⟨l, acc, hl, hacc, hstaking, hwithin, hread 1 ?_ ?_ ?_ ?_ ?_⟩
  · rw [hlast]
    decide
  · decide
  · decide
  · rw [hstaking]
    decide
  · rw [hliquid]
    decide

end GoMedibloc
