import GoMedibloc.Ledger.Process

/-!
# Runs of the ledger

`LedgerStep` is how the state of a chain moves: a transaction is executed and accepted, the
reward of a block is paid, a new dynasty is set, and a child block is begun.  The state after
the genesis block, the states inside a block that is made or verified, and the states between
blocks are all reached by such steps from the empty state.  The relation takes a condition on
the timestamps of a block and its child, since some results need them to increase.

The two lemmas `executeTransaction_spec` and `acceptTransaction_spec` say what the two halves of
a transaction do, and later modules check their invariants against them.
-/

namespace GoMedibloc

open Except

/-- A chain at some point of its growth: the height and the state of the current block, the
supply of its parent as long as the reward of the block is due, and the transactions accepted
so far, the newest first. -/
structure Ledger where
  height : ℕ
  state : BlockState
  due : Option Uint128
  accepted : List Transaction

/-- The empty genesis block. -/
def Ledger.start : Ledger := ⟨genesisHeight, .genesis, none, []⟩

/-- The transaction is executed and accepted with its receipt. -/
def Ledger.accept (env : Env) (tx : Transaction) (l : Ledger) : Except Err Ledger := do
  let (r, s) ← executeTransaction env l.height tx l.state
  let s ← acceptTransaction (tx.setReceipt r) s
  return { l with state := s, accepted := tx.setReceipt r :: l.accepted }

/-- The transactions of a block, one after the other. -/
def Ledger.acceptAll (env : Env) (txs : List Transaction) (l : Ledger) : Except Err Ledger :=
  txs.foldlM (fun l tx => l.accept env tx) l

/-- A child block is begun. -/
def Ledger.beginChild (ts : ℤ) (l : Ledger) : Except Err Ledger := do
  let s ← l.state.initChild ts
  return { l with height := l.height + 1, state := s, due := some l.state.supply }

/-- The transactions that blocks hold: their sender and payer are those that decoding recovers
from the signatures, and above the genesis block they have passed `VerifyIntegrity`.  The
configuration of the genesis block is not verified. -/
def Admitted (env : Env) (chainID : UInt32) (height : ℕ) (tx : Transaction) : Prop :=
  tx.recover env = .ok tx ∧
    (height ≠ genesisHeight → tx.verifyIntegrity env chainID = .ok tx)

instance (env : Env) (chainID : UInt32) (height : ℕ) (tx : Transaction) :
    Decidable (Admitted env chainID height tx) :=
  inferInstanceAs (Decidable (_ ∧ _))

/-- The sender of a transaction of a genesis type. -/
lemma Admitted.genesis_sender {env : Env} {chainID : UInt32} {height : ℕ} {tx : Transaction}
    (h : Admitted env chainID height tx) (htype : tx.txType.IsGenesis) :
    tx.fromAddr = genesisCoinbase := by
  obtain ⟨hfrom, -⟩ := Transaction.recover_spec h.1
  obtain ⟨exeTx, hconv, hop⟩ := bind_eq_ok_iff.1 hfrom
  rw [← (txConv_spec hconv).kind, ← Operation.isGenesis_iff] at htype
  exact (Operation.recoverFrom_genesis htype hop).2

/-- The sender of another transaction has signed it. -/
lemma Admitted.signer {env : Env} {chainID : UInt32} {height : ℕ} {tx : Transaction}
    (h : Admitted env chainID height tx) (htype : ¬ tx.txType.IsGenesis) :
    tx.sign ≠ [] ∧ env.recoverPublic tx.hash tx.sign = some tx.fromAddr := by
  obtain ⟨hfrom, -⟩ := Transaction.recover_spec h.1
  obtain ⟨exeTx, hconv, hop⟩ := bind_eq_ok_iff.1 hfrom
  rw [← (txConv_spec hconv).kind, ← Operation.isGenesis_iff, Bool.not_eq_true] at htype
  exact Operation.recoverFrom_signer htype hop

/-- One step of a chain; `tick` is the condition on the timestamps of a block and its child, and
`rule` the condition on transactions at a height. -/
inductive LedgerStep (env : Env) (tick : ℤ → ℤ → Prop) (rule : ℕ → Transaction → Prop) :
    Ledger → Ledger → Prop
  | accept {l l' : Ledger} {tx : Transaction} (hrule : rule l.height tx)
      (haccept : l.accept env tx = .ok l') : LedgerStep env tick rule l l'
  | reward {l : Ledger} {coinbase : Address} {parentSupply : Uint128} {s' : BlockState}
      (hdue : l.due = some parentSupply)
      (hpay : payReward coinbase parentSupply l.state = .ok s') :
      LedgerStep env tick rule l { l with state := s', due := none }
  | dynasty {l : Ledger} (addrs : List Address) :
      LedgerStep env tick rule l
        { l with state := { l.state with dposState := l.state.dposState.setDynasty addrs } }
  | child {l : Ledger} {ts : ℤ} {s' : BlockState} (htick : tick l.state.timestamp ts)
      (hchild : l.state.initChild ts = .ok s') :
      LedgerStep env tick rule l
        { l with height := l.height + 1, state := s', due := some l.state.supply }

/-- A chain that grows from the empty genesis block. -/
def Reachable (env : Env) (tick : ℤ → ℤ → Prop) (rule : ℕ → Transaction → Prop)
    (l : Ledger) : Prop :=
  Relation.ReflTransGen (LedgerStep env tick rule) Ledger.start l

/-! ## The two halves of a transaction -/

section Halves

variable {env : Env} {height : ℕ} {tx : Transaction} {r : Receipt} {s s₁ s' : BlockState}

/-- What is known of a transaction that has been executed. -/
structure Executed (env : Env) (height : ℕ) (tx : Transaction) (s : BlockState) (r : Receipt)
    (s₁ : BlockState) (exeTx : ExecutableTx) (usage : Uint128) : Prop where
  conv : txConv env tx = .ok exeTx
  nonce : ∃ acc, s.getAccount tx.fromAddr = .ok acc ∧ tx.nonce = acc.nonce + 1
  cpu : s.cpuUsage + exeTx.bandwidth.cpuUsage ≤ cpuLimit
  net : s.netUsage + exeTx.bandwidth.netUsage ≤ netLimit
  points : usage.val = s.cpuPrice.val * exeTx.bandwidth.cpuUsage.toNat +
    s.netPrice.val * exeTx.bandwidth.netUsage.toNat
  available : checkAvailablePoint s tx exeTx.op usage = .ok ()
  result : (exeTx.op.execute height s = .ok s₁ ∧
      r = makeReceipt height s.timestamp exeTx.bandwidth usage none) ∨
    ∃ e, exeTx.op.execute height s = .error e ∧ s₁ = s ∧
      r = makeReceipt height s.timestamp exeTx.bandwidth usage (some e)

lemma executeTransaction_spec (h : executeTransaction env height tx s = .ok (r, s₁)) :
    ∃ exeTx usage, Executed env height tx s r s₁ exeTx usage := by
  obtain ⟨exeTx, hconv, h⟩ := bind_eq_ok_iff.1 h
  obtain ⟨_, hnonce, h⟩ := bind_eq_ok_iff.1 h
  obtain ⟨_, hbw, h⟩ := bind_eq_ok_iff.1 h
  obtain ⟨usage, husage, h⟩ := bind_eq_ok_iff.1 h
  obtain ⟨_, havail, h⟩ := bind_eq_ok_iff.1 h
  obtain ⟨acc, hacc, hnonce⟩ := bind_eq_ok_iff.1 hnonce
  obtain ⟨_, hcpu, hnet⟩ := bind_eq_ok_iff.1 hbw
  obtain ⟨cpuPoints, hcpuPoints, husage⟩ := bind_eq_ok_iff.1 husage
  obtain ⟨netPoints, hnetPoints, husage⟩ := bind_eq_ok_iff.1 husage
  rw [failIf_eq_ok, not_not] at hnonce
  rw [failIf_eq_ok, UInt64.not_lt] at hcpu hnet
  rw [Uint128.mul_eq_ok] at hcpuPoints hnetPoints
  rw [Uint128.add_eq_ok, hcpuPoints, hnetPoints] at husage
  obtain ⟨hr, hs⟩ := Prod.ext_iff.1 (Except.ok.inj h)
  refine ⟨exeTx, usage, hconv, ⟨acc, hacc, hnonce⟩, hcpu, hnet, husage, havail, ?_⟩
  cases hexec : exeTx.op.execute height s with
  | ok s' =>
      simp only [atomic, hexec] at hr hs
      exact .inl ⟨by rw [hs], hr.symm⟩
  | error e =>
      simp only [atomic, hexec] at hr hs
      exact .inr ⟨e, rfl, hs.symm, hr.symm⟩

/-- The effect of an executed transaction, or nothing. -/
lemma Executed.effect {exeTx : ExecutableTx} {usage : Uint128}
    (h : Executed env height tx s r s₁ exeTx usage) : s₁ = s ∨ Effect height s exeTx.op s₁ := by
  obtain ⟨hexec, -⟩ | ⟨-, -, hs, -⟩ := h.result
  · exact .inr (execute_effect hexec)
  · exact .inl hs

lemma Executed.receipt {exeTx : ExecutableTx} {usage : Uint128}
    (h : Executed env height tx s r s₁ exeTx usage) :
    r.points = usage ∧ r.cpuUsage = exeTx.bandwidth.cpuUsage ∧
      r.netUsage = exeTx.bandwidth.netUsage := by
  obtain ⟨-, hr⟩ | ⟨e, -, -, hr⟩ := h.result <;> rw [hr] <;> exact ⟨rfl, rfl, rfl⟩

/-- What accepting a transaction does: the nonce of the sender goes up and the points are
charged, to the sender's account, to that of another payer, or to that of the sender as its own
payer.  In the last case the second copy is put over the first, and the nonce is lost. -/
inductive Accepted (tx : Transaction) (r : Receipt) (s : BlockState) : BlockState → Prop
  | sender {acc : Account} {points : Uint128} {s₁ : BlockState} (hpayer : ¬ tx.hasPayer)
      (haddr : acc.address = tx.fromAddr)
      (hedit : Edit s acc { acc with nonce := acc.nonce + 1, points := points } s₁)
      (hpoints : points.val + r.points.val = acc.points.val) :
      Accepted tx r s (s₁.record tx r)
  | payer {acc payer : Account} {points : Uint128} {s₁ s₂ : BlockState} (hpayer : tx.hasPayer)
      (haddr : acc.address = tx.fromAddr) (hpaddr : payer.address = tx.payer)
      (hne : tx.payer ≠ tx.fromAddr)
      (hedit : Edit s acc { acc with nonce := acc.nonce + 1 } s₁)
      (hedit₁ : Edit s₁ payer { payer with points := points } s₂)
      (hpoints : points.val + r.points.val = payer.points.val) :
      Accepted tx r s (s₂.record tx r)
  | self {acc : Account} {points : Uint128} {s₁ : BlockState} (hpayer : tx.hasPayer)
      (haddr : acc.address = tx.fromAddr) (heq : tx.payer = tx.fromAddr)
      (hedit : Edit s acc { acc with points := points } s₁)
      (hpoints : points.val + r.points.val = acc.points.val) :
      Accepted tx r s (s₁.record tx r)

/-- An account put over another of its address. -/
lemma putAccount_putAccount {acc acc' : Account} (h : acc'.address = acc.address) :
    (s.putAccount acc).putAccount acc' = s.putAccount acc' := by
  simp only [BlockState.putAccount, AccountState.putAccount, h, Finmap.insert_insert]

lemma acceptTransaction_spec (h : acceptTransaction tx s = .ok s') :
    ∃ r, tx.receipt = some r ∧ Accepted tx r s s' := by
  obtain ⟨r, hr, h⟩ := bind_eq_ok_iff.1 h
  obtain ⟨acc, hacc, h⟩ := bind_eq_ok_iff.1 h
  rw [ofOption_eq_ok] at hr
  refine ⟨r, hr, ?_⟩
  have haddr := BlockState.address_of_getAccount hacc
  dsimp only at h
  split_ifs at h with hpayer
  · obtain ⟨payer, hread, h⟩ := bind_eq_ok_iff.1 h
    obtain ⟨points, hpoints, h⟩ := bind_eq_ok_iff.1 h
    rw [Uint128.sub_eq_ok] at hpoints
    have hpaddr := BlockState.address_of_getAccount hread
    rw [← Except.ok.inj h]
    by_cases heq : tx.payer = tx.fromAddr
    · obtain rfl : payer = acc := Except.ok.inj (by rw [← hread, heq, hacc])
      rw [putAccount_putAccount]
      · exact .self hpayer haddr heq (.of_getAccount hacc _ rfl) hpoints
      · rfl
    · refine .payer hpayer haddr hpaddr heq (.of_getAccount hacc _ rfl)
        (.of_getAccount (a := tx.payer) ?_ _ rfl) hpoints
      rw [BlockState.getAccount_putAccount_of_ne (by rwa [haddr]), hread]
  · obtain ⟨points, hpoints, h⟩ := bind_eq_ok_iff.1 h
    rw [Uint128.sub_eq_ok] at hpoints
    rw [← Except.ok.inj h]
    exact .sender hpayer haddr (.of_getAccount hacc _ rfl) hpoints

/-- The accounts differ in nonce and points only, and no points are gained. -/
structure Account.Charged (acc acc' : Account) : Prop where
  same : acc' = { acc with nonce := acc'.nonce, points := acc'.points }
  points : acc'.points.val ≤ acc.points.val

namespace Account.Charged

variable {acc acc' : Account}

lemma balance (h : Charged acc acc') : acc'.balance = acc.balance := by rw [h.same]
lemma staking (h : Charged acc acc') : acc'.staking = acc.staking := by rw [h.same]
lemma unstaking (h : Charged acc acc') : acc'.unstaking = acc.unstaking := by rw [h.same]
lemma voted (h : Charged acc acc') : acc'.voted = acc.voted := by rw [h.same]
lemma candidateID (h : Charged acc acc') : acc'.candidateID = acc.candidateID := by rw [h.same]
lemma aliasRecord (h : Charged acc acc') : acc'.aliasRecord = acc.aliasRecord := by rw [h.same]

end Account.Charged

/-- A property that charging an account and recording a transaction keep is kept by accepting
a transaction. -/
lemma Accepted.preserves {P : BlockState → Prop} (h : Accepted tx r s s')
    (hcharge : ∀ {s acc acc' s'}, Edit s acc acc' s' → acc.Charged acc' → P s → P s')
    (hrecord : ∀ s, P s → P (s.record tx r)) (hs : P s) : P s' := by
  cases h with
  | sender hpayer haddr hedit hpoints =>
      exact hrecord _ (hcharge hedit ⟨rfl, le_of_add_le_left hpoints.le⟩ hs)
  | payer hpayer haddr hpaddr hne hedit hedit₁ hpoints =>
      have hs₁ := hcharge hedit ⟨rfl, le_rfl⟩ hs
      exact hrecord _ (hcharge hedit₁ ⟨rfl, le_of_add_le_left hpoints.le⟩ hs₁)
  | self hpayer haddr heq hedit hpoints =>
      exact hrecord _ (hcharge hedit ⟨rfl, le_of_add_le_left hpoints.le⟩ hs)

/-- What is known of a ledger that has accepted a transaction. -/
structure Ledger.Accepts (env : Env) (tx : Transaction) (l l' : Ledger) (r : Receipt)
    (s₁ : BlockState) (exeTx : ExecutableTx) (usage : Uint128) : Prop where
  executed : Executed env l.height tx l.state r s₁ exeTx usage
  accepted : Accepted (tx.setReceipt r) r s₁ l'.state
  next : l' = { l with state := l'.state, accepted := tx.setReceipt r :: l.accepted }

lemma Ledger.accept_spec {l l' : Ledger} (h : l.accept env tx = .ok l') :
    ∃ r s₁ exeTx usage, Ledger.Accepts env tx l l' r s₁ exeTx usage := by
  obtain ⟨⟨r, s₁⟩, hexec, h⟩ := bind_eq_ok_iff.1 h
  obtain ⟨s₂, haccept, h⟩ := bind_eq_ok_iff.1 h
  obtain ⟨exeTx, usage, hexecuted⟩ := executeTransaction_spec hexec
  obtain ⟨r', hr', haccepted⟩ := acceptTransaction_spec haccept
  obtain rfl : r = r' := Option.some_inj.1 hr'
  rw [← Except.ok.inj h]
  exact ⟨r, s₁, exeTx, usage, hexecuted, haccepted, rfl⟩

/-- Transactions of any kind leave the timestamp. -/
lemma Effect.timestamp {op : Operation} (h : Effect height s op s') :
    s'.timestamp = s.timestamp := by
  cases h with
  | light hop h => rw [h.frame]
  | distribute hheight h hsupply => rw [h.frame]
  | dpos hedit h => rw [hedit.put, BlockState.putAccount_timestamp]

lemma Accepted.timestamp (h : Accepted tx r s s') : s'.timestamp = s.timestamp := by
  refine h.preserves (P := fun t => t.timestamp = s.timestamp) ?_ (fun _ ht => ht) rfl
  intro s₁ acc acc' s₂ hedit _ ht
  rw [hedit.put]
  exact ht

lemma Ledger.accept_frame {l l' : Ledger} (h : l.accept env tx = .ok l') :
    l'.height = l.height ∧ l'.state.timestamp = l.state.timestamp := by
  obtain ⟨r, s₁, exeTx, usage, haccepts⟩ := Ledger.accept_spec h
  refine ⟨by rw [haccepts.next], ?_⟩
  rw [haccepts.accepted.timestamp]
  obtain heq | heffect := haccepts.executed.effect
  · rw [heq]
  · exact heffect.timestamp

lemma Ledger.acceptAll_frame {txs : List Transaction} {l l' : Ledger}
    (h : l.acceptAll env txs = .ok l') :
    l'.height = l.height ∧ l'.state.timestamp = l.state.timestamp := by
  induction txs generalizing l with
  | nil =>
      rw [← Except.ok.inj h]
      exact ⟨rfl, rfl⟩
  | cons tx txs ih =>
      obtain ⟨l₁, haccept, h⟩ := bind_eq_ok_iff.1 h
      obtain ⟨hheight, hts⟩ := Ledger.accept_frame haccept
      obtain ⟨hheight', hts'⟩ := ih h
      exact ⟨hheight'.trans hheight, hts'.trans hts⟩

lemma Ledger.acceptAll_steps {tick : ℤ → ℤ → Prop} {rule : ℕ → Transaction → Prop}
    {txs : List Transaction} {l l' : Ledger} (hrule : ∀ tx ∈ txs, rule l.height tx)
    (h : l.acceptAll env txs = .ok l') :
    Relation.ReflTransGen (LedgerStep env tick rule) l l' := by
  induction txs generalizing l with
  | nil =>
      rw [← Except.ok.inj h]
  | cons tx txs ih =>
      obtain ⟨l₁, haccept, h⟩ := bind_eq_ok_iff.1 h
      have hstep : LedgerStep env tick rule l l₁ :=
        .accept (hrule tx List.mem_cons_self) haccept
      refine .head hstep (ih (fun tx' htx' => ?_) h)
      rw [(Ledger.accept_frame haccept).1]
      exact hrule tx' (List.mem_cons_of_mem _ htx')

/-- The genesis block of a configuration is reached. -/
lemma Reachable.of_acceptAll {tick : ℤ → ℤ → Prop} {rule : ℕ → Transaction → Prop}
    {txs : List Transaction} {β : Type} {f : Ledger → β} {b : β}
    (hrule : ∀ tx ∈ txs, rule genesisHeight tx)
    (h : (Ledger.start.acceptAll env txs).map f = .ok b) :
    ∃ l, Reachable env tick rule l ∧ f l = b := by
  obtain ⟨l, hl, hb⟩ := map_eq_ok_iff.1 h
  exact ⟨l, Ledger.acceptAll_steps hrule hl, hb⟩

/-- So is a second block on top of it. -/
lemma Reachable.of_second_block {tick : ℤ → ℤ → Prop} {rule : ℕ → Transaction → Prop}
    {genesisTxs txs : List Transaction} {ts : ℤ} {β : Type} {f : Ledger → β} {b : β}
    (hgenesis : ∀ tx ∈ genesisTxs, rule genesisHeight tx) (htick : tick 0 ts)
    (hrule : ∀ tx ∈ txs, rule (genesisHeight + 1) tx)
    (h : (Ledger.start.acceptAll env genesisTxs >>= fun l => l.beginChild ts >>= fun l =>
      l.acceptAll env txs).map f = .ok b) :
    ∃ l, Reachable env tick rule l ∧ f l = b := by
  obtain ⟨l, h, hb⟩ := map_eq_ok_iff.1 h
  obtain ⟨l₀, hl₀, h⟩ := bind_eq_ok_iff.1 h
  obtain ⟨l₁, hl₁, h⟩ := bind_eq_ok_iff.1 h
  obtain ⟨s, hchild, hl₁⟩ := bind_eq_ok_iff.1 hl₁
  obtain ⟨hheight, hts⟩ := Ledger.acceptAll_frame hl₀
  have hstep : LedgerStep env tick rule l₀ l₁ := by
    rw [← Except.ok.inj hl₁]
    exact .child (by rw [hts]; exact htick) hchild
  have hrule' : ∀ tx ∈ txs, rule l₁.height tx := by
    rw [← Except.ok.inj hl₁]
    dsimp only
    rw [hheight]
    exact hrule
  refine ⟨l, ?_, hb⟩
  exact ((Ledger.acceptAll_steps hgenesis hl₀).tail hstep).trans (Ledger.acceptAll_steps hrule' h)

end Halves

/-! ## Rewards and children -/

section Blocks

variable {s s' : BlockState} {coinbase : Address} {parentSupply : Uint128} {ts : ℤ}

lemma payReward_spec (h : payReward coinbase parentSupply s = .ok s') :
    ∃ (reward supply : Uint128) (s₁ : BlockState), LightEdits s s₁ reward.val ∧
      supply.val = parentSupply.val + reward.val ∧
      s' = { s₁ with reward := reward, supply := supply } := by
  obtain ⟨-, -, h⟩ := bind_eq_ok_iff.1 h
  obtain ⟨reward, -, h⟩ := bind_eq_ok_iff.1 h
  obtain ⟨supply, hsupply, h⟩ := bind_eq_ok_iff.1 h
  obtain ⟨acc, hacc, h⟩ := bind_eq_ok_iff.1 h
  obtain ⟨balance, hbalance, h⟩ := bind_eq_ok_iff.1 h
  rw [Uint128.add_eq_ok] at hsupply hbalance
  refine ⟨reward, supply, _, .single (.of_getAccount hacc { acc with balance := balance } rfl) rfl
    ?_, hsupply, (Except.ok.inj h).symm⟩
  simp only [Account.held, Account.aliasCollateral]
  omega

lemma initChild_spec (h : s.initChild ts = .ok s') :
    s' = { s with
      timestamp := ts
      cpuUsage := 0
      netUsage := 0
      cpuPrice := s'.cpuPrice
      netPrice := s'.netPrice } := by
  obtain ⟨cpuPrice, -, h⟩ := bind_eq_ok_iff.1 h
  obtain ⟨netPrice, -, h⟩ := bind_eq_ok_iff.1 h
  rw [← Except.ok.inj h]

end Blocks

/-! ## Timestamps -/

section Timestamps

variable {env : Env} {tick : ℤ → ℤ → Prop} {rule : ℕ → Transaction → Prop} {l l' : Ledger}

/-- Only a child block has another timestamp. -/
lemma LedgerStep.timestamp (h : LedgerStep env tick rule l l') :
    l'.state.timestamp = l.state.timestamp ∨ tick l.state.timestamp l'.state.timestamp := by
  cases h with
  | accept hrule haccept => exact .inl (Ledger.accept_frame haccept).2
  | reward hdue hpay =>
      obtain ⟨reward, supply, s₁, hedits, -, rfl⟩ := payReward_spec hpay
      refine .inl ?_
      dsimp only
      rw [hedits.frame]
  | dynasty addrs => exact .inl rfl
  | child htick hchild =>
      refine .inr ?_
      rw [initChild_spec hchild]
      exact htick

/-- Timestamps that increase are not negative. -/
lemma Reachable.timestamp_nonneg (h : Reachable env tick rule l)
    (htick : ∀ ts ts', tick ts ts' → ts < ts') : 0 ≤ l.state.timestamp := by
  induction h with
  | refl => exact le_rfl
  | tail _ hstep ih =>
      obtain heq | hlt := hstep.timestamp
      · rwa [heq]
      · exact ih.trans (htick _ _ hlt).le

end Timestamps

end GoMedibloc
