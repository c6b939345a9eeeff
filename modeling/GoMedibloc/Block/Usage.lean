import GoMedibloc.Block.Data

/-!
# The usage in a header is true

The header of a block says how much cpu and net its transactions have used, and the prices of the
next block follow from that.  `verifyUsageData` compares the two figures with the sum of the
receipts, all of which come from the sender of the block, and adds them up modulo `2 ^ 64`.

What makes the figures true is the second pass.  It executes every transaction, compares the receipt
with the bandwidth that the transaction really has, and refuses one that takes the counters of the
state over the limit.  No transaction is so large that a counter below the limit could wrap around,
so the counters are the true sums, which are at most the limit; the receipts therefore add up to
the true sums without wrapping around either, and the header with them.
-/

namespace GoMedibloc

open Except

variable {env : BlockEnv} {consensus : Consensus} {bd bd' : BlockData} {b b' parent child : Block}
  {tx : Transaction} {s s' : BlockState} {r : Receipt}

/-! ## What a transaction does to the figures of a block -/

/-- Executing a transaction changes accounts, candidates and supply only. -/
lemma Effect.frame {height : ℕ} {op : Operation} (h : Effect height s op s') :
    s' = { s with
      accState := s'.accState
      dposState := s'.dposState
      supply := s'.supply } := by
  cases h with
  | light hop h => rw [h.frame]
  | distribute hheight h hsupply => rw [h.frame]
  | dpos hedit h => rw [hedit.put]; rfl

/-- Accepting a transaction changes accounts, records the transaction and counts its receipt. -/
lemma Accepted.frame (h : Accepted tx r s s') :
    s' = { s with
      accState := s'.accState
      txState := s'.txState
      cpuUsage := s.cpuUsage + r.cpuUsage
      netUsage := s.netUsage + r.netUsage } := by
  cases h with
  | sender hpayer haddr hedit hpoints => rw [hedit.put]; rfl
  | payer hpayer haddr hpaddr hne hedit hedit₁ hpoints => rw [hedit₁.put, hedit.put]; rfl
  | self hpayer haddr heq hedit hpoints => rw [hedit.put]; rfl

/-! ## The two meters -/

/-- The two kinds of usage. -/
inductive Meter
  | cpu
  | net

namespace Meter

/-- The usage of a bandwidth. -/
def used : Meter → Bandwidth → UInt64
  | cpu => Bandwidth.cpuUsage
  | net => Bandwidth.netUsage

/-- The usage that a receipt states. -/
def stated : Meter → Receipt → UInt64
  | cpu => Receipt.cpuUsage
  | net => Receipt.netUsage

/-- The counter of a state. -/
def counter : Meter → BlockState → UInt64
  | cpu => BlockState.cpuUsage
  | net => BlockState.netUsage

/-- The usage of a header. -/
def header : Meter → BlockHeader → UInt64
  | cpu => BlockHeader.cpuUsage
  | net => BlockHeader.netUsage

/-- The limit of a block. -/
def limit : Meter → UInt64
  | cpu => cpuLimit
  | net => netLimit

lemma limit_toNat (m : Meter) : m.limit.toNat = 3000000 := by
  cases m <;> rfl

end Meter

/-- The bandwidth of a transaction. -/
def Transaction.bandwidth (env : Env) (tx : Transaction) : Bandwidth :=
  match txConv env tx with
  | .ok exeTx => exeTx.bandwidth
  | .error _ => ⟨0, 0⟩

lemma ExecutableTx.bandwidth_of_genesis {exeTx : ExecutableTx} (h : exeTx.op.isGenesis = true) :
    exeTx.bandwidth = ⟨0, 0⟩ := by
  obtain ⟨op, size⟩ := exeTx
  cases op <;> first | rfl | cases h

lemma ExecutableTx.bandwidth_of_not {exeTx : ExecutableTx} (h : exeTx.op.isGenesis = false) :
    exeTx.bandwidth = ⟨exeTx.op.cpuUsage, exeTx.size.toUInt64⟩ := by
  obtain ⟨op, size⟩ := exeTx
  cases op <;> first | rfl | cases h

/-- The cpu usage of the types above the genesis block. -/
lemma Operation.cpuUsage_eq {op : Operation} (h : op.isGenesis = false) :
    op.cpuUsage = 1000 ∨ op.cpuUsage = 1500 := by
  cases op <;> first | exact .inl rfl | exact .inr rfl | cases h

/-- No usage is so large that a counter below the limit could wrap around. -/
lemma ExecutableTx.used_lt {exeTx : ExecutableTx} (hsize : exeTx.op.isGenesis = false →
    exeTx.size < 2 ^ 63) (m : Meter) : (m.used exeTx.bandwidth).toNat < 2 ^ 63 := by
  cases hop : exeTx.op.isGenesis with
  | true =>
      rw [bandwidth_of_genesis hop]
      cases m <;> decide
  | false =>
      rw [bandwidth_of_not hop]
      cases m with
      | cpu =>
          change exeTx.op.cpuUsage.toNat < _
          obtain h | h := Operation.cpuUsage_eq hop <;> rw [h] <;> decide
      | net => exact (Nat.mod_le _ _).trans_lt (hsize hop)

/-- What executing a transaction does to a meter: its receipt states the true usage, the counter
goes up by it and does not exceed the limit. -/
lemma Block.execute_meter (h : b.execute env tx = .ok b') (m : Meter) :
    (∃ r, tx.receipt = some r ∧ m.stated r = m.used (tx.bandwidth env.toEnv)) ∧
      m.counter b'.state = m.counter b.state + m.used (tx.bandwidth env.toEnv) ∧
      m.counter b'.state ≤ m.limit ∧ (m.used (tx.bandwidth env.toEnv)).toNat < 2 ^ 63 := by
  obtain ⟨-, haccept⟩ := Block.execute_ledger none [] h
  obtain ⟨r, s₁, exeTx, usage, haccepts⟩ := Ledger.accept_spec haccept
  have hbandwidth : tx.bandwidth env.toEnv = exeTx.bandwidth := by
    rw [Transaction.bandwidth, haccepts.executed.conv]
  have hreceipt : tx.receipt = some r := by
    have hnext := congrArg Ledger.accepted haccepts.next
    rw [(List.cons_eq_cons.1 hnext).1]
    rfl
  obtain ⟨-, hcpu, hnet⟩ := haccepts.executed.receipt
  have hsame : s₁.cpuUsage = b.state.cpuUsage ∧ s₁.netUsage = b.state.netUsage := by
    obtain heq | heffect := haccepts.executed.effect
    · rw [heq]
      exact ⟨rfl, rfl⟩
    · rw [heffect.frame]
      exact ⟨rfl, rfl⟩
  have hlt : (m.used exeTx.bandwidth).toNat < 2 ^ 63 := by
    refine ExecutableTx.used_lt (fun hop => ?_) m
    rw [(txConv_spec haccepts.executed.conv).size hop]
    exact env.bodySize_lt _
  have hframe := haccepts.accepted.frame
  rw [hbandwidth]
  cases m with
  | cpu =>
      have hcounter : b'.state.cpuUsage = b.state.cpuUsage + exeTx.bandwidth.cpuUsage := by
        rw [← hcpu, ← hsame.1]
        exact congrArg BlockState.cpuUsage hframe
      refine ⟨⟨r, hreceipt, hcpu⟩, hcounter, ?_, hlt⟩
      change b'.state.cpuUsage ≤ cpuLimit
      rw [hcounter]
      exact haccepts.executed.cpu
  | net =>
      have hcounter : b'.state.netUsage = b.state.netUsage + exeTx.bandwidth.netUsage := by
        rw [← hnet, ← hsame.2]
        exact congrArg BlockState.netUsage hframe
      refine ⟨⟨r, hreceipt, hnet⟩, hcounter, ?_, hlt⟩
      change b'.state.netUsage ≤ netLimit
      rw [hcounter]
      exact haccepts.executed.net

/-- The true usage of transactions. -/
def trueUsage (env : Env) (m : Meter) (txs : List Transaction) : ℕ :=
  (txs.map fun tx => (m.used (tx.bandwidth env)).toNat).sum

/-- A counter below the limit that is raised by less than `2 ^ 63` does not wrap around. -/
lemma Meter.counter_add {m : Meter} {used more : UInt64} (hused : used ≤ m.limit)
    (hmore : more.toNat < 2 ^ 63) : (used + more).toNat = used.toNat + more.toNat := by
  rw [UInt64.le_iff_toNat_le, m.limit_toNat] at hused
  rw [UInt64.toNat_add]
  omega

/-- The counters of a block are the true usage of its transactions, and the receipts state it. -/
lemma Block.executeAll_meter (h : b.executeAll env = .ok b') (m : Meter)
    (hzero : m.counter b.state = 0) :
    ((m.counter b'.state).toNat = trueUsage env.toEnv m b.transactions ∧
      m.counter b'.state ≤ m.limit) ∧
    ∀ tx ∈ b.transactions, ∃ r, tx.receipt = some r ∧
      m.stated r = m.used (tx.bandwidth env.toEnv) := by
  refine (Block.executeAll_induct (P := fun done s => ((m.counter s).toNat =
    trueUsage env.toEnv m done ∧ m.counter s ≤ m.limit) ∧ ∀ tx ∈ done, ∃ r, tx.receipt = some r ∧
      m.stated r = m.used (tx.bandwidth env.toEnv)) ?_ h ?_).2
  · intro done tx b₀ b₁ hexec ⟨⟨hsum, hle⟩, hstated⟩
    obtain ⟨hreceipt, hcounter, hle', hlt⟩ := Block.execute_meter hexec m
    refine ⟨⟨?_, hle'⟩, ?_⟩
    · rw [hcounter, Meter.counter_add hle hlt, hsum]
      simp only [trueUsage, List.map_append, List.map_cons, List.map_nil, List.sum_append,
        List.sum_cons, List.sum_nil, add_zero]
    · intro tx' htx'
      rw [List.mem_append, List.mem_singleton] at htx'
      obtain htx' | rfl := htx'
      · exact hstated tx' htx'
      · exact hreceipt
  · rw [hzero]
    refine ⟨⟨rfl, ?_⟩, fun tx htx => absurd htx List.not_mem_nil⟩
    rw [UInt64.le_iff_toNat_le]
    exact Nat.zero_le _

/-! ## The sum of the receipts -/

/-- Receipts that state the true usage add up to it modulo `2 ^ 64`. -/
lemma BlockData.sumReceipts_eq {env : Env} {m : Meter} {txs : List Transaction}
    (h : ∀ tx ∈ txs, ∃ r, tx.receipt = some r ∧ m.stated r = m.used (tx.bandwidth env))
    {sum : UInt64} (hsum : sumReceipts m.stated txs = .ok sum) :
    sum.toNat = trueUsage env m txs % 2 ^ 64 := by
  have hrun : ∀ (txs : List Transaction) (start : UInt64),
      (∀ tx ∈ txs, ∃ r, tx.receipt = some r ∧ m.stated r = m.used (tx.bandwidth env)) →
      txs.foldlM (fun sum tx => (do
        let receipt ← ofOption .nilPointer tx.receipt
        return sum + m.stated receipt : Except Fault UInt64)) start = .ok sum →
      sum.toNat = (start.toNat + trueUsage env m txs) % 2 ^ 64 := by
    intro txs
    induction txs with
    | nil =>
        intro start _ hfold
        cases hfold
        exact (Nat.mod_eq_of_lt sum.toNat_lt).symm
    | cons tx txs ih =>
        intro start hall hfold
        obtain ⟨r, hr, hstated⟩ := hall tx List.mem_cons_self
        rw [List.foldlM_cons, hr] at hfold
        have hnext := ih (start + m.stated r) (fun tx htx => hall tx (List.mem_cons_of_mem _ htx))
          hfold
        rw [hnext, UInt64.toNat_add, Nat.mod_add_mod, hstated, trueUsage, trueUsage, List.map_cons,
          List.sum_cons, add_assoc]
  have hzero := hrun txs 0 h hsum
  rwa [UInt64.toNat_zero, zero_add] at hzero

/-- What the check of a usage finds out. -/
lemma BlockData.verifyUsage_spec {limit headerUsage : UInt64} {usage : Receipt → UInt64}
    {invalid wrong : Err} {txs : List Transaction} {u : Unit}
    (h : verifyUsage limit headerUsage usage invalid wrong txs = .ok u) :
    headerUsage ≤ limit ∧ sumReceipts usage txs = .ok headerUsage := by
  obtain ⟨_, hlimit, h⟩ := bind_eq_ok_iff.1 h
  obtain ⟨sum, hsum, h⟩ := bind_eq_ok_iff.1 h
  rw [failIf_eq_ok] at hlimit h
  rw [not_not] at h
  exact ⟨UInt64.not_lt.1 hlimit, h ▸ hsum⟩

lemma BlockData.Verified.meter (h : BlockData.Verified env bd bd') (m : Meter) :
    m.header bd'.toBlockHeader ≤ m.limit ∧
      sumReceipts m.stated bd'.transactions = .ok (m.header bd'.toBlockHeader) := by
  cases m with
  | cpu => exact verifyUsage_spec h.cpu
  | net => exact verifyUsage_spec h.net

/-- The reward changes accounts, reward and supply only. -/
lemma payReward_frame {coinbase : Address} {parentSupply : Uint128}
    (h : payReward coinbase parentSupply s = .ok s') :
    s' = { s with accState := s'.accState, reward := s'.reward, supply := s'.supply } := by
  obtain ⟨_, -, h⟩ := bind_eq_ok_iff.1 h
  obtain ⟨reward, -, h⟩ := bind_eq_ok_iff.1 h
  obtain ⟨supply, -, h⟩ := bind_eq_ok_iff.1 h
  obtain ⟨acc, -, h⟩ := bind_eq_ok_iff.1 h
  obtain ⟨balance, -, h⟩ := bind_eq_ok_iff.1 h
  cases h
  rfl

/-- The reward leaves the counters. -/
lemma payReward_counter {coinbase : Address} {parentSupply : Uint128}
    (h : payReward coinbase parentSupply s = .ok s') (m : Meter) : m.counter s' = m.counter s := by
  rw [payReward_frame h]
  cases m <;> rfl

/-- The counters of a new block are the true usage of its transactions, and its receipts state
it. -/
lemma Block.Created.meter {s₀ s₁ s₂ : BlockState}
    (h : Block.Created env consensus parent bd child s₀ s₁ s₂) (m : Meter) :
    ((m.counter child.state).toNat = trueUsage env.toEnv m bd.transactions ∧
      m.counter child.state ≤ m.limit) ∧
    ∀ tx ∈ bd.transactions, ∃ r, tx.receipt = some r ∧
      m.stated r = m.used (tx.bandwidth env.toEnv) := by
  rw [payReward_counter h.paid m]
  refine Block.executeAll_meter h.executed m ?_
  obtain ⟨cpuPrice, netPrice, -, hs₀⟩ := h.start
  obtain hs₁ | ⟨mintDynasty, hs₁⟩ := h.dynasty <;> rw [hs₁, hs₀] <;> cases m <;> rfl

/-- The header of a block that passes both checks states the true usage. -/
lemma header_eq_counter (hheight : bd.height ≠ genesisHeight)
    (hverify : bd.verifyIntegrity env = .ok bd')
    (hcreate : parent.createChildWithBlockData env consensus bd' = .ok child) (m : Meter) :
    m.header child.toBlockHeader = m.counter child.state ∧
      (m.counter child.state).toNat = trueUsage env.toEnv m child.transactions ∧
      m.counter child.state ≤ m.limit := by
  obtain ⟨s₀, s₁, s₂, hcreated⟩ := Block.createChildWithBlockData_spec hcreate
  obtain ⟨⟨hsum, hle⟩, hstated⟩ := hcreated.meter m
  obtain ⟨-, hheader⟩ := (BlockData.verifyIntegrity_spec hheight hverify).meter m
  have hmod := BlockData.sumReceipts_eq hstated hheader
  rw [hcreated.data]
  refine ⟨?_, hsum, hle⟩
  rw [UInt64.le_iff_toNat_le, m.limit_toNat] at hle
  rw [← UInt64.toNat_inj, hmod, hsum]
  exact Nat.mod_eq_of_lt (by omega)

/-- **Header usage cannot be forged.**  The header of a block above the genesis block that passes
`VerifyIntegrity` and `CreateChildWithBlockData`, on any parent, states the sums of the bandwidths
of its transactions, without wrapping around; the counters of its state are the same, and at most
the limits.  So the prices of its children are computed from the true usage. -/
theorem header_usage_true (hheight : genesisHeight < bd.height)
    (hverify : bd.verifyIntegrity env = .ok bd')
    (hcreate : parent.createChildWithBlockData env consensus bd' = .ok child) :
    child.toBlockData = bd' ∧ bd'.toBlockHeader = bd.toBlockHeader ∧
    bd.cpuUsage.toNat =
      (child.transactions.map fun tx => (tx.bandwidth env.toEnv).cpuUsage.toNat).sum ∧
    bd.netUsage.toNat =
      (child.transactions.map fun tx => (tx.bandwidth env.toEnv).netUsage.toNat).sum ∧
    child.state.cpuUsage = bd.cpuUsage ∧ child.state.netUsage = bd.netUsage ∧
    bd.cpuUsage ≤ cpuLimit ∧ bd.netUsage ≤ netLimit ∧
    child.calcChildPrice = (do
      let cpu ← calcPrice cpuLimit (trueUsage env.toEnv .cpu child.transactions).toUInt64
        child.state.cpuPrice child.state.supply
      let net ← calcPrice netLimit (trueUsage env.toEnv .net child.transactions).toUInt64
        child.state.netPrice child.state.supply
      return (cpu, net)) := by
  have hne : bd.height ≠ genesisHeight := hheight.ne'
  obtain ⟨s₀, s₁, s₂, hcreated⟩ := Block.createChildWithBlockData_spec hcreate
  obtain ⟨hcpuHeader, hcpu, hcpuLe⟩ := header_eq_counter hne hverify hcreate .cpu
  obtain ⟨hnetHeader, hnet, hnetLe⟩ := header_eq_counter hne hverify hcreate .net
  have hsame : bd'.toBlockHeader = bd.toBlockHeader := by
    rw [(BlockData.verifyIntegrity_spec hne hverify).same]
  have hheader : child.toBlockHeader = bd.toBlockHeader := by rw [hcreated.data, hsame]
  have hprice := hcreated.verified
  refine ⟨hcreated.data, hsame, ?_, ?_, ?_, ?_, ?_, ?_, ?_⟩
  · rw [← hheader]
    exact (congrArg UInt64.toNat hcpuHeader).trans hcpu
  · rw [← hheader]
    exact (congrArg UInt64.toNat hnetHeader).trans hnet
  · rw [← hheader]
    exact hcpuHeader.symm
  · rw [← hheader]
    exact hnetHeader.symm
  · rw [← hheader]
    exact hcpuHeader.trans_le hcpuLe
  · rw [← hheader]
    exact hnetHeader.trans_le hnetLe
  · have hcpuUsage : child.cpuUsage = (trueUsage env.toEnv .cpu child.transactions).toUInt64 := by
      rw [← hcpu]
      exact hcpuHeader.trans UInt64.ofNat_toNat.symm
    have hnetUsage : child.netUsage = (trueUsage env.toEnv .net child.transactions).toUInt64 := by
      rw [← hnet]
      exact hnetHeader.trans UInt64.ofNat_toNat.symm
    rw [Block.calcChildPrice, hcpuUsage, hnetUsage, hprice.cpuPrice, hprice.netPrice, hprice.supply]

/-- A block with one transfer states its usage. -/
theorem header_usage_of_transfer : ∃ child,
    genesisHeight < (Plain.childData [Plain.paidTransfer] 1000 300).height ∧
    (Plain.childData [Plain.paidTransfer] 1000 300).verifyIntegrity Plain.blockEnv =
      .ok (Plain.childData [Plain.paidTransfer] 1000 300) ∧
    Plain.parentBlock.createChildWithBlockData Plain.blockEnv Plain.consensus
      (Plain.childData [Plain.paidTransfer] 1000 300) = .ok child ∧
    (1000 : UInt64).toNat = (child.transactions.map fun tx =>
      (tx.bandwidth Plain.blockEnv.toEnv).cpuUsage.toNat).sum := by
  have hverify : (Plain.childData [Plain.paidTransfer] 1000 300).verifyIntegrity Plain.blockEnv =
      .ok (Plain.childData [Plain.paidTransfer] 1000 300) := by decide +kernel
  have hcreate : (Plain.parentBlock.createChildWithBlockData Plain.blockEnv Plain.consensus
      (Plain.childData [Plain.paidTransfer] 1000 300)).isOk = true := by decide +kernel
  obtain ⟨child, hchild⟩ := isOk_iff.1 hcreate
  obtain ⟨-, -, hcpu, -⟩ := header_usage_true (by decide) hverify hchild
  exact ⟨child, by decide, hverify, hchild, hcpu⟩

end GoMedibloc
