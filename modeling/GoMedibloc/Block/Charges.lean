import GoMedibloc.Block.Usage

/-!
# What the transactions of a block are charged

The limits of a block count what the `Bandwidth` method of each transaction reports, and the points
of the sender pay for that.  Every type reports at least 1000 cpu and its size as net, but for
`genesis` and `genesis_distribution`, which report nothing and carry no signature: their sender is
`genesisCoinbase` without proof.  They are meant for the genesis block and fail to execute in any
other, but a failed execution is only an error receipt, and the transaction stays in the block.

So all transactions of a block above the genesis block are signed and charged if and only if none is
of the two types, and then the limits bound how many there are and how large they are
(`transactions_pay_iff_no_genesis`).
-/

namespace GoMedibloc

open Except

variable {env : BlockEnv} {consensus : Consensus} {bd bd' : BlockData} {parent child : Block}
  {tx : Transaction}

/-- A transaction is signed by its sender and charged for its work and its size. -/
def Pays (env : Env) (tx : Transaction) : Prop :=
  tx.sign ≠ [] ∧ env.recoverPublic tx.hash tx.sign = some tx.fromAddr ∧
    ∃ r, tx.receipt = some r ∧ 1000 ≤ r.cpuUsage.toNat ∧ r.netUsage.toNat = tx.size env

/-- What a transaction of the other types uses. -/
lemma Transaction.bandwidth_of_not_genesis {env : Env} {exeTx : ExecutableTx}
    (hconv : txConv env tx = .ok exeTx) (hkind : ¬ tx.txType.IsGenesis) :
    exeTx.op.isGenesis = false ∧ 1000 ≤ (tx.bandwidth env).cpuUsage.toNat ∧
      (tx.bandwidth env).netUsage.toNat = tx.size env := by
  have hspec := txConv_spec hconv
  have hop : exeTx.op.isGenesis = false := by
    rw [← Bool.not_eq_true, Operation.isGenesis_iff, hspec.kind]
    exact hkind
  have hbandwidth : tx.bandwidth env = ⟨exeTx.op.cpuUsage, exeTx.size.toUInt64⟩ := by
    rw [Transaction.bandwidth, hconv]
    exact ExecutableTx.bandwidth_of_not hop
  rw [hbandwidth, hspec.size hop]
  refine ⟨hop, ?_, ?_⟩
  · change 1000 ≤ exeTx.op.cpuUsage.toNat
    obtain h | h := Operation.cpuUsage_eq hop <;> rw [h] <;> decide
  · exact Nat.mod_eq_of_lt ((env.bodySize_lt _).trans (by norm_num))

/-- A transaction of a block that passes `VerifyIntegrity` has the sender that is recovered. -/
lemma BlockData.Verified.recovered (h : BlockData.Verified env bd bd')
    (htx : tx ∈ bd'.transactions) : ∃ exeTx, txConv env.toEnv tx = .ok exeTx ∧
      exeTx.op.recoverFrom env.toEnv tx = .ok tx.fromAddr := by
  obtain ⟨tx₀, -, htx₀⟩ := exists_of_mem_forall₂ h.txs htx
  obtain ⟨-, hfrom, hsame, -⟩ := Transaction.verifyIntegrity_spec htx₀
  have hrecover : tx.recoverFrom env.toEnv = .ok tx.fromAddr := by
    rw [← hfrom, hsame]
    exact Transaction.recoverFrom_congr env.toEnv tx₀ _ _ _
  exact bind_eq_ok_iff.1 hrecover

section Verified

variable (hheight : genesisHeight < bd.height) (hverify : bd.verifyIntegrity env = .ok bd')
  (hcreate : parent.createChildWithBlockData env consensus bd' = .ok child)

include hheight hverify hcreate

/-- A transaction of another type is signed and charged. -/
lemma pays_of_not_genesis (htx : tx ∈ child.transactions) (hkind : ¬ tx.txType.IsGenesis) :
    Pays env.toEnv tx ∧ 1000 ≤ (Meter.cpu.used (tx.bandwidth env.toEnv)).toNat ∧
      (Meter.net.used (tx.bandwidth env.toEnv)).toNat = tx.size env.toEnv := by
  obtain ⟨s₀, s₁, s₂, hcreated⟩ := Block.createChildWithBlockData_spec hcreate
  rw [hcreated.data] at htx
  obtain ⟨exeTx, hconv, hfrom⟩ :=
    (BlockData.verifyIntegrity_spec hheight.ne' hverify).recovered htx
  obtain ⟨hop, hcpu, hnet⟩ := Transaction.bandwidth_of_not_genesis hconv hkind
  obtain ⟨hsign, hrecover⟩ := Operation.recoverFrom_signer hop hfrom
  obtain ⟨r, hr, hstated⟩ := (hcreated.meter .cpu).2 tx htx
  obtain ⟨r', hr', hstated'⟩ := (hcreated.meter .net).2 tx htx
  obtain rfl : r = r' := Option.some.inj (hr.symm.trans hr')
  refine ⟨⟨hsign, hrecover, r, hr, ?_, ?_⟩, hcpu, hnet⟩
  · exact hcpu.trans_eq (congrArg UInt64.toNat hstated).symm
  · exact (congrArg UInt64.toNat hstated').trans hnet

/-- A transaction of the two types carries no signature. -/
lemma not_pays_of_genesis (htx : tx ∈ child.transactions) (hkind : tx.txType.IsGenesis) :
    ¬ Pays env.toEnv tx := by
  obtain ⟨s₀, s₁, s₂, hcreated⟩ := Block.createChildWithBlockData_spec hcreate
  rw [hcreated.data] at htx
  obtain ⟨exeTx, hconv, hfrom⟩ :=
    (BlockData.verifyIntegrity_spec hheight.ne' hverify).recovered htx
  have hop : exeTx.op.isGenesis = true := by
    rw [Operation.isGenesis_iff, (txConv_spec hconv).kind]
    exact hkind
  exact fun hpays => hpays.1 (Operation.recoverFrom_genesis hop hfrom).1

/-- The usage of a meter is within its limit. -/
lemma trueUsage_le (m : Meter) : trueUsage env.toEnv m child.transactions ≤ 3000000 := by
  obtain ⟨-, hsum, hle⟩ := header_eq_counter hheight.ne' hverify hcreate m
  rw [UInt64.le_iff_toNat_le, m.limit_toNat, hsum] at hle
  exact hle

end Verified

/-- The check of a transaction leaves its type. -/
lemma BlockData.Verified.types (h : BlockData.Verified env bd bd') :
    bd'.transactions.map Transaction.txType = bd.transactions.map Transaction.txType := by
  refine map_eq_of_forall₂ (fun tx tx' htx => ?_) h.txs
  obtain ⟨-, -, hsame, -⟩ := Transaction.verifyIntegrity_spec htx
  rw [hsame]

/-- **Every transaction pays, but for those of the genesis block.**  In a block above the genesis
block that passes `VerifyIntegrity` and `CreateChildWithBlockData`, every transaction is signed by
its sender and charged at least 1000 cpu and its size, and there are at most 3000 of them with at
most 3000000 bytes together, if and only if none is of type `genesis` or `genesis_distribution`. -/
theorem transactions_pay_iff_no_genesis (hheight : genesisHeight < bd.height)
    (hverify : bd.verifyIntegrity env = .ok bd')
    (hcreate : parent.createChildWithBlockData env consensus bd' = .ok child) :
    ((∀ tx ∈ child.transactions, Pays env.toEnv tx) ∧ child.transactions.length ≤ 3000 ∧
      (child.transactions.map (Transaction.size env.toEnv)).sum ≤ netLimit.toNat) ↔
    ∀ tx ∈ bd.transactions, ¬ (tx.txType = .genesis ∨ tx.txType = .genesisDistribution) := by
  have htypes : (∀ tx ∈ bd.transactions, ¬ tx.txType.IsGenesis) ↔
      ∀ tx ∈ child.transactions, ¬ tx.txType.IsGenesis := by
    obtain ⟨s₀, s₁, s₂, hcreated⟩ := Block.createChildWithBlockData_spec hcreate
    have hsame := (BlockData.verifyIntegrity_spec hheight.ne' hverify).types
    rw [← List.forall_mem_map (P := fun t => ¬ TxType.IsGenesis t), ← hsame, List.forall_mem_map,
      hcreated.data]
  refine Iff.trans ?_ htypes.symm
  constructor
  · intro h tx htx hkind
    exact not_pays_of_genesis hheight hverify hcreate htx hkind (h.1 tx htx)
  · intro hkinds
    have hpays := fun tx htx => pays_of_not_genesis hheight hverify hcreate htx (hkinds tx htx)
    refine ⟨fun tx htx => (hpays tx htx).1, ?_, ?_⟩
    · -- a thousand for each transaction is within the limit of cpu
      have hcpu := List.card_nsmul_le_sum (child.transactions.map fun tx =>
        (Meter.cpu.used (tx.bandwidth env.toEnv)).toNat) 1000 (by
          rw [List.forall_mem_map]
          exact fun tx htx => (hpays tx htx).2.1)
      have hle := trueUsage_le hheight hverify hcreate .cpu
      rw [List.length_map, smul_eq_mul] at hcpu
      unfold trueUsage at hle
      omega
    · have hsizes : child.transactions.map (Transaction.size env.toEnv) =
          child.transactions.map fun tx => (Meter.net.used (tx.bandwidth env.toEnv)).toNat :=
        List.map_congr_left fun tx htx => (hpays tx htx).2.2.symm
      rw [hsizes]
      exact trueUsage_le hheight hverify hcreate .net

/-- A block with one transfer. -/
theorem transfer_pays : ∃ child,
    Plain.parentBlock.createChildWithBlockData Plain.blockEnv Plain.consensus
      (Plain.childData [Plain.paidTransfer] 1000 300) = .ok child ∧
    child.transactions.length ≤ 3000 := by
  have hverify : (Plain.childData [Plain.paidTransfer] 1000 300).verifyIntegrity Plain.blockEnv =
      .ok (Plain.childData [Plain.paidTransfer] 1000 300) := by decide +kernel
  have hcreate : (Plain.parentBlock.createChildWithBlockData Plain.blockEnv Plain.consensus
      (Plain.childData [Plain.paidTransfer] 1000 300)).isOk = true := by decide +kernel
  obtain ⟨child, hchild⟩ := isOk_iff.1 hcreate
  have hpay := (transactions_pay_iff_no_genesis (by decide) hverify hchild).2 (by decide +kernel)
  exact ⟨child, hchild, hpay.2.1⟩

/-- A block above the genesis block with a transaction of type `genesis`, which nobody has signed and
which is charged nothing. -/
theorem unsigned_transaction_included :
    let tx := { Plain.signed ⟨.genesis, genesisCoinbase, .none, .zero, 1, 0, []⟩ with
      sign := [], receipt := some (makeReceipt 2 3 ⟨0, 0⟩ .zero (some .notGenesisBlock)) }
    let bd := Plain.childData [tx] 0 0
    genesisHeight < bd.height ∧ bd.verifyIntegrity Plain.blockEnv = .ok bd ∧
      (Plain.parentBlock.createChildWithBlockData Plain.blockEnv Plain.consensus bd).isOk = true ∧
      ¬ Pays .plain tx := by
  refine ⟨by decide, by decide +kernel, by decide +kernel, fun h => h.1 rfl⟩

end GoMedibloc
