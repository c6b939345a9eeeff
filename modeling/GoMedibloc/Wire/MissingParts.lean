import GoMedibloc.Wire.Records

/-!
# Messages with missing parts

In a `corepb.Block` the header and the receipt of each transaction are messages of their own, and
protobuf leaves the pointer nil where one is missing.  `BlockData.FromProto` hands the header on
without looking, the sums of `verifyUsageData` and the comparison of receipts do the same with the
receipts.

So a node ends with a nil pointer on every block without a header.  With a header it depends on
whether the missing receipt is reached: `VerifyIntegrity` reaches it unless the block is refused
before the receipts are added up, and it does not look at a block that says to be the genesis block,
for which the execution reaches the receipt if the transaction is executed
(`survives_iff_parts_not_reached`).  A block with all its parts is safe.
-/

namespace GoMedibloc

open Except

variable {env : BlockEnv} {consensus : Consensus} {parent b b' : Block} {bd bd' : BlockData}
  {msg : PbBlock} {tx : Transaction} {txs : List Transaction}

/-! ## Where a pointer is followed -/

lemma orFault_ne_nilPointer {α : Type} (x : Except Err α) : orFault x ≠ .error .nilPointer := by
  cases x <;> simp [orFault, Except.mapError]

/-- A computation that begins with a step that follows no pointer. -/
lemma orFault_bind_nilPointer_iff {α β : Type} {x : Except Err α} {f : α → Except Fault β} :
    (orFault x >>= f) = .error .nilPointer ↔ ∃ a, x = .ok a ∧ f a = .error .nilPointer := by
  simp only [bind_eq_error_iff, orFault_ne_nilPointer, orFault_eq_ok, false_or]

lemma failIf_bind_nilPointer_iff {β : Type} {c : Prop} [Decidable c] {e : Err}
    {f : Unit → Except Fault β} :
    (failIf c (.err e) >>= f) = .error .nilPointer ↔ ¬ c ∧ f () = .error .nilPointer := by
  by_cases hc : c
  · rw [bind_of_error (failIf_of hc)]
    simp [hc]
  · rw [bind_of_ok (failIf_of_not hc)]
    simp [hc]

/-- Decoding follows the pointer to the header. -/
lemma BlockData.fromProto_nilPointer_iff :
    BlockData.fromProto env.toEnv msg = .error .nilPointer ↔ msg.header = none := by
  have hrest : ∀ header, (do
      let transactions ← orFault (msg.transactions.mapM (Transaction.fromProto env.toEnv))
      return ⟨header, transactions, msg.height⟩ : Except Fault BlockData) ≠ .error .nilPointer := by
    intro header h
    obtain ⟨transactions, -, h⟩ := orFault_bind_nilPointer_iff.1 h
    cases h
  constructor
  · intro h
    rcases bind_eq_error_iff.1 h with hheader | ⟨header, -, h⟩
    · cases hmsg : msg.header with
      | none => rfl
      | some header =>
          rw [hmsg] at hheader
          exact absurd hheader (orFault_ne_nilPointer _)
    · exact absurd h (hrest header)
  · intro h
    rw [BlockData.fromProto, h]
    rfl

/-- Adding up the receipts follows the pointer to each. -/
lemma BlockData.sumReceipts_nilPointer_iff (usage : Receipt → UInt64) :
    sumReceipts usage txs = .error .nilPointer ↔ ∃ tx ∈ txs, tx.receipt = none := by
  have hrun : ∀ sum : UInt64, txs.foldlM (fun sum tx => (do
      let receipt ← ofOption .nilPointer tx.receipt
      return sum + usage receipt : Except Fault UInt64)) sum = .error .nilPointer ↔
      ∃ tx ∈ txs, tx.receipt = none := by
    induction txs with
    | nil =>
        intro sum
        simp only [List.foldlM_nil, List.not_mem_nil, false_and, exists_false, iff_false]
        exact nofun
    | cons tx txs ih =>
        intro sum
        rw [List.foldlM_cons]
        cases hreceipt : tx.receipt with
        | none => exact iff_of_true rfl ⟨tx, List.mem_cons_self, hreceipt⟩
        | some receipt =>
            refine (ih (sum + usage receipt)).trans ?_
            simp [hreceipt]
  exact hrun 0

lemma BlockData.verifyUsage_nilPointer_iff {limit headerUsage : UInt64} {usage : Receipt → UInt64}
    {invalid wrong : Err} :
    verifyUsage limit headerUsage usage invalid wrong txs = .error .nilPointer ↔
      headerUsage ≤ limit ∧ ∃ tx ∈ txs, tx.receipt = none := by
  have hlast : ∀ sum, failIf (sum ≠ headerUsage) (Fault.err wrong) ≠ .error .nilPointer :=
    fun _ => failIf_ne_error nofun
  rw [verifyUsage, failIf_bind_nilPointer_iff, bind_eq_error_iff, UInt64.not_lt,
    sumReceipts_nilPointer_iff]
  simp only [hlast, and_false, exists_false, or_false]

/-- The net usage is not looked at if a receipt is missing. -/
lemma BlockData.verifyUsageData_nilPointer_iff :
    bd.verifyUsageData = .error .nilPointer ↔
      bd.cpuUsage ≤ cpuLimit ∧ ∃ tx ∈ bd.transactions, tx.receipt = none := by
  rw [verifyUsageData, bind_eq_error_iff, verifyCPUUsage, verifyUsage_nilPointer_iff]
  constructor
  · rintro (h | ⟨_, hcpu, hnet⟩)
    · exact h
    · obtain ⟨-, hmissing⟩ := verifyUsage_nilPointer_iff.1 hnet
      rw [← sumReceipts_nilPointer_iff Receipt.cpuUsage] at hmissing
      obtain ⟨_, -, hcpu⟩ := bind_eq_ok_iff.1 hcpu
      rw [hmissing] at hcpu
      cases hcpu
  · exact .inl

lemma mapM_isOk_iff {α β ε : Type} {f : α → Except ε β} {l : List α} :
    (∃ l', l.mapM f = .ok l') ↔ ∀ a ∈ l, ∃ b, f a = .ok b := by
  induction l with
  | nil => exact iff_of_true ⟨[], rfl⟩ (fun _ h => absurd h List.not_mem_nil)
  | cons a l ih =>
      rw [List.forall_mem_cons, ← ih, List.mapM_cons]
      constructor
      · rintro ⟨l', h⟩
        obtain ⟨b, hb, h⟩ := bind_eq_ok_iff.1 h
        obtain ⟨bs, hbs, -⟩ := bind_eq_ok_iff.1 h
        exact ⟨⟨b, hb⟩, bs, hbs⟩
      · rintro ⟨⟨b, hb⟩, bs, hbs⟩
        exact ⟨b :: bs, by rw [bind_of_ok hb, bind_of_ok hbs]; rfl⟩

/-- The check of a transaction leaves its receipt. -/
lemma receipts_of_mapM {chainID : UInt32} {txs' : List Transaction}
    (h : txs.mapM (·.verifyIntegrity env.toEnv chainID) = .ok txs') :
    txs'.map Transaction.receipt = txs.map Transaction.receipt := by
  refine map_eq_of_forall₂ (fun tx tx' htx => ?_) (forall₂_of_mapM h)
  obtain ⟨-, -, hsame, -⟩ := Transaction.verifyIntegrity_spec htx
  rw [hsame]

lemma missing_of_receipts {txs txs' : List Transaction}
    (h : txs'.map Transaction.receipt = txs.map Transaction.receipt) :
    (∃ tx ∈ txs', tx.receipt = none) ↔ ∃ tx ∈ txs, tx.receipt = none := by
  rw [← List.mem_map, h, List.mem_map]

/-- `VerifyIntegrity` reaches a missing receipt unless the block is refused before. -/
lemma BlockData.verifyIntegrity_nilPointer_iff :
    bd.verifyIntegrity env = .error .nilPointer ↔ bd.height ≠ genesisHeight ∧
      (∀ tx ∈ bd.transactions, ∃ tx', tx.verifyIntegrity env.toEnv bd.chainID = .ok tx') ∧
      bd.cpuUsage ≤ cpuLimit ∧ ∃ tx ∈ bd.transactions, tx.receipt = none := by
  by_cases hheight : bd.height = genesisHeight
  · rw [verifyIntegrity, if_pos hheight]
    exact iff_of_false (fun h => by cases h) fun h => h.1 hheight
  · have hend : ∀ bd' : BlockData, (do
        failIf (bd'.calcHash env ≠ bd'.hash) (.err .invalidBlockHash)
        return bd' : Except Fault BlockData) ≠ .error .nilPointer := by
      intro bd' h
      obtain ⟨-, h⟩ := failIf_bind_nilPointer_iff.1 h
      cases h
    rw [verifyIntegrity, if_neg hheight, orFault_bind_nilPointer_iff, ← mapM_isOk_iff]
    constructor
    · rintro ⟨txs', htxs, h⟩
      rcases bind_eq_error_iff.1 h with husage | ⟨_, -, h⟩
      · obtain ⟨hcpu, hmissing⟩ := verifyUsageData_nilPointer_iff.1 husage
        exact ⟨hheight, ⟨txs', htxs⟩, hcpu, (missing_of_receipts (receipts_of_mapM htxs)).1 hmissing⟩
      · exact absurd h (hend _)
    · rintro ⟨-, ⟨txs', htxs⟩, hcpu, hmissing⟩
      exact ⟨txs', htxs, bind_eq_error_iff.2 (.inl (verifyUsageData_nilPointer_iff.2
        ⟨hcpu, (missing_of_receipts (receipts_of_mapM htxs)).2 hmissing⟩))⟩

/-- A transaction that is executed has its receipt compared. -/
lemma Block.execute_nilPointer_iff : b.execute env tx = .error .nilPointer ↔
    (∃ r s, executeTransaction env.toEnv b.height tx b.state = .ok (r, s)) ∧
      tx.receipt = none := by
  have hend : ∀ (r claimed : Receipt) (s : BlockState), (do
      failIf (r.equal claimed = false) (.err .wrongReceipt)
      let s ← orFault (acceptTransaction tx s)
      return { b with state := s } : Except Fault Block) ≠ .error .nilPointer := by
    intro r claimed s h
    obtain ⟨-, h⟩ := failIf_bind_nilPointer_iff.1 h
    obtain ⟨_, -, h⟩ := orFault_bind_nilPointer_iff.1 h
    cases h
  rw [Block.execute, orFault_bind_nilPointer_iff]
  constructor
  · rintro ⟨⟨r, s⟩, hexec, h⟩
    rcases bind_eq_error_iff.1 h with hmissing | ⟨claimed, -, h⟩
    · refine ⟨⟨r, s, hexec⟩, ?_⟩
      cases hreceipt : tx.receipt with
      | none => rfl
      | some receipt =>
          rw [hreceipt] at hmissing
          cases hmissing
    · exact absurd h (hend r claimed s)
  · rintro ⟨⟨r, s, hexec⟩, hmissing⟩
    refine ⟨(r, s), hexec, ?_⟩
    rw [hmissing]
    rfl

/-- The loop over the transactions ends with a nil pointer at one of them. -/
lemma Block.foldlM_nilPointer_iff :
    txs.foldlM (·.execute env) b = .error .nilPointer ↔ ∃ before tx after b',
      txs = before ++ tx :: after ∧ before.foldlM (·.execute env) b = .ok b' ∧
        b'.execute env tx = .error .nilPointer := by
  induction txs generalizing b with
  | nil =>
      refine iff_of_false nofun ?_
      rintro ⟨before, tx, after, -, htxs, -⟩
      simp at htxs
  | cons tx txs ih =>
      rw [List.foldlM_cons, bind_eq_error_iff]
      constructor
      · rintro (h | ⟨b₁, hb₁, h⟩)
        · exact ⟨[], tx, txs, b, rfl, rfl, h⟩
        · obtain ⟨before, tx', after, b', rfl, hbefore, htx'⟩ := ih.1 h
          refine ⟨tx :: before, tx', after, b', rfl, ?_, htx'⟩
          rw [List.foldlM_cons, bind_of_ok hb₁]
          exact hbefore
      · rintro ⟨before, tx', after, b', htxs, hbefore, htx'⟩
        cases before with
        | nil =>
            cases hbefore
            cases htxs
            exact .inl htx'
        | cons tx₀ before =>
            cases htxs
            rw [List.foldlM_cons] at hbefore
            obtain ⟨b₁, hb₁, hbefore⟩ := bind_eq_ok_iff.1 hbefore
            exact .inr ⟨b₁, hb₁, ih.2 ⟨before, tx', after, b', rfl, hbefore, htx'⟩⟩

/-! ## The three passes -/

/-- The block with which `verifyExecution` begins to execute transactions. -/
def Block.opened (consensus : Consensus) (parent : Block) (bd : BlockData) : Except Err Block := do
  let child ← parent.initChild bd.coinbase
  let child : Block :=
    { toBlockData := bd, state := { child.state with timestamp := bd.timestamp } }
  let b ← Block.setMintDynasty consensus parent child
  consensus.verifyProposer b
  return b

/-- Executing a block on its parent comes to a transaction without receipt and executes it. -/
def ReceiptReached (env : BlockEnv) (consensus : Consensus) (parent : Block) (bd : BlockData) :
    Prop :=
  ∃ b, Block.opened consensus parent bd = .ok b ∧ ∃ before tx after b' r s,
    bd.transactions = before ++ tx :: after ∧ tx.receipt = none ∧
      before.foldlM (·.execute env) b = .ok b' ∧
      executeTransaction env.toEnv b'.height tx b'.state = .ok (r, s)

lemma Block.opened_transactions (h : Block.opened consensus parent bd = .ok b) :
    b.transactions = bd.transactions := by
  obtain ⟨child, -, h⟩ := bind_eq_ok_iff.1 h
  obtain ⟨b₁, hdynasty, h⟩ := bind_eq_ok_iff.1 h
  obtain ⟨_, -, h⟩ := bind_eq_ok_iff.1 h
  cases h
  obtain rfl | ⟨mintDynasty, rfl⟩ := Block.setMintDynasty_spec hdynasty <;> rfl

/-- The execution follows no pointer but in the loop over the transactions. -/
lemma Block.createChildWithBlockData_nilPointer_opened :
    parent.createChildWithBlockData env consensus bd = .error .nilPointer ↔
      ∃ b, Block.opened consensus parent bd = .ok b ∧ b.executeAll env = .error .nilPointer := by
  have hend : ∀ b : Block, (do
      let s ← orFault (payReward b.coinbase parent.supply b.state)
      let b := { b with state := s }
      orFault (b.verifyState env)
      return b : Except Fault Block) ≠ .error .nilPointer := by
    intro b h
    obtain ⟨_, -, h⟩ := orFault_bind_nilPointer_iff.1 h
    obtain ⟨_, -, h⟩ := orFault_bind_nilPointer_iff.1 h
    cases h
  constructor
  · intro h
    obtain ⟨child, hinit, h⟩ := orFault_bind_nilPointer_iff.1 h
    obtain ⟨b, hdynasty, h⟩ := orFault_bind_nilPointer_iff.1 h
    obtain ⟨_, hproposer, h⟩ := orFault_bind_nilPointer_iff.1 h
    rcases bind_eq_error_iff.1 h with hexec | ⟨b', -, h⟩
    · refine ⟨b, ?_, hexec⟩
      rw [opened, bind_of_ok hinit]
      dsimp only
      rw [bind_of_ok hdynasty, bind_of_ok hproposer]
      rfl
    · exact absurd h (hend b')
  · rintro ⟨b, hopened, hexec⟩
    obtain ⟨child, hinit, hopened⟩ := bind_eq_ok_iff.1 hopened
    obtain ⟨b₁, hdynasty, hopened⟩ := bind_eq_ok_iff.1 hopened
    obtain ⟨_, hproposer, hopened⟩ := bind_eq_ok_iff.1 hopened
    cases hopened
    exact orFault_bind_nilPointer_iff.2 ⟨child, hinit, orFault_bind_nilPointer_iff.2
      ⟨b, hdynasty, orFault_bind_nilPointer_iff.2 ⟨_, hproposer, bind_eq_error_iff.2 (.inl hexec)⟩⟩⟩

lemma ReceiptReached.missing (h : ReceiptReached env consensus parent bd) :
    ∃ tx ∈ bd.transactions, tx.receipt = none := by
  obtain ⟨-, -, before, tx, after, -, -, -, htxs, hmissing, -⟩ := h
  rw [htxs]
  exact ⟨tx, List.mem_append_right _ List.mem_cons_self, hmissing⟩

lemma Block.createChildWithBlockData_nilPointer_iff :
    parent.createChildWithBlockData env consensus bd = .error .nilPointer ↔
      ReceiptReached env consensus parent bd := by
  rw [createChildWithBlockData_nilPointer_opened]
  refine exists_congr fun b => and_congr_right fun hopened => ?_
  rw [executeAll, foldlM_nilPointer_iff, opened_transactions hopened]
  simp only [execute_nilPointer_iff]
  constructor
  · rintro ⟨before, tx, after, b', htxs, hbefore, ⟨r, s, hexec⟩, hmissing⟩
    exact ⟨before, tx, after, b', r, s, htxs, hmissing, hbefore, hexec⟩
  · rintro ⟨before, tx, after, b', r, s, htxs, hmissing, hbefore, hexec⟩
    exact ⟨before, tx, after, b', htxs, hbefore, ⟨r, s, hexec⟩, hmissing⟩

/-- A node that gets the message follows no nil pointer: not when it decodes it, not in
`VerifyIntegrity`, and not when it executes the block on the parent. -/
def Survives (env : BlockEnv) (consensus : Consensus) (parent : Block) (msg : PbBlock) : Prop :=
  BlockData.fromProto env.toEnv msg ≠ .error .nilPointer ∧
  ∀ bd, BlockData.fromProto env.toEnv msg = .ok bd →
    bd.verifyIntegrity env ≠ .error .nilPointer ∧
    ∀ bd', bd.verifyIntegrity env = .ok bd' →
      parent.createChildWithBlockData env consensus bd' ≠ .error .nilPointer

/-- A message with a header and a receipt for every transaction. -/
def PbBlock.Complete (msg : PbBlock) : Prop :=
  msg.header ≠ none ∧ ∀ tx ∈ msg.transactions, tx.receipt ≠ none

/-- A block in which a receipt is missing is refused before that is noticed: above the genesis block
because of a transaction or the cpu usage of the header, else because the transaction is not
executed. -/
def RefusedBefore (env : BlockEnv) (consensus : Consensus) (parent : Block) (bd : BlockData) :
    Prop :=
  if bd.height = genesisHeight then ¬ ReceiptReached env consensus parent bd
  else cpuLimit < bd.cpuUsage ∨
    ∃ tx ∈ bd.transactions, ∀ tx', tx.verifyIntegrity env.toEnv bd.chainID ≠ .ok tx'

/-- A decoded transaction has a receipt if the message has one. -/
lemma Transaction.receipt_of_fromProto {env : Env} {pb : PbTransaction}
    (h : Transaction.fromProto env pb = .ok tx) : tx.receipt = none ↔ pb.receipt = none := by
  obtain ⟨value, receipt, -, hreceipt, h⟩ := Transaction.fromProto_eq_ok_iff.1 h
  obtain ⟨a, p, -, -, rfl⟩ := Transaction.recover_eq_ok_iff.1 h
  cases hpb : pb.receipt with
  | none =>
      rw [hpb] at hreceipt
      cases hreceipt
      simp
  | some r =>
      rw [hpb] at hreceipt
      obtain ⟨r', -, rfl⟩ := map_eq_ok_iff.1 hreceipt
      simp

lemma PbBlock.Complete.receipts (hmsg : msg.Complete)
    (h : BlockData.fromProto env.toEnv msg = .ok bd) :
    ∀ tx ∈ bd.transactions, tx.receipt ≠ none := by
  obtain ⟨header, -, h⟩ := bind_eq_ok_iff.1 h
  obtain ⟨txs, htxs, h⟩ := bind_eq_ok_iff.1 h
  cases h
  intro tx htx hnone
  obtain ⟨pb, hpb, htx⟩ := exists_of_mem_forall₂ (forall₂_of_mapM (orFault_eq_ok.1 htxs)) htx
  exact hmsg.2 pb hpb ((Transaction.receipt_of_fromProto htx).1 hnone)

/-- After `VerifyIntegrity` a receipt is missing only in a block at the genesis height, which is
left as it is. -/
lemma BlockData.verifyIntegrity_ok_missing (h : bd.verifyIntegrity env = .ok bd')
    (hmissing : ∃ tx ∈ bd'.transactions, tx.receipt = none) :
    bd.height = genesisHeight ∧ bd' = bd := by
  by_cases hheight : bd.height = genesisHeight
  · rw [verifyIntegrity, if_pos hheight] at h
    exact ⟨hheight, (Except.ok.inj h).symm⟩
  · obtain ⟨-, -, hcpu, -, -⟩ := verifyIntegrity_spec hheight h
    obtain ⟨_, -, hcpu⟩ := bind_eq_ok_iff.1 hcpu
    rw [(sumReceipts_nilPointer_iff Receipt.cpuUsage).2 hmissing] at hcpu
    cases hcpu

/-- When a decoded block is survived. -/
lemma verified_survives_iff :
    (bd.verifyIntegrity env ≠ .error .nilPointer ∧ ∀ bd', bd.verifyIntegrity env = .ok bd' →
      parent.createChildWithBlockData env consensus bd' ≠ .error .nilPointer) ↔
    ((∃ tx ∈ bd.transactions, tx.receipt = none) → RefusedBefore env consensus parent bd) := by
  simp only [ne_eq, Block.createChildWithBlockData_nilPointer_iff]
  unfold RefusedBefore
  split_ifs with hheight
  · have hok : bd.verifyIntegrity env = .ok bd := if_pos hheight
    rw [hok]
    constructor
    · exact fun h _ => h.2 bd rfl
    · rintro h
      refine ⟨nofun, fun bd' heq hreached => ?_⟩
      cases heq
      exact h hreached.missing hreached
  · rw [BlockData.verifyIntegrity_nilPointer_iff]
    constructor
    · rintro ⟨hnot, -⟩ hmissing
      by_contra hcon
      push Not at hcon
      exact hnot ⟨hheight, hcon.2, UInt64.not_lt.1 hcon.1, hmissing⟩
    · intro h
      refine ⟨fun ⟨_, htxs, hcpu, hmissing⟩ => ?_, fun bd' hbd' hreached => ?_⟩
      · rcases h hmissing with hlimit | ⟨tx, htx, hwrong⟩
        · exact absurd hcpu (UInt64.not_le.2 hlimit)
        · obtain ⟨tx', htx'⟩ := htxs tx htx
          exact hwrong tx' htx'
      · exact hheight (BlockData.verifyIntegrity_ok_missing hbd' hreached.missing).1

/-- **When a block message is survived.**  A message is survived, on any parent, if and only if it
has a header and, if it is decoded to a block in which a receipt is missing, that block is refused
before the receipt is needed.  In particular a message with all its parts is survived. -/
theorem survives_iff_parts_not_reached (env : BlockEnv) (consensus : Consensus) (parent : Block)
    (msg : PbBlock) :
    (Survives env consensus parent msg ↔ msg.header ≠ none ∧
      ∀ bd, BlockData.fromProto env.toEnv msg = .ok bd →
        (∃ tx ∈ bd.transactions, tx.receipt = none) → RefusedBefore env consensus parent bd) ∧
    (msg.Complete → Survives env consensus parent msg) := by
  have hiff : Survives env consensus parent msg ↔ msg.header ≠ none ∧
      ∀ bd, BlockData.fromProto env.toEnv msg = .ok bd →
        (∃ tx ∈ bd.transactions, tx.receipt = none) → RefusedBefore env consensus parent bd := by
    unfold Survives
    rw [ne_eq, BlockData.fromProto_nilPointer_iff]
    exact and_congr_right fun _ => forall₂_congr fun bd _ => verified_survives_iff
  refine ⟨hiff, fun hmsg => hiff.2 ⟨hmsg.1, fun bd hbd ⟨tx, htx, hmissing⟩ => ?_⟩⟩
  exact absurd hmissing (hmsg.receipts hbd tx htx)

/-- The empty message, and a block with a signed transfer that has no receipt: the first ends with a
nil pointer when it is decoded, the second in `VerifyIntegrity`. -/
theorem incomplete_messages_crash :
    BlockData.fromProto Plain.blockEnv.toEnv ⟨none, [], 0⟩ = .error .nilPointer ∧
    ∃ bd : BlockData, BlockData.fromProto Plain.blockEnv.toEnv bd.toProto = .ok bd ∧
      bd.height = 2 ∧ bd.verifyIntegrity Plain.blockEnv = .error .nilPointer := by
  refine ⟨rfl, Plain.childData [Plain.signed
    ⟨.transfer, Plain.address 1, Plain.address 2, .ofUint 1, 1, 0, []⟩] 0 0, ?_, rfl, ?_⟩
  · refine BlockData.fromProto_toProto fun tx htx => ?_
    rw [List.mem_singleton.1 htx]
    decide +kernel
  · decide +kernel

end GoMedibloc
