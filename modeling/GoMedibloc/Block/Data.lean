import GoMedibloc.Ledger.Run

/-!
# Blocks and their validation

A block is its data, which is sent around, and a state.  The data has a header with the hash, the
roots of the state, prices, usages, reward and supply, and the transactions with their receipts;
all of it comes from whoever has sent the block.

Two passes look at it.  `verifyIntegrity` checks the transactions, the usages of the header against
the sum of the receipts, and the hash; the genesis block is not checked.
`createChildWithBlockData` starts from the state of the parent with new prices, executes the
transactions, compares each receipt with the one it computes, pays the reward and compares prices,
reward, supply and roots with the header.

The two passes follow the receipt of each transaction.  A message need not carry one, and the
pointer is nil then; `Fault` has an end of its own for that.  The proposer and the dynasty are the
business of the consensus, an interface in the source.  The states are finite maps, of which the
environment computes the roots.
-/

namespace GoMedibloc

open Except

/-! ## Block data -/

/-- How the validation of a block can end besides with a result: with an error, or by following a
nil pointer. -/
inductive Fault
  | err (e : Err)
  | nilPointer
deriving DecidableEq, Repr

/-- What a function that cannot follow a nil pointer ends with. -/
def orFault {α : Type} (x : Except Err α) : Except Fault α := x.mapError Fault.err

@[simp] lemma orFault_eq_ok {α : Type} {x : Except Err α} {a : α} :
    orFault x = .ok a ↔ x = .ok a := mapError_eq_ok

/-- `BlockHeader`. -/
structure BlockHeader where
  hash : Bytes
  parentHash : Bytes
  accStateRoot : Bytes
  txStateRoot : Bytes
  dposRoot : Bytes
  coinbase : Address
  reward : Uint128
  supply : Uint128
  timestamp : ℤ
  chainID : UInt32
  sign : Bytes
  cpuPrice : Uint128
  cpuUsage : UInt64
  netPrice : Uint128
  netUsage : UInt64
deriving DecidableEq

/-- `BlockData`. -/
structure BlockData extends BlockHeader where
  transactions : List Transaction
  height : ℕ
deriving DecidableEq

/-- What the hash of a block covers, `corepb.BlockHashTarget`. -/
structure BlockHashTarget where
  parentHash : Bytes
  coinbase : Address
  accStateRoot : Bytes
  txStateRoot : Bytes
  dposRoot : Bytes
  timestamp : ℤ
  chainID : UInt32
  reward : Uint128
  supply : Uint128
  cpuPrice : Uint128
  cpuUsage : UInt64
  netPrice : Uint128
  netUsage : UInt64
  txHash : List Bytes

/-- What the blocks take from outside besides what the transactions do: SHA3-256 of the marshalled
hash target, which is assumed collision free, and the roots of the three parts of a state. -/
structure BlockEnv extends Env where
  blockHash : BlockHashTarget → Bytes
  blockHash_injective : Function.Injective blockHash
  accountsRoot : AccountState → Bytes
  txsRoot : (Finmap fun _ : Bytes => Transaction) → Bytes
  dposRoot : DposState → Bytes

namespace BlockData

/-- The hash target of a block.  `CalcHash` appends the hashes of the transactions to a slice that
has as many empty entries already. -/
def hashTarget (bd : BlockData) : BlockHashTarget :=
  ⟨bd.parentHash, bd.coinbase, bd.accStateRoot, bd.txStateRoot, bd.dposRoot, bd.timestamp,
    bd.chainID, bd.reward, bd.supply, bd.cpuPrice, bd.cpuUsage, bd.netPrice, bd.netUsage,
    bd.transactions.map (fun _ => []) ++ bd.transactions.map Transaction.hash⟩

/-- `CalcHash`. -/
def calcHash (env : BlockEnv) (bd : BlockData) : Bytes := env.blockHash bd.hashTarget

/-- The usage that the receipts of the transactions add up to, modulo `2 ^ 64`. -/
def sumReceipts (usage : Receipt → UInt64) (txs : List Transaction) : Except Fault UInt64 :=
  txs.foldlM (fun sum tx => do
    let receipt ← ofOption .nilPointer tx.receipt
    return sum + usage receipt) 0

/-- The check of one kind of usage. -/
def verifyUsage (limit headerUsage : UInt64) (usage : Receipt → UInt64) (invalid wrong : Err)
    (txs : List Transaction) : Except Fault Unit := do
  failIf (limit < headerUsage) (.err invalid)
  let sum ← sumReceipts usage txs
  failIf (sum ≠ headerUsage) (.err wrong)

/-- `verifyCPUUsage`. -/
def verifyCPUUsage (bd : BlockData) : Except Fault Unit :=
  verifyUsage cpuLimit bd.cpuUsage Receipt.cpuUsage .invalidCPUUsage .wrongCPUUsage bd.transactions

/-- `verifyNetUsage`. -/
def verifyNetUsage (bd : BlockData) : Except Fault Unit :=
  verifyUsage netLimit bd.netUsage Receipt.netUsage .invalidNetUsage .wrongNetUsage bd.transactions

/-- `verifyUsageData`. -/
def verifyUsageData (bd : BlockData) : Except Fault Unit := do
  bd.verifyCPUUsage
  bd.verifyNetUsage

/-- `VerifyIntegrity`: the block with the senders of its transactions as recovered. -/
def verifyIntegrity (env : BlockEnv) (bd : BlockData) : Except Fault BlockData :=
  if bd.height = genesisHeight then return bd
  else do
    let txs ← orFault (bd.transactions.mapM (·.verifyIntegrity env.toEnv bd.chainID))
    let bd := { bd with transactions := txs }
    bd.verifyUsageData
    failIf (bd.calcHash env ≠ bd.hash) (.err .invalidBlockHash)
    return bd

end BlockData

/-! ## Blocks -/

/-- `Block`: the data of a block with its state. -/
structure Block extends BlockData where
  state : BlockState

/-- `Consensus`, as far as the validation of a block uses it. -/
structure Consensus where
  makeMintDynasty : ℤ → BlockState → Except Err (List Address)
  verifyProposer : Block → Except Err Unit

namespace Block

/-- `CalcChildPrice`: the price of cpu and that of net, from the header of the block. -/
def calcChildPrice (b : Block) : Except Err (Uint128 × Uint128) := do
  let cpu ← calcPrice cpuLimit b.cpuUsage b.cpuPrice b.supply
  let net ← calcPrice netLimit b.netUsage b.netPrice b.supply
  return (cpu, net)

/-- `InitChild`. -/
def initChild (b : Block) (coinbase : Address) : Except Err Block := do
  let newPrice ← b.calcChildPrice
  return {
    hash := []
    parentHash := b.hash
    accStateRoot := []
    txStateRoot := []
    dposRoot := []
    coinbase := coinbase
    reward := .zero
    supply := b.supply
    timestamp := 0
    chainID := b.chainID
    sign := []
    cpuPrice := .zero
    cpuUsage := 0
    netPrice := .zero
    netUsage := 0
    transactions := []
    height := b.height + 1
    state := { b.state with
      cpuUsage := 0
      netUsage := 0
      cpuPrice := newPrice.1
      netPrice := newPrice.2 } }

/-- `SetMintDynasty`. -/
def setMintDynasty (consensus : Consensus) (parent b : Block) : Except Err Block :=
  match consensus.makeMintDynasty b.state.timestamp parent.state with
  | .ok mintDynasty =>
    return { b with
      state := { b.state with dposState := b.state.dposState.setDynasty mintDynasty } }
  | .error e => if e = .sameDynasty then return b else throw e

/-- `execute`.  `Receipt.Equal` follows the pointer to the receipt of the transaction. -/
def execute (env : BlockEnv) (b : Block) (tx : Transaction) : Except Fault Block := do
  let (receipt, s) ← orFault (executeTransaction env.toEnv b.height tx b.state)
  let claimed ← ofOption .nilPointer tx.receipt
  failIf (receipt.equal claimed = false) (.err .wrongReceipt)
  let s ← orFault (acceptTransaction tx s)
  return { b with state := s }

/-- `executeAll`. -/
def executeAll (env : BlockEnv) (b : Block) : Except Fault Block :=
  b.transactions.foldlM (·.execute env) b

/-- `verifyState`. -/
def verifyState (env : BlockEnv) (b : Block) : Except Err Unit := do
  failIf (b.state.cpuPrice.val ≠ b.cpuPrice.val) .invalidCPUPrice
  failIf (b.state.netPrice.val ≠ b.netPrice.val) .invalidNetPrice
  failIf (b.state.reward.val ≠ b.reward.val) .invalidBlockReward
  failIf (b.state.supply.val ≠ b.supply.val) .invalidBlockSupply
  failIf (env.accountsRoot b.state.accState ≠ b.accStateRoot) .invalidBlockAccountsRoot
  failIf (env.txsRoot b.state.txState ≠ b.txStateRoot) .invalidBlockTxsRoot
  failIf (env.dposRoot b.state.dposState ≠ b.toBlockHeader.dposRoot) .invalidBlockDposRoot

/-- `verifyExecution`. -/
def verifyExecution (env : BlockEnv) (consensus : Consensus) (parent b : Block) :
    Except Fault Block := do
  let b ← orFault (setMintDynasty consensus parent b)
  orFault (consensus.verifyProposer b)
  let b ← b.executeAll env
  let s ← orFault (payReward b.coinbase parent.supply b.state)
  let b := { b with state := s }
  orFault (b.verifyState env)
  return b

/-- `CreateChildWithBlockData`. -/
def createChildWithBlockData (env : BlockEnv) (consensus : Consensus) (b : Block)
    (bd : BlockData) : Except Fault Block := do
  let child ← orFault (b.initChild bd.coinbase)
  let child : Block :=
    { toBlockData := bd, state := { child.state with timestamp := bd.timestamp } }
  verifyExecution env consensus b child

end Block

/-! ## What the passes check -/

section Passes

variable {env : BlockEnv} {consensus : Consensus} {bd bd' : BlockData} {b b' parent child : Block}
  {tx : Transaction}

/-- What is known of a block that passes `VerifyIntegrity`. -/
structure BlockData.Verified (env : BlockEnv) (bd bd' : BlockData) : Prop where
  same : bd' = { bd with transactions := bd'.transactions }
  txs : List.Forall₂ (fun tx tx' => tx.verifyIntegrity env.toEnv bd.chainID = .ok tx')
    bd.transactions bd'.transactions
  cpu : bd'.verifyCPUUsage = .ok ()
  net : bd'.verifyNetUsage = .ok ()
  hash : bd'.calcHash env = bd.hash

lemma forall₂_of_mapM {α β ε : Type} {f : α → Except ε β} {l : List α} {l' : List β}
    (h : l.mapM f = .ok l') : List.Forall₂ (fun a b => f a = .ok b) l l' := by
  induction l generalizing l' with
  | nil =>
      cases h
      exact .nil
  | cons a l ih =>
      rw [List.mapM_cons] at h
      obtain ⟨b, hb, h⟩ := bind_eq_ok_iff.1 h
      obtain ⟨bs, hbs, h⟩ := bind_eq_ok_iff.1 h
      cases h
      exact .cons hb (ih hbs)

lemma exists_of_mem_forall₂ {α β : Type} {R : α → β → Prop} {l : List α} {l' : List β}
    (h : List.Forall₂ R l l') {b : β} (hb : b ∈ l') : ∃ a ∈ l, R a b := by
  induction h with
  | nil => exact absurd hb List.not_mem_nil
  | cons ha _ ih =>
      obtain rfl | hb := List.mem_cons.1 hb
      · exact ⟨_, List.mem_cons_self, ha⟩
      · obtain ⟨a, hmem, ha⟩ := ih hb
        exact ⟨a, List.mem_cons_of_mem _ hmem, ha⟩

lemma map_eq_of_forall₂ {α β γ : Type} {R : α → β → Prop} {f : α → γ} {g : β → γ} {l : List α}
    {l' : List β} (hsame : ∀ a b, R a b → g b = f a) (h : List.Forall₂ R l l') :
    l'.map g = l.map f := by
  induction h with
  | nil => rfl
  | cons ha _ ih => rw [List.map_cons, List.map_cons, ih, hsame _ _ ha]

lemma BlockData.verifyIntegrity_spec (hheight : bd.height ≠ genesisHeight)
    (h : bd.verifyIntegrity env = .ok bd') : BlockData.Verified env bd bd' := by
  rw [verifyIntegrity, if_neg hheight] at h
  obtain ⟨txs, htxs, h⟩ := bind_eq_ok_iff.1 h
  obtain ⟨_, husage, h⟩ := bind_eq_ok_iff.1 h
  obtain ⟨_, hhash, h⟩ := bind_eq_ok_iff.1 h
  obtain ⟨_, hcpu, hnet⟩ := bind_eq_ok_iff.1 husage
  rw [failIf_eq_ok, not_not] at hhash
  cases h
  exact ⟨rfl, forall₂_of_mapM (orFault_eq_ok.1 htxs), hcpu, hnet, hhash⟩

/-- Executing a transaction of the block accepts it in the ledger, with the receipt it carries. -/
lemma Block.execute_ledger (due : Option Uint128) (accepted : List Transaction)
    (h : b.execute env tx = .ok b') :
    b' = { b with state := b'.state } ∧
      Ledger.accept env.toEnv tx ⟨b.height, b.state, due, accepted⟩ =
        .ok ⟨b.height, b'.state, due, tx :: accepted⟩ := by
  obtain ⟨⟨receipt, s₁⟩, hexec, h⟩ := bind_eq_ok_iff.1 h
  obtain ⟨claimed, hclaimed, h⟩ := bind_eq_ok_iff.1 h
  obtain ⟨_, hequal, h⟩ := bind_eq_ok_iff.1 h
  obtain ⟨s₂, haccept, h⟩ := bind_eq_ok_iff.1 h
  rw [orFault_eq_ok] at hexec haccept
  rw [ofOption_eq_ok] at hclaimed
  rw [failIf_eq_ok, Bool.not_eq_false, Receipt.equal_iff] at hequal
  cases h
  refine ⟨rfl, ?_⟩
  have hset : tx.setReceipt receipt = tx := by
    rw [hequal, Transaction.setReceipt, ← hclaimed]
  rw [Ledger.accept, bind_of_ok hexec]
  dsimp only
  rw [hset, bind_of_ok haccept]
  rfl

/-- A property of states that every executed transaction of a block keeps holds at its end. -/
lemma Block.executeAll_induct {P : List Transaction → BlockState → Prop}
    (hstep : ∀ {done tx} {b b' : Block}, b.execute env tx = .ok b' → P done b.state →
      P (done ++ [tx]) b'.state)
    (h : b.executeAll env = .ok b') (hb : P [] b.state) :
    b' = { b with state := b'.state } ∧ P b.transactions b'.state := by
  have hrun : ∀ (txs done : List Transaction) (b₀ : Block), P done b₀.state →
      txs.foldlM (·.execute env) b₀ = .ok b' →
      b' = { b₀ with state := b'.state } ∧ P (done ++ txs) b'.state := by
    intro txs
    induction txs with
    | nil =>
        intro done b₀ hP hfold
        cases hfold
        rw [List.append_nil]
        exact ⟨rfl, hP⟩
    | cons tx txs ih =>
        intro done b₀ hP hfold
        rw [List.foldlM_cons] at hfold
        obtain ⟨b₁, hexec, hfold⟩ := bind_eq_ok_iff.1 hfold
        obtain ⟨hsame, -⟩ := execute_ledger none [] hexec
        obtain ⟨hlast, hP'⟩ := ih (done ++ [tx]) b₁ (hstep hexec hP) hfold
        rw [List.append_assoc] at hP'
        refine ⟨?_, hP'⟩
        rw [hsame] at hlast
        exact hlast
  exact hrun b.transactions [] b hb h

/-- A state that passes `verifyState` has the figures and the roots of the header. -/
structure Block.Matches (env : BlockEnv) (b : Block) : Prop where
  cpuPrice : b.state.cpuPrice = b.cpuPrice
  netPrice : b.state.netPrice = b.netPrice
  reward : b.state.reward = b.reward
  supply : b.state.supply = b.supply
  accStateRoot : env.accountsRoot b.state.accState = b.accStateRoot
  txStateRoot : env.txsRoot b.state.txState = b.txStateRoot
  dposRoot : env.dposRoot b.state.dposState = b.toBlockHeader.dposRoot

lemma Block.verifyState_iff {u : Unit} : b.verifyState env = .ok u ↔ b.Matches env := by
  unfold verifyState
  simp only [bind_eq_ok_iff, failIf_eq_ok, not_not, exists_const, Uint128.val_inj]
  exact ⟨fun ⟨h₁, h₂, h₃, h₄, h₅, h₆, h₇⟩ => ⟨h₁, h₂, h₃, h₄, h₅, h₆, h₇⟩,
    fun h => ⟨h.cpuPrice, h.netPrice, h.reward, h.supply, h.accStateRoot, h.txStateRoot,
      h.dposRoot⟩⟩

/-- What is known of a block that has been created: the state it starts from, that after the new
dynasty, if there is one, and that after the transactions. -/
structure Block.Created (env : BlockEnv) (consensus : Consensus) (parent : Block) (bd : BlockData)
    (child : Block) (s₀ s₁ s₂ : BlockState) : Prop where
  data : child.toBlockData = bd
  start : ∃ cpuPrice netPrice, parent.calcChildPrice = .ok (cpuPrice, netPrice) ∧
    s₀ = { parent.state with
      cpuUsage := 0
      netUsage := 0
      cpuPrice := cpuPrice
      netPrice := netPrice
      timestamp := bd.timestamp }
  dynasty : s₁ = s₀ ∨
    ∃ mintDynasty, s₁ = { s₀ with dposState := s₀.dposState.setDynasty mintDynasty }
  proposer : consensus.verifyProposer ⟨bd, s₁⟩ = .ok ()
  executed : Block.executeAll env ⟨bd, s₁⟩ = .ok ⟨bd, s₂⟩
  paid : payReward bd.coinbase parent.supply s₂ = .ok child.state
  verified : child.Matches env

lemma Block.setMintDynasty_spec (h : setMintDynasty consensus parent b = .ok b') :
    b' = b ∨ ∃ mintDynasty, b' = { b with
      state := { b.state with dposState := b.state.dposState.setDynasty mintDynasty } } := by
  unfold setMintDynasty at h
  cases hmake : consensus.makeMintDynasty b.state.timestamp parent.state with
  | ok mintDynasty =>
      rw [hmake] at h
      exact .inr ⟨mintDynasty, (Except.ok.inj h).symm⟩
  | error e =>
      rw [hmake] at h
      dsimp only at h
      split_ifs at h
      exact .inl (Except.ok.inj h).symm

lemma Block.createChildWithBlockData_spec
    (h : parent.createChildWithBlockData env consensus bd = .ok child) :
    ∃ s₀ s₁ s₂, Block.Created env consensus parent bd child s₀ s₁ s₂ := by
  obtain ⟨child₀, hinit, h⟩ := bind_eq_ok_iff.1 h
  obtain ⟨b₁, hdynasty, h⟩ := bind_eq_ok_iff.1 h
  obtain ⟨_, hproposer, h⟩ := bind_eq_ok_iff.1 h
  obtain ⟨b₂, hexec, h⟩ := bind_eq_ok_iff.1 h
  obtain ⟨s, hpay, h⟩ := bind_eq_ok_iff.1 h
  obtain ⟨_, hverify, hend⟩ := bind_eq_ok_iff.1 h
  cases hend
  rw [orFault_eq_ok] at hinit hdynasty hproposer hpay hverify
  obtain ⟨⟨cpuPrice, netPrice⟩, hprice, hinit⟩ := bind_eq_ok_iff.1 hinit
  cases hinit
  obtain ⟨s₀, hs₀⟩ : ∃ s₀, s₀ = { parent.state with
      cpuUsage := 0
      netUsage := 0
      cpuPrice := cpuPrice
      netPrice := netPrice
      timestamp := bd.timestamp } := ⟨_, rfl⟩
  have hb₁ : b₁.toBlockData = bd ∧ (b₁.state = s₀ ∨
      ∃ mintDynasty, b₁.state = { s₀ with dposState := s₀.dposState.setDynasty mintDynasty }) := by
    rw [hs₀]
    obtain rfl | ⟨mintDynasty, rfl⟩ := setMintDynasty_spec hdynasty
    · exact ⟨rfl, .inl rfl⟩
    · exact ⟨rfl, .inr ⟨mintDynasty, rfl⟩⟩
  obtain ⟨hsame, -⟩ := executeAll_induct (P := fun _ _ => True) (fun _ _ => trivial) hexec trivial
  obtain ⟨bd₁, s₁⟩ := b₁
  obtain ⟨bd₂, s₂⟩ := b₂
  obtain ⟨rfl, hs₁⟩ := hb₁
  obtain rfl : bd₂ = bd₁ := congrArg Block.toBlockData hsame
  exact ⟨s₀, s₁, s₂, rfl, ⟨cpuPrice, netPrice, hprice, hs₀⟩, hs₁, hproposer, hexec, hpay,
    verifyState_iff.1 hverify⟩

end Passes

/-! ## A plain environment -/

namespace Plain

/-- An integer as bytes. -/
def intCode (z : ℤ) : Bytes := (if z < 0 then 1 else 0) :: List.replicate z.natAbs 0

lemma intCode_injective : Function.Injective intCode := by
  intro x y h
  obtain ⟨hsign, hlength⟩ := List.cons_eq_cons.1 h
  have habs := congrArg List.length hlength
  rw [List.length_replicate, List.length_replicate] at habs
  by_cases hx : x < 0 <;> by_cases hy : y < 0 <;> simp [hx, hy] at hsign <;> omega

/-- A list of byte strings as bytes. -/
def listCode : List Bytes → Bytes
  | [] => []
  | b :: l => framed b ++ listCode l

lemma framed_append_ne_nil (b r : Bytes) : framed b ++ r ≠ [] := by
  cases b <;> exact nofun

lemma listCode_injective : Function.Injective listCode := by
  intro l l' h
  induction l generalizing l' with
  | nil =>
      cases l' with
      | nil => rfl
      | cons b' l' => exact absurd h.symm (framed_append_ne_nil b' _)
  | cons b l ih =>
      cases l' with
      | nil => exact absurd h (framed_append_ne_nil b _)
      | cons b' l' =>
          obtain ⟨rfl, hl⟩ := framed_append_inj h
          rw [ih hl]

lemma fixed_append_inj {x y : Uint128} {r r' : Bytes}
    (h : x.toFixedSizeByteSlice ++ r = y.toFixedSizeByteSlice ++ r') : x = y ∧ r = r' := by
  obtain ⟨hxy, hr⟩ := List.append_inj h (by
    simp only [Uint128.toFixedSizeByteSlice, Uint128.length_bigEndian])
  exact ⟨Uint128.ext (bigEndian_inj (x.lt.trans_eq (by norm_num)) (y.lt.trans_eq (by norm_num)) hxy),
    hr⟩

lemma uint64_append_inj {x y : UInt64} {r r' : Bytes}
    (h : Uint128.bigEndian 8 x.toNat ++ r = Uint128.bigEndian 8 y.toNat ++ r') :
    x = y ∧ r = r' := by
  obtain ⟨hxy, hr⟩ := List.append_inj h (by simp only [Uint128.length_bigEndian])
  exact ⟨UInt64.toNat_inj.1 (bigEndian_inj (x.toNat_lt.trans_eq (by norm_num))
    (y.toNat_lt.trans_eq (by norm_num)) hxy), hr⟩

/-- The content of a hash target of a block as bytes. -/
def blockDigest (t : BlockHashTarget) : Bytes :=
  framed t.parentHash ++ (t.coinbase.toList ++ (framed t.accStateRoot ++ (framed t.txStateRoot ++
    (framed t.dposRoot ++ (framed (intCode t.timestamp) ++
      (Uint128.bigEndian 4 t.chainID.toNat ++ (t.reward.toFixedSizeByteSlice ++
        (t.supply.toFixedSizeByteSlice ++ (t.cpuPrice.toFixedSizeByteSlice ++
          (Uint128.bigEndian 8 t.cpuUsage.toNat ++ (t.netPrice.toFixedSizeByteSlice ++
            (Uint128.bigEndian 8 t.netUsage.toNat ++ listCode t.txHash))))))))))))

lemma blockDigest_injective : Function.Injective blockDigest := by
  intro t t' h
  obtain ⟨hparent, h⟩ := framed_append_inj h
  obtain ⟨hcoinbase, h⟩ := List.append_inj h (by simp)
  obtain ⟨hacc, h⟩ := framed_append_inj h
  obtain ⟨htx, h⟩ := framed_append_inj h
  obtain ⟨hdpos, h⟩ := framed_append_inj h
  obtain ⟨htimestamp, h⟩ := framed_append_inj h
  obtain ⟨hchain, h⟩ := List.append_inj h (by simp only [Uint128.length_bigEndian])
  obtain ⟨hreward, h⟩ := fixed_append_inj h
  obtain ⟨hsupply, h⟩ := fixed_append_inj h
  obtain ⟨hcpuPrice, h⟩ := fixed_append_inj h
  obtain ⟨hcpuUsage, h⟩ := uint64_append_inj h
  obtain ⟨hnetPrice, h⟩ := fixed_append_inj h
  obtain ⟨hnetUsage, h⟩ := uint64_append_inj h
  have hchain' := bigEndian_inj (t.chainID.toNat_lt.trans_eq (by norm_num))
    (t'.chainID.toNat_lt.trans_eq (by norm_num)) hchain
  rw [BlockHashTarget.mk.injEq]
  exact ⟨hparent, Subtype.ext hcoinbase, hacc, htx, hdpos, intCode_injective htimestamp,
    UInt32.toNat_inj.1 hchain', hreward, hsupply, hcpuPrice, hcpuUsage, hnetPrice, hnetUsage,
    listCode_injective h⟩

/-- The plain environment of blocks: the hash of a block is the hashed content itself, and all roots
are empty. -/
def blockEnv : BlockEnv where
  toEnv := .plain
  blockHash := blockDigest
  blockHash_injective := blockDigest_injective
  accountsRoot _ := []
  txsRoot _ := []
  dposRoot _ := []

/-- A consensus that keeps its dynasty and accepts every proposer. -/
def consensus : Consensus := ⟨fun _ _ => .error .sameDynasty, fun _ => .ok ()⟩

/-- A block with an account that holds something, without supply and prices. -/
def parentBlock : Block where
  hash := [1]
  parentHash := []
  accStateRoot := []
  txStateRoot := []
  dposRoot := []
  coinbase := genesisCoinbase
  reward := .zero
  supply := .zero
  timestamp := 0
  chainID := 0
  sign := []
  cpuPrice := .zero
  cpuUsage := 0
  netPrice := .zero
  netUsage := 0
  transactions := []
  height := genesisHeight
  state := BlockState.genesis.putAccount { newAccount (address 1) with balance := .ofUint 1000 }

/-- The data of a child of that block with the given transactions and usages, and its hash. -/
def childData (txs : List Transaction) (cpuUsage netUsage : UInt64) : BlockData :=
  let bd : BlockData := { parentBlock.toBlockData with
    parentHash := [1]
    coinbase := address 3
    timestamp := 3
    cpuUsage := cpuUsage
    netUsage := netUsage
    transactions := txs
    height := 2 }
  { bd with hash := bd.calcHash blockEnv }

/-- A transfer with the receipt that it gets in a child of that block. -/
def paidTransfer : Transaction :=
  (signed ⟨.transfer, address 1, address 2, .ofUint 1, 1, 0, []⟩).setReceipt
    (makeReceipt 2 3 ⟨1000, 300⟩ .zero none)

end Plain

end GoMedibloc
