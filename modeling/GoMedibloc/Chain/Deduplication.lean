import GoMedibloc.Block.Replay
import GoMedibloc.Chain.ChainManager
import GoMedibloc.Chain.LibBounds
import GoMedibloc.Wire.Records

/-!
# Blocks with one hash

The block pool keeps one block for each hash.  A block that arrives while another of its hash is in
the pool is discarded as a duplicate, which is right only if the two are accepted together.

The hash covers the header but for the signature, and the hashes of the transactions; these cover
what a transaction does and who has sent it.  Not covered are the height of the block, its
signature, and of each transaction the signature, the payer's signature and the receipt.  None of
these is checked before the block is put into the pool, but for the sender being recovered from the
signature.  Later they are: the height against that of the parent, the signer against the proposer,
and the rest through the root of the recorded transactions.

So two blocks of one hash are accepted together if they agree in these fields, up to signatures of
one signer, and if one is accepted, the other is so only if they agree
(`accepted_together_if_agree`).  Anyone can change one of the fields and get ahead of the real block.
-/

namespace GoMedibloc

open Except

instance : HashableBlock BlockData where
  hash b := b.hash
  parentHash b := b.parentHash
  height b := b.height
  timestamp b := b.timestamp

instance : HashableBlock Block where
  hash b := b.hash
  parentHash b := b.parentHash
  height b := b.height
  timestamp b := b.timestamp

/-! ## The block manager -/

/-- The errors of the block manager. -/
inductive TaskErr
  | invalidBlockChainID
  | failedValidateHeightAndHeight
  | alreadyOnTheChain
  | cannotFindParentBlockOnTheChain
  | forkedBeforeLIB
  | invalidBlockHeight
  | invalidTimestamp
  | blockNotExist
  | fault (f : Fault)

/-- The chain and the consensus that the block manager works with. -/
structure BlockManager where
  chainID : UInt32
  bc : BlockChain Block
  dpos : Dpos
  sortByVotePower : DposState → Except Err (List Address)
  lib_height : genesisHeight ≤ bc.lib.height

namespace BlockManager

/-- `verifyBlockData`. -/
def verifyBlockData (env : BlockEnv) (bm : BlockManager) (bd : BlockData) :
    Except TaskErr BlockData := do
  failIf (bm.chainID ≠ bd.chainID) .invalidBlockChainID
  (verifyHeightAndTimestamp bm.bc.lib.toBlockData bd).mapError fun _ =>
    .failedValidateHeightAndHeight
  (bd.verifyIntegrity env).mapError .fault

/-- `processTask`: the chain with the new block. -/
def processTask (env : BlockEnv) (bm : BlockManager) (newData : BlockData) :
    Except TaskErr (BlockChain Block) := do
  failIf ((bm.bc.blockByHash newData.hash).isSome = true) .alreadyOnTheChain
  let parent ← ofOption .cannotFindParentBlockOnTheChain (bm.bc.blockByHash newData.parentHash)
  failIf (bm.bc.isForkedBeforeLIB parent = true) .forkedBeforeLIB
  failIf (parent.height + 1 ≠ newData.height) .invalidBlockHeight
  failIf (newData.timestamp ≤ parent.timestamp) .invalidTimestamp
  (Dpos.verifyInterval newData.timestamp parent.timestamp).mapError fun e => .fault (.err e)
  let child ← (parent.createChildWithBlockData env
    (bm.dpos.asConsensus env.toEnv bm.sortByVotePower) newData).mapError .fault
  failIf (bm.bc.blockByHash parent.hash = none) .blockNotExist
  return bm.bc.putVerifiedNewBlock parent child

end BlockManager

variable {env : BlockEnv} {bm : BlockManager} {bd bd₁ bd₂ : BlockData} {msg msg₁ msg₂ : PbBlock}

/-- A block is accepted by `processTask`. -/
def BlockManager.Accepts (env : BlockEnv) (bm : BlockManager) (bd : BlockData) : Prop :=
  ∃ bc, bm.processTask env bd = .ok bc

/-- What a block that is accepted on a parent has passed. -/
structure PassedOn (env : BlockEnv) (bm : BlockManager) (parent : Block) (bd : BlockData) :
    Prop where
  new : bm.bc.blockByHash bd.hash = none
  parent_found : bm.bc.blockByHash bd.parentHash = some parent
  above : bm.bc.isForkedBeforeLIB parent = false
  height : parent.height + 1 = bd.height
  later : parent.timestamp < bd.timestamp
  interval : Dpos.verifyInterval bd.timestamp parent.timestamp = .ok ()
  replayed : ∃ s, replay env (bm.dpos.asConsensus env.toEnv bm.sortByVotePower) parent bd = .ok s
  parent_stored : bm.bc.blockByHash parent.hash ≠ none

lemma BlockManager.accepts_iff : bm.Accepts env bd ↔ ∃ parent, PassedOn env bm parent bd := by
  unfold Accepts processTask
  constructor
  · rintro ⟨bc, h⟩
    obtain ⟨_, hnew, h⟩ := bind_eq_ok_iff.1 h
    obtain ⟨parent, hparent, h⟩ := bind_eq_ok_iff.1 h
    obtain ⟨_, hforked, h⟩ := bind_eq_ok_iff.1 h
    obtain ⟨_, hheight, h⟩ := bind_eq_ok_iff.1 h
    obtain ⟨_, hlater, h⟩ := bind_eq_ok_iff.1 h
    obtain ⟨_, hinterval, h⟩ := bind_eq_ok_iff.1 h
    obtain ⟨child, hchild, h⟩ := bind_eq_ok_iff.1 h
    obtain ⟨_, hstored, h⟩ := bind_eq_ok_iff.1 h
    rw [failIf_eq_ok] at hnew hforked hheight hlater hstored
    rw [ofOption_eq_ok] at hparent
    rw [mapError_eq_ok] at hinterval hchild
    obtain ⟨s, hs, -⟩ := Block.createChildWithBlockData_eq_ok_iff.1 hchild
    refine ⟨parent, by simpa using hnew, hparent, by simpa using hforked, not_not.1 hheight,
      not_le.1 hlater, hinterval, ⟨s, hs⟩, hstored⟩
  · rintro ⟨parent, hnew, hparent, hforked, hheight, hlater, hinterval, ⟨s, hs⟩, hstored⟩
    refine ⟨bm.bc.putVerifiedNewBlock parent ⟨bd, s⟩, ?_⟩
    rw [bind_of_ok (failIf_of_not (by simp [hnew])), bind_of_ok (ofOption_eq_ok.2 hparent),
      bind_of_ok (failIf_of_not (by simp [hforked])),
      bind_of_ok (failIf_of_not (not_not.2 hheight)), bind_of_ok (failIf_of_not hlater.not_ge),
      bind_of_ok (mapError_eq_ok.2 hinterval),
      bind_of_ok (mapError_eq_ok.2 (Block.createChildWithBlockData_eq_ok_iff.2 ⟨s, hs, rfl⟩)),
      bind_of_ok (failIf_of_not hstored)]
    rfl

/-! ## Blocks from the network -/

/-- A block is decoded from a message and passes `verifyBlockData`. -/
structure Received (env : BlockEnv) (bm : BlockManager) (msg : PbBlock) (bd : BlockData) :
    Prop where
  decoded : BlockData.fromProto env.toEnv msg = .ok bd
  verified : ∃ bd', bm.verifyBlockData env bd = .ok bd'

/-- A decoded transaction has the sender that is recovered. -/
lemma recoverFrom_of_decoded (h : BlockData.fromProto env.toEnv msg = .ok bd) {tx : Transaction}
    (htx : tx ∈ bd.transactions) : tx.recoverFrom env.toEnv = .ok tx.fromAddr := by
  obtain ⟨header, -, h⟩ := bind_eq_ok_iff.1 h
  obtain ⟨txs, htxs, h⟩ := bind_eq_ok_iff.1 h
  cases h
  obtain ⟨pb, -, hpb⟩ := exists_of_mem_forall₂ (forall₂_of_mapM (orFault_eq_ok.1 htxs)) htx
  obtain ⟨value, receipt, -, -, hpb⟩ := Transaction.fromProto_eq_ok_iff.1 hpb
  obtain ⟨a, p, hfrom, -, rfl⟩ := Transaction.recover_eq_ok_iff.1 hpb
  rw [← hfrom]
  exact Transaction.recoverFrom_congr env.toEnv _ _ _ _

lemma eq_of_forall₂ {α : Type} {R : α → α → Prop} {l l' : List α} (h : List.Forall₂ R l l')
    (hsame : ∀ a ∈ l, ∀ b, R a b → b = a) : l' = l := by
  induction h with
  | nil => rfl
  | cons ha _ ih =>
      rw [hsame _ List.mem_cons_self _ ha, ih fun a hmem => hsame a (List.mem_cons_of_mem _ hmem)]

/-- A block from the network is above the genesis block. -/
lemma Received.height_ne (h : Received env bm msg bd) : bd.height ≠ genesisHeight := by
  obtain ⟨bd', hverified⟩ := h.verified
  obtain ⟨_, -, hverified⟩ := bind_eq_ok_iff.1 hverified
  obtain ⟨_, hlib, -⟩ := bind_eq_ok_iff.1 hverified
  rw [mapError_eq_ok] at hlib
  have hlt : bm.bc.lib.height < bd.height := by
    unfold verifyHeightAndTimestamp at hlib
    split_ifs at hlib with hlow
    exact not_le.1 fun hle => hlow (.inl hle)
  exact (bm.lib_height.trans_lt hlt).ne'

/-- `VerifyIntegrity` recovers the senders a second time and leaves a block from the network as it
is. -/
lemma Received.verifyIntegrity (h : Received env bm msg bd) :
    BlockData.Verified env bd bd := by
  obtain ⟨bd', hverified⟩ := h.verified
  obtain ⟨_, -, hverified⟩ := bind_eq_ok_iff.1 hverified
  obtain ⟨_, -, hverified⟩ := bind_eq_ok_iff.1 hverified
  have hspec := BlockData.verifyIntegrity_spec h.height_ne (mapError_eq_ok.1 hverified)
  have htxs : bd'.transactions = bd.transactions := by
    refine eq_of_forall₂ hspec.txs fun tx htx tx' htx' => ?_
    obtain ⟨-, hfrom, hsame, -⟩ := Transaction.verifyIntegrity_spec htx'
    have haddr : tx'.fromAddr = tx.fromAddr :=
      Except.ok.inj (hfrom.symm.trans (recoverFrom_of_decoded h.decoded htx))
    rw [hsame, haddr]
  have hbd : bd' = bd := by rw [hspec.same, htxs]
  rwa [hbd] at hspec

/-! ## Two blocks with one hash -/

/-- Two blocks of one hash agree in what the hash does not cover, their signatures up to the
signer. -/
structure Agree (env : Env) (bd₁ bd₂ : BlockData) : Prop where
  height : bd₂.height = bd₁.height
  transactions : bd₂.transactions = bd₁.transactions
  signer : bd₂.proposer env = bd₁.proposer env

section Pairs

variable (h₁ : Received env bm msg₁ bd₁) (h₂ : Received env bm msg₂ bd₂)
  (hhash : bd₂.hash = bd₁.hash)

include h₁ h₂ hhash

/-- What one hash says about two blocks. -/
lemma hashTarget_eq : bd₂.hashTarget = bd₁.hashTarget := by
  apply env.blockHash_injective
  exact (h₂.verifyIntegrity.hash.trans hhash).trans h₁.verifyIntegrity.hash.symm

/-- The headers are the same but for the signature, and the transactions have the same hashes. -/
lemma same_of_hash : bd₂.toBlockHeader = { bd₁.toBlockHeader with sign := bd₂.sign } ∧
    bd₂.transactions.map Transaction.hash = bd₁.transactions.map Transaction.hash := by
  have htarget := hashTarget_eq h₁ h₂ hhash
  simp only [BlockData.hashTarget, BlockHashTarget.mk.injEq] at htarget
  obtain ⟨hparent, hcoinbase, hacc, htx, hdpos, hts, hchain, hreward, hsupply, hcpuPrice, hcpuUsage,
    hnetPrice, hnetUsage, htxs⟩ := htarget
  refine ⟨?_, ?_⟩
  · dsimp only
    rw [← hparent, ← hcoinbase, ← hacc, ← htx, ← hdpos, ← hts, ← hchain, ← hreward, ← hsupply,
      ← hcpuPrice, ← hcpuUsage, ← hnetPrice, ← hnetUsage, ← hhash]
  · -- the list of the target is the hashes behind as many empty strings
    have hlen := congrArg List.length htxs
    simp only [List.length_append, List.length_map] at hlen
    exact (List.append_inj htxs (by simp only [List.length_map]; omega)).2

/-- Blocks that agree differ in their signatures only. -/
lemma Agree.same (hagree : Agree env.toEnv bd₁ bd₂) : bd₂ = { bd₁ with sign := bd₂.sign } := by
  obtain ⟨hheader, -⟩ := same_of_hash h₁ h₂ hhash
  obtain ⟨header₁, txs₁, height₁⟩ := bd₁
  obtain ⟨header₂, txs₂, height₂⟩ := bd₂
  obtain rfl : txs₂ = txs₁ := hagree.transactions
  obtain rfl : height₂ = height₁ := hagree.height
  exact congrArg (fun header => BlockData.mk header txs₂ height₂) hheader

/-- Blocks that agree are accepted together, on the same parent. -/
lemma Agree.passedOn (hagree : Agree env.toEnv bd₁ bd₂) {parent : Block}
    (hpassed : PassedOn env bm parent bd₁) : PassedOn env bm parent bd₂ := by
  have hsame := hagree.same h₁ h₂ hhash
  obtain ⟨s, hs⟩ := hpassed.replayed
  rw [← replay_congr_sign hsame hagree.signer] at hs
  obtain ⟨hheader, -⟩ := same_of_hash h₁ h₂ hhash
  have hparent : bd₂.parentHash = bd₁.parentHash := by rw [hheader]
  have hts : bd₂.timestamp = bd₁.timestamp := by rw [hheader]
  refine ⟨?_, ?_, hpassed.above, ?_, ?_, ?_, ⟨s, hs⟩, hpassed.parent_stored⟩
  · rw [hhash]
    exact hpassed.new
  · rw [hparent]
    exact hpassed.parent_found
  · rw [hagree.height]
    exact hpassed.height
  · rw [hts]
    exact hpassed.later
  · rw [hts]
    exact hpassed.interval

end Pairs

/-! ## Both accepted -/

/-- The signer of a block that passes `VerifyProposer`. -/
lemma proposer_of_verified {d : Dpos} {sortByVotePower : DposState → Except Err (List Address)}
    {s : BlockState}
    (h : (d.asConsensus env.toEnv sortByVotePower).verifyProposer ⟨bd, s⟩ = .ok ()) :
    bd.proposer env.toEnv = d.readProposer { s with timestamp := bd.timestamp } := by
  obtain ⟨signer, hsigner, h⟩ := bind_eq_ok_iff.1 h
  obtain ⟨proposer, hproposer, h⟩ := bind_eq_ok_iff.1 h
  rw [failIf_eq_ok, not_not] at h
  exact hsigner.trans ((congrArg Except.ok h).trans hproposer.symm)

/-- The records of two runs with one root are the same. -/
lemma transactions_eq_of_records {txs₁ txs₂ : List Transaction}
    (records : Finmap fun _ : Bytes => Transaction)
    (hhashes : txs₂.map Transaction.hash = txs₁.map Transaction.hash)
    (hrec₁ : ∀ tx ∈ txs₁, records.lookup tx.hash = some tx)
    (hrec₂ : ∀ tx ∈ txs₂, records.lookup tx.hash = some tx) : txs₂ = txs₁ := by
  induction txs₂ generalizing txs₁ with
  | nil => exact (List.map_eq_nil_iff.1 hhashes.symm).symm
  | cons tx₂ txs₂ ih =>
      cases txs₁ with
      | nil => cases hhashes
      | cons tx₁ txs₁ =>
          rw [List.map_cons, List.map_cons, List.cons_eq_cons] at hhashes
          have htx : tx₂ = tx₁ := by
            have hlookup := hrec₂ tx₂ List.mem_cons_self
            rw [hhashes.1, hrec₁ tx₁ List.mem_cons_self] at hlookup
            exact (Option.some.inj hlookup).symm
          rw [htx, ih hhashes.2 (fun tx h => hrec₁ tx (List.mem_cons_of_mem _ h))
            fun tx h => hrec₂ tx (List.mem_cons_of_mem _ h)]

/-- Two blocks of one hash that are both accepted agree, if the hashes of their transactions are
different. -/
lemma agree_of_passedOn (hroot : Function.Injective env.txsRoot)
    (h₁ : Received env bm msg₁ bd₁) (h₂ : Received env bm msg₂ bd₂) (hhash : bd₂.hash = bd₁.hash)
    (hnodup : (bd₁.transactions.map Transaction.hash).Nodup) {parent₁ parent₂ : Block}
    (hpassed₁ : PassedOn env bm parent₁ bd₁) (hpassed₂ : PassedOn env bm parent₂ bd₂) :
    Agree env.toEnv bd₁ bd₂ := by
  obtain ⟨hheader, hhashes⟩ := same_of_hash h₁ h₂ hhash
  have hts : bd₂.timestamp = bd₁.timestamp := by rw [hheader]
  have hparent : parent₂ = parent₁ := by
    have hfound := hpassed₂.parent_found
    rw [hheader, hpassed₁.parent_found] at hfound
    exact (Option.some.inj hfound).symm
  subst hparent
  obtain ⟨s, hs⟩ := hpassed₁.replayed
  obtain ⟨s', hs'⟩ := hpassed₂.replayed
  obtain ⟨price, s₁, s₂, hprice, hdynasty, hproposer, hexec, hpay, hmatch⟩ := replay_spec hs
  obtain ⟨price', s₁', s₂', hprice', hdynasty', hproposer', hexec', hpay', hmatch'⟩ := replay_spec hs'
  refine ⟨hpassed₂.height.symm.trans hpassed₁.height, ?_, ?_⟩
  · have hrecords : s'.txState = s.txState := by
      apply hroot
      have hroots : bd₂.txStateRoot = bd₁.txStateRoot := by rw [hheader]
      exact (hmatch'.txStateRoot.trans hroots).trans hmatch.txStateRoot.symm
    refine transactions_eq_of_records s.txState hhashes ?_ ?_
    · rw [payReward_frame hpay]
      exact (foldlM_executeOn_lookup hnodup hexec).2
    · rw [← hrecords, payReward_frame hpay']
      exact (foldlM_executeOn_lookup (hhashes ▸ hnodup) hexec').2
  · -- both runs begin with the same state, which names the proposer
    obtain rfl : price' = price := Except.ok.inj (hprice'.symm.trans hprice)
    rw [hts] at hdynasty'
    obtain rfl : s₁' = s₁ := Except.ok.inj (hdynasty'.symm.trans hdynasty)
    rw [proposer_of_verified hproposer', proposer_of_verified hproposer, hts]

/-- **Blocks of one hash are accepted together if they agree.**  For two blocks from the network of
one hash that pass `verifyBlockData`: if they agree in height, transactions and signer, one is
accepted if and only if the other is.  If the root of the records is one-to-one and the transactions
have different hashes, this is so only if they agree or neither is accepted. -/
theorem accepted_together_if_agree (env : BlockEnv) (bm : BlockManager) {msg₁ msg₂ : PbBlock}
    {bd₁ bd₂ : BlockData} (h₁ : Received env bm msg₁ bd₁) (h₂ : Received env bm msg₂ bd₂)
    (hhash : bd₁.hash = bd₂.hash) :
    (Agree env.toEnv bd₁ bd₂ → (bm.Accepts env bd₁ ↔ bm.Accepts env bd₂)) ∧
    (Function.Injective env.txsRoot → (bd₁.transactions.map Transaction.hash).Nodup →
      ((bm.Accepts env bd₁ ↔ bm.Accepts env bd₂) ↔
        Agree env.toEnv bd₁ bd₂ ∨ ¬ bm.Accepts env bd₁ ∧ ¬ bm.Accepts env bd₂)) := by
  have hforward : Agree env.toEnv bd₁ bd₂ → (bm.Accepts env bd₁ ↔ bm.Accepts env bd₂) := by
    intro hagree
    have hback : Agree env.toEnv bd₂ bd₁ :=
      ⟨hagree.height.symm, hagree.transactions.symm, hagree.signer.symm⟩
    rw [BlockManager.accepts_iff, BlockManager.accepts_iff]
    exact ⟨fun ⟨parent, h⟩ => ⟨parent, hagree.passedOn h₁ h₂ hhash.symm h⟩,
      fun ⟨parent, h⟩ => ⟨parent, hback.passedOn h₂ h₁ hhash h⟩⟩
  refine ⟨hforward, fun hroot hnodup => ⟨fun hiff => ?_, ?_⟩⟩
  · by_cases haccepts : bm.Accepts env bd₁
    · obtain ⟨parent₁, hpassed₁⟩ := BlockManager.accepts_iff.1 haccepts
      obtain ⟨parent₂, hpassed₂⟩ := BlockManager.accepts_iff.1 (hiff.1 haccepts)
      exact .inl (agree_of_passedOn hroot h₁ h₂ hhash.symm hnodup hpassed₁ hpassed₂)
    · exact .inr ⟨haccepts, fun h => haccepts (hiff.2 h)⟩
  · rintro (hagree | ⟨hnot₁, hnot₂⟩)
    · exact hforward hagree
    · exact iff_of_false hnot₁ hnot₂

namespace Plain

/-- A manager whose chain is one block, with three proposers. -/
def blockManager : BlockManager where
  chainID := 0
  bc := {
    blocks := fun h => if h = [1] then some parentBlock else none
    heightIndex := fun n => if n = 1 then some [1] else none
    mainTailBlock := parentBlock
    lib := parentBlock
    tailBlocks := Lru.new 8 }
  dpos := ⟨3, Dpos.three_pos⟩
  sortByVotePower := fun _ => .ok [address 1, address 2, address 3]
  lib_height := le_rfl

/-- The block of the second slot after that block, which says to have the given height. -/
def slotBlock (height : ℕ) (sign : Bytes) : BlockData :=
  let bd : BlockData := { childData [] 0 0 with
    timestamp := 6
    sign := sign
    height := height }
  { bd with hash := bd.calcHash blockEnv }

lemma received_slotBlock {env : BlockEnv} {height : ℕ} {sign : Bytes}
    (h : (blockManager.verifyBlockData env (slotBlock height sign)).isOk = true) :
    Received env blockManager (slotBlock height sign).toProto (slotBlock height sign) :=
  ⟨BlockData.fromProto_toProto fun _ htx => absurd htx List.not_mem_nil, isOk_iff.1 h⟩

/-- The plain environment with signatures that may go on behind the address. -/
def lenientEnv : BlockEnv :=
  { blockEnv with
    recoverPublic := fun msg sign =>
      if h : msg ≠ [] ∧ 33 ≤ sign.length then
        some ⟨sign.take 33, List.length_take_of_le h.2⟩
      else none
    recoverPublic_nil := fun _ => rfl }

end Plain

/-- A block that is accepted with each of two signatures of its proposer. -/
theorem both_signatures_accepted :
    Plain.blockManager.Accepts Plain.lenientEnv
      (Plain.slotBlock 2 ((Plain.address 3).toList ++ [0])) := by
  have h₁ := Plain.received_slotBlock (show (Plain.blockManager.verifyBlockData Plain.lenientEnv
    (Plain.slotBlock 2 (Plain.address 3).toList)).isOk = true by decide +kernel)
  have h₂ := Plain.received_slotBlock (show (Plain.blockManager.verifyBlockData Plain.lenientEnv
    (Plain.slotBlock 2 ((Plain.address 3).toList ++ [0]))).isOk = true by decide +kernel)
  have haccepts : Plain.blockManager.Accepts Plain.lenientEnv
      (Plain.slotBlock 2 (Plain.address 3).toList) := isOk_iff.1 (by decide +kernel)
  exact ((accepted_together_if_agree Plain.lenientEnv Plain.blockManager h₁ h₂ rfl).1
    ⟨rfl, rfl, by decide +kernel⟩).1 haccepts

/-- A block and a copy of it that says to be one higher.  Both have the same hash and pass
`verifyBlockData`; the block is accepted and the copy is not. -/
theorem copy_with_other_height_refused :
    let bd := Plain.slotBlock 2 (Plain.address 3).toList
    let copy := Plain.slotBlock 3 (Plain.address 3).toList
    Received Plain.blockEnv Plain.blockManager bd.toProto bd ∧
      Received Plain.blockEnv Plain.blockManager copy.toProto copy ∧ copy.hash = bd.hash ∧
      Plain.blockManager.Accepts Plain.blockEnv bd ∧
      ¬ Plain.blockManager.Accepts Plain.blockEnv copy := by
  intro bd copy
  refine ⟨Plain.received_slotBlock (by decide +kernel), Plain.received_slotBlock (by decide +kernel),
    rfl, isOk_iff.1 (by decide +kernel), fun h => ?_⟩
  have hnot : (Plain.blockManager.processTask Plain.blockEnv copy).isOk = false := by decide +kernel
  rw [isOk_iff.2 h] at hnot
  cases hnot

end GoMedibloc
