import GoMedibloc.Block.Data
import GoMedibloc.Trie.Batch
import GoMedibloc.Wire.Transactions

/-!
# Blocks, accounts and candidates as records

Blocks are sent as `corepb.Block`; accounts and candidates are stored in the tries of the state as
`corepb.Account` and `dpospb.Candidate`.  The encodings rename some fields, write amounts with
sixteen bytes, and leave out what decoding finds again: sender and payer of a transaction come from
the signatures, the two tries of an account from their roots and the storage.

The encoding of messages as bytes is protobuf's; `Codec` has what is assumed of it.  Decoding the
encoding gives the same value back, and encoding that gives the same bytes
(`encoding_round_trip`).  For the tries of an account this needs that the nodes below their roots
are in the storage, which is so for a trie that is written directly and not in a batch.
-/

namespace GoMedibloc

open Except Trie

/-! ## Bytes of messages -/

/-- `proto.Marshal` and `proto.Unmarshal` of a kind of message. -/
structure Codec (M : Type) where
  marshal : M → Bytes
  unmarshal : Bytes → Option M
  unmarshal_marshal : ∀ m, unmarshal (marshal m) = some m

/-- There is a codec for messages of which there are countably many. -/
noncomputable def Codec.ofCountable (M : Type) [Countable M] : Codec M := by
  classical
  -- a message is written as that many zeros as its number
  have hinj : ∃ f : M → Bytes, Function.Injective f := by
    obtain ⟨f, hf⟩ := exists_injective_nat M
    refine ⟨fun m => List.replicate (f m) 0, fun m m' h => hf ?_⟩
    simpa using congrArg List.length h
  exact ⟨hinj.choose, fun b => if h : ∃ m, hinj.choose m = b then some h.choose else none,
    fun m => by
      have h : ∃ m', hinj.choose m' = hinj.choose m := ⟨m, rfl⟩
      rw [dif_pos h]
      exact congrArg some (hinj.choose_spec h.choose_spec)⟩

/-- Why bytes are not decoded. -/
inductive DecodeErr
  | unmarshal
  | fault (f : Fault)
  | trie (e : TrieErr)

/-- Read a message. -/
def Codec.read {M : Type} (codec : Codec M) (b : Bytes) : Except DecodeErr M :=
  ofOption .unmarshal (codec.unmarshal b)

lemma Codec.read_marshal {M : Type} (codec : Codec M) (m : M) :
    codec.read (codec.marshal m) = .ok m :=
  ofOption_eq_ok.2 (codec.unmarshal_marshal m)

/-! ## Blocks -/

/-- `corepb.BlockHeader`. -/
structure PbBlockHeader where
  hash : Bytes
  parentHash : Bytes
  coinbase : Bytes
  reward : Bytes
  supply : Bytes
  timestamp : ℤ
  chainId : UInt32
  sign : Bytes
  accStateRoot : Bytes
  txStateRoot : Bytes
  dposRoot : Bytes
  cpuPrice : Bytes
  cpuUsage : UInt64
  netPrice : Bytes
  netUsage : UInt64

/-- `corepb.Block`. -/
structure PbBlock where
  header : Option PbBlockHeader
  transactions : List PbTransaction
  height : ℕ

namespace BlockHeader

/-- `BlockHeader.toProto`. -/
def toProto (b : BlockHeader) : PbBlockHeader where
  hash := b.hash
  parentHash := b.parentHash
  coinbase := b.coinbase.toList
  reward := b.reward.toFixedSizeByteSlice
  supply := b.supply.toFixedSizeByteSlice
  timestamp := b.timestamp
  chainId := b.chainID
  sign := b.sign
  accStateRoot := b.accStateRoot
  txStateRoot := b.txStateRoot
  dposRoot := b.dposRoot
  cpuPrice := b.cpuPrice.toFixedSizeByteSlice
  cpuUsage := b.cpuUsage
  netPrice := b.netPrice.toFixedSizeByteSlice
  netUsage := b.netUsage

/-- `BlockHeader.fromProto` of a header. -/
def fromProto (msg : PbBlockHeader) : Except Err BlockHeader := do
  let coinbase ← Address.fromBytes msg.coinbase
  let reward ← Uint128.fromFixedSizeByteSlice msg.reward
  let supply ← Uint128.fromFixedSizeByteSlice msg.supply
  let cpuPrice ← Uint128.fromFixedSizeByteSlice msg.cpuPrice
  let netPrice ← Uint128.fromFixedSizeByteSlice msg.netPrice
  return {
    hash := msg.hash
    parentHash := msg.parentHash
    accStateRoot := msg.accStateRoot
    txStateRoot := msg.txStateRoot
    dposRoot := msg.dposRoot
    coinbase := coinbase
    reward := reward
    supply := supply
    timestamp := msg.timestamp
    chainID := msg.chainId
    sign := msg.sign
    cpuPrice := cpuPrice
    cpuUsage := msg.cpuUsage
    netPrice := netPrice
    netUsage := msg.netUsage }

/-- `BlockHeader.fromProto` of the header of a block.  If there is none the pointer has the right
type and is nil, and its fields are read. -/
def fromPointer : Option PbBlockHeader → Except Fault BlockHeader
  | none => .error .nilPointer
  | some msg => orFault (fromProto msg)

lemma fromProto_toProto (b : BlockHeader) : fromProto b.toProto = .ok b := by
  simp only [fromProto, toProto, Address.fromBytes, Address.setBytes_toList,
    Uint128.fromFixedSizeByteSlice_toFixedSizeByteSlice]
  rfl

end BlockHeader

namespace BlockData

/-- `BlockData.ToProto`. -/
def toProto (bd : BlockData) : PbBlock where
  header := some bd.toBlockHeader.toProto
  transactions := bd.transactions.map Transaction.toProto
  height := bd.height

/-- `BlockData.FromProto`. -/
def fromProto (env : Env) (msg : PbBlock) : Except Fault BlockData := do
  let header ← BlockHeader.fromPointer msg.header
  let transactions ← orFault (msg.transactions.mapM (Transaction.fromProto env))
  return ⟨header, transactions, msg.height⟩

/-- `BlockData.ToBytes`. -/
def toBytes (codec : Codec PbBlock) (bd : BlockData) : Bytes := codec.marshal bd.toProto

/-- `BlockData.FromBytes`. -/
def fromBytes (env : Env) (codec : Codec PbBlock) (b : Bytes) : Except DecodeErr BlockData := do
  let pb ← codec.read b
  (fromProto env pb).mapError .fault

variable {env : Env} {bd : BlockData}

/-- Sender and payer of every transaction are those of its signatures. -/
def SignersRight (env : Env) (bd : BlockData) : Prop :=
  ∀ tx ∈ bd.transactions, tx.recover env = .ok tx

lemma mapM_fromProto_toProto {txs : List Transaction} (h : ∀ tx ∈ txs, tx.recover env = .ok tx) :
    (txs.map Transaction.toProto).mapM (Transaction.fromProto env) = .ok txs := by
  induction txs with
  | nil => rfl
  | cons tx txs ih =>
      rw [List.map_cons, List.mapM_cons,
        bind_of_ok (Transaction.fromProto_toProto (h tx List.mem_cons_self)),
        bind_of_ok (ih fun tx' htx => h tx' (List.mem_cons_of_mem _ htx))]
      rfl

/-- **Round trip of a block.** -/
lemma fromProto_toProto (h : bd.SignersRight env) : fromProto env bd.toProto = .ok bd := by
  have hheader : BlockHeader.fromPointer bd.toProto.header = .ok bd.toBlockHeader :=
    orFault_eq_ok.2 (BlockHeader.fromProto_toProto bd.toBlockHeader)
  have htxs : orFault (bd.toProto.transactions.mapM (Transaction.fromProto env)) =
      .ok bd.transactions := orFault_eq_ok.2 (mapM_fromProto_toProto h)
  rw [fromProto, bind_of_ok hheader, bind_of_ok htxs]
  rfl

lemma fromBytes_toBytes (codec : Codec PbBlock) (h : bd.SignersRight env) :
    fromBytes env codec (bd.toBytes codec) = .ok bd := by
  rw [fromBytes, toBytes, bind_of_ok (codec.read_marshal bd.toProto), fromProto_toProto h]
  rfl

end BlockData

/-! ## Candidates -/

/-- `dpospb.Candidate`. -/
structure PbCandidate where
  id : Bytes
  txHash : Bytes
  addr : Bytes
  collateral : Bytes
  votePower : Bytes
  url : Bytes
  timestamp : ℤ

namespace Candidate

/-- `Candidate.toProto`; the id is written twice. -/
def toProto (c : Candidate) : PbCandidate where
  id := c.id
  txHash := c.id
  addr := c.addr.toList
  collateral := c.collateral.toFixedSizeByteSlice
  votePower := c.votePower.toFixedSizeByteSlice
  url := c.url
  timestamp := c.timestamp

/-- `Candidate.fromProto`. -/
def fromProto (pb : PbCandidate) : Except Err Candidate := do
  let addr ← Address.fromBytes pb.addr
  let collateral ← Uint128.fromFixedSizeByteSlice pb.collateral
  let votePower ← Uint128.fromFixedSizeByteSlice pb.votePower
  return ⟨pb.id, addr, collateral, votePower, pb.url, pb.timestamp⟩

/-- `Candidate.ToBytes`. -/
def toBytes (codec : Codec PbCandidate) (c : Candidate) : Bytes := codec.marshal c.toProto

/-- `Candidate.FromBytes`. -/
def fromBytes (codec : Codec PbCandidate) (b : Bytes) : Except DecodeErr Candidate := do
  let pb ← codec.read b
  (fromProto pb).mapError fun e => .fault (.err e)

lemma fromBytes_toBytes (codec : Codec PbCandidate) (c : Candidate) :
    fromBytes codec (c.toBytes codec) = .ok c := by
  rw [fromBytes, toBytes, bind_of_ok (codec.read_marshal c.toProto)]
  simp only [fromProto, toProto, Address.fromBytes, Address.setBytes_toList,
    Uint128.fromFixedSizeByteSlice_toFixedSizeByteSlice]
  rfl

end Candidate

/-! ## Accounts -/

/-- `corepb.Account`. -/
structure PbAccount where
  address : Bytes
  balance : Bytes
  nonce : UInt64
  staking : Bytes
  votedRootHash : Hash
  candidateId : Bytes
  bandwidth : Bytes
  lastBandwidthTs : ℤ
  unstaking : Bytes
  lastUnstakingTs : ℤ
  dataRootHash : Hash

/-- `Account` of `core/state` with its two tries over the storage. -/
structure StoredAccount where
  address : Address
  balance : Uint128
  nonce : UInt64
  staking : Uint128
  voted : Batch
  candidateID : Bytes
  points : Uint128
  lastPointsTs : ℤ
  unstaking : Uint128
  lastUnstakingTs : ℤ
  data : Batch
  storage : Storage

/-- A batch that is at rest over a storage which has all nodes of its tree. -/
structure Batch.Rests (C : NodeCodec) (u : PatriciaTree) (storage : Storage) (b : Batch) :
    Prop where
  idle : b.batching = false
  unprepared : b.trie.prepared = false
  storage : b.trie.storage = storage
  stores : Stores C u b.trie

lemma Batch.Rests.rootHash {C : NodeCodec} {u : PatriciaTree} {storage : Storage} {b : Batch}
    (h : b.Rests C u storage) : (Batch.rootHash b).1 = .ok (C.treeHash u) := by
  rw [← h.stores.root]
  simp [Batch.rootHash, Prog.bind_apply, h.idle]

/-- The tree is found again from its root. -/
lemma Batch.Rests.reopen {C : NodeCodec} {u : PatriciaTree} {storage : Storage} {b : Batch}
    (h : b.Rests C u storage) :
    ∃ b', newBatch (C.treeHash u) storage = .ok b' ∧ b'.Rests C u storage := by
  obtain ⟨hnew, hstores⟩ := h.stores.reopen h.unprepared
  rw [h.stores.root, h.storage] at hnew hstores
  exact ⟨_, map_eq_ok_iff.2 ⟨_, hnew, rfl⟩, rfl, rfl, rfl, hstores⟩

namespace StoredAccount

/-- `Account.toProto`. -/
def toProto (acc : StoredAccount) : Except TrieErr PbAccount := do
  let votedRootHash ← (Batch.rootHash acc.voted).1
  let dataRootHash ← (Batch.rootHash acc.data).1
  return {
    address := acc.address.toList
    balance := acc.balance.toFixedSizeByteSlice
    nonce := acc.nonce
    staking := acc.staking.toFixedSizeByteSlice
    votedRootHash := votedRootHash
    candidateId := acc.candidateID
    bandwidth := acc.points.toFixedSizeByteSlice
    lastBandwidthTs := acc.lastPointsTs
    unstaking := acc.unstaking.toFixedSizeByteSlice
    lastUnstakingTs := acc.lastUnstakingTs
    dataRootHash := dataRootHash }

/-- An amount of a record. -/
def amount (b : Bytes) : Except DecodeErr Uint128 :=
  (Uint128.fromFixedSizeByteSlice b).mapError fun e => .fault (.err e)

/-- `Account.fromProto` of an account over a storage. -/
def fromProto (storage : Storage) (pb : PbAccount) : Except DecodeErr StoredAccount := do
  let balance ← amount pb.balance
  let staking ← amount pb.staking
  let voted ← (Batch.newBatch pb.votedRootHash storage).mapError .trie
  let points ← amount pb.bandwidth
  let unstaking ← amount pb.unstaking
  let data ← (Batch.newBatch pb.dataRootHash storage).mapError .trie
  return {
    address := Address.setBytes pb.address
    balance := balance
    nonce := pb.nonce
    staking := staking
    voted := voted
    candidateID := pb.candidateId
    points := points
    lastPointsTs := pb.lastBandwidthTs
    unstaking := unstaking
    lastUnstakingTs := pb.lastUnstakingTs
    data := data
    storage := storage }

/-- `Account.ToBytes`. -/
def toBytes (codec : Codec PbAccount) (acc : StoredAccount) : Except TrieErr Bytes := do
  let pb ← acc.toProto
  return codec.marshal pb

/-- `Account.FromBytes`. -/
def fromBytes (codec : Codec PbAccount) (storage : Storage) (b : Bytes) :
    Except DecodeErr StoredAccount := do
  let pb ← codec.read b
  fromProto storage pb

variable {C : NodeCodec} {acc acc' : StoredAccount} {votes records : PatriciaTree}

/-- The two tries of an account are at rest, with the given trees. -/
structure Rests (C : NodeCodec) (votes records : PatriciaTree) (acc : StoredAccount) : Prop where
  voted : acc.voted.Rests C votes acc.storage
  data : acc.data.Rests C records acc.storage

/-- Two accounts are equal but for the objects that hold their tries. -/
structure Same (acc acc' : StoredAccount) : Prop where
  address : acc'.address = acc.address
  balance : acc'.balance = acc.balance
  nonce : acc'.nonce = acc.nonce
  staking : acc'.staking = acc.staking
  candidateID : acc'.candidateID = acc.candidateID
  points : acc'.points = acc.points
  lastPointsTs : acc'.lastPointsTs = acc.lastPointsTs
  unstaking : acc'.unstaking = acc.unstaking
  lastUnstakingTs : acc'.lastUnstakingTs = acc.lastUnstakingTs
  storage : acc'.storage = acc.storage

/-- The record of an account at rest. -/
def record (C : NodeCodec) (votes records : PatriciaTree) (acc : StoredAccount) : PbAccount where
  address := acc.address.toList
  balance := acc.balance.toFixedSizeByteSlice
  nonce := acc.nonce
  staking := acc.staking.toFixedSizeByteSlice
  votedRootHash := C.treeHash votes
  candidateId := acc.candidateID
  bandwidth := acc.points.toFixedSizeByteSlice
  lastBandwidthTs := acc.lastPointsTs
  unstaking := acc.unstaking.toFixedSizeByteSlice
  lastUnstakingTs := acc.lastUnstakingTs
  dataRootHash := C.treeHash records

lemma Rests.toProto (h : acc.Rests C votes records) :
    acc.toProto = .ok (acc.record C votes records) := by
  rw [StoredAccount.toProto, bind_of_ok h.voted.rootHash, bind_of_ok h.data.rootHash]
  rfl

lemma amount_toFixedSizeByteSlice (x : Uint128) : amount x.toFixedSizeByteSlice = .ok x := by
  rw [amount, Uint128.fromFixedSizeByteSlice_toFixedSizeByteSlice]
  rfl

/-- **Round trip of an account.** -/
lemma Rests.fromProto_record (h : acc.Rests C votes records) :
    ∃ acc', fromProto acc.storage (acc.record C votes records) = .ok acc' ∧ acc.Same acc' ∧
      acc'.Rests C votes records := by
  obtain ⟨voted, hvoted, hvotes⟩ := h.voted.reopen
  obtain ⟨data, hdata, hrecords⟩ := h.data.reopen
  refine ⟨{ acc with voted := voted, data := data }, ?_,
    ⟨rfl, rfl, rfl, rfl, rfl, rfl, rfl, rfl, rfl, rfl⟩, hvotes, hrecords⟩
  simp only [fromProto, record, amount_toFixedSizeByteSlice, hvoted, hdata,
    Address.setBytes_toList]
  rfl

/-- Equal accounts have equal records. -/
lemma Same.record_eq (h : acc.Same acc') :
    acc'.record C votes records = acc.record C votes records := by
  simp only [record, h.address, h.balance, h.nonce, h.staking, h.candidateID, h.points,
    h.lastPointsTs, h.unstaking, h.lastUnstakingTs]

end StoredAccount

/-! ## The round trip -/

/-- **Encoding round trip.**  Every block whose transactions have the senders and payers of their
signatures, every account whose tries are at rest and every candidate is decoded from its encoding,
and is encoded to the same bytes again.  For an account the decoded tries have the same trees.  The
encoding of amounts is a bijection to the strings of sixteen bytes. -/
theorem encoding_round_trip (env : Env) (C : NodeCodec) (blocks : Codec PbBlock)
    (accounts : Codec PbAccount) (candidates : Codec PbCandidate) :
    (∀ bd : BlockData, bd.SignersRight env → ∃ bd',
      BlockData.fromBytes env blocks (bd.toBytes blocks) = .ok bd' ∧ bd' = bd ∧
        bd'.toBytes blocks = bd.toBytes blocks) ∧
    (∀ (acc : StoredAccount) (votes records : PatriciaTree), acc.Rests C votes records →
      ∃ b acc', acc.toBytes accounts = .ok b ∧
        StoredAccount.fromBytes accounts acc.storage b = .ok acc' ∧ acc.Same acc' ∧
        acc'.Rests C votes records ∧ acc'.toBytes accounts = .ok b) ∧
    (∀ c : Candidate, ∃ c', Candidate.fromBytes candidates (c.toBytes candidates) = .ok c' ∧
      c' = c ∧ c'.toBytes candidates = c.toBytes candidates) ∧
    (∀ x : Uint128, x.toFixedSizeBytes.length = 16 ∧
      Uint128.setFixedSizeByteSlice x.toFixedSizeBytes = .ok x.val) ∧
    ∀ b : Bytes, b.length = 16 →
      ∃ x : Uint128, Uint128.setFixedSizeByteSlice b = .ok x.val ∧ x.toFixedSizeBytes = b := by
  refine ⟨fun bd h => ?_, fun acc votes records h => ?_, fun c => ?_, fun x => ?_, fun b hb => ?_⟩
  · exact ⟨bd, BlockData.fromBytes_toBytes blocks h, rfl, rfl⟩
  · obtain ⟨acc', hdecode, hsame, hrests⟩ := h.fromProto_record
    refine ⟨accounts.marshal (acc.record C votes records), acc', ?_, ?_, hsame, hrests, ?_⟩
    · rw [StoredAccount.toBytes, bind_of_ok h.toProto]
      rfl
    · rw [StoredAccount.fromBytes, bind_of_ok (accounts.read_marshal _)]
      exact hdecode
    · rw [StoredAccount.toBytes, bind_of_ok hrests.toProto, hsame.record_eq]
      rfl
  · exact ⟨c, Candidate.fromBytes_toBytes candidates c, rfl, rfl⟩
  · rw [Uint128.toFixedSizeBytes_eq, Uint128.setFixedSizeByteSlice_eq,
      Uint128.fromFixedSizeByteSlice_toFixedSizeByteSlice]
    exact ⟨Uint128.length_bigEndian 16 _, rfl⟩
  · obtain ⟨x, hx⟩ := Uint128.fromFixedSizeByteSlice_isOk_iff.2 hb
    rw [Uint128.setFixedSizeByteSlice_eq, hx]
    exact ⟨x, rfl, (Uint128.toFixedSizeBytes_eq x).trans (Uint128.toFixedSizeByteSlice_of_from hx)⟩

section Instance

instance : Countable TxType := Plain.typeCode_injective.countable

deriving instance Countable for PbReceipt
deriving instance Countable for PbTransaction
deriving instance Countable for PbBlockHeader
deriving instance Countable for PbBlock
deriving instance Countable for PbCandidate
deriving instance Countable for PbAccount

/-- A block with a signed transfer and its receipt, and an account with one vote, which are decoded
from their encodings. -/
theorem transfer_and_vote_round_trip :
    let blocks := Codec.ofCountable PbBlock
    let accounts := Codec.ofCountable PbAccount
    let tx := (Plain.signed
      ⟨.transfer, Plain.address 1, Plain.address 2, .ofUint 5, 1, 0, []⟩).setReceipt
        ⟨true, 15, 2, 1500, 300, .ofUint 7, []⟩
    let bd : BlockData := ⟨⟨[1], [2], [3], [4], [5], Plain.address 3, .ofUint 6, .ofUint 7, 15, 0,
      [8], .ofUint 9, 1500, .ofUint 10, 300⟩, [tx], 2⟩
    let trie := runOps .plain [.put [0x10] [0x10]] (ofRoot [] fun _ => none)
    let acc : StoredAccount := ⟨Plain.address 1, .ofUint 1, 2, .ofUint 3, ⟨trie, false, ∅⟩, [],
      .ofUint 4, 15, .ofUint 5, 16, ⟨ofRoot [] trie.storage, false, ∅⟩, trie.storage⟩
    BlockData.fromBytes .plain blocks (bd.toBytes blocks) = .ok bd ∧
      ∃ b acc', acc.toBytes accounts = .ok b ∧
        StoredAccount.fromBytes accounts acc.storage b = .ok acc' ∧ acc.Same acc' := by
  intro blocks accounts tx bd trie acc
  have hround := encoding_round_trip .plain .plain blocks accounts
    (Codec.ofCountable PbCandidate)
  have hsigners : bd.SignersRight .plain := by
    intro tx' htx
    rw [List.mem_singleton.1 htx]
    decide +kernel
  obtain ⟨votes, hvotes, hprep⟩ := (nodeStorage_empty .plain).stores_empty.runOps rfl
    (show DeletesPresent [.put [0x10] [0x10]] _ from ⟨nofun, trivial⟩)
  have hrests : acc.Rests .plain votes .nil :=
    ⟨⟨rfl, hprep, rfl, hvotes⟩, rfl, rfl, rfl, NodeStorage.stores_empty
      ⟨hvotes.holds.good.intact, hvotes.holds.good.no_empty_key⟩⟩
  obtain ⟨bd', hbd, rfl, -⟩ := hround.1 bd hsigners
  obtain ⟨b, acc', hb, hdecode, hsame, -⟩ := hround.2.1 acc votes .nil hrests
  exact ⟨hbd, b, acc', hb, hdecode, hsame⟩

end Instance

end GoMedibloc
