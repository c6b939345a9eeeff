import GoMedibloc.Ledger.BlockState

/-!
# The transaction types

`txConv` turns a transaction into an executable one: each registered type has a constructor
that checks the payload and the value and keeps what the execution needs.  An executable
transaction can be executed on a block state, and tells its bandwidth, how it changes the
points of its sender, and how its sender is recovered.

The thirteen `execute` functions follow the source step by step, in the order of its reads,
checks and writes; a check that fails returns the error before anything is written, and what
was written before an error is rolled back by the caller.
-/

namespace GoMedibloc

open Except

/-! ## Executable transactions -/

/-- What each transaction type executes. -/
inductive Operation
  | genesis
  | genesisDistribution (target : Address) (balance : Uint128)
  | transfer (sender receiver : Address) (value : Uint128)
  | addRecord (owner : Address) (recordHash : Bytes)
  | stake (user : Address) (amount : Uint128)
  | unstake (user : Address) (amount : Uint128)
  | addCertification (issuer certified : Address) (certificateHash : Bytes)
      (issueTime expirationTime : ℤ)
  | revokeCertification (revoker : Address) (certificateHash : Bytes)
  | registerAlias (addr : Address) (collateral : Uint128) (aliasName : Bytes)
  | deregisterAlias (addr : Address)
  | becomeCandidate (txHash : Bytes) (candidateAddr : Address) (collateral : Uint128)
      (url : Bytes)
  | quitCandidacy (candidateAddr : Address)
  | vote (voter : Address) (candidateIDs : List Bytes)

/-- An executable transaction: what it executes, and the size of the transaction. -/
structure ExecutableTx where
  op : Operation
  size : ℕ

/-- Usage of cpu and net. -/
structure Bandwidth where
  cpuUsage : UInt64
  netUsage : UInt64
deriving DecidableEq, Repr

/-- `MaxPayloadSize`. -/
def maxPayloadSize : ℕ := 4096

/-- `AliasCollateralMinimum` and `CandidateCollateralMinimum`. -/
def collateralMinimum : ℕ := 1000000000000000000

/-- `VoteMaximum`. -/
def voteMaximum : ℕ := 15

/-- `HashLength`. -/
def hashLength : ℕ := 32

/-- `GenesisHeight`. -/
def genesisHeight : ℕ := 1

/-- `BytesToTransactionPayload`: a payload has to be the encoding of what it decodes to. -/
def bytesToTransactionPayload {P : Type} (codec : PayloadCodec P) (bytes : Bytes) :
    Except Err P := do
  let payload ← ofOption .failedToUnmarshalPayload (codec.fromBytes bytes)
  let b ← ofOption .failedToMarshalPayload (codec.toBytes payload)
  failIf (bytes ≠ b) .checkPayloadIntegrity
  return payload

/-- `unicode.IsLower`, for the code points of one byte. -/
def isLower (b : UInt8) : Bool :=
  (0x61 ≤ b && b ≤ 0x7a) || b == 0xb5 || (0xdf ≤ b && b ≤ 0xf6) || 0xf8 ≤ b

/-- `unicode.IsNumber`, for the code points of one byte. -/
def isNumber (b : UInt8) : Bool :=
  (0x30 ≤ b && b ≤ 0x39) || b == 0xb2 || b == 0xb3 || b == 0xb9 || (0xbc ≤ b && b ≤ 0xbe)

/-- The loop of `validateAlias` over the bytes of an alias. -/
def validateAliasChars : ℕ → Bytes → Except Err Unit
  | _, [] => .ok ()
  | i, ch :: rest => do
    failIf (¬ (isNumber ch || isLower ch)) .aliasInvalidChar
    failIf (i = 0 ∧ isNumber ch) .aliasFirstLetter
    validateAliasChars (i + 1) rest

/-- `validateAlias`. -/
def validateAlias (aliasName : Bytes) : Except Err Unit := do
  failIf (aliasName.length < 12) .aliasLengthUnderMinimum
  failIf (16 < aliasName.length) .aliasLengthExceedMaximum
  validateAliasChars 0 aliasName

section Constructors

variable (env : Env) (tx : Transaction)

/-- The check that most constructors begin with. -/
def checkPayloadSize : Except Err Unit :=
  failIf (maxPayloadSize < tx.payload.length) .tooLargePayload

/-- `NewGenesisTx`. -/
def newGenesisTx : Except Err ExecutableTx := do
  checkPayloadSize tx
  let _ ← bytesToTransactionPayload env.defaultPayload tx.payload
  return ⟨.genesis, 0⟩

/-- `NewGenesisDistributionTx`. -/
def newGenesisDistributionTx : Except Err ExecutableTx :=
  .ok ⟨.genesisDistribution tx.toAddr tx.value, 0⟩

/-- `NewTransferTx`. -/
def newTransferTx : Except Err ExecutableTx := do
  checkPayloadSize tx
  failIf (tx.value.val = 0) .voidTransaction
  let _ ← bytesToTransactionPayload env.defaultPayload tx.payload
  return ⟨.transfer tx.fromAddr tx.toAddr tx.value, tx.size env⟩

/-- `NewAddRecordTx`. -/
def newAddRecordTx : Except Err ExecutableTx := do
  checkPayloadSize tx
  let recordHash ← bytesToTransactionPayload env.addRecordPayload tx.payload
  failIf (recordHash.length ≠ hashLength) .recordHashInvalid
  return ⟨.addRecord tx.fromAddr recordHash, tx.size env⟩

/-- `NewStakeTx`. -/
def newStakeTx : Except Err ExecutableTx := do
  checkPayloadSize tx
  failIf (tx.value.val = 0) .cannotUseZeroValue
  return ⟨.stake tx.fromAddr tx.value, tx.size env⟩

/-- `NewUnstakeTx`. -/
def newUnstakeTx : Except Err ExecutableTx := do
  checkPayloadSize tx
  return ⟨.unstake tx.fromAddr tx.value, tx.size env⟩

/-- `NewAddCertificationTx`. -/
def newAddCertificationTx : Except Err ExecutableTx := do
  checkPayloadSize tx
  let p ← bytesToTransactionPayload env.addCertificationPayload tx.payload
  failIf (p.certificateHash.length ≠ hashLength) .certHashInvalid
  return ⟨.addCertification tx.fromAddr tx.toAddr p.certificateHash p.issueTime p.expirationTime,
    tx.size env⟩

/-- `NewRevokeCertificationTx`. -/
def newRevokeCertificationTx : Except Err ExecutableTx := do
  checkPayloadSize tx
  let certificateHash ← bytesToTransactionPayload env.revokeCertificationPayload tx.payload
  failIf (certificateHash.length ≠ hashLength) .certHashInvalid
  return ⟨.revokeCertification tx.fromAddr certificateHash, tx.size env⟩

/-- `NewRegisterAliasTx`. -/
def newRegisterAliasTx : Except Err ExecutableTx := do
  checkPayloadSize tx
  let aliasName ← bytesToTransactionPayload env.registerAliasPayload tx.payload
  validateAlias aliasName
  return ⟨.registerAlias tx.fromAddr tx.value aliasName, tx.size env⟩

/-- `NewDeregisterAliasTx`. -/
def newDeregisterAliasTx : Except Err ExecutableTx := do
  checkPayloadSize tx
  return ⟨.deregisterAlias tx.fromAddr, tx.size env⟩

/-- `NewBecomeCandidateTx`. -/
def newBecomeCandidateTx : Except Err ExecutableTx := do
  checkPayloadSize tx
  let url ← bytesToTransactionPayload env.becomeCandidatePayload tx.payload
  return ⟨.becomeCandidate tx.hash tx.fromAddr tx.value url, tx.size env⟩

/-- `NewQuitCandidateTx`. -/
def newQuitCandidateTx : Except Err ExecutableTx := do
  checkPayloadSize tx
  return ⟨.quitCandidacy tx.fromAddr, tx.size env⟩

/-- `NewVoteTx`. -/
def newVoteTx : Except Err ExecutableTx := do
  checkPayloadSize tx
  let candidateIDs ← bytesToTransactionPayload env.votePayload tx.payload
  return ⟨.vote tx.fromAddr candidateIDs, tx.size env⟩

/-- `TxConv` with `DefaultTxMap`. -/
def txConv : Except Err ExecutableTx :=
  match tx.txType with
  | .genesis => newGenesisTx env tx
  | .genesisDistribution => newGenesisDistributionTx tx
  | .transfer => newTransferTx env tx
  | .addRecord => newAddRecordTx env tx
  | .stake => newStakeTx env tx
  | .unstake => newUnstakeTx env tx
  | .addCertification => newAddCertificationTx env tx
  | .revokeCertification => newRevokeCertificationTx env tx
  | .registerAlias => newRegisterAliasTx env tx
  | .deregisterAlias => newDeregisterAliasTx env tx
  | .becomeCandidate => newBecomeCandidateTx env tx
  | .quitCandidacy => newQuitCandidateTx env tx
  | .vote => newVoteTx env tx
  | .other _ => .error .invalidTransactionType

end Constructors

/-- The types whose transactions are sent by `genesisCoinbase` and not signed. -/
def TxType.IsGenesis (t : TxType) : Prop := t = .genesis ∨ t = .genesisDistribution

instance (t : TxType) : Decidable t.IsGenesis := inferInstanceAs (Decidable (_ ∨ _))

namespace Operation

/-- The transaction type of an operation. -/
def kind : Operation → TxType
  | genesis => .genesis
  | genesisDistribution _ _ => .genesisDistribution
  | transfer _ _ _ => .transfer
  | addRecord _ _ => .addRecord
  | stake _ _ => .stake
  | unstake _ _ => .unstake
  | addCertification _ _ _ _ _ => .addCertification
  | revokeCertification _ _ => .revokeCertification
  | registerAlias _ _ _ => .registerAlias
  | deregisterAlias _ => .deregisterAlias
  | becomeCandidate _ _ _ _ => .becomeCandidate
  | quitCandidacy _ => .quitCandidacy
  | vote _ _ => .vote

/-- The types that are meant for the genesis block. -/
def isGenesis : Operation → Bool
  | genesis | genesisDistribution _ _ => true
  | _ => false

lemma isGenesis_iff {op : Operation} : op.isGenesis = true ↔ op.kind.IsGenesis := by
  cases op <;> simp [isGenesis, kind, TxType.IsGenesis]

/-- The fields of an operation are those of its transaction. -/
def Fits (tx : Transaction) : Operation → Prop
  | genesis => True
  | genesisDistribution target balance => target = tx.toAddr ∧ balance = tx.value
  | transfer sender receiver value => sender = tx.fromAddr ∧ receiver = tx.toAddr ∧ value = tx.value
  | addRecord owner _ => owner = tx.fromAddr
  | stake user amount => user = tx.fromAddr ∧ amount = tx.value ∧ 0 < tx.value.val
  | unstake user amount => user = tx.fromAddr ∧ amount = tx.value
  | addCertification issuer certified _ _ _ => issuer = tx.fromAddr ∧ certified = tx.toAddr
  | revokeCertification revoker _ => revoker = tx.fromAddr
  | registerAlias addr collateral _ => addr = tx.fromAddr ∧ collateral = tx.value
  | deregisterAlias addr => addr = tx.fromAddr
  | becomeCandidate txHash addr collateral _ =>
    txHash = tx.hash ∧ addr = tx.fromAddr ∧ collateral = tx.value
  | quitCandidacy addr => addr = tx.fromAddr
  | vote voter _ => voter = tx.fromAddr

/-- What an operation takes over from its transaction. -/
structure From (env : Env) (tx : Transaction) (exeTx : ExecutableTx) : Prop where
  kind : exeTx.op.kind = tx.txType
  size : exeTx.op.isGenesis = false → exeTx.size = tx.size env
  fits : exeTx.op.Fits tx

end Operation

lemma txConv_spec {env : Env} {tx : Transaction} {exeTx : ExecutableTx}
    (h : txConv env tx = .ok exeTx) : Operation.From env tx exeTx := by
  unfold txConv at h
  split at h <;> rename_i htype
  case h_1 =>
    obtain ⟨-, -, h⟩ := bind_eq_ok_iff.1 h
    obtain ⟨-, -, h⟩ := bind_eq_ok_iff.1 h
    cases h
    exact ⟨htype.symm, fun hnot => (by cases hnot), trivial⟩
  case h_2 =>
    cases h
    exact ⟨htype.symm, fun hnot => (by cases hnot), rfl, rfl⟩
  case h_5 =>
    obtain ⟨-, -, h⟩ := bind_eq_ok_iff.1 h
    obtain ⟨_, hpos, h⟩ := bind_eq_ok_iff.1 h
    rw [failIf_eq_ok] at hpos
    cases h
    exact ⟨htype.symm, fun _ => rfl, rfl, rfl, Nat.pos_of_ne_zero hpos⟩
  case h_6 | h_10 | h_12 =>
    obtain ⟨-, -, h⟩ := bind_eq_ok_iff.1 h
    cases h
    refine ⟨htype.symm, fun _ => rfl, ?_⟩
    simp [Operation.Fits]
  case h_11 | h_13 =>
    obtain ⟨-, -, h⟩ := bind_eq_ok_iff.1 h
    obtain ⟨_, -, h⟩ := bind_eq_ok_iff.1 h
    cases h
    refine ⟨htype.symm, fun _ => rfl, ?_⟩
    simp [Operation.Fits]
  case h_14 => cases h
  all_goals
    -- the types with a payload that is checked
    obtain ⟨-, -, h⟩ := bind_eq_ok_iff.1 h
    obtain ⟨_, -, h⟩ := bind_eq_ok_iff.1 h
    obtain ⟨-, -, h⟩ := bind_eq_ok_iff.1 h
    cases h
    refine ⟨htype.symm, fun _ => rfl, ?_⟩
    simp [Operation.Fits]

/-! ## Execution -/

/-- A difference of balances; an underflow is `ErrBalanceNotEnough`. -/
def subBalance (balance amount : Uint128) : Except Err Uint128 :=
  rename .uint128Underflow .balanceNotEnough (balance.sub amount)

/-- `GenesisTx.Execute`. -/
def executeGenesis (height : ℕ) (s : BlockState) : Except Err BlockState := do
  failIf (height ≠ genesisHeight) .notGenesisBlock
  return s

/-- `GenesisDistributionTx.Execute`. -/
def executeGenesisDistribution (height : ℕ) (target : Address) (balance : Uint128)
    (s : BlockState) : Except Err BlockState := do
  failIf (height ≠ genesisHeight) .notGenesisBlock
  let acc ← s.getAccount target
  failIf (acc.balance.val ≠ 0) .genesisDistributionAllowedOnce
  let newBalance ← acc.balance.add balance
  let s := s.putAccount { acc with balance := newBalance }
  let supply ← s.supply.add balance
  return { s with supply := supply }

/-- `TransferTx.Execute`. -/
def executeTransfer (sender receiver : Address) (value : Uint128) (s : BlockState) :
    Except Err BlockState := do
  let acc ← s.getAccount sender
  let balance ← subBalance acc.balance value
  let s := s.putAccount { acc with balance := balance }
  let acc ← s.getAccount receiver
  let balance ← acc.balance.add value
  return s.putAccount { acc with balance := balance }

/-- `AddRecordTx.Execute`. -/
def executeAddRecord (owner : Address) (recordHash : Bytes) (s : BlockState) :
    Except Err BlockState := do
  let acc ← s.getAccount owner
  failIf (acc.records.lookup recordHash).isSome .recordAlreadyAdded
  let record : Record := ⟨owner, recordHash, s.timestamp⟩
  return s.putAccount { acc with records := acc.records.insert recordHash record }

/-- The loop over the candidates an account has voted for; candidates that have quit are
skipped. -/
def forVoted (f : DposState → Bytes → Except Err DposState) :
    List Bytes → DposState → Except Err DposState
  | [], ds => .ok ds
  | id :: ids, ds =>
    match f ds id with
    | .ok ds' => forVoted f ids ds'
    | .error e => if e = .notFound then forVoted f ids ds else .error e

/-- `StakeTx.Execute`. -/
def executeStake (user : Address) (amount : Uint128) (s : BlockState) :
    Except Err BlockState := do
  let acc ← s.getAccount user
  let balance ← subBalance acc.balance amount
  let staking ← acc.staking.add amount
  let points ← acc.points.add amount
  let s := s.putAccount { acc with balance := balance, staking := staking, points := points }
  let ds ← forVoted (fun ds id => ds.addVotePowerToCandidate id amount) acc.voted.keys s.dposState
  return { s with dposState := ds }

/-- `UnstakeTx.Execute`. -/
def executeUnstake (user : Address) (amount : Uint128) (s : BlockState) :
    Except Err BlockState := do
  let acc ← s.getAccount user
  let staking ← rename .uint128Underflow .stakingNotEnough (acc.staking.sub amount)
  let unstaking ← acc.unstaking.add amount
  let points := if staking.val < acc.points.val then staking else acc.points
  let s := s.putAccount { acc with
    staking := staking, unstaking := unstaking, lastUnstakingTs := s.timestamp, points := points }
  let ds ← forVoted (fun ds id => ds.subVotePowerToCandidate id amount) acc.voted.keys s.dposState
  return { s with dposState := ds }

/-- `AddCertificationTx.Execute`. -/
def executeAddCertification (issuer certified : Address) (certificateHash : Bytes)
    (issueTime expirationTime : ℤ) (s : BlockState) : Except Err BlockState := do
  let certAcc ← s.getAccount certified
  failIf (certAcc.certReceived.lookup certificateHash).isSome .certReceivedAlreadyAdded
  let issuerAcc ← s.getAccount issuer
  failIf (issuerAcc.certIssued.lookup certificateHash).isSome .certIssuedAlreadyAdded
  let cert : Certification :=
    ⟨certificateHash, issuer, certified, issueTime, expirationTime, -1⟩
  let s := s.putAccount
    { certAcc with certReceived := certAcc.certReceived.insert certificateHash cert }
  let issuerAcc ← s.getAccount issuer
  return s.putAccount
    { issuerAcc with certIssued := issuerAcc.certIssued.insert certificateHash cert }

/-- `RevokeCertificationTx.Execute`. -/
def executeRevokeCertification (revoker : Address) (certificateHash : Bytes) (s : BlockState) :
    Except Err BlockState := do
  let issuerAcc ← s.getAccount revoker
  let cert ← ofOption .notFound (issuerAcc.certIssued.lookup certificateHash)
  failIf (cert.issuer ≠ revoker) .certRevokerInvalid
  failIf (-1 < cert.revocationTime) .certAlreadyRevoked
  failIf (cert.expirationTime < s.timestamp) .certAlreadyExpired
  let newCert := { cert with revocationTime := s.timestamp }
  let s := s.putAccount
    { issuerAcc with certIssued := issuerAcc.certIssued.insert certificateHash newCert }
  let certAcc ← s.getAccount newCert.certified
  return s.putAccount
    { certAcc with certReceived := certAcc.certReceived.insert certificateHash newCert }

/-- The check of `RegisterAliasTx.Execute` that nobody has the alias. -/
def checkAliasNotTaken (s : BlockState) (aliasName : Bytes) : Except Err Unit :=
  match s.getAccountByAlias aliasName with
  | .ok _ => .error .aliasAlreadyTaken
  | .error e => failIf (e ≠ .notFound) e

/-- `RegisterAliasTx.Execute`. -/
def executeRegisterAlias (addr : Address) (collateral : Uint128) (aliasName : Bytes)
    (s : BlockState) : Except Err BlockState := do
  failIf (collateral.val < collateralMinimum) .aliasCollateralLimit
  let acc ← s.getAccount addr
  failIf acc.aliasRecord.isSome .aliasAlreadyHave
  checkAliasNotTaken s aliasName
  let balance ← subBalance acc.balance collateral
  let s := s.putAccount
    { acc with balance := balance, aliasRecord := some ⟨aliasName, collateral⟩ }
  return { s with accState := s.accState.putAccountAlias aliasName addr }

/-- `DeregisterAliasTx.Execute`. -/
def executeDeregisterAlias (addr : Address) (s : BlockState) : Except Err BlockState := do
  let acc ← s.getAccount addr
  let record ← ofOption .aliasNotExist acc.aliasRecord
  failIf (record.aliasName = []) .aliasNotExist
  let balance ← acc.balance.add record.aliasCollateral
  let accState ← s.accState.delAccountAlias record.aliasName addr
  let s := { s with accState := accState }
  return s.putAccount { acc with balance := balance, aliasRecord := none }

/-- `BecomeCandidateTx.Execute`. -/
def executeBecomeCandidate (txHash : Bytes) (candidateAddr : Address) (collateral : Uint128)
    (url : Bytes) (s : BlockState) : Except Err BlockState := do
  let acc ← s.getAccount candidateAddr
  failIf (acc.candidateID ≠ []) .alreadyCandidate
  failIf (acc.aliasRecord = none) .aliasNotExist
  failIf (collateral.val < collateralMinimum) .notEnoughCandidateCollateral
  let balance ← subBalance acc.balance collateral
  let s := s.putAccount { acc with balance := balance, candidateID := txHash }
  let candidate : Candidate := ⟨txHash, candidateAddr, collateral, .zero, url, s.timestamp⟩
  return { s with dposState := s.dposState.putCandidate txHash candidate }

/-- `QuitCandidateTx.Execute`. -/
def executeQuitCandidacy (candidateAddr : Address) (s : BlockState) :
    Except Err BlockState := do
  let acc ← s.getAccount candidateAddr
  failIf (acc.candidateID = []) .notCandidate
  let candidate ← rename .notFound .notCandidate (s.dposState.getCandidate acc.candidateID)
  let balance ← acc.balance.add candidate.collateral
  let s := s.putAccount { acc with balance := balance, candidateID := [] }
  let ds ← s.dposState.delCandidate acc.candidateID
  return { s with dposState := ds }

/-- `VoteTx.Execute`. -/
def executeVote (voter : Address) (candidateIDs : List Bytes) (s : BlockState) :
    Except Err BlockState := do
  failIf (voteMaximum < candidateIDs.length) .overMaxVote
  let acc ← s.getAccount voter
  let newVoted ← candidateIDs.foldlM Voted.add default
  let ds ← newVoted.keys.foldlM (fun ds id =>
    rename .notFound .notCandidate (ds.addVotePowerToCandidate id acc.staking)) s.dposState
  let ds ← forVoted (fun ds id => ds.subVotePowerToCandidate id acc.staking) acc.voted.keys ds
  return { s with dposState := ds }.putAccount { acc with voted := newVoted }

namespace Operation

/-- `Execute`, in a block of the given height. -/
def execute (height : ℕ) : Operation → BlockState → Except Err BlockState
  | genesis => executeGenesis height
  | genesisDistribution target balance => executeGenesisDistribution height target balance
  | transfer sender receiver value => executeTransfer sender receiver value
  | addRecord owner recordHash => executeAddRecord owner recordHash
  | stake user amount => executeStake user amount
  | unstake user amount => executeUnstake user amount
  | addCertification issuer certified certificateHash issueTime expirationTime =>
    executeAddCertification issuer certified certificateHash issueTime expirationTime
  | revokeCertification revoker certificateHash =>
    executeRevokeCertification revoker certificateHash
  | registerAlias addr collateral aliasName => executeRegisterAlias addr collateral aliasName
  | deregisterAlias addr => executeDeregisterAlias addr
  | becomeCandidate txHash candidateAddr collateral url =>
    executeBecomeCandidate txHash candidateAddr collateral url
  | quitCandidacy candidateAddr => executeQuitCandidacy candidateAddr
  | vote voter candidateIDs => executeVote voter candidateIDs

/-- The cpu usage of an operation. -/
def cpuUsage : Operation → UInt64
  | genesis => 0
  | genesisDistribution _ _ => 0
  | transfer _ _ _ => 1000
  | addRecord _ _ => 1500
  | stake _ _ => 1000
  | unstake _ _ => 1000
  | addCertification _ _ _ _ _ => 1500
  | revokeCertification _ _ => 1500
  | registerAlias _ _ _ => 1500
  | deregisterAlias _ => 1500
  | becomeCandidate _ _ _ _ => 1000
  | quitCandidacy _ => 1000
  | vote _ _ => 1000

/-- `PointChange`: whether the points of the sender go down, and by how much they change. -/
def pointChange : Operation → Bool × Uint128
  | stake _ amount => (false, amount)
  | unstake _ amount => (true, amount)
  | _ => (false, .zero)

end Operation

namespace ExecutableTx

/-- `Bandwidth`: the transactions of the genesis types use nothing, the others their size in
net. -/
def bandwidth (exeTx : ExecutableTx) : Bandwidth :=
  match exeTx.op with
  | .genesis => ⟨0, 0⟩
  | .genesisDistribution _ _ => ⟨0, 0⟩
  | op => ⟨op.cpuUsage, exeTx.size.toUInt64⟩

end ExecutableTx

/-! ## Recovering the sender -/

/-- `recoverSigner`. -/
def recoverSigner (env : Env) (tx : Transaction) : Except Err Address := do
  failIf (tx.sign = []) .transactionSignatureNotExist
  ofOption .recoverFailed (env.recoverPublic tx.hash tx.sign)

/-- `recoverGenesis`. -/
def recoverGenesis (tx : Transaction) : Except Err Address := do
  failIf (tx.sign ≠ []) .genesisSignShouldNotExist
  return genesisCoinbase

/-- `RecoverFrom` of the executable transaction. -/
def Operation.recoverFrom (op : Operation) (env : Env) (tx : Transaction) : Except Err Address :=
  match op with
  | .genesis => recoverGenesis tx
  | .genesisDistribution _ _ => recoverGenesis tx
  | _ => recoverSigner env tx

lemma Operation.recoverFrom_genesis {op : Operation} {env : Env} {tx : Transaction} {a : Address}
    (hop : op.isGenesis = true) (h : op.recoverFrom env tx = .ok a) :
    tx.sign = [] ∧ a = genesisCoinbase := by
  have h : recoverGenesis tx = .ok a := by
    cases op <;> first | exact h | cases hop
  obtain ⟨_, hsign, h⟩ := bind_eq_ok_iff.1 h
  rw [failIf_eq_ok, not_not] at hsign
  exact ⟨hsign, (Except.ok.inj h).symm⟩

lemma Operation.recoverFrom_signer {op : Operation} {env : Env} {tx : Transaction} {a : Address}
    (hop : op.isGenesis = false) (h : op.recoverFrom env tx = .ok a) :
    tx.sign ≠ [] ∧ env.recoverPublic tx.hash tx.sign = some a := by
  have h : recoverSigner env tx = .ok a := by
    cases op <;> first | exact h | cases hop
  obtain ⟨_, hsign, h⟩ := bind_eq_ok_iff.1 h
  rw [failIf_eq_ok] at hsign
  rw [ofOption_eq_ok] at h
  exact ⟨hsign, h⟩

/-- `recoverFrom`. -/
def Transaction.recoverFrom (env : Env) (tx : Transaction) : Except Err Address := do
  let exeTx ← txConv env tx
  exeTx.op.recoverFrom env tx

/-- Who has signed does not depend on who is noted as recipient, sender and payer. -/
lemma Transaction.recoverFrom_congr (env : Env) (tx : Transaction) (t a p : Address) :
    Transaction.recoverFrom env { tx with toAddr := t, fromAddr := a, payer := p } =
      tx.recoverFrom env := by
  obtain ⟨hash, txType, toAddr, value, nonce, chainID, payload, sign, payerSign, receipt, fromAddr,
    payer⟩ := tx
  cases txType <;>
    simp only [Transaction.recoverFrom, txConv, newGenesisTx, newGenesisDistributionTx, newTransferTx,
      newAddRecordTx, newStakeTx, newUnstakeTx, newAddCertificationTx, newRevokeCertificationTx,
      newRegisterAliasTx, newDeregisterAliasTx, newBecomeCandidateTx, newQuitCandidateTx,
      newVoteTx, bind_assoc, pure_bind] <;> rfl

/-- `recoverPayer`. -/
def Transaction.recoverPayer (env : Env) (tx : Transaction) : Except Err Address := do
  failIf (tx.payerSign = []) .payerSignatureNotExist
  ofOption .recoverFailed (env.recoverPublic (env.payerSignTarget tx.hash tx.sign) tx.payerSign)

/-- The sender and the payer as `FromProto` sets them. -/
def Transaction.recover (env : Env) (tx : Transaction) : Except Err Transaction := do
  let fromAddr ← tx.recoverFrom env
  let tx := { tx with fromAddr := fromAddr }
  match tx.recoverPayer env with
  | .ok payer => return { tx with payer := payer }
  | .error e =>
    failIf (e ≠ .payerSignatureNotExist) .cannotRecoverPayer
    return { tx with payer := Address.none }

lemma Transaction.recover_spec {env : Env} {tx tx' : Transaction} (h : tx.recover env = .ok tx') :
    tx.recoverFrom env = .ok tx'.fromAddr ∧
      tx' = { tx with fromAddr := tx'.fromAddr, payer := tx'.payer } := by
  obtain ⟨fromAddr, hfrom, h⟩ := bind_eq_ok_iff.1 h
  dsimp only at h
  split at h
  · rw [← Except.ok.inj h]
    exact ⟨hfrom, rfl⟩
  · obtain ⟨-, -, h⟩ := bind_eq_ok_iff.1 h
    rw [← Except.ok.inj h]
    exact ⟨hfrom, rfl⟩

/-- `Transaction.VerifyIntegrity`: the transaction with its sender as recovered. -/
def Transaction.verifyIntegrity (env : Env) (chainID : UInt32) (tx : Transaction) :
    Except Err Transaction := do
  failIf (tx.chainID ≠ chainID) .invalidTxChainID
  let fromAddr ← tx.recoverFrom env
  let tx := { tx with fromAddr := fromAddr }
  failIf (tx.calcHash env ≠ tx.hash) .invalidTransactionHash
  return tx

/-- A transaction that passes `VerifyIntegrity` has the hash of its content. -/
lemma Transaction.verifyIntegrity_spec {env : Env} {chainID : UInt32} {tx tx' : Transaction}
    (h : tx.verifyIntegrity env chainID = .ok tx') :
    tx.chainID = chainID ∧ tx.recoverFrom env = .ok tx'.fromAddr ∧
      tx' = { tx with fromAddr := tx'.fromAddr } ∧ tx'.Hashed env := by
  obtain ⟨_, hchain, h⟩ := bind_eq_ok_iff.1 h
  obtain ⟨fromAddr, hfrom, h⟩ := bind_eq_ok_iff.1 h
  obtain ⟨_, hhash, h⟩ := bind_eq_ok_iff.1 h
  rw [failIf_eq_ok, not_not] at hchain hhash
  rw [← Except.ok.inj h]
  exact ⟨hchain, hfrom, rfl, hhash.symm⟩

end GoMedibloc
