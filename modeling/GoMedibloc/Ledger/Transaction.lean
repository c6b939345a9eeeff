import GoMedibloc.Ledger.Account

/-!
# Transactions and receipts

A transaction is what the sender has signed together with two addresses that are not part of
its encoding: the sender and the payer, recovered from the signatures when the transaction is
decoded.  Its hash covers type, sender, recipient, value, nonce, chain and payload, and neither
of the signatures; its size is that of its encoding without the receipt.

`Env` gathers what the ledger takes from outside: SHA3-256 over the marshalled hash target,
the length of a marshalled transaction, signature recovery, and the protobuf encodings of the
payloads.  The hash is assumed collision free and never empty, and no public key is recovered from
an empty message.  Nothing else is assumed about recovery and the payloads.
-/

namespace GoMedibloc

open Except

/-- The registered transaction types, and any other name. -/
inductive TxType
  | genesis
  | genesisDistribution
  | transfer
  | addRecord
  | stake
  | unstake
  | addCertification
  | revokeCertification
  | registerAlias
  | deregisterAlias
  | becomeCandidate
  | quitCandidacy
  | vote
  | other (name : String)
deriving DecidableEq, Repr

/-- A receipt. -/
structure Receipt where
  executed : Bool
  timestamp : ℤ
  height : ℕ
  cpuUsage : UInt64
  netUsage : UInt64
  points : Uint128
  error : Bytes
deriving DecidableEq, Repr

/-- `Receipt.Equal`. -/
def Receipt.equal (r obj : Receipt) : Bool :=
  r.executed == obj.executed && r.timestamp == obj.timestamp && r.height == obj.height &&
    r.cpuUsage == obj.cpuUsage && r.netUsage == obj.netUsage && r.points.val == obj.points.val &&
    r.error == obj.error

/-- Receipts that are equal by `Equal` are equal. -/
lemma Receipt.equal_iff {r obj : Receipt} : r.equal obj = true ↔ r = obj := by
  cases r
  cases obj
  simp only [equal, Bool.and_eq_true, beq_iff_eq, Uint128.val_inj, Receipt.mk.injEq, and_assoc]

/-- A transaction. -/
structure Transaction where
  hash : Bytes
  txType : TxType
  toAddr : Address
  value : Uint128
  nonce : UInt64
  chainID : UInt32
  payload : Bytes
  sign : Bytes
  payerSign : Bytes
  receipt : Option Receipt
  fromAddr : Address
  payer : Address
deriving DecidableEq

/-- What the hash of a transaction covers, `corepb.TransactionHashTarget`. -/
structure TxHashTarget where
  txType : TxType
  fromAddr : Address
  toAddr : Address
  value : Uint128
  nonce : UInt64
  chainID : UInt32
  payload : Bytes
deriving DecidableEq

/-- What is encoded of a transaction besides its receipt. -/
structure TxBody where
  hash : Bytes
  txType : TxType
  toAddr : Address
  value : Uint128
  nonce : UInt64
  chainID : UInt32
  payload : Bytes
  sign : Bytes
  payerSign : Bytes
deriving DecidableEq

/-- The protobuf encoding of a payload. -/
structure PayloadCodec (P : Type) where
  fromBytes : Bytes → Option P
  toBytes : P → Option Bytes

/-- The payload of an `add_certification` transaction. -/
structure AddCertificationPayload where
  issueTime : ℤ
  expirationTime : ℤ
  certificateHash : Bytes

/-- What the ledger takes from outside. -/
structure Env where
  /-- SHA3-256 of the marshalled hash target -/
  txHash : TxHashTarget → Bytes
  txHash_injective : Function.Injective txHash
  txHash_ne_nil : ∀ t, txHash t ≠ []
  /-- the length of a marshalled transaction without its receipt -/
  bodySize : TxBody → ℕ
  bodySize_lt : ∀ b, bodySize b < 2 ^ 63
  /-- the address of the public key that `RecoverPublic` finds for a message and a signature -/
  recoverPublic : Bytes → Bytes → Option Address
  /-- `RecoverPubkey` refuses messages of another length than 32 -/
  recoverPublic_nil : ∀ sign, recoverPublic [] sign = none
  /-- SHA3-256 of a marshalled hash and signature, which the payer signs -/
  payerSignTarget : Bytes → Bytes → Bytes
  defaultPayload : PayloadCodec Bytes
  addRecordPayload : PayloadCodec Bytes
  addCertificationPayload : PayloadCodec AddCertificationPayload
  revokeCertificationPayload : PayloadCodec Bytes
  registerAliasPayload : PayloadCodec Bytes
  becomeCandidatePayload : PayloadCodec Bytes
  votePayload : PayloadCodec (List Bytes)

namespace Transaction

/-- `HasPayer`. -/
def hasPayer (tx : Transaction) : Prop := tx.payer ≠ Address.none

instance (tx : Transaction) : Decidable tx.hasPayer := inferInstanceAs (Decidable (_ ≠ _))

/-- `PayerOrFrom`. -/
def payerOrFrom (tx : Transaction) : Address := if tx.hasPayer then tx.payer else tx.fromAddr

/-- `SetReceipt`. -/
def setReceipt (tx : Transaction) (r : Receipt) : Transaction := { tx with receipt := some r }

/-- The hash target of a transaction. -/
def hashTarget (tx : Transaction) : TxHashTarget :=
  ⟨tx.txType, tx.fromAddr, tx.toAddr, tx.value, tx.nonce, tx.chainID, tx.payload⟩

/-- `CalcHash`. -/
def calcHash (env : Env) (tx : Transaction) : Bytes := env.txHash tx.hashTarget

/-- The encoded fields of a transaction besides its receipt. -/
def body (tx : Transaction) : TxBody :=
  ⟨tx.hash, tx.txType, tx.toAddr, tx.value, tx.nonce, tx.chainID, tx.payload, tx.sign,
    tx.payerSign⟩

/-- `Size`. -/
def size (env : Env) (tx : Transaction) : ℕ := env.bodySize tx.body

/-- A transaction whose hash is that of its content. -/
def Hashed (env : Env) (tx : Transaction) : Prop := tx.hash = tx.calcHash env

end Transaction

/-! ## A plain environment -/

namespace Plain

/-- A type as bytes. -/
def typeCode : TxType → Bytes
  | .genesis => [0]
  | .genesisDistribution => [1]
  | .transfer => [2]
  | .addRecord => [3]
  | .stake => [4]
  | .unstake => [5]
  | .addCertification => [6]
  | .revokeCertification => [7]
  | .registerAlias => [8]
  | .deregisterAlias => [9]
  | .becomeCandidate => [10]
  | .quitCandidacy => [11]
  | .vote => [12]
  | .other name => 13 :: name.toByteArray.data.toList

lemma typeCode_injective : Function.Injective typeCode := by
  intro x y h
  cases x <;> cases y <;> simp [typeCode] at h ⊢
  exact String.toByteArray_inj.1 (ByteArray.ext h)

/-- Bytes with a mark before each and at the end. -/
def framed : Bytes → Bytes
  | [] => [0]
  | b :: l => 1 :: b :: framed l

lemma framed_append_inj {l l' r r' : Bytes} (h : framed l ++ r = framed l' ++ r') :
    l = l' ∧ r = r' := by
  induction l generalizing l' with
  | nil =>
      cases l' with
      | nil => simpa [framed] using h
      | cons b' l' => simp [framed] at h
  | cons b l ih =>
      cases l' with
      | nil => simp [framed] at h
      | cons b' l' =>
          simp only [framed, List.cons_append, List.cons.injEq, true_and] at h
          obtain ⟨rfl, h⟩ := h
          obtain ⟨rfl, rfl⟩ := ih h
          exact ⟨rfl, rfl⟩

lemma bigEndian_inj {n x y : ℕ} (hx : x < 256 ^ n) (hy : y < 256 ^ n)
    (h : Uint128.bigEndian n x = Uint128.bigEndian n y) : x = y := by
  have heq := congrArg Uint128.ofBytes h
  rwa [Uint128.ofBytes_bigEndian, Uint128.ofBytes_bigEndian, Nat.mod_eq_of_lt hx,
    Nat.mod_eq_of_lt hy] at heq

/-- The content of a hash target as bytes. -/
def digest (t : TxHashTarget) : Bytes :=
  t.fromAddr.toList ++ (t.toAddr.toList ++ (t.value.toFixedSizeByteSlice ++
    (Uint128.bigEndian 8 t.nonce.toNat ++ (Uint128.bigEndian 4 t.chainID.toNat ++
      (framed t.payload ++ typeCode t.txType)))))

lemma digest_injective : Function.Injective digest := by
  intro t t' h
  obtain ⟨hfrom, h⟩ := List.append_inj h (by simp)
  obtain ⟨hto, h⟩ := List.append_inj h (by simp)
  obtain ⟨hvalue, h⟩ := List.append_inj h (by
    simp only [Uint128.toFixedSizeByteSlice, Uint128.length_bigEndian])
  obtain ⟨hnonce, h⟩ := List.append_inj h (by simp only [Uint128.length_bigEndian])
  obtain ⟨hchain, h⟩ := List.append_inj h (by simp only [Uint128.length_bigEndian])
  obtain ⟨hpayload, htype⟩ := framed_append_inj h
  have hvalue' := bigEndian_inj (t.value.lt.trans_eq (by norm_num))
    (t'.value.lt.trans_eq (by norm_num)) hvalue
  have hnonce' := bigEndian_inj (t.nonce.toNat_lt.trans_eq (by norm_num))
    (t'.nonce.toNat_lt.trans_eq (by norm_num)) hnonce
  have hchain' := bigEndian_inj (t.chainID.toNat_lt.trans_eq (by norm_num))
    (t'.chainID.toNat_lt.trans_eq (by norm_num)) hchain
  rw [TxHashTarget.mk.injEq]
  exact ⟨typeCode_injective htype, Subtype.ext hfrom, Subtype.ext hto, Uint128.ext hvalue',
    UInt64.toNat_inj.1 hnonce', UInt32.toNat_inj.1 hchain', hpayload⟩

/-- The bytes as they are. -/
def payload : PayloadCodec Bytes := ⟨some, some⟩

end Plain

/-- A plain environment: a hash is the hashed content itself, a signature is the address of its
signer, and payloads are bytes as they are, of at most one candidate in a vote and of a
certificate that expires at 1000. -/
def Env.plain : Env where
  txHash := Plain.digest
  txHash_injective := Plain.digest_injective
  txHash_ne_nil t := by
    intro h
    have hlen := congrArg List.length h
    simp [Plain.digest] at hlen
  bodySize _ := 300
  bodySize_lt _ := by norm_num
  recoverPublic msg sign :=
    if h : msg ≠ [] ∧ sign.length = 33 then some ⟨sign, h.2⟩ else none
  recoverPublic_nil _ := rfl
  payerSignTarget hash sign := hash ++ sign
  defaultPayload := Plain.payload
  addRecordPayload := Plain.payload
  addCertificationPayload := ⟨fun b => some ⟨0, 1000, b⟩, fun p => some p.certificateHash⟩
  revokeCertificationPayload := Plain.payload
  registerAliasPayload := Plain.payload
  becomeCandidatePayload := Plain.payload
  votePayload := ⟨fun b => some (if b = [] then [] else [b]), fun l => some l.flatten⟩

namespace Plain

/-- An address of equal bytes. -/
def address (b : UInt8) : Address := List.Vector.replicate 33 b

/-- The transaction of a hash target in the plain environment, signed by its sender. -/
def signed (t : TxHashTarget) : Transaction :=
  ⟨digest t, t.txType, t.toAddr, t.value, t.nonce, t.chainID, t.payload, t.fromAddr.toList, [],
    none, t.fromAddr, Address.none⟩

/-- An unsigned transaction that distributes tokens in the genesis block. -/
def distribution (nonce : UInt64) (target : Address) (value : Uint128) : Transaction :=
  { signed ⟨.genesisDistribution, genesisCoinbase, target, value, nonce, 0, []⟩ with sign := [] }

end Plain

end GoMedibloc
