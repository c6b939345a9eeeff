import GoMedibloc.Framework.FiniteSum
import GoMedibloc.Framework.Fallible
import GoMedibloc.Trie.Node

/-!
# Amounts, addresses and errors of the ledger

`Uint128` is the type of every amount: a number below `2 ^ 128` with checked operations.  Each
operation computes on unbounded integers and fails if the result does not fit, so an amount
never wraps around; the lemmas state what a result that is returned is, as an equation of
natural numbers.

Timestamps are `int64` seconds.  Differences of them, and their products with `time.Second`,
do wrap around; `wrap64` is that.
-/

namespace GoMedibloc

open Except

/-- The errors of the ledger. -/
inductive Err
  -- util
  | uint128Overflow
  | uint128Underflow
  | uint128InvalidBytesSize
  -- trie and account state
  | notFound
  | elapsedTimestamp
  | unauthorized
  -- transaction constructors
  | tooLargePayload
  | voidTransaction
  | cannotUseZeroValue
  | recordHashInvalid
  | certHashInvalid
  | aliasFirstLetter
  | aliasInvalidChar
  | aliasLengthUnderMinimum
  | aliasLengthExceedMaximum
  | failedToUnmarshalPayload
  | failedToMarshalPayload
  | checkPayloadIntegrity
  | invalidTransactionType
  -- execution of transactions
  | balanceNotEnough
  | stakingNotEnough
  | recordAlreadyAdded
  | certReceivedAlreadyAdded
  | certIssuedAlreadyAdded
  | certAlreadyRevoked
  | certAlreadyExpired
  | certRevokerInvalid
  | aliasAlreadyTaken
  | aliasAlreadyHave
  | aliasCollateralLimit
  | aliasNotExist
  | overMaxVote
  | duplicateVote
  | alreadyCandidate
  | notCandidate
  | notEnoughCandidateCollateral
  | notGenesisBlock
  | genesisDistributionAllowedOnce
  -- signatures and integrity of transactions
  | transactionSignatureNotExist
  | genesisSignShouldNotExist
  | recoverFailed
  | payerSignatureNotExist
  | cannotRecoverPayer
  | invalidTxChainID
  | invalidTransactionHash
  -- execution of blocks
  | nonceNotExecutable
  | exceedBlockMaxCPUUsage
  | exceedBlockMaxNetUsage
  | pointNotEnough
  | noTransactionReceipt
  | wrongReceipt
  | coinbaseNotSet
  | invalidCPUPrice
  | invalidNetPrice
  | invalidBlockReward
  | invalidBlockSupply
  | invalidBlockAccountsRoot
  | invalidBlockTxsRoot
  | invalidBlockDposRoot
  | invalidCPUUsage
  | wrongCPUUsage
  | invalidNetUsage
  | wrongNetUsage
  | invalidBlockHash
  | invalidBlockProposer
  | blockSignatureNotExist
  -- consensus
  | sameDynasty
  | invalidBlockInterval
deriving DecidableEq, Repr

/-- The text of an error, which goes into the receipt of a transaction whose execution
fails. -/
def Err.text : Err → String
  | .uint128Overflow => "uint128: overflow"
  | .uint128Underflow => "uint128: underflow"
  | .uint128InvalidBytesSize => "uint128: invalid bytes"
  | .notFound => "not found"
  | .elapsedTimestamp => "cannot calculate points for elapsed timestamp"
  | .unauthorized => "unauthorized request"
  | .tooLargePayload => "too large payload"
  | .voidTransaction => "nothing to do with transaction"
  | .cannotUseZeroValue => "value should be larger than zero"
  | .recordHashInvalid => "invalid record hash"
  | .certHashInvalid => "invalid certification hash"
  | .aliasFirstLetter => "first letter of alias name should not be a number"
  | .aliasInvalidChar => "aliasname must contain only lowercase letters and numbers"
  | .aliasLengthUnderMinimum => "aliasname is too short"
  | .aliasLengthExceedMaximum => "aliasname is too long "
  | .failedToUnmarshalPayload => "cannot unmarshal tx payload"
  | .failedToMarshalPayload => "cannot marshal tx payload to bytes"
  | .checkPayloadIntegrity => "payload has invalid elements"
  | .invalidTransactionType => "invalid transaction type"
  | .balanceNotEnough => "balance is not enough"
  | .stakingNotEnough => "staking is not enough"
  | .recordAlreadyAdded => "record hash already added"
  | .certReceivedAlreadyAdded => "hash of received cert already added"
  | .certIssuedAlreadyAdded => "hash of issued cert already added"
  | .certAlreadyRevoked => "cert to revoke has already been revoked"
  | .certAlreadyExpired => "cert to revoke has already been expired"
  | .certRevokerInvalid => "only issuer of the cert can revoke it"
  | .aliasAlreadyTaken => "already occupied alias"
  | .aliasAlreadyHave => "already have a alias name"
  | .aliasCollateralLimit => "not enough transaction value for alias collateral"
  | .aliasNotExist => "doesn't have any alias"
  | .overMaxVote => "too many vote"
  | .duplicateVote => "cannot vote multiple vote for same account"
  | .alreadyCandidate => "account is already a candidate"
  | .notCandidate => "account is not a candidate"
  | .notEnoughCandidateCollateral => "candidate collateral is not enough"
  | .notGenesisBlock => "block is not genesis"
  | .genesisDistributionAllowedOnce => "genesis Distribution is allowed once per account"
  | .transactionSignatureNotExist => "signature does not exist in the tx"
  | .genesisSignShouldNotExist => "genesis sign should not exist"
  | .recoverFailed => "recovery failed"
  | .payerSignatureNotExist => "payer signature does not exist in the tx"
  | .cannotRecoverPayer => "failed to recover payer from payer sign"
  | .invalidTxChainID => "invalid transaction chainID"
  | .invalidTransactionHash => "invalid transaction hash"
  | .nonceNotExecutable => "transaction nonce not executable"
  | .exceedBlockMaxCPUUsage => "transaction exceeds block's max cpu usage"
  | .exceedBlockMaxNetUsage => "transaction exceeds block's max net usage"
  | .pointNotEnough => "points are not enough"
  | .noTransactionReceipt => "failed to load transaction receipt"
  | .wrongReceipt => "transaction receipt is wrong in block data"
  | .coinbaseNotSet => "coinbase is not set"
  | .invalidCPUPrice => "invalid cpu price"
  | .invalidNetPrice => "invalid Net price"
  | .invalidBlockReward => "invalid reward"
  | .invalidBlockSupply => "invalid supply"
  | .invalidBlockAccountsRoot => "invalid account state root hash"
  | .invalidBlockTxsRoot => "invalid transactions state root hash"
  | .invalidBlockDposRoot => "invalid block dpos root hash"
  | .invalidCPUUsage => "block uses too much cpu bandwidth"
  | .wrongCPUUsage => "block cpu usage is not matched with sum of tx cpu usage"
  | .invalidNetUsage => "block ueses too much net bandwidth"
  | .wrongNetUsage => "block net usage is not matched with sum of tx net usage"
  | .invalidBlockHash => "invalid block hash"
  | .invalidBlockProposer => "invalid block proposer"
  | .blockSignatureNotExist => "block signature does not exist in the blockheader"
  | .sameDynasty => "new block is in same dynasty with parent block"
  | .invalidBlockInterval => "invalid block interval"

/-- The bytes of the text; every text is ASCII. -/
def Err.bytes (e : Err) : Bytes := e.text.toList.map fun c => c.toNat.toUInt8

/-! ## Amounts -/

/-- A number of 128 bits. -/
@[ext] structure Uint128 where
  val : ℕ
  lt : val < 2 ^ 128
deriving DecidableEq, Repr

namespace Uint128

variable {x y z : Uint128}

/-- `Validate`, for a result that is not negative. -/
def ofNat (n : ℕ) : Except Err Uint128 :=
  if h : n < 2 ^ 128 then .ok ⟨n, h⟩ else .error .uint128Overflow

/-- `Uint128Zero`. -/
def zero : Uint128 := ⟨0, by decide⟩

instance : Inhabited Uint128 := ⟨zero⟩

/-- `NewUint128FromUint`. -/
def ofUint (n : UInt64) : Uint128 := ⟨n.toNat, n.toNat_lt.trans (by decide)⟩

/-- `Add`. -/
def add (x y : Uint128) : Except Err Uint128 := ofNat (x.val + y.val)

/-- `Sub`. -/
def sub (x y : Uint128) : Except Err Uint128 :=
  if x.val < y.val then .error .uint128Underflow else ofNat (x.val - y.val)

/-- `Mul`. -/
def mul (x y : Uint128) : Except Err Uint128 := ofNat (x.val * y.val)

/-- `Div`, by a divisor that is not zero. -/
def div (x y : Uint128) : Except Err Uint128 := ofNat (x.val / y.val)

/-- `MulWithRat`: the product with a fraction, rounded down. -/
def mulWithRat (x : Uint128) (num denom : ℕ) : Except Err Uint128 := ofNat (x.val * num / denom)

@[simp] lemma zero_val : zero.val = 0 := rfl

lemma val_inj : x.val = y.val ↔ x = y := Uint128.ext_iff.symm

lemma ofNat_eq_ok {n : ℕ} : ofNat n = .ok z ↔ z.val = n := by
  unfold ofNat
  split_ifs with h
  · rw [Except.ok.injEq, Uint128.ext_iff]
    exact eq_comm
  · have hz := z.lt
    refine ⟨fun h => (by cases h), fun heq => absurd hz ?_⟩
    omega

@[simp] lemma add_eq_ok : x.add y = .ok z ↔ z.val = x.val + y.val := ofNat_eq_ok

@[simp] lemma mul_eq_ok : x.mul y = .ok z ↔ z.val = x.val * y.val := ofNat_eq_ok

@[simp] lemma div_eq_ok : x.div y = .ok z ↔ z.val = x.val / y.val := ofNat_eq_ok

@[simp] lemma mulWithRat_eq_ok {num denom : ℕ} :
    x.mulWithRat num denom = .ok z ↔ z.val = x.val * num / denom := ofNat_eq_ok

/-- A difference that is returned, without a subtraction of natural numbers. -/
@[simp] lemma sub_eq_ok : x.sub y = .ok z ↔ z.val + y.val = x.val := by
  unfold sub
  split_ifs with h
  · refine ⟨fun h => (by cases h), fun heq => absurd h ?_⟩
    omega
  · rw [ofNat_eq_ok]
    omega

/-- An operation whose result fits returns it. -/
lemma exists_ofNat {n : ℕ} (h : n < 2 ^ 128) : ∃ z, ofNat n = .ok z ∧ z.val = n :=
  ⟨⟨n, h⟩, by rw [ofNat_eq_ok], rfl⟩

lemma exists_add (h : x.val + y.val < 2 ^ 128) : ∃ z, x.add y = .ok z ∧ z.val = x.val + y.val :=
  exists_ofNat h

lemma exists_mul (h : x.val * y.val < 2 ^ 128) : ∃ z, x.mul y = .ok z ∧ z.val = x.val * y.val :=
  exists_ofNat h

lemma exists_div (x y : Uint128) : ∃ z, x.div y = .ok z ∧ z.val = x.val / y.val :=
  exists_ofNat ((Nat.div_le_self _ _).trans_lt x.lt)

lemma exists_sub (h : y.val ≤ x.val) : ∃ z, x.sub y = .ok z ∧ z.val + y.val = x.val := by
  have hx := x.lt
  have hlt : x.val - y.val < 2 ^ 128 := by omega
  have hval : (⟨x.val - y.val, hlt⟩ : Uint128).val + y.val = x.val := by
    dsimp only
    omega
  exact ⟨_, sub_eq_ok.2 hval, hval⟩

lemma sub_of_lt (h : x.val < y.val) : x.sub y = .error .uint128Underflow := if_pos h

lemma ofNat_of_le {n : ℕ} (h : 2 ^ 128 ≤ n) : ofNat n = .error .uint128Overflow :=
  dif_neg (by omega)

/-- A difference fails only by an underflow. -/
lemma sub_eq_error {e : Err} (h : x.sub y = .error e) : e = .uint128Underflow := by
  by_cases hlt : x.val < y.val
  · rw [sub_of_lt hlt] at h
    exact (Except.error.inj h).symm
  · obtain ⟨z, hz, -⟩ := exists_sub (not_lt.1 hlt)
    rw [hz] at h
    cases h

/-- The other operations fail only by an overflow. -/
lemma ofNat_eq_error {n : ℕ} {e : Err} (h : ofNat n = .error e) : e = .uint128Overflow := by
  by_cases hlt : n < 2 ^ 128
  · obtain ⟨z, hz, -⟩ := exists_ofNat hlt
    rw [hz] at h
    cases h
  · rw [ofNat_of_le (not_lt.1 hlt)] at h
    exact (Except.error.inj h).symm

lemma ofNat_ne_error {n : ℕ} {e : Err} (h : e ≠ .uint128Overflow) : ofNat n ≠ .error e :=
  fun heq => h (ofNat_eq_error heq)

lemma sub_ne_error {e : Err} (h : e ≠ .uint128Underflow) : x.sub y ≠ .error e :=
  fun heq => h (sub_eq_error heq)

end Uint128

namespace Uint128

/-- The last `n` bytes of a number, the highest first. -/
def bigEndian : ℕ → ℕ → Bytes
  | 0, _ => []
  | n + 1, x => bigEndian n (x / 256) ++ [x.toUInt8]

/-- `ToFixedSizeByteSlice`. -/
def toFixedSizeByteSlice (x : Uint128) : Bytes := bigEndian 16 x.val

/-- The number that bytes stand for, the highest byte first. -/
def ofBytes (b : Bytes) : ℕ := b.foldl (fun n x => 256 * n + x.toNat) 0

lemma foldl_lt (b : Bytes) (n : ℕ) :
    b.foldl (fun n x => 256 * n + x.toNat) n < (n + 1) * 256 ^ b.length := by
  induction b generalizing n with
  | nil => simp
  | cons x b ih =>
      have hx := x.toNat_lt
      refine (ih (256 * n + x.toNat)).trans_le ?_
      rw [List.length_cons, pow_succ, ← mul_assoc, mul_right_comm]
      exact Nat.mul_le_mul_right _ (by omega)

lemma ofBytes_lt {b : Bytes} (h : b.length = 16) : ofBytes b < 2 ^ 128 := by
  have hlt := foldl_lt b 0
  rw [h] at hlt
  exact hlt.trans_eq (by norm_num)

/-- `NewUint128FromFixedSizeByteSlice`. -/
def fromFixedSizeByteSlice (b : Bytes) : Except Err Uint128 :=
  if h : b.length = 16 then .ok ⟨ofBytes b, ofBytes_lt h⟩ else .error .uint128InvalidBytesSize

lemma length_bigEndian (n x : ℕ) : (bigEndian n x).length = n := by
  induction n generalizing x with
  | zero => rfl
  | succ n ih => simp [bigEndian, ih]

lemma ofBytes_bigEndian (n x : ℕ) : ofBytes (bigEndian n x) = x % 256 ^ n := by
  induction n generalizing x with
  | zero => simp [bigEndian, ofBytes, Nat.mod_one]
  | succ n ih =>
      have hlast : x.toUInt8.toNat = x % 256 := UInt8.toNat_ofNat'
      have ih' := ih (x / 256)
      rw [ofBytes] at ih'
      rw [bigEndian, ofBytes, List.foldl_append, ih', List.foldl_cons, List.foldl_nil, hlast,
        pow_succ', Nat.mod_mul]
      ring

/-- An amount that is encoded is decoded to itself. -/
lemma fromFixedSizeByteSlice_toFixedSizeByteSlice (x : Uint128) :
    fromFixedSizeByteSlice x.toFixedSizeByteSlice = .ok x := by
  have hlen : x.toFixedSizeByteSlice.length = 16 := length_bigEndian 16 _
  rw [fromFixedSizeByteSlice, dif_pos hlen, Except.ok.injEq, Uint128.ext_iff]
  dsimp only
  rw [toFixedSizeByteSlice, ofBytes_bigEndian]
  exact Nat.mod_eq_of_lt (x.lt.trans_eq (by norm_num))

end Uint128

/-! ## Addresses and times -/

/-- An address: the 33 bytes of a compressed public key. -/
abbrev Address := List.Vector UInt8 33

/-- The empty address, which stands for "no address". -/
def Address.none : Address := List.Vector.replicate 33 0

/-- `GenesisCoinbase`. -/
def genesisCoinbase : Address := List.Vector.replicate 33 0xff

/-- The value of an `int64` computation. -/
def wrap64 (n : ℤ) : ℤ := n.bmod (2 ^ 64)

lemma wrap64_of_range {n : ℤ} (h₁ : -2 ^ 63 ≤ n) (h₂ : n < 2 ^ 63) : wrap64 n = n := by
  apply Int.bmod_eq_of_le_mul_two <;> omega

/-- `time.Second`, in nanoseconds. -/
def timeSecond : ℤ := 1000000000

/-- Seven days, in seconds: `PointsRegenerateDuration` and `UnstakingWaitDuration`. -/
def sevenDays : ℤ := 604800

/-- `time.Duration(elapsed) * time.Second` is at least seven days. -/
def sevenDaysPassed (elapsed : ℤ) : Prop := sevenDays * timeSecond ≤ wrap64 (elapsed * timeSecond)

instance (elapsed : ℤ) : Decidable (sevenDaysPassed elapsed) :=
  inferInstanceAs (Decidable (_ ≤ _))

/-- No wrapping around for times below `2 ^ 33` seconds. -/
lemma sevenDaysPassed_iff {elapsed : ℤ} (h₀ : 0 ≤ elapsed) (h : elapsed < 2 ^ 33) :
    sevenDaysPassed elapsed ↔ sevenDays ≤ elapsed := by
  unfold sevenDaysPassed timeSecond sevenDays
  rw [wrap64_of_range (by omega) (by omega)]
  omega

end GoMedibloc
