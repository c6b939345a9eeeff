import GoMedibloc.Ledger.Effects

/-!
# Executing and accepting transactions

A block takes a transaction in two steps.  `executeTransaction` checks nonce, bandwidth and
points and executes the transaction; a failed execution is rolled back and still gives a
receipt.  `acceptTransaction` then raises the sender's nonce and charges the points.  The
sender and the payer are read as two copies of their accounts and both are put back, the payer
last.

At the end of a block the reward is paid to the coinbase, and a child block starts from the
state with new prices.
-/

namespace GoMedibloc

open Except

/-! ## The checks of a block -/

/-- `CPULimit`. -/
def cpuLimit : UInt64 := 3000000

/-- `NetLimit`. -/
def netLimit : UInt64 := 3000000

/-- `checkNonce`. -/
def checkNonce (s : BlockState) (tx : Transaction) : Except Err Unit := do
  let acc ← s.getAccount tx.fromAddr
  failIf (tx.nonce ≠ acc.nonce + 1) .nonceNotExecutable

/-- `checkBandwidthLimit`. -/
def checkBandwidthLimit (s : BlockState) (bw : Bandwidth) : Except Err Unit := do
  failIf (cpuLimit < s.cpuUsage + bw.cpuUsage) .exceedBlockMaxCPUUsage
  failIf (netLimit < s.netUsage + bw.netUsage) .exceedBlockMaxNetUsage

/-- `CalcPoints` with the prices of the block. -/
def Bandwidth.calcPoints (bw : Bandwidth) (s : BlockState) : Except Err Uint128 := do
  let cpuPoints ← s.cpuPrice.mul (.ofUint bw.cpuUsage)
  let netPoints ← s.netPrice.mul (.ofUint bw.netUsage)
  cpuPoints.add netPoints

/-- The points that `checkFromAccountPoint` expects the sender to have after the execution. -/
def availablePoint (acc : Account) (op : Operation) : Except Err Uint128 :=
  let change := op.pointChange
  match (if change.1 then acc.points.sub change.2 else acc.points.add change.2) with
  | .ok avail => .ok avail
  | .error e => if e = .uint128Underflow then .ok .zero else .error e

/-- `checkPayerAccountPoint`. -/
def checkPayerAccountPoint (payer : Account) (usage : Uint128) : Except Err Unit :=
  failIf (payer.points.val < usage.val) .pointNotEnough

/-- `checkFromAccountPoint`. -/
def checkFromAccountPoint (acc : Account) (op : Operation) (usage : Uint128) :
    Except Err Unit := do
  let avail ← availablePoint acc op
  failIf (avail.val < usage.val) .pointNotEnough

/-- `checkAvailablePoint`. -/
def checkAvailablePoint (s : BlockState) (tx : Transaction) (op : Operation) (usage : Uint128) :
    Except Err Unit :=
  if tx.hasPayer then do
    let payer ← s.getAccount tx.payer
    checkPayerAccountPoint payer usage
  else do
    let acc ← s.getAccount tx.fromAddr
    checkFromAccountPoint acc op usage

/-! ## Transactions -/

/-- `Atomic`: the changes of a function that fails are rolled back. -/
def atomic (f : BlockState → Except Err BlockState) (s : BlockState) : Option Err × BlockState :=
  match f s with
  | .ok s' => (none, s')
  | .error e => (some e, s)

/-- `makeSuccessReceipt` and `makeErrorReceipt`. -/
def makeReceipt (height : ℕ) (timestamp : ℤ) (bw : Bandwidth) (points : Uint128)
    (execErr : Option Err) : Receipt where
  executed := execErr.isNone
  timestamp := timestamp
  height := height
  cpuUsage := bw.cpuUsage
  netUsage := bw.netUsage
  points := points
  error := execErr.elim [] Err.bytes

/-- `ExecuteTransaction`, in a block of the given height. -/
def executeTransaction (env : Env) (height : ℕ) (tx : Transaction) (s : BlockState) :
    Except Err (Receipt × BlockState) := do
  let exeTx ← txConv env tx
  checkNonce s tx
  checkBandwidthLimit s exeTx.bandwidth
  let usage ← exeTx.bandwidth.calcPoints s
  checkAvailablePoint s tx exeTx.op usage
  let result := atomic (exeTx.op.execute height) s
  return (makeReceipt height s.timestamp exeTx.bandwidth usage result.1, result.2)

/-- Record an accepted transaction and the bandwidth of its receipt. -/
def BlockState.record (s : BlockState) (tx : Transaction) (r : Receipt) : BlockState :=
  { s.putTx tx with
    cpuUsage := s.cpuUsage + r.cpuUsage
    netUsage := s.netUsage + r.netUsage }

/-- `AcceptTransaction`. -/
def acceptTransaction (tx : Transaction) (s : BlockState) : Except Err BlockState := do
  let r ← ofOption .noTransactionReceipt tx.receipt
  let acc ← s.getAccount tx.fromAddr
  let acc := { acc with nonce := acc.nonce + 1 }
  if tx.hasPayer then
    let payer ← s.getAccount tx.payer
    let points ← payer.points.sub r.points
    return ((s.putAccount acc).putAccount { payer with points := points }).record tx r
  else
    let points ← acc.points.sub r.points
    return (s.putAccount { acc with points := points }).record tx r

/-! ## Rewards and prices -/

/-- `calcMintReward`; `InflationRate` is 464 / 100000000000 and `InflationRoundDown` is
10000000000. -/
def calcMintReward (parentSupply : Uint128) : Except Err Uint128 := do
  let reward ← parentSupply.mulWithRat 464 100000000000
  let reward ← reward.div (.ofUint 10000000000)
  reward.mul (.ofUint 10000000000)

/-- `PayReward`. -/
def payReward (coinbase : Address) (parentSupply : Uint128) (s : BlockState) :
    Except Err BlockState := do
  failIf (coinbase = Address.none) .coinbaseNotSet
  let reward ← calcMintReward parentSupply
  let supply ← parentSupply.add reward
  let acc ← s.getAccount coinbase
  let balance ← acc.balance.add reward
  return { s.putAccount { acc with balance := balance } with reward := reward, supply := supply }

/-- `cpuThreshold` and `netThreshold`. -/
def usageThreshold (limit : UInt64) : UInt64 := limit * 5 / 10

/-- `minPricePerBandwidth`. -/
def minPricePerBandwidth (supply : Uint128) (limit : UInt64) : Except Err Uint128 := do
  let supplyPerBlock ← supply.div (.ofUint 201600)
  let supplyPerBandwidth ← supplyPerBlock.div (.ofUint limit)
  supplyPerBandwidth.mulWithRat 1 100

/-- `calcPrice`. -/
def calcPrice (limit usage : UInt64) (price supply : Uint128) : Except Err Uint128 := do
  let newPrice ← if usage ≤ usageThreshold limit then price.mulWithRat 95 100
    else price.mulWithRat 105 100
  let minPrice ← minPricePerBandwidth supply limit
  return if newPrice.val < minPrice.val then minPrice else newPrice

/-- The state of a child block: `InitChild` with the timestamp of the child.  Usages, prices and
supply of the parent are those of its header, which `Seal` takes from the state and
`verifyState` compares with it. -/
def BlockState.initChild (s : BlockState) (timestamp : ℤ) : Except Err BlockState := do
  let cpuPrice ← calcPrice cpuLimit s.cpuUsage s.cpuPrice s.supply
  let netPrice ← calcPrice netLimit s.netUsage s.netPrice s.supply
  return { s with
    timestamp := timestamp
    cpuUsage := 0
    netUsage := 0
    cpuPrice := cpuPrice
    netPrice := netPrice }

end GoMedibloc
