import GoMedibloc.Framework.Program
import GoMedibloc.Pool.Views
import GoMedibloc.Pool.Waiting

/-!
# The transaction manager

The manager puts an incoming transaction into the pending pool, or into the future pool if its nonce
is above the pending pool's limit for the sender.  After a transaction has become pending, and after
the pools have been pruned, `transit` is to move the sender's transactions from the future pool to
the pending pool as far as the limit allows now.

To move a transaction the manager deletes it from the future pool with `Del`.  But `Del` gives up if
the pool has the transaction, and there is nothing to delete if it has not, so it never deletes
anything and `transit` never moves anything (`transit_keeps`).  `promotion_complete_iff` says what
follows: nothing within the limit is left waiting if and only if nothing within the limit has been
waiting to begin with.

The functions of the future pool read the hash, the sender and the nonce of a transaction, and the
model of `Chain.FuturePool` has transactions without their contexts; `waiting` has the contexts by
hash.  Marshalling a transaction for the network does not fail, and what the network does with it
is left out.
-/

namespace GoMedibloc

open Except Prog Finmap

variable {env : Env}

/-! ## The manager -/

/-- `TransactionManager`. -/
structure TransactionManager (env : Env) where
  chainID : UInt32
  pendingPool : PendingPool env
  futurePool : FuturePool
  waiting : Finmap fun _ : Bytes => TxContext env

/-- The errors of the manager. -/
inductive ManagerErr
  | ledger (e : Err)
  | pending (e : PendingErr)
  | poolFull
deriving DecidableEq

/-- `VerifyIntegrity` of a transaction that came in; it writes the sender that it recovers into the
transaction. -/
def TxContext.verifyIntegrity (txc : TxContext env) (chainID : UInt32) :
    Except Err (TxContext env) := do
  let tx ← txc.tx.verifyIntegrity env chainID
  newTxContext env tx txc.incomeTime txc.broadcast

/-- `CalcChildPrice`. -/
def BlockState.calcChildPrice (tail : BlockState) : Except Err Price := do
  let cpuPrice ← calcPrice cpuLimit tail.cpuUsage tail.cpuPrice tail.supply
  let netPrice ← calcPrice netLimit tail.netUsage tail.netPrice tail.supply
  return ⟨cpuPrice, netPrice⟩

/-- `getFromAndPayerAccount`.  Without a payer the second account is not read. -/
def getFromAndPayerAccount (tail : BlockState) (txc : TxContext env) :
    Except Err (Account × Account) := do
  let acc ← tail.getAccount txc.fromAddr
  if txc.tx.hasPayer then
    let payer ← tail.getAccount txc.tx.payer
    return (acc, payer)
  else return (acc, acc)

namespace TransactionManager

/-- `NewTransactionManager`. -/
def new (chainID : UInt32) (size : ℕ) : TransactionManager env := ⟨chainID, .new, .new size, ∅⟩

/-- `pushToPendingAndBroadcast`. -/
def pushToPendingAndBroadcast (txc : TxContext env) (accounts : Account × Account) (price : Price)
    (now : ℤ) : Prog (TransactionManager env) ManagerErr Unit := do
  let tm ← read
  let pool ← lift ((tm.pendingPool.pushOrReplace txc accounts.1 accounts.2 price now).mapError
    .pending)
  update fun tm => { tm with pendingPool := pool }

/-- The transaction goes to the future pool, if it is not evicted at once. -/
def setFuture (txc : TxContext env) : Prog (TransactionManager env) ManagerErr Bool := do
  let tm ← read
  let evicted := tm.futurePool.set txc.tx
  update fun tm => { tm with
    futurePool := evicted.2
    waiting := if tm.futurePool.exist txc.hash then tm.waiting
      else tm.waiting.insert txc.hash txc }
  if evicted.1.any (·.hash = txc.hash) then fail .poolFull else return false

/-- `pushToPool`: whether the transaction entered the pending pool. -/
def pushToPool (tail : BlockState) (txc : TxContext env) (now : ℤ) :
    Prog (TransactionManager env) ManagerErr Bool := do
  let accounts ← lift ((getFromAndPayerAccount tail txc).mapError .ledger)
  let price ← lift (tail.calcChildPrice.mapError .ledger)
  let tm ← read
  if tm.pendingPool.nonceUpperLimit accounts.1 < txc.nonce then setFuture txc
  else do
    pushToPendingAndBroadcast txc accounts price now
    return true

/-- `moveBetweenPool`: whether there may be more to move. -/
def moveBetweenPool (tail : BlockState) (txc : TxContext env) (now : ℤ) :
    Prog (TransactionManager env) ManagerErr Bool := do
  let accounts ← lift ((getFromAndPayerAccount tail txc).mapError .ledger)
  let price ← lift (tail.calcChildPrice.mapError .ledger)
  let tm ← read
  if tm.pendingPool.nonceUpperLimit accounts.1 < txc.nonce then return false
  else do
    let deleted := tm.futurePool.del txc.tx
    update fun tm => { tm with futurePool := deleted.2 }
    if deleted.1 then do
      pushToPendingAndBroadcast txc accounts price now
      return true
    else return false

/-- `PeekLowerNonce`. -/
def peekLowerNonce (tm : TransactionManager env) (addr : Address) : Option (TxContext env) :=
  ((tm.futurePool.buckets.get addr).bind Bucket.peekFirst).bind fun tx => tm.waiting.lookup tx.hash

/-- The loop of `transit`. -/
def transitLoop (tail : BlockState) (addr : Address) (now : ℤ) :
    ℕ → Prog (TransactionManager env) ManagerErr Unit
  | 0 => return ()
  | fuel + 1 => do
    let tm ← read
    match tm.peekLowerNonce addr with
    | none => return ()
    | some txc =>
      moveBetweenPool tail txc now >>= fun keepMoving =>
        if keepMoving then transitLoop tail addr now fuel else return ()

/-- `transit`.  A round that goes on has taken a transaction out of the future pool. -/
def transit (tail : BlockState) (addr : Address) (now : ℤ) :
    Prog (TransactionManager env) ManagerErr Unit := do
  let tm ← read
  transitLoop tail addr now (tm.futurePool.len + 1)

/-- `push`, for the block at the tail of the chain.  It returns whether the transaction entered the
pending pool, which is a local variable of the source. -/
def push (tail : BlockState) (txc : TxContext env) (now : ℤ) :
    Prog (TransactionManager env) ManagerErr Bool := do
  let tm ← read
  let txc ← lift ((txc.verifyIntegrity tm.chainID).mapError .ledger)
  let enterPending ← pushToPool tail txc now
  if enterPending then do
    transit tail txc.fromAddr now
    return true
  else return false

/-- `DelByAddressNonce`. -/
def delByAddressNonce (tail : BlockState) (addr : Address) (nonce : UInt64) (now : ℤ) :
    Prog (TransactionManager env) ManagerErr Unit := do
  let tm ← read
  let pool ← lift ((tm.pendingPool.prune addr nonce).mapError .pending)
  update fun tm => { tm with
    pendingPool := pool
    futurePool := (tm.futurePool.prune addr nonce).2 }
  transit tail addr now

/-! ## Nothing is moved -/

variable {tm tm' : TransactionManager env} {S : Set (TxContext env)} {tail : BlockState}
  {txc : TxContext env} {addr : Address} {acc : Account} {now : ℤ}

/-- Moving a transaction ends at `Del`, and leaves everything as it is. -/
lemma moveBetweenPool_keeps (tm : TransactionManager env) (tail : BlockState)
    (txc : TxContext env) (now : ℤ) :
    (moveBetweenPool tail txc now tm).2 = tm ∧ (moveBetweenPool tail txc now tm).1 ≠ .ok true := by
  unfold moveBetweenPool
  cases haccounts : (getFromAndPayerAccount tail txc).mapError ManagerErr.ledger with
  | error e => exact ⟨rfl, nofun⟩
  | ok accounts =>
      rw [bind_of_ok (lift_eq_ok.2 ⟨rfl, rfl⟩)]
      cases hprice : tail.calcChildPrice.mapError ManagerErr.ledger with
      | error e => exact ⟨rfl, nofun⟩
      | ok price =>
          rw [bind_of_ok (lift_eq_ok.2 ⟨rfl, rfl⟩), read_bind, FuturePool.del_eq]
          split_ifs
          · exact ⟨rfl, nofun⟩
          · exact ⟨rfl, nofun⟩

/-- **Nothing is moved.**  `transit` leaves both pools as they are. -/
lemma transit_keeps (tm : TransactionManager env) (tail : BlockState) (addr : Address) (now : ℤ) :
    (transit tail addr now tm).2 = tm := by
  change (transitLoop tail addr now (tm.futurePool.len + 1) tm).2 = tm
  rw [transitLoop, read_bind]
  cases hpeek : tm.peekLowerNonce addr with
  | none => rfl
  | some txc =>
      obtain ⟨hkeeps, hstop⟩ := moveBetweenPool_keeps tm tail txc now
      dsimp only
      rw [bind_apply]
      cases hmove : moveBetweenPool tail txc now tm with
      | mk result tm' =>
          rw [hmove] at hkeeps hstop
          obtain rfl : tm' = tm := hkeeps
          cases result with
          | error e => rfl
          | ok keepMoving =>
              cases keepMoving with
              | true => exact absurd rfl hstop
              | false => rfl

/-- A transaction that goes to the future pool has not entered the pending pool. -/
lemma setFuture_spec (tm : TransactionManager env) (txc : TxContext env) :
    (setFuture txc tm).1 ≠ .ok true ∧ (setFuture txc tm).2.pendingPool = tm.pendingPool ∧
      (setFuture txc tm).2.futurePool = (tm.futurePool.set txc.tx).2 := by
  unfold setFuture
  rw [read_bind, update_bind]
  by_cases hevicted : ((tm.futurePool.set txc.tx).1.any fun tx => tx.hash = txc.hash) = true
  · rw [if_pos hevicted]
    exact ⟨nofun, rfl, rfl⟩
  · rw [if_neg hevicted]
    exact ⟨nofun, rfl, rfl⟩

/-- What `push` does for a transaction that enters the pending pool. -/
lemma push_eq_ok (h : push tail txc now tm = (.ok true, tm')) :
    ∃ txc' accounts price pool, txc.verifyIntegrity tm.chainID = .ok txc' ∧
      getFromAndPayerAccount tail txc' = .ok accounts ∧
      tm.pendingPool.pushOrReplace txc' accounts.1 accounts.2 price now = .ok pool ∧
      tm' = { tm with pendingPool := pool } := by
  unfold push at h
  rw [read_bind] at h
  obtain ⟨txc', tm₀, hverify, h₁⟩ := bind_eq_ok.1 h
  obtain ⟨htxc, rfl⟩ := lift_eq_ok.1 hverify
  obtain ⟨enterPending, tm₁, hpush, h₂⟩ := bind_eq_ok.1 h₁
  cases enterPending with
  | false => cases h₂
  | true =>
      rw [if_pos rfl] at h₂
      obtain ⟨_, tm₂, htransit, h₃⟩ := bind_eq_ok.1 h₂
      obtain rfl : tm₁ = tm₂ := by
        have hkeeps := transit_keeps tm₁ tail txc'.fromAddr now
        rw [htransit] at hkeeps
        exact hkeeps.symm
      obtain rfl : tm₁ = tm' := congrArg Prod.snd h₃
      unfold pushToPool at hpush
      obtain ⟨accounts, tm₃, hread, h₄⟩ := bind_eq_ok.1 hpush
      obtain ⟨haccounts, rfl⟩ := lift_eq_ok.1 hread
      obtain ⟨price, tm₄, hread', h₅⟩ := bind_eq_ok.1 h₄
      obtain ⟨-, rfl⟩ := lift_eq_ok.1 hread'
      rw [read_bind] at h₅
      split_ifs at h₅ with hlimit
      · -- a transaction that waits has not entered the pending pool
        have hwaits := (setFuture_spec tm₄ txc').1
        rw [h₅] at hwaits
        exact absurd rfl hwaits
      · obtain ⟨_, tm₅, hpending, h₆⟩ := bind_eq_ok.1 h₅
        obtain rfl : tm₅ = tm₁ := congrArg Prod.snd h₆
        unfold pushToPendingAndBroadcast at hpending
        rw [read_bind] at hpending
        obtain ⟨pool, tm₆, hpool, h₇⟩ := bind_eq_ok.1 hpending
        obtain ⟨hpool, rfl⟩ := lift_eq_ok.1 hpool
        exact ⟨txc', accounts, price, pool, mapError_eq_ok.1 htxc, mapError_eq_ok.1 haccounts,
          mapError_eq_ok.1 hpool, (congrArg Prod.snd h₇).symm⟩

/-- What `DelByAddressNonce` does: both pools are pruned. -/
lemma delByAddressNonce_eq_ok {nonce : UInt64}
    (h : delByAddressNonce tail addr nonce now tm = (.ok (), tm')) :
    ∃ pool, tm.pendingPool.prune addr nonce = .ok pool ∧ tm' = { tm with
      pendingPool := pool
      futurePool := (tm.futurePool.prune addr nonce).2 } := by
  unfold delByAddressNonce at h
  rw [read_bind] at h
  obtain ⟨pool, tm₀, hprune, h₁⟩ := bind_eq_ok.1 h
  obtain ⟨hpool, rfl⟩ := lift_eq_ok.1 hprune
  rw [update_bind] at h₁
  refine ⟨pool, mapError_eq_ok.1 hpool, ?_⟩
  have hkeeps := transit_keeps { tm₀ with
    pendingPool := pool
    futurePool := (tm₀.futurePool.prune addr nonce).2 } tail addr now
  rw [h₁] at hkeeps
  exact hkeeps

/-! ## The state of the two pools -/

/-- The pending pool has the transactions of a set, and what is in a bucket of the future pool is
listed.  Every state of the manager is like this. -/
structure Sound (tm : TransactionManager env) (S : Set (TxContext env)) : Prop where
  pending : tm.pendingPool.Ok S
  future : tm.futurePool.Listed

lemma sound_new (chainID : UInt32) (size : ℕ) :
    (new chainID size : TransactionManager env).Sound ∅ :=
  ⟨PendingPool.ok_new, FuturePool.listed_new size⟩

lemma keeps_pushToPendingAndBroadcast (txc : TxContext env) (accounts : Account × Account)
    (price : Price) (now : ℤ) :
    Keeps (fun tm => ∃ S, Sound tm S) (pushToPendingAndBroadcast txc accounts price now) := by
  rintro tm ⟨S, h⟩
  unfold pushToPendingAndBroadcast
  rw [read_bind]
  cases hpool : tm.pendingPool.pushOrReplace txc accounts.1 accounts.2 price now with
  | error e => exact ⟨S, h⟩
  | ok pool => exact ⟨_, h.pending.pushOrReplace hpool, h.future⟩

lemma keeps_transit (tail : BlockState) (addr : Address) (now : ℤ) :
    Keeps (fun tm : TransactionManager env => ∃ S, Sound tm S) (transit tail addr now) := by
  intro tm h
  rwa [transit_keeps]

/-- Pushing keeps the pools sound, whatever becomes of the transaction. -/
lemma keeps_push (tail : BlockState) (txc : TxContext env) (now : ℤ) :
    Keeps (fun tm => ∃ S, Sound tm S) (push tail txc now) := by
  refine (keeps_read _).bind fun tm => (keeps_lift _ _).bind fun txc' => Keeps.bind ?_
    fun enterPending => ?_
  · refine (keeps_lift _ _).bind fun accounts => (keeps_lift _ _).bind fun price =>
      (keeps_read _).bind fun tm' => ?_
    split_ifs
    · rintro tm ⟨S, h⟩
      obtain ⟨-, hpending, hfuture⟩ := setFuture_spec tm txc'
      exact ⟨S, hpending ▸ h.pending, hfuture ▸ h.future.set _⟩
    · exact (keeps_pushToPendingAndBroadcast _ _ _ _).bind fun _ => keeps_pure _ _
  · split_ifs
    · exact (keeps_transit _ _ _).bind fun _ => keeps_pure _ _
    · exact keeps_pure _ _

/-- So does pruning. -/
lemma keeps_delByAddressNonce (tail : BlockState) (addr : Address) (nonce : UInt64) (now : ℤ) :
    Keeps (fun tm : TransactionManager env => ∃ S, Sound tm S)
      (delByAddressNonce tail addr nonce now) := by
  rintro tm ⟨S, h⟩
  obtain ⟨pool, hpool, hok, -⟩ := h.pending.prune addr nonce
  unfold delByAddressNonce
  rw [read_bind, hpool]
  exact keeps_transit _ _ _ _ ⟨_, hok, (h.future.prune addr nonce).1⟩

/-- What is asked of the manager. -/
inductive Request (env : Env)
  | push (tail : BlockState) (txc : TxContext env) (now : ℤ)
  | delByAddressNonce (tail : BlockState) (addr : Address) (nonce : UInt64) (now : ℤ)
  | resetTransactionSelector
  | next
  | setRequiredNonce (addr : Address) (nonce : UInt64)

/-- The manager after a request, whether it succeeds or fails. -/
def serve (tm : TransactionManager env) : Request env → TransactionManager env
  | .push tail txc now => (push tail txc now tm).2
  | .delByAddressNonce tail addr nonce now => (delByAddressNonce tail addr nonce now tm).2
  | .resetTransactionSelector => { tm with pendingPool := tm.pendingPool.resetSelector }
  | .next => { tm with pendingPool := tm.pendingPool.next.2 }
  | .setRequiredNonce addr nonce =>
    { tm with pendingPool := tm.pendingPool.setRequiredNonce addr nonce }

/-- **The pools stay sound**, whatever is asked of the manager. -/
theorem pools_stay_sound (chainID : UInt32) (size : ℕ) (requests : List (Request env)) :
    ∃ S, (requests.foldl serve (new chainID size)).Sound S := by
  refine List.foldlRecOn (motive := fun tm => ∃ S, Sound tm S) requests serve
    ⟨∅, sound_new chainID size⟩ fun tm h request _ => ?_
  obtain ⟨S, hS⟩ := h
  cases request with
  | push tail txc now => exact keeps_push tail txc now tm ⟨S, hS⟩
  | delByAddressNonce tail addr nonce now =>
      exact keeps_delByAddressNonce tail addr nonce now tm ⟨S, hS⟩
  -- The selector moves and the required nonces change, the transactions stay.
  | resetTransactionSelector =>
      exact ⟨S, hS.pending.congr_selector fun _ => RoundRobin.mem_keys_reset, hS.future⟩
  | next => exact ⟨S, hS.pending.nextLoop _, hS.future⟩
  | setRequiredNonce addr nonce =>
      exact ⟨S, hS.pending.congr_selector fun _ => Iff.rfl, hS.future⟩

/-! ## Promotion -/

/-- No transaction of the account is left in the future pool that is within the limit of the pending
pool or that the pending pool has too. -/
def Promoted (tm : TransactionManager env) (acc : Account) : Prop :=
  ∀ t, tm.futurePool.Has t → t.fromAddr = acc.address →
    tm.pendingPool.nonceUpperLimit acc < t.nonce ∧ tm.pendingPool.all.lookup t.hash = none

/-- The limit of an account whose highest pending nonce is given. -/
def limitAbove (acc : Account) (maxNonce : UInt64) : UInt64 :=
  if maxNonce + 1 < acc.nonce + maxPendingByAccount then maxNonce + 1
  else acc.nonce + maxPendingByAccount

/-- The highest nonce of the sender after a transaction has become pending: its own if there is no
other one, and otherwise the higher one of its own and the highest before. -/
def maxNonceWith (pool : PendingPool env) (txc : TxContext env) : UInt64 :=
  let af := (pool.accFrom.lookup txc.fromAddr).getD .new
  if af.nonceToTx.keys ⊆ {txc.nonce} then txc.nonce
  else if af.maxNonce < txc.nonce then txc.nonce else af.maxNonce

/-- The limit of an account after the pool has been pruned up to a nonce. -/
def limitAfterPrune (pool : PendingPool env) (acc : Account) (nonce : UInt64) : UInt64 :=
  (pool.maxNonceAbove acc.address nonce).elim (acc.nonce + 1) (limitAbove acc)

lemma nonceUpperLimit_eq (pool : PendingPool env) (acc : Account) : pool.nonceUpperLimit acc =
    ((pool.accFrom.lookup acc.address).map AccountFrom.maxNonce).elim (acc.nonce + 1)
      (limitAbove acc) := by
  unfold PendingPool.nonceUpperLimit
  cases pool.accFrom.lookup acc.address with
  | none => simp only [Option.map_none, Option.elim_none]
  | some af => simp only [Option.map_some, Option.elim_some, limitAbove]

lemma nonceUpperLimit_pushOrReplace {pool pool' : PendingPool env} {accState payerState : Account}
    {price : Price} (hpush : pool.pushOrReplace txc accState payerState price now = .ok pool')
    (hacc : acc.address = txc.fromAddr) :
    pool'.nonceUpperLimit acc = limitAbove acc (maxNonceWith pool txc) := by
  rw [nonceUpperLimit_eq, hacc, PendingPool.lookup_pushOrReplace hpush, Option.map_some,
    AccountFrom.set_remove_maxNonce, Option.elim_some, maxNonceWith]

/-- **When promotion is complete.**  Let a transaction enter the pending pool, or let the pools be
pruned.  No transaction of the sender is left in the future pool within the new limit or also in the
pending pool if and only if none has been there before. -/
theorem promotion_complete_iff (h : tm.Sound S) (hacc : tail.getAccount addr = .ok acc) :
    (∀ txc txc' now tm', txc.verifyIntegrity tm.chainID = .ok txc' → txc'.fromAddr = addr →
      push tail txc now tm = (.ok true, tm') →
      (tm'.Promoted acc ↔ ∀ t, tm.futurePool.Has t → t.fromAddr = addr →
        limitAbove acc (maxNonceWith tm.pendingPool txc') < t.nonce ∧ txc'.hash ≠ t.hash ∧
          ∀ c ∈ S, c.hash = t.hash → c.addrNonceKey = txc'.addrNonceKey)) ∧
    ∀ nonce now tm', delByAddressNonce tail addr nonce now tm = (.ok (), tm') →
      (tm'.Promoted acc ↔ ∀ t, tm.futurePool.Has t → t.fromAddr = addr →
        tm.futurePool.Queued t ∧ t.nonce ≤ nonce ∨
          limitAfterPrune tm.pendingPool acc nonce < t.nonce ∧
            ∀ c ∈ S, c.hash = t.hash → c.fromAddr = addr ∧ c.nonce ≤ nonce) := by
  have haddr : acc.address = addr := BlockState.address_of_getAccount hacc
  refine ⟨fun txc txc' now tm' hverify hfrom hpush => ?_, fun nonce now tm' hdel => ?_⟩
  · obtain ⟨txc₁, accounts, price, pool, hverify₁, -, hpool, rfl⟩ := push_eq_ok hpush
    obtain rfl : txc' = txc₁ := Except.ok.inj (hverify.symm.trans hverify₁)
    have hok := h.pending.pushOrReplace hpool
    have hnone : ∀ hash : Bytes, pool.all.lookup hash = none ↔ txc'.hash ≠ hash ∧
        ∀ c ∈ S, c.hash = hash → c.addrNonceKey = txc'.addrNonceKey := by
      intro hash
      rw [hok.all.eq_none_iff]
      constructor
      · intro hother
        refine ⟨hother txc' (Set.mem_insert _ _), fun c hc hhash => ?_⟩
        by_contra hkey
        exact hother c (.inr ⟨hc, fun hslot => hkey hslot.2⟩) hhash
      · rintro ⟨hne, hslot⟩ c (rfl | ⟨hc, hout⟩) hhash
        · exact hne hhash
        · exact hout ⟨hc, hslot c hc hhash⟩
    unfold Promoted
    simp only [nonceUpperLimit_pushOrReplace hpool (haddr.trans hfrom.symm), hnone, haddr]
  · obtain ⟨pool, hpool, rfl⟩ := delByAddressNonce_eq_ok hdel
    obtain ⟨pool', hpool', hok, hmax⟩ := h.pending.prune addr nonce
    obtain rfl : pool = pool' := Except.ok.inj (hpool.symm.trans hpool')
    obtain ⟨-, hhas⟩ := h.future.prune addr nonce
    have hlimit : pool.nonceUpperLimit acc = limitAfterPrune tm.pendingPool acc nonce := by
      rw [nonceUpperLimit_eq, haddr, hmax, limitAfterPrune, haddr]
    have hnone : ∀ hash : Bytes, pool.all.lookup hash = none ↔
        ∀ c ∈ S, c.hash = hash → c.fromAddr = addr ∧ c.nonce ≤ nonce := by
      intro hash
      rw [hok.all.eq_none_iff]
      constructor
      · intro hother c hc hhash
        by_contra hout
        exact hother c ⟨hc, fun hlow => hout hlow.2⟩ hhash
      · rintro hlow c ⟨hc, hout⟩ hhash
        exact hout ⟨hc, hlow c hc hhash⟩
    unfold Promoted
    simp only [hlimit, hnone, haddr, hhas]
    refine forall_congr' fun t => ⟨fun hleft ht hfrom => ?_, fun hleft ht hfrom => ?_⟩
    · by_cases hlow : tm.futurePool.Queued t ∧ t.nonce ≤ nonce
      · exact .inl hlow
      · exact .inr (hleft ⟨ht, fun hpruned => hlow ⟨hpruned.1, hpruned.2.2⟩⟩ hfrom)
    · refine (hleft ht.1 hfrom).resolve_left fun hlow => ht.2 ⟨hlow.1, hfrom, hlow.2⟩

/-- The condition for a first transaction, and for pruning an empty pool. -/
theorem first_transfer_is_promoted : ∃ (txc' : TxContext .plain) (tm' tm'' : TransactionManager .plain),
    (Plain.transfer 1).verifyIntegrity 0 = .ok txc' ∧ txc'.fromAddr = Plain.address 1 ∧
      push .genesis (Plain.transfer 1) 0 (new 0 10) = (.ok true, tm') ∧
      delByAddressNonce .genesis (Plain.address 1) 1 0 (new 0 10) = (.ok (), tm'') ∧
      tm'.Promoted (newAccount (Plain.address 1)) ∧
      tm''.Promoted (newAccount (Plain.address 1)) := by
  have hverify : ((Plain.transfer 1).verifyIntegrity 0).map TxContext.fromAddr =
      .ok (Plain.address 1) := by decide +kernel
  obtain ⟨txc', htxc, hfrom⟩ := map_eq_ok_iff.1 hverify
  have hpush : (push .genesis (Plain.transfer 1) 0 (new 0 10)).1 = .ok true := by decide +kernel
  have hdel : (delByAddressNonce .genesis (Plain.address 1) 1 0
      (new 0 10 : TransactionManager .plain)).1 = .ok () := by decide +kernel
  have hsound : (new 0 10 : TransactionManager .plain).Sound ∅ := sound_new 0 10
  have hacc : BlockState.genesis.getAccount (Plain.address 1) =
      .ok (newAccount (Plain.address 1)) := rfl
  obtain ⟨hpromoted, hpruned⟩ := promotion_complete_iff hsound hacc
  refine ⟨txc', _, _, htxc, hfrom, Prod.ext hpush rfl, Prod.ext hdel rfl, ?_, ?_⟩
  · exact (hpromoted _ txc' _ _ htxc hfrom (Prod.ext hpush rfl)).2 fun t ht => nomatch ht
  · exact (hpruned _ _ _ (Prod.ext hdel rfl)).2 fun t ht => nomatch ht

/-- A transaction that waits for the one before it goes on waiting when that one has come. -/
theorem filled_gap_is_not_promoted : ∃ tm₁ tm₂ : TransactionManager .plain,
    push .genesis (Plain.transfer 2) 0 (new 0 10) = (.ok false, tm₁) ∧
      push .genesis (Plain.transfer 1) 0 tm₁ = (.ok true, tm₂) ∧
      ¬ tm₂.Promoted (newAccount (Plain.address 1)) := by
  obtain ⟨tm₁, htm₁⟩ : ∃ tm₁ : TransactionManager .plain,
      tm₁ = (push .genesis (Plain.transfer 2) 0 (new 0 10)).2 := ⟨_, rfl⟩
  obtain ⟨tm₂, htm₂⟩ : ∃ tm₂ : TransactionManager .plain,
      tm₂ = (push .genesis (Plain.transfer 1) 0 tm₁).2 := ⟨_, rfl⟩
  have hfirst : (push .genesis (Plain.transfer 2) 0 (new 0 10)).1 = .ok false := by decide +kernel
  have hsecond : (push .genesis (Plain.transfer 1) 0 tm₁).1 = .ok true := by
    rw [htm₁]
    decide +kernel
  have hwaits : tm₂.futurePool.Has (Plain.transfer 2).tx := by
    rw [htm₂, htm₁, FuturePool.Has]
    decide +kernel
  have hlimit : tm₂.pendingPool.nonceUpperLimit (newAccount (Plain.address 1)) = 2 := by
    rw [htm₂, htm₁]
    decide +kernel
  refine ⟨tm₁, tm₂, Prod.ext hfirst htm₁.symm, Prod.ext hsecond htm₂.symm, fun hpromoted => ?_⟩
  have hlt := (hpromoted _ hwaits rfl).1
  rw [hlimit] at hlt
  exact absurd hlt (by decide)

end TransactionManager

end GoMedibloc
