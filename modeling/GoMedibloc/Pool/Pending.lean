import GoMedibloc.Framework.RoundRobin
import GoMedibloc.Framework.Tally
import GoMedibloc.Ledger.Process

/-!
# The pool of pending transactions

A transaction that may go into the next block waits in the pending pool.  The pool has four views of
its transactions: by hash; by sender, with the lowest and the highest nonce; by payer, with the
bandwidth that is to be paid; and by sender once more, with the points that the sender's stakes and
unstakes will bring or cost.  A round-robin selector hands out the senders in turn, and
`nonceCache` has the nonces that are wanted next.

A payer's entry and a sender's point entry are tallies of `Framework.Tally` with the key
`addrNonceKey`, a pair here and the text `from-nonce` in the source.  The address that an entry of
the source also has is the key it is stored under, and nothing reads it.

`push` and `replace` change objects that the maps point to.  In `replace` the entries of the old and
of the new payer are one object if the payer stays the same; the model says so in so many words.
Where the source follows a pointer that is nil the model fails with `nilPointer`.
-/

namespace GoMedibloc

open Except Finmap

/-! ## Bandwidth and prices -/

namespace Bandwidth

@[ext] lemma ext {b obj : Bandwidth} (hcpu : b.cpuUsage = obj.cpuUsage)
    (hnet : b.netUsage = obj.netUsage) : b = obj := by
  cases b
  cases obj
  simp_all

instance : Zero Bandwidth := ⟨⟨0, 0⟩⟩

/-- `Add`. -/
instance : Add Bandwidth :=
  ⟨fun b obj => ⟨b.cpuUsage + obj.cpuUsage, b.netUsage + obj.netUsage⟩⟩

/-- `Sub`. -/
instance : Sub Bandwidth :=
  ⟨fun b obj => ⟨b.cpuUsage - obj.cpuUsage, b.netUsage - obj.netUsage⟩⟩

instance : Neg Bandwidth := ⟨fun b => ⟨-b.cpuUsage, -b.netUsage⟩⟩

instance : AddCommGroup Bandwidth where
  add_assoc _ _ _ := Bandwidth.ext (UInt64.add_assoc _ _ _) (UInt64.add_assoc _ _ _)
  zero_add _ := Bandwidth.ext (UInt64.zero_add _) (UInt64.zero_add _)
  add_zero _ := Bandwidth.ext (UInt64.add_zero _) (UInt64.add_zero _)
  add_comm _ _ := Bandwidth.ext (UInt64.add_comm _ _) (UInt64.add_comm _ _)
  neg_add_cancel _ := Bandwidth.ext (UInt64.add_left_neg _) (UInt64.add_left_neg _)
  sub_eq_add_neg _ _ := Bandwidth.ext (UInt64.sub_eq_add_neg _ _) (UInt64.sub_eq_add_neg _ _)
  nsmul := nsmulRec
  zsmul := zsmulRec

end Bandwidth

/-- The prices of cpu and net. -/
structure Price where
  cpuPrice : Uint128
  netPrice : Uint128

/-- `CalcPoints`. -/
def Bandwidth.calcPointsAt (bw : Bandwidth) (p : Price) : Except Err Uint128 := do
  let cpuPoints ← p.cpuPrice.mul (.ofUint bw.cpuUsage)
  let netPoints ← p.netPrice.mul (.ofUint bw.netUsage)
  cpuPoints.add netPoints

/-! ## Transactions in the pools -/

/-- `TxContext`: a transaction, what it executes, and when it came in, in nanoseconds. -/
structure TxContext (env : Env) where
  tx : Transaction
  exec : ExecutableTx
  exec_eq : txConv env tx = .ok exec
  incomeTime : ℤ
  broadcast : Bool

/-- `newTxContext`. -/
def newTxContext (env : Env) (tx : Transaction) (now : ℤ) (broadcast : Bool) :
    Except Err (TxContext env) :=
  match h : txConv env tx with
  | .ok exec => .ok ⟨tx, exec, h, now, broadcast⟩
  | .error e => .error e

/-- `newPoint`. -/
def newPoint (change : Bool × Uint128) : ℤ :=
  if change.1 then -(change.2.val : ℤ) else change.2.val

variable {env : Env}

namespace TxContext

/-- `Hash`. -/
def hash (t : TxContext env) : Bytes := t.tx.hash

/-- `From`. -/
def fromAddr (t : TxContext env) : Address := t.tx.fromAddr

/-- `Nonce`. -/
def nonce (t : TxContext env) : UInt64 := t.tx.nonce

/-- `PayerOrFrom`. -/
def payerOrFrom (t : TxContext env) : Address := t.tx.payerOrFrom

/-- `addrNonceKey`. -/
def addrNonceKey (t : TxContext env) : Address × UInt64 := (t.fromAddr, t.nonce)

/-- The bandwidth of what the transaction executes. -/
def bandwidth (t : TxContext env) : Bandwidth := t.exec.bandwidth

/-- The points that the transaction brings its sender, or costs if they are negative. -/
def pointChange (t : TxContext env) : ℤ := newPoint t.exec.op.pointChange

end TxContext

/-! ## The transactions of a sender -/

/-- `MaxPendingByAccount`. -/
def maxPendingByAccount : UInt64 := 4096

/-- `AllowReplacePendingDuration`. -/
def allowReplacePendingDuration : ℤ := 10 * 60 * 1000000000

/-- `AccountFrom`.  The nonces of the transactions lie between the two bounds. -/
structure AccountFrom (env : Env) where
  minNonce : UInt64
  maxNonce : UInt64
  nonceToTx : Finmap fun _ : UInt64 => TxContext env
  within : ∀ n t, nonceToTx.lookup n = some t → minNonce ≤ n ∧ n ≤ maxNonce

namespace AccountFrom

/-- `newAccountFrom`. -/
def new : AccountFrom env := ⟨0, 0, ∅, fun _ _ h => by rw [lookup_empty] at h; cases h⟩

/-- `size`. -/
def size (af : AccountFrom env) : ℕ := af.nonceToTx.keys.card

/-- `get`. -/
def get (af : AccountFrom env) (nonce : UInt64) : Option (TxContext env) := af.nonceToTx.lookup nonce

/-- `isDuplicateNonce`. -/
def isDuplicateNonce (af : AccountFrom env) (nonce : UInt64) : Bool :=
  (af.nonceToTx.lookup nonce).isSome

/-- `isAcceptableNonce`. -/
def isAcceptableNonce (af : AccountFrom env) (nonce accNonce : UInt64) : Bool :=
  if af.size = 0 then accNonce + 1 == nonce
  else
    let upperLimit := accNonce + maxPendingByAccount
    let upperLimit := if af.maxNonce + 1 < upperLimit then af.maxNonce + 1 else upperLimit
    accNonce < nonce && nonce ≤ upperLimit

/-- `isReplaceDurationElapsed`, at the time `now`. -/
def isReplaceDurationElapsed (af : AccountFrom env) (nonce : UInt64) (now : ℤ) : Bool :=
  match af.nonceToTx.lookup nonce with
  | none => false
  | some old => old.incomeTime + allowReplacePendingDuration < now

section Bounds

variable {lo hi : UInt64} {m : Finmap fun _ : UInt64 => TxContext env}

/-- Bounds that are widened to a nonce that is set. -/
lemma within_insert (h : ∀ n t, m.lookup n = some t → lo ≤ n ∧ n ≤ hi) (tx : TxContext env) :
    ∀ n t, (m.insert tx.nonce tx).lookup n = some t →
      (if tx.nonce < lo then tx.nonce else lo) ≤ n ∧
        n ≤ if hi < tx.nonce then tx.nonce else hi := by
  intro n t ht
  by_cases hn : n = tx.nonce
  · subst hn
    constructor
    · split_ifs with hlt
      · exact UInt64.le_refl _
      · exact UInt64.not_lt.1 hlt
    · split_ifs with hlt
      · exact UInt64.le_refl _
      · exact UInt64.not_lt.1 hlt
  · rw [lookup_insert_of_ne _ hn] at ht
    obtain ⟨hlo, hhi⟩ := h n t ht
    constructor
    · split_ifs with hlt
      · exact UInt64.le_trans (UInt64.le_of_lt hlt) hlo
      · exact hlo
    · split_ifs with hlt
      · exact UInt64.le_trans hhi (UInt64.le_of_lt hlt)
      · exact hhi

/-- Bounds that give way by one where a nonce is removed. -/
lemma within_erase (h : ∀ n t, m.lookup n = some t → lo ≤ n ∧ n ≤ hi) (nonce : UInt64) :
    ∀ n t, (m.erase nonce).lookup n = some t →
      (if lo = nonce then lo + 1 else lo) ≤ n ∧ n ≤ if hi = nonce then hi - 1 else hi := by
  intro n t ht
  have hn : n ≠ nonce := by
    rintro rfl
    rw [lookup_erase] at ht
    cases ht
  rw [lookup_erase_ne hn] at ht
  obtain ⟨hlo, hhi⟩ := h n t ht
  have hnat : n.toNat ≠ nonce.toNat := fun heq => hn (UInt64.toNat_inj.1 heq)
  rw [UInt64.le_iff_toNat_le] at hlo hhi
  have hlt := n.toNat_lt
  -- the removed nonce is not that of the transaction, so the bound does not wrap around
  constructor
  · split_ifs with heq
    · subst heq
      rw [UInt64.le_iff_toNat_le, UInt64.toNat_add]
      change (lo.toNat + 1) % 2 ^ 64 ≤ n.toNat
      omega
    · exact UInt64.le_iff_toNat_le.2 hlo
  · split_ifs with heq
    · subst heq
      have hone : (1 : UInt64) ≤ hi := UInt64.le_iff_toNat_le.2 (by change 1 ≤ hi.toNat; omega)
      rw [UInt64.le_iff_toNat_le, UInt64.toNat_sub_of_le _ _ hone]
      change n.toNat ≤ hi.toNat - 1
      omega
    · exact UInt64.le_iff_toNat_le.2 hhi

end Bounds

/-- `set`. -/
def set (af : AccountFrom env) (tx : TxContext env) : AccountFrom env :=
  let minNonce := if af.size = 0 then tx.nonce else af.minNonce
  let maxNonce := if af.size = 0 then tx.nonce else af.maxNonce
  { minNonce := if tx.nonce < minNonce then tx.nonce else minNonce
    maxNonce := if maxNonce < tx.nonce then tx.nonce else maxNonce
    nonceToTx := af.nonceToTx.insert tx.nonce tx
    within := within_insert (fun n t ht => by
      have hsize : af.size ≠ 0 := fun hzero =>
        ne_empty_of_lookup ht (card_keys_eq_zero.1 hzero)
      simp only [minNonce, maxNonce, if_neg hsize]
      exact af.within n t ht) tx }

/-- `remove`. -/
def remove (af : AccountFrom env) (nonce : UInt64) : AccountFrom env :=
  match af.nonceToTx.lookup nonce with
  | none => af
  | some _ =>
    { minNonce := if af.minNonce = nonce then af.minNonce + 1 else af.minNonce
      maxNonce := if af.maxNonce = nonce then af.maxNonce - 1 else af.maxNonce
      nonceToTx := af.nonceToTx.erase nonce
      within := within_erase af.within nonce }

/-- The loop of `peekFirst`, from the nonce `i` on. -/
def peekFrom (af : AccountFrom env) : ℕ → UInt64 → Option (TxContext env)
  | 0, _ => none
  | fuel + 1, i =>
    if i ≤ af.maxNonce then
      match af.nonceToTx.lookup i with
      | some tx => some tx
      | none => peekFrom af fuel (i + 1)
    else none

/-- `peekFirst`. -/
def peekFirst (af : AccountFrom env) : Option (TxContext env) :=
  if af.size = 0 then none
  else af.peekFrom (af.maxNonce.toNat + 1 - af.minNonce.toNat) af.minNonce

variable {af : AccountFrom env} {t t' : TxContext env} {n nonce : UInt64}

lemma size_eq_zero : af.size = 0 ↔ af.nonceToTx = ∅ := card_keys_eq_zero

lemma set_nonceToTx : (af.set t).nonceToTx = af.nonceToTx.insert t.nonce t := rfl

lemma remove_of_none (h : af.nonceToTx.lookup nonce = none) : af.remove nonce = af := by
  rw [remove, h]

lemma remove_nonceToTx : (af.remove nonce).nonceToTx = af.nonceToTx.erase nonce := by
  unfold remove
  split
  · rename_i hnone
    refine ext_lookup fun n => ?_
    by_cases hn : n = nonce
    · rw [hn, hnone, lookup_erase]
    · rw [lookup_erase_ne hn]
  · rfl

lemma size_remove (h : af.nonceToTx.lookup nonce = some t) :
    (af.remove nonce).size + 1 = af.size := by
  rw [size, remove_nonceToTx, keys_erase]
  exact Finset.card_erase_add_one (mem_keys.2 (mem_iff.2 ⟨t, h⟩))

/-- A nonce that is not the highest is removed without a change of the upper bound. -/
lemma remove_maxNonce (hn : af.nonceToTx.lookup n = some t) (hlt : nonce < n) :
    (af.remove nonce).maxNonce = af.maxNonce := by
  unfold remove
  split
  · rfl
  · refine if_neg fun heq => ?_
    exact UInt64.not_lt.2 (heq ▸ (af.within n t hn).2) hlt

/-- The upper bound after a transaction has come in, in the place of another one or not. -/
lemma set_remove_maxNonce (af : AccountFrom env) (tx : TxContext env) :
    ((af.remove tx.nonce).set tx).maxNonce =
      if af.nonceToTx.keys ⊆ {tx.nonce} then tx.nonce
      else if af.maxNonce < tx.nonce then tx.nonce else af.maxNonce := by
  have hsize : (af.remove tx.nonce).size = 0 ↔ af.nonceToTx.keys ⊆ {tx.nonce} := by
    rw [size, remove_nonceToTx, keys_erase, Finset.card_eq_zero, Finset.erase_eq_empty_iff,
      Finset.subset_singleton_iff]
  simp only [set, hsize]
  by_cases honly : af.nonceToTx.keys ⊆ {tx.nonce}
  · simp only [if_pos honly, ite_self]
  · simp only [if_neg honly]
    cases hold : af.nonceToTx.lookup tx.nonce with
    | none => rw [remove_of_none hold]
    | some old =>
        simp only [remove, hold]
        by_cases hmax : af.maxNonce = tx.nonce
        · -- the highest nonce is not zero, so it is above the bound that is left without it
          have hlow : af.maxNonce - 1 < tx.nonce := by
            obtain ⟨n, hn, hne⟩ := Finset.not_subset.1 honly
            obtain ⟨t, ht⟩ := mem_iff.1 (mem_keys.1 hn)
            have hle := UInt64.le_iff_toNat_le.1 (af.within n t ht).2
            have hnat : n.toNat ≠ tx.nonce.toNat := fun heq =>
              hne (Finset.mem_singleton.2 (UInt64.toNat_inj.1 heq))
            rw [hmax] at hle
            have hone : (1 : UInt64) ≤ tx.nonce :=
              UInt64.le_iff_toNat_le.2 (by change 1 ≤ tx.nonce.toNat; omega)
            rw [hmax, UInt64.lt_iff_toNat_lt, UInt64.toNat_sub_of_le _ _ hone]
            change tx.nonce.toNat - 1 < tx.nonce.toNat
            omega
          rw [if_pos hmax, if_pos hlow, hmax, ite_self]
        · rw [if_neg hmax]

lemma peekFrom_spec {i : UInt64} {fuel : ℕ} (hle : ∀ n t, af.nonceToTx.lookup n = some t → i ≤ n)
    (ht : af.nonceToTx.lookup n = some t) (hfuel : n.toNat < i.toNat + fuel) :
    ∃ m t', af.peekFrom fuel i = some t' ∧ af.nonceToTx.lookup m = some t' ∧
      ∀ n t, af.nonceToTx.lookup n = some t → m ≤ n := by
  induction fuel generalizing i with
  | zero =>
      have hin := UInt64.le_iff_toNat_le.1 (hle n t ht)
      omega
  | succ fuel ih =>
      have hmax : i ≤ af.maxNonce := UInt64.le_trans (hle n t ht) (af.within n t ht).2
      unfold peekFrom
      rw [if_pos hmax]
      cases hi : af.nonceToTx.lookup i with
      | some tx => exact ⟨i, tx, rfl, hi, hle⟩
      | none =>
          have hlt : ∀ n t, af.nonceToTx.lookup n = some t → i.toNat < n.toNat := by
            intro n t ht
            have hne : i.toNat ≠ n.toNat := by
              intro heq
              rw [UInt64.toNat_inj.1 heq, ht] at hi
              cases hi
            have hin := UInt64.le_iff_toNat_le.1 (hle n t ht)
            omega
          have hsucc : (i + 1).toNat = i.toNat + 1 := by
            have hn := hlt n t ht
            have hlt' := n.toNat_lt
            rw [UInt64.toNat_add]
            change (i.toNat + 1) % 2 ^ 64 = i.toNat + 1
            omega
          refine ih (fun n t ht => ?_) (by omega)
          have hn := hlt n t ht
          rw [UInt64.le_iff_toNat_le, hsucc]
          omega

/-- A sender with transactions has a first one, that with the lowest nonce. -/
lemma peekFirst_spec (ht : af.nonceToTx.lookup n = some t) :
    ∃ m t', af.peekFirst = some t' ∧ af.nonceToTx.lookup m = some t' ∧
      ∀ n t, af.nonceToTx.lookup n = some t → m ≤ n := by
  have hsize : af.size ≠ 0 := fun hzero => ne_empty_of_lookup ht (size_eq_zero.1 hzero)
  rw [peekFirst, if_neg hsize]
  obtain ⟨hmin, hmax⟩ := af.within n t ht
  rw [UInt64.le_iff_toNat_le] at hmin hmax
  exact peekFrom_spec (fun n t ht => (af.within n t ht).1) ht (by omega)

lemma peekFirst_eq_some (h : af.peekFirst = some t) :
    ∃ m, af.nonceToTx.lookup m = some t ∧ ∀ n t, af.nonceToTx.lookup n = some t → m ≤ n := by
  have hne : af.nonceToTx ≠ ∅ := by
    intro hempty
    rw [peekFirst, if_pos (size_eq_zero.2 hempty)] at h
    cases h
  obtain ⟨n, t', ht'⟩ := exists_lookup_of_ne_empty hne
  obtain ⟨m, first, hpeek, hfirst, hleast⟩ := peekFirst_spec ht'
  obtain rfl : first = t := Option.some_inj.1 (hpeek.symm.trans h)
  exact ⟨m, hfirst, hleast⟩

lemma peekFirst_eq_none (h : af.peekFirst = none) : af.nonceToTx = ∅ := by
  by_contra hne
  obtain ⟨n, t, ht⟩ := exists_lookup_of_ne_empty hne
  obtain ⟨_, _, hpeek, -⟩ := peekFirst_spec ht
  rw [hpeek] at h
  cases h

end AccountFrom

/-! ## The pool -/

/-- `AccountPayer`: what a payer pays for, with the bandwidth. -/
abbrev AccountPayer (env : Env) :=
  Tally (Address × UInt64) (TxContext.bandwidth : TxContext env → Bandwidth)

/-- `AccountPoint`: the transactions of a sender, with the points they bring. -/
abbrev AccountPoint (env : Env) :=
  Tally (Address × UInt64) (TxContext.pointChange : TxContext env → ℤ)

/-- `requiredPointUsage`. -/
def AccountPayer.requiredPointUsage (ap : AccountPayer env) (tx : TxContext env) (price : Price) :
    Except Err Uint128 :=
  (ap.sumWithout tx.addrNonceKey + tx.bandwidth).calcPointsAt price

/-- `modifiedPointUsage`. -/
def AccountPoint.modifiedPointUsage (apo : AccountPoint env) (usage : Uint128) :
    Except Err Uint128 :=
  let modified : ℤ := usage.val - apo.sum
  if modified < 0 then .ok .zero else Uint128.ofNat modified.toNat

/-- The errors of the pool; following a nil pointer is one. -/
inductive PendingErr
  | duplicatedTransaction
  | nonceNotAcceptable
  | failedToReplacePendingTx
  | points (e : Err)
  | nilPointer
deriving DecidableEq

/-- `PendingTransactionPool`.  The selector has addresses, and hexadecimal texts of them in the
source. -/
structure PendingPool (env : Env) where
  all : Finmap fun _ : Bytes => TxContext env
  accFrom : Finmap fun _ : Address => AccountFrom env
  accPayer : Finmap fun _ : Address => AccountPayer env
  accPoint : Finmap fun _ : Address => AccountPoint env
  selector : RoundRobin Address
  nonceCache : Finmap fun _ : Address => UInt64

namespace PendingPool

/-- `NewPendingTransactionPool`. -/
def new : PendingPool env := ⟨∅, ∅, ∅, ∅, .new, ∅⟩

/-- The point check, which `push` and `replace` have in the same words. -/
def checkPoints (p : PendingPool env) (tx : TxContext env) (accState payerState : Account)
    (price : Price) : Except Err Unit := do
  let accPayer := (p.accPayer.lookup tx.payerOrFrom).getD .new
  let usage ← accPayer.requiredPointUsage tx price
  let accPayerPoint := (p.accPoint.lookup tx.payerOrFrom).getD .new
  let modified ← accPayerPoint.modifiedPointUsage usage
  if tx.tx.hasPayer then checkPayerAccountPoint payerState modified
  else checkFromAccountPoint accState tx.exec.op modified

/-- The pool with one more transaction, as `push` writes it into the four maps. -/
def enter (p : PendingPool env) (tx : TxContext env) : PendingPool env :=
  { p with
    all := p.all.insert tx.hash tx
    accFrom := p.accFrom.insert tx.fromAddr (((p.accFrom.lookup tx.fromAddr).getD .new).set tx)
    accPayer := Tally.put p.accPayer tx.payerOrFrom tx.addrNonceKey tx
    accPoint := Tally.put p.accPoint tx.fromAddr tx.addrNonceKey tx }

/-- `push`. -/
def push (p : PendingPool env) (tx : TxContext env) (accState payerState : Account)
    (price : Price) : Except PendingErr (PendingPool env) := do
  let accFrom := (p.accFrom.lookup tx.fromAddr).getD .new
  failIf (accFrom.isAcceptableNonce tx.nonce accState.nonce = false) .nonceNotAcceptable
  (p.checkPoints tx accState payerState price).mapError .points
  return { p.enter tx with selector := p.selector.includeKey tx.fromAddr }

/-- `replace`, at the time `now`. -/
def replace (p : PendingPool env) (tx : TxContext env) (accState payerState : Account)
    (price : Price) (now : ℤ) : Except PendingErr (PendingPool env) := do
  let accFrom := (p.accFrom.lookup tx.fromAddr).getD .new
  failIf (accFrom.isDuplicateNonce tx.nonce = false) .failedToReplacePendingTx
  failIf (accFrom.isReplaceDurationElapsed tx.nonce now = false) .failedToReplacePendingTx
  (p.checkPoints tx accState payerState price).mapError .points
  let oldTx ← ofOption .nilPointer (accFrom.get tx.nonce)
  let oldPayer ← ofOption .nilPointer (p.accPayer.lookup oldTx.payerOrFrom)
  -- with the same payer `accPayer` is the object that `oldPayer` is, and has lost the old entry
  let accPayer := if tx.payerOrFrom = oldTx.payerOrFrom then oldPayer.remove oldTx.addrNonceKey
    else (p.accPayer.lookup tx.payerOrFrom).getD .new
  return { p with
    all := (p.all.erase oldTx.hash).insert tx.hash tx
    accFrom := p.accFrom.modify tx.fromAddr fun af => (af.remove tx.nonce).set tx
    accPayer := (Tally.drop p.accPayer oldTx.payerOrFrom oldPayer oldTx.addrNonceKey).insert
      tx.payerOrFrom (accPayer.set tx.addrNonceKey tx)
    accPoint := p.accPoint.modify tx.fromAddr fun apo =>
      (apo.remove oldTx.addrNonceKey).set tx.addrNonceKey tx }

/-- `PushOrReplace`. -/
def pushOrReplace (p : PendingPool env) (tx : TxContext env) (accState payerState : Account)
    (price : Price) (now : ℤ) : Except PendingErr (PendingPool env) :=
  if (p.all.lookup tx.hash).isSome then .error .duplicatedTransaction
  else if (p.accFrom.lookup tx.fromAddr).any (·.isDuplicateNonce tx.nonce) then
    p.replace tx accState payerState price now
  else p.push tx accState payerState price

/-- `Get`. -/
def get (p : PendingPool env) (hash : Bytes) : Option (TxContext env) := p.all.lookup hash

/-- A round of `Prune`: a transaction is taken out of the four maps, and entries of payers and
points that become empty with it. -/
def withdraw (p : PendingPool env) (tx : TxContext env) : Except PendingErr (PendingPool env) := do
  let accPayer ← ofOption .nilPointer (p.accPayer.lookup tx.payerOrFrom)
  let accPoint ← ofOption .nilPointer (p.accPoint.lookup tx.fromAddr)
  return { p with
    all := p.all.erase tx.hash
    accFrom := p.accFrom.modify tx.fromAddr (·.remove tx.nonce)
    accPayer := Tally.drop p.accPayer tx.payerOrFrom accPayer tx.addrNonceKey
    accPoint := Tally.drop p.accPoint tx.fromAddr accPoint tx.addrNonceKey }

/-- The loop of `Prune`. -/
def pruneLoop (addr : Address) (nonceLowerLimit : UInt64) :
    ℕ → PendingPool env → Except PendingErr (PendingPool env)
  | 0, p => .ok p
  | fuel + 1, p =>
    match (p.accFrom.lookup addr).bind AccountFrom.peekFirst with
    | none => .ok p
    | some tx =>
      if nonceLowerLimit < tx.nonce then .ok p
      else p.withdraw tx >>= pruneLoop addr nonceLowerLimit fuel

/-- A sender without transactions is forgotten. -/
def forget (p : PendingPool env) (addr : Address) : PendingPool env :=
  if (p.accFrom.lookup addr).any (·.size = 0) then
    { p with accFrom := p.accFrom.erase addr, selector := p.selector.remove addr }
  else p

/-- `Prune`.  The loop ends after as many rounds as the sender has transactions. -/
def prune (p : PendingPool env) (addr : Address) (nonceLowerLimit : UInt64) :
    Except PendingErr (PendingPool env) :=
  match p.accFrom.lookup addr with
  | none => .ok p
  | some accFrom => (pruneLoop addr nonceLowerLimit (accFrom.size + 1) p).map (·.forget addr)

/-- `NonceUpperLimit`. -/
def nonceUpperLimit (p : PendingPool env) (acc : Account) : UInt64 :=
  match p.accFrom.lookup acc.address with
  | none => acc.nonce + 1
  | some accFrom =>
    let upperLimit := acc.nonce + maxPendingByAccount
    if accFrom.maxNonce + 1 < upperLimit then accFrom.maxNonce + 1 else upperLimit

/-- The loop of `Next`. -/
def nextLoop : ℕ → PendingPool env → Option (TxContext env) × PendingPool env
  | 0, p => (none, p)
  | fuel + 1, p =>
    match p.selector.next with
    | none => (none, p)
    | some (addr, selector) =>
      let p := { p with selector := selector }
      match p.accFrom.lookup addr with
      | none => (none, p)
      | some accFrom =>
        match p.nonceCache.lookup addr with
        | none => (accFrom.peekFirst, p)
        | some requiredNonce =>
          match accFrom.get requiredNonce with
          | none => nextLoop fuel { p with selector := p.selector.excludeKey addr }
          | some tx => (some tx, p)

/-- `Next`.  A round that does not return excludes a sender, so the loop ends after as many rounds
as there are senders in line. -/
def next (p : PendingPool env) : Option (TxContext env) × PendingPool env :=
  nextLoop (p.selector.incl.length + 1) p

/-- `SetRequiredNonce`. -/
def setRequiredNonce (p : PendingPool env) (addr : Address) (nonce : UInt64) : PendingPool env :=
  { p with nonceCache := p.nonceCache.insert addr nonce }

/-- `ResetSelector`. -/
def resetSelector (p : PendingPool env) : PendingPool env :=
  { p with nonceCache := ∅, selector := p.selector.reset }

end PendingPool

/-! ## A plain transaction -/

/-- A transfer of one account to another in the plain environment, which came in at the time 0. -/
def Plain.transfer (nonce : UInt64) : TxContext .plain where
  tx := signed ⟨.transfer, address 1, address 2, .ofUint 1, nonce, 0, []⟩
  exec := ⟨.transfer (address 1) (address 2) (.ofUint 1), 300⟩
  exec_eq := rfl
  incomeTime := 0
  broadcast := false

end GoMedibloc
