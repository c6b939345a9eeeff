import GoMedibloc.Framework.Overlay
import GoMedibloc.Ledger.Acceptance

/-!
# Failed transactions

An execution that fails has written to the tries of the block state before.  `Atomic` makes good
for it: it begins a batch on every trie, and after a failure it rolls all of them back.
`LiveState` is the block state with these batches.  Executions write to the tries in many ways, and
fail at many points; here they may write whatever they like before they fail (`Write`).  Rolling
back then gives the state from before, and committing gives the state with all writes, in whatever
order the batches are visited (`rollBack_writes`, `commit_writes`).  What is not in a trie is not
rolled back; only the supply is set by an execution, and that last.

So a transaction that fails and is accepted does no more than pay.  Accounts are read again with
their points and unstaked amounts brought up to date, which does not show, since they were read so
before; only the date of the points shows of an account that was not stored yet.
-/

namespace GoMedibloc

open Except

/-! ## Batches on the block state -/

/-- The block state with the batches on its tries.  Accounts and aliases are in one trie, under two
prefixes. -/
structure LiveState where
  timestamp : ℤ
  reward : Uint128
  supply : Uint128
  cpuPrice : Uint128
  cpuUsage : UInt64
  netPrice : Uint128
  netUsage : UInt64
  accounts : Overlay Address Account
  aliases : Overlay Bytes Address
  txState : Overlay Bytes Transaction
  candidates : Overlay Bytes Candidate
  dynasty : Overlay ℕ Address

/-- A write to a trie: `PutAccount`, `PutAccountAlias` or the deletion in `DelAccountAlias`,
`PutTx`, `PutCandidate` or `DelCandidate`, and `PutProposer`. -/
inductive Write
  | account (acc : Account)
  | aliasAddr (name : Bytes) (addr : Option Address)
  | tx (t : Transaction)
  | candidate (id : Bytes) (c : Option Candidate)
  | proposer (index : ℕ) (addr : Address)

/-- A write to the block state. -/
def Write.apply (s : BlockState) : Write → BlockState
  | account acc => s.putAccount acc
  | aliasAddr name addr =>
    { s with accState := { s.accState with aliases := s.accState.aliases.write name addr } }
  | tx t => s.putTx t
  | candidate id c =>
    { s with dposState := { s.dposState with candidates := s.dposState.candidates.write id c } }
  | proposer index addr => { s with dposState := s.dposState.putProposer index addr }

/-- The block state with no batch open. -/
def BlockState.live (s : BlockState) : LiveState where
  timestamp := s.timestamp
  reward := s.reward
  supply := s.supply
  cpuPrice := s.cpuPrice
  cpuUsage := s.cpuUsage
  netPrice := s.netPrice
  netUsage := s.netUsage
  accounts := ⟨s.accState.accounts, ∅, false⟩
  aliases := ⟨s.accState.aliases, ∅, false⟩
  txState := ⟨s.txState, ∅, false⟩
  candidates := ⟨s.dposState.candidates, ∅, false⟩
  dynasty := ⟨s.dposState.dynasty, ∅, false⟩

namespace LiveState

/-- A write that goes to the batch of its trie. -/
def write (L : LiveState) : Write → LiveState
  | .account acc => { L with accounts := L.accounts.write acc.address (some acc) }
  | .aliasAddr name addr => { L with aliases := L.aliases.write name addr }
  | .tx t => { L with txState := L.txState.write t.hash (some t) }
  | .candidate id c => { L with candidates := L.candidates.write id c }
  | .proposer index addr => { L with dynasty := L.dynasty.write index (some addr) }

/-- `applyBatchToEachState`. -/
def applyBatchToEachState
    (fn : ∀ {K V : Type} [DecidableEq K], Overlay K V → Option (Overlay K V)) (L : LiveState) :
    Option LiveState := do
  let accounts ← fn L.accounts
  let aliases ← fn L.aliases
  let txState ← fn L.txState
  let candidates ← fn L.candidates
  let dynasty ← fn L.dynasty
  return { L with
    accounts := accounts, aliases := aliases, txState := txState, candidates := candidates,
    dynasty := dynasty }

/-- `beginBatch`. -/
def beginBatch (L : LiveState) : Option LiveState := L.applyBatchToEachState Overlay.beginBatch

/-- `commit`. -/
def commit (order : VisitOrder) (L : LiveState) : Option LiveState :=
  L.applyBatchToEachState (Overlay.commit order)

/-- `rollBack`. -/
def rollBack (L : LiveState) : Option LiveState := L.applyBatchToEachState Overlay.rollBack

/-- A batch is begun, and some writes are made in it. -/
def writeAll (writes : List Write) (L : LiveState) : Option LiveState :=
  L.beginBatch.map fun L => writes.foldl write L

/-- What is not in a trie. -/
def beside (L : LiveState) : ℤ × Uint128 × Uint128 × Uint128 × UInt64 × Uint128 × UInt64 :=
  (L.timestamp, L.reward, L.supply, L.cpuPrice, L.cpuUsage, L.netPrice, L.netUsage)

/-- A batch that was begun with `s₀`, in which the tries of `s` are shown by now. -/
structure InBatch (s₀ s : BlockState) (L : LiveState) : Prop where
  beside : L.beside = s.live.beside
  same : s.live.beside = s₀.live.beside
  accounts : L.accounts.Batching s₀.accState.accounts ∧ L.accounts.Shows s.accState.accounts
  aliases : L.aliases.Batching s₀.accState.aliases ∧ L.aliases.Shows s.accState.aliases
  txState : L.txState.Batching s₀.txState ∧ L.txState.Shows s.txState
  candidates : L.candidates.Batching s₀.dposState.candidates ∧
    L.candidates.Shows s.dposState.candidates
  dynasty : L.dynasty.Batching s₀.dposState.dynasty ∧ L.dynasty.Shows s.dposState.dynasty

variable {s₀ s : BlockState} {L : LiveState}

lemma InBatch.write (h : InBatch s₀ s L) (w : Write) : InBatch s₀ (w.apply s) (L.write w) := by
  cases w with
  | account acc =>
      exact { h with accounts := ⟨h.accounts.1.write _ _, h.accounts.2.write _ _⟩ }
  | aliasAddr name addr =>
      exact { h with aliases := ⟨h.aliases.1.write _ _, h.aliases.2.write _ _⟩ }
  | tx t => exact { h with txState := ⟨h.txState.1.write _ _, h.txState.2.write _ _⟩ }
  | candidate id c =>
      exact { h with candidates := ⟨h.candidates.1.write _ _, h.candidates.2.write _ _⟩ }
  | proposer index addr =>
      exact { h with dynasty := ⟨h.dynasty.1.write _ _, h.dynasty.2.write _ _⟩ }

/-- A batch is ended by a call that leaves the tries of `s'` in every overlay. -/
lemma InBatch.applyBatchToEachState (h : InBatch s₀ s L) {s' : BlockState}
    {fn : ∀ {K V : Type} [DecidableEq K], Overlay K V → Option (Overlay K V)}
    (hbeside : s'.live.beside = s₀.live.beside)
    (haccounts : fn L.accounts = some s'.live.accounts)
    (haliases : fn L.aliases = some s'.live.aliases)
    (htxState : fn L.txState = some s'.live.txState)
    (hcandidates : fn L.candidates = some s'.live.candidates)
    (hdynasty : fn L.dynasty = some s'.live.dynasty) :
    L.applyBatchToEachState fn = some s'.live := by
  have hsame := (h.beside.trans h.same).trans hbeside.symm
  simp only [LiveState.beside, Prod.mk.injEq] at hsame
  obtain ⟨h₁, h₂, h₃, h₄, h₅, h₆, h₇⟩ := hsame
  rw [LiveState.applyBatchToEachState, haccounts, haliases, htxState, hcandidates, hdynasty]
  simp only [Option.bind_eq_bind, Option.bind_some, h₁, h₂, h₃, h₄, h₅, h₆, h₇]
  rfl

lemma inBatch_beginBatch (s : BlockState) : ∃ L, s.live.beginBatch = some L ∧ InBatch s s L := by
  obtain ⟨accounts, h₁, hr₁⟩ := Overlay.beginBatch_idle s.accState.accounts
  obtain ⟨aliases, h₂, hr₂⟩ := Overlay.beginBatch_idle s.accState.aliases
  obtain ⟨txState, h₃, hr₃⟩ := Overlay.beginBatch_idle s.txState
  obtain ⟨candidates, h₄, hr₄⟩ := Overlay.beginBatch_idle s.dposState.candidates
  obtain ⟨dynasty, h₅, hr₅⟩ := Overlay.beginBatch_idle s.dposState.dynasty
  refine ⟨{ s.live with
    accounts := accounts, aliases := aliases, txState := txState, candidates := candidates,
    dynasty := dynasty }, ?_, rfl, rfl, hr₁, hr₂, hr₃, hr₄, hr₅⟩
  dsimp only [beginBatch, LiveState.applyBatchToEachState, BlockState.live]
  rw [h₁, h₂, h₃, h₄, h₅]
  rfl

/-- The writes of a batch show in it, and leave what is below. -/
lemma inBatch_writeAll (s : BlockState) (writes : List Write) :
    ∃ L, s.live.writeAll writes = some L ∧ InBatch s (writes.foldl Write.apply s) L := by
  have hwrites : ∀ {s₁ L}, InBatch s s₁ L →
      InBatch s (writes.foldl Write.apply s₁) (writes.foldl write L) := by
    induction writes with
    | nil => exact id
    | cons w writes ih => exact fun h => ih (h.write w)
  obtain ⟨L, hL, h⟩ := inBatch_beginBatch s
  exact ⟨_, by rw [writeAll, hL]; rfl, hwrites h⟩

/-- **What is written before a failure is taken back.** -/
lemma rollBack_writes (s : BlockState) (writes : List Write) :
    (s.live.writeAll writes).bind rollBack = some s.live := by
  obtain ⟨L, hL, h⟩ := inBatch_writeAll s writes
  rw [hL, Option.bind_some]
  exact h.applyBatchToEachState rfl h.accounts.1.rollBack h.aliases.1.rollBack
    h.txState.1.rollBack h.candidates.1.rollBack h.dynasty.1.rollBack

end LiveState

/-- A difference of amounts, for one that is there. -/
def Uint128.minus (x y : Uint128) : Uint128 := ⟨x.val - y.val, (Nat.sub_le _ _).trans_lt x.lt⟩

/-- An account after a failed transaction: the nonce of the sender goes up, the payer has paid, and
the points of both have been dated. -/
def Account.afterFailure (tx : Transaction) (r : Receipt) (ts : ℤ) (acc : Account) : Account :=
  { acc with
    nonce := if acc.address = tx.fromAddr then acc.nonce + 1 else acc.nonce
    points := if acc.address = tx.payerOrFrom then acc.points.minus r.points else acc.points
    lastPointsTs := if acc.address = tx.fromAddr ∨ acc.address = tx.payerOrFrom then ts
      else acc.lastPointsTs }

/-- The two states differ in what a failed transaction pays, as far as accounts, aliases,
candidates, proposers and the supply are observed, and in the recorded transaction and the
usages. -/
structure OnlyPaid (tx : Transaction) (r : Receipt) (s s' : BlockState) : Prop where
  accounts : ∀ a, s'.getAccount a = (s.getAccount a).map (Account.afterFailure tx r s.timestamp)
  aliases : ∀ name, s'.getAccountByAlias name =
    (s.getAccountByAlias name).map (Account.afterFailure tx r s.timestamp)
  candidates : ∀ id, s'.dposState.getCandidate id = s.dposState.getCandidate id
  proposers : ∀ index, s'.dposState.getProposer index = s.dposState.getProposer index
  supply : s'.supply = s.supply
  paid : ∃ payer, s.getAccount tx.payerOrFrom = .ok payer ∧ r.points.val ≤ payer.points.val
  rest : s' = { s with
    accState := s'.accState
    txState := s.txState.insert tx.hash (tx.setReceipt r)
    cpuUsage := s.cpuUsage + r.cpuUsage
    netUsage := s.netUsage + r.netUsage }

section Failed

variable {s s' s₁ : BlockState} {tx : Transaction} {r : Receipt} {acc acc' : Account}

/-- An account that is charged and read again. -/
lemma Edit.getAccount_charged (h : Edit s acc acc' s') (hcharged : acc.Charged acc')
    (hts : InTime s.timestamp) :
    s'.getAccount acc.address = .ok { acc' with lastPointsTs := s.timestamp } :=
  h.getAccount_self (hcharged.idle h.idle) hts

/-- An account that is neither sender nor payer. -/
lemma Account.afterFailure_of_ne {ts : ℤ} (hfrom : acc.address ≠ tx.fromAddr)
    (hpayer : acc.address ≠ tx.payerOrFrom) : acc.afterFailure tx r ts = acc := by
  rw [afterFailure, if_neg hfrom, if_neg hpayer, if_neg (not_or.2 ⟨hfrom, hpayer⟩)]

/-- Accepting a transaction whose payer is not its sender: what each account looks like then. -/
lemma Accepted.getAccount_afterFailure (h : Accepted (tx.setReceipt r) r s s')
    (hts : InTime s.timestamp) (hpayer : tx.hasPayer → tx.payer ≠ tx.fromAddr) (a : Address) :
    s'.getAccount a = (s.getAccount a).map (Account.afterFailure tx r s.timestamp) := by
  -- an account that is not touched
  have hother : ∀ {s' : BlockState}, s'.getAccount a = s.getAccount a → a ≠ tx.fromAddr →
      a ≠ tx.payerOrFrom → s'.getAccount a =
        (s.getAccount a).map (Account.afterFailure tx r s.timestamp) := by
    intro s' hsame hfrom hpaid
    rw [hsame]
    cases hread : s.getAccount a with
    | error e => rfl
    | ok acc =>
        have haddr := BlockState.address_of_getAccount hread
        refine congrArg Except.ok (Account.afterFailure_of_ne ?_ ?_).symm
        · rwa [haddr]
        · rwa [haddr]
  have hminus : ∀ {x points : Uint128}, points.val + r.points.val = x.val →
      points = x.minus r.points := fun heq => Uint128.ext (by dsimp only [Uint128.minus]; omega)
  have hrecord : ∀ s : BlockState, (s.record (tx.setReceipt r) r).getAccount a = s.getAccount a :=
    fun _ => rfl
  cases h with
  | @sender acc points s₁ htx haddr hedit hpoints =>
      have hpf : tx.payerOrFrom = tx.fromAddr := if_neg htx
      rw [hrecord]
      by_cases ha : a = tx.fromAddr
      · have haddr' : acc.address = tx.fromAddr := haddr
        have hself := hedit.getAccount_charged ⟨rfl, le_of_add_le_left hpoints.le⟩ hts
        rw [ha, ← haddr', hself, hedit.read]
        refine congrArg Except.ok ?_
        rw [Account.afterFailure, hpf, if_pos haddr', if_pos haddr', if_pos (.inl haddr'),
          hminus hpoints]
      · refine hother (hedit.getAccount_of_ne fun h => ha (h.trans haddr)) ha ?_
        rwa [hpf]
  | @payer acc pay points s₁ s₂ htx haddr hpaddr hne hedit hedit₁ hpoints =>
      have hpf : tx.payerOrFrom = tx.payer := if_pos htx
      have hfrom : acc.address = tx.fromAddr := haddr
      have hpay : pay.address = tx.payerOrFrom := hpaddr.trans hpf.symm
      have hapart : pay.address ≠ acc.address := fun heq => hne (hpaddr.symm.trans (heq.trans haddr))
      rw [hrecord]
      by_cases ha : a = acc.address
      · have hself := hedit.getAccount_charged ⟨rfl, le_rfl⟩ hts
        rw [ha, hedit₁.getAccount_of_ne hapart.symm, hself, hedit.read]
        refine congrArg Except.ok ?_
        rw [Account.afterFailure, if_pos hfrom, if_neg fun heq => hapart (hpay.trans heq.symm),
          if_pos (.inl hfrom)]
      · by_cases ha' : a = pay.address
        · have hself := hedit₁.getAccount_charged ⟨rfl, le_of_add_le_left hpoints.le⟩
            (hedit.timestamp ▸ hts)
          rw [ha', hself, ← hedit.getAccount_of_ne hapart, hedit₁.read, hedit.timestamp]
          refine congrArg Except.ok ?_
          rw [Account.afterFailure, if_neg fun heq => hapart (heq.trans hfrom.symm), if_pos hpay,
            if_pos (.inr hpay), hminus hpoints]
        · refine hother ?_ (hfrom ▸ ha) (hpay ▸ ha')
          rw [hedit₁.getAccount_of_ne ha', hedit.getAccount_of_ne ha]
  | self htx haddr heq hedit hpoints => exact absurd heq (hpayer htx)

/-- Accepting a transaction changes accounts, but not aliases, and records the transaction. -/
lemma Accepted.untouched (h : Accepted tx r s s') : s'.accState.aliases = s.accState.aliases ∧
    s' = { s with
      accState := s'.accState
      txState := s.txState.insert tx.hash tx
      cpuUsage := s.cpuUsage + r.cpuUsage
      netUsage := s.netUsage + r.netUsage } := by
  cases h with
  | sender _ _ hedit _ =>
      rw [hedit.put]
      exact ⟨rfl, rfl⟩
  | payer _ _ _ _ hedit hedit₁ _ =>
      rw [hedit₁.put, hedit.put]
      exact ⟨rfl, rfl⟩
  | self _ _ _ hedit _ =>
      rw [hedit.put]
      exact ⟨rfl, rfl⟩

/-- Accepting a transaction whose payer is not its sender only charges for it. -/
lemma Accepted.onlyPaid (h : Accepted (tx.setReceipt r) r s s') (hts : InTime s.timestamp)
    (hpayer : tx.hasPayer → tx.payer ≠ tx.fromAddr)
    (hpaid : ∃ payer, s.getAccount tx.payerOrFrom = .ok payer ∧ r.points.val ≤ payer.points.val) :
    OnlyPaid tx r s s' := by
  obtain ⟨haliases, hframe⟩ := h.untouched
  have hdpos : s'.dposState = s.dposState := by rw [hframe]
  have haccount := h.getAccount_afterFailure hts hpayer
  refine ⟨haccount, fun name => ?_, fun id => by rw [hdpos], fun index => by rw [hdpos],
    by rw [hframe], hpaid, hframe⟩
  unfold BlockState.getAccountByAlias AccountState.getAccountByAlias
  rw [haliases]
  cases ofOption Err.notFound (s.accState.aliases.lookup name) with
  | error e => rfl
  | ok a => exact haccount a

end Failed

/-- **A failed transaction only pays.**  In every block state that is reached with timestamps that
headers hold, whatever a transaction has written to the tries before it fails is rolled back, and
if its payer is not its sender, accepting it changes what accounts, aliases, candidates, proposers
and the supply are observed to be in the nonce of the sender, the points of the payer and the date
of the points of these two only. -/
theorem failed_transaction_only_pays (env : Env) (rule : ℕ → Transaction → Prop) {l : Ledger}
    (h : Reachable env (fun _ ts => 0 ≤ ts ∧ ts < 2 ^ 63) rule l) {tx : Transaction} {r : Receipt}
    {s₁ s' : BlockState} (hpayer : tx.hasPayer → tx.payer ≠ tx.fromAddr)
    (hexec : executeTransaction env l.height tx l.state = .ok (r, s₁)) (hfailed : r.executed = false)
    (haccept : acceptTransaction (tx.setReceipt r) s₁ = .ok s') :
    (∀ writes, (l.state.live.writeAll writes).bind LiveState.rollBack = some s₁.live) ∧
      OnlyPaid tx r l.state s' := by
  have hts : InTime l.state.timestamp := (Reachable.safe h).time
  obtain ⟨exeTx, usage, hexecuted⟩ := executeTransaction_spec hexec
  obtain rfl : s₁ = l.state := by
    obtain ⟨-, hr⟩ | ⟨e, -, hs, -⟩ := hexecuted.result
    · rw [hr] at hfailed
      cases hfailed
    · exact hs
  obtain ⟨r', hr', haccepted⟩ := acceptTransaction_spec haccept
  obtain rfl : r = r' := Option.some_inj.1 hr'
  obtain ⟨acc, hread, -⟩ := hexecuted.nonce
  obtain ⟨payer, hpay, -⟩ := hexecuted.payer
  refine ⟨LiveState.rollBack_writes l.state, haccepted.onlyPaid hts hpayer ⟨payer, hpay, ?_⟩⟩
  exact (acceptTransaction_isOk_iff hread hpay).1 ⟨s', haccept⟩

namespace Plain

/-- A transfer by an account that has nothing, paid by the account with the stake. -/
def emptyTransfer : Transaction :=
  { signed ⟨.transfer, address 2, address 3, .ofUint 5, 1, 0, []⟩ with
    payerSign := (address 1).toList, payer := address 1 }

/-- The transfer is executed, fails, and is accepted. -/
lemma emptyTransfer_runs :
    ∃ l r s₁ s', Reachable .plain (fun _ ts => 0 ≤ ts ∧ ts < 2 ^ 63) (Admitted .plain 0) l ∧
      Admitted .plain 0 l.height emptyTransfer ∧
      executeTransaction .plain l.height emptyTransfer l.state = .ok (r, s₁) ∧
      r.executed = false ∧ acceptTransaction (emptyTransfer.setReceipt r) s₁ = .ok s' ∧
      l.state.account? (address 2) = none ∧ l.state.timestamp = 3 := by
  have hrun : secondBlock.map (fun l => (decide (Admitted .plain 0 l.height emptyTransfer ∧
      (l.state.account? (address 2)).isNone ∧ l.state.timestamp = 3), outcome l emptyTransfer)) =
      .ok (true, .ok (false, .ok ())) := by
    decide +kernel
  obtain ⟨l, hl, heq⟩ := secondBlock_reachable hrun
  rw [Prod.mk.injEq, decide_eq_true_iff, Option.isNone_iff_eq_none] at heq
  obtain ⟨⟨hadmitted, hnone, hts⟩, houtcome⟩ := heq
  obtain ⟨r, s₁, hexec, hexecuted, haccept⟩ := outcome_spec houtcome
  obtain ⟨s', hs', -⟩ := map_eq_ok_iff.1 haccept
  exact ⟨l, r, s₁, s', hl, hadmitted, hexec, hexecuted, hs', hnone, hts⟩

end Plain

/-- The failed transfer of an account that has nothing. -/
theorem empty_transfer_only_pays : ∃ l r s',
    Reachable .plain (fun _ ts => 0 ≤ ts ∧ ts < 2 ^ 63) (Admitted .plain 0) l ∧
      OnlyPaid Plain.emptyTransfer r l.state s' := by
  obtain ⟨l, r, s₁, s', hl, -, hexec, hfailed, haccept, -⟩ := Plain.emptyTransfer_runs
  refine ⟨l, r, s', hl, ?_⟩
  exact (failed_transaction_only_pays .plain _ hl (fun _ => by decide) hexec hfailed haccept).2

/-- After it the sender is observed with another date of its points, where only its nonce should
differ. -/
theorem failed_transfer_dates_points : ∃ l r s₁ s' acc acc',
    Reachable .plain (fun _ ts => 0 ≤ ts ∧ ts < 2 ^ 63) (Admitted .plain 0) l ∧
      Admitted .plain 0 l.height Plain.emptyTransfer ∧
      Plain.emptyTransfer.payer ≠ Plain.emptyTransfer.fromAddr ∧
      executeTransaction .plain l.height Plain.emptyTransfer l.state = .ok (r, s₁) ∧
      r.executed = false ∧ acceptTransaction (Plain.emptyTransfer.setReceipt r) s₁ = .ok s' ∧
      l.state.getAccount Plain.emptyTransfer.fromAddr = .ok acc ∧
      s'.getAccount Plain.emptyTransfer.fromAddr = .ok acc' ∧
      acc' ≠ { acc with nonce := acc.nonce + 1 } := by
  obtain ⟨l, r, s₁, s', hl, hadmitted, hexec, hfailed, haccept, hnone, hts⟩ :=
    Plain.emptyTransfer_runs
  obtain ⟨exeTx, usage, hexecuted⟩ := executeTransaction_spec hexec
  obtain ⟨-, hr⟩ | ⟨e, -, rfl, -⟩ := hexecuted.result
  · rw [hr] at hfailed
    cases hfailed
  obtain ⟨r', hr', haccepted⟩ := acceptTransaction_spec haccept
  obtain rfl : r = r' := Option.some_inj.1 hr'
  have htime : InTime l.state.timestamp := (Reachable.safe hl).time
  have hread : l.state.getAccount Plain.emptyTransfer.fromAddr =
      .ok (newAccount Plain.emptyTransfer.fromAddr) := by
    rw [BlockState.getAccount, AccountState.getAccount,
      show l.state.accState.accounts.lookup Plain.emptyTransfer.fromAddr = none from hnone]
  have hread' := haccepted.getAccount_afterFailure htime (fun _ => by decide)
    Plain.emptyTransfer.fromAddr
  rw [hread] at hread'
  refine ⟨l, r, l.state, s', _, _, hl, hadmitted, by decide, hexec, hfailed, haccept, hread,
    hread', fun heq => ?_⟩
  have hdate := congrArg Account.lastPointsTs heq
  dsimp only [Account.afterFailure, newAccount] at hdate
  rw [if_pos (Or.inl rfl), hts] at hdate
  cases hdate

end GoMedibloc
