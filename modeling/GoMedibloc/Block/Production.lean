import GoMedibloc.Block.Replay
import GoMedibloc.Ledger.MakeBlock
import GoMedibloc.Ledger.Nonces
import GoMedibloc.Wire.Records

/-!
# Making a block and validating it

A block is made by `makeBlock` and validated by `VerifyIntegrity` and `CreateChildWithBlockData`.
The two are written apart.  The maker starts a child of its tail, executes and accepts one
transaction of the pool after the other, pays the reward, and seals the block: it copies the figures
and the roots of the state to the header and computes the hash.  The validator starts from the same
parent and executes what the block holds.

The maker appends a transaction by reference, and its receipt is read when the block is encoded.  So
what the validator sees are the receipts that the objects have at the end, and the two agree exactly
if no object of the block got another receipt later (`produced_block_valid_iff`).  An object that is
accepted once only is safe.  That an object is accepted twice in one block is no fancy: a transaction
that names its sender as its payer does not use up its nonce, and the pool offers it again.
-/

namespace GoMedibloc

open Except

/-! ## The maker -/

/-- The loop of `makeBlock` over the transactions that `Next` returns until the deadline. -/
def Draft.offerAll (env : Env) :
    List ℕ → ObjectHeap Transaction → Draft → Option Draft × ObjectHeap Transaction
  | [], heap, draft => (some draft, heap)
  | ref :: refs, heap, draft =>
    match draft.offer env ref heap with
    | (none, heap) => (none, heap)
    | (some draft, heap) => offerAll env refs heap draft

/-- The first part of `makeBlock`, until the first transaction. -/
def Block.start (consensus : Consensus) (tail : Block) (coinbase : Address) (nextMintTs : ℤ) :
    Except Err Block := do
  let block ← tail.initChild coinbase
  let block := { block with state := { block.state with timestamp := nextMintTs } }
  Block.setMintDynasty consensus tail block

/-- The second part of `makeBlock`: the transactions and the reward. -/
def Block.fill (env : Env) (tail block : Block) (refs : List ℕ) (heap : ObjectHeap Transaction) :
    Option Block := do
  let (draft, heap) := Draft.offerAll env refs heap ⟨block.height, block.state, []⟩
  let draft ← draft
  let state ← (payReward block.coinbase tail.supply draft.state).toOption
  return { block with state := state, transactions := heap.read draft.txs }

/-- `makeBlock`, for the transactions that are offered. -/
def makeBlock (env : Env) (consensus : Consensus) (tail : Block) (coinbase : Address)
    (nextMintTs : ℤ) (refs : List ℕ) (heap : ObjectHeap Transaction) : Option Block := do
  let block ← (tail.start consensus coinbase nextMintTs).toOption
  tail.fill env block refs heap

/-- `Seal`. -/
def Block.seal (env : BlockEnv) (b : Block) : Block :=
  let bd : BlockData := { b.toBlockData with
    timestamp := b.state.timestamp
    reward := b.state.reward
    supply := b.state.supply
    cpuPrice := b.state.cpuPrice
    cpuUsage := b.state.cpuUsage
    netPrice := b.state.netPrice
    netUsage := b.state.netUsage
    accStateRoot := env.accountsRoot b.state.accState
    txStateRoot := env.txsRoot b.state.txState
    dposRoot := env.dposRoot b.state.dposState }
  { b with toBlockData := { bd with hash := bd.calcHash env } }

/-- The data of a block with a signature, as `SignThis` sets it. -/
def Block.signed (b : Block) (sign : Bytes) : BlockData := { b.toBlockData with sign := sign }

/-! ## Receipts do not matter -/

section Receipts

variable {env : Env} {tx : Transaction}

/-- A transaction without its receipt. -/
def Transaction.bare (tx : Transaction) : Transaction := { tx with receipt := none }

lemma Transaction.bare_setReceipt (tx : Transaction) (r : Receipt) :
    (tx.setReceipt r).bare = tx.bare := rfl

/-- A transaction is what it is without its receipt, and its receipt. -/
lemma Transaction.setReceipt_of_bare {tx' : Transaction} {r : Receipt} (hbare : tx'.bare = tx.bare)
    (hr : tx'.receipt = some r) : tx' = tx.setReceipt r := by
  have hset : tx' = { tx'.bare with receipt := tx'.receipt } := rfl
  rw [hset, hbare, hr]
  rfl

lemma txConv_bare (env : Env) (tx : Transaction) : txConv env tx.bare = txConv env tx := by
  obtain ⟨hash, txType, toAddr, value, nonce, chainID, payload, sign, payerSign, receipt, fromAddr,
    payer⟩ := tx
  cases txType <;> rfl

lemma executeTransaction_bare (env : Env) (height : ℕ) (tx : Transaction) (s : BlockState) :
    executeTransaction env height tx.bare s = executeTransaction env height tx s := by
  unfold executeTransaction
  rw [txConv_bare]
  rfl

lemma Transaction.recoverFrom_bare (env : Env) (tx : Transaction) :
    tx.bare.recoverFrom env = tx.recoverFrom env := by
  unfold recoverFrom
  rw [txConv_bare]
  refine bind_congr fun exeTx => ?_
  cases exeTx.op <;> rfl

/-- A transaction stays admitted when its receipt changes. -/
lemma Admitted.of_bare {chainID : UInt32} {height : ℕ} {tx' : Transaction}
    (h : Admitted env chainID height tx) (hbare : tx'.bare = tx.bare) :
    Admitted env chainID height tx' := by
  have hset : tx' = { tx'.bare with receipt := tx'.receipt } := rfl
  have hfromAddr : tx'.recoverFrom env = tx.recoverFrom env := by
    rw [← Transaction.recoverFrom_bare, hbare, Transaction.recoverFrom_bare]
  refine ⟨?_, fun hheight => ?_⟩
  · obtain ⟨a, p, hfrom, hpaid, htx⟩ := Transaction.recover_eq_ok_iff.1 h.1
    refine Transaction.recover_eq_ok_iff.2 ⟨a, p, hfromAddr.trans hfrom, ?_, ?_⟩
    · rw [hset, hbare]
      exact hpaid
    · rw [hset, hbare]
      exact congrArg (fun tx : Transaction => { tx with receipt := tx'.receipt }) htx
  · obtain ⟨hchain, hfrom, htx, hhash⟩ := Transaction.verifyIntegrity_spec (h.2 hheight)
    have hchain' : tx'.chainID = chainID := by
      rw [hset, hbare]
      exact hchain
    have hhash' : tx'.calcHash env = tx'.hash := by
      rw [hset, hbare]
      exact hhash.symm
    have hsame : tx'.fromAddr = tx.fromAddr := by
      rw [hset, hbare]
      rfl
    rw [Transaction.verifyIntegrity, bind_of_ok (failIf_of_not (not_not.2 hchain')),
      bind_of_ok (hfromAddr.trans hfrom), ← hsame]
    exact bind_of_ok (failIf_of_not (not_not.2 hhash')) _

end Receipts

/-! ## What a run of the loop does -/

section Loop

variable {env : Env} {refs : List ℕ} {heap heap' : ObjectHeap Transaction} {draft draft' : Draft}

/-- All rounds of the loop meet a condition on the offered reference, the objects and the draft. -/
def Draft.EachOffer (env : Env) (P : ℕ → ObjectHeap Transaction → Draft → Prop) :
    List ℕ → ObjectHeap Transaction → Draft → Prop
  | [], _, _ => True
  | ref :: refs, heap, draft =>
    P ref heap draft ∧
      match draft.offer env ref heap with
      | (none, _) => True
      | (some draft, heap) => EachOffer env P refs heap draft

/-- A round does not change an object that the block holds already. -/
def Draft.Steady (env : Env) (ref : ℕ) (heap : ObjectHeap Transaction) (draft : Draft) : Prop :=
  ref ∈ draft.txs → (draft.offer env ref heap).2.cell ref = heap.cell ref

/-- Transactions that are executed and accepted one after the other, with the receipts they get;
they are found through their references. -/
inductive Produced (env : Env) (height : ℕ) (tx : ℕ → Transaction) :
    BlockState → List (ℕ × Receipt) → BlockState → Prop
  | nil (s : BlockState) : Produced env height tx s [] s
  | cons {s s₁ s₂ s' : BlockState} {ref : ℕ} {r : Receipt} {rest : List (ℕ × Receipt)}
      (hexec : executeTransaction env height (tx ref) s = .ok (r, s₁))
      (haccept : acceptTransaction ((tx ref).setReceipt r) s₁ = .ok s₂)
      (hrest : Produced env height tx s₂ rest s') : Produced env height tx s ((ref, r) :: rest) s'

/-- What a run of the loop does, with the references and the receipts of what it accepts. -/
structure Draft.Ran (env : Env) (refs : List ℕ) (heap : ObjectHeap Transaction) (draft : Draft)
    (trace : List (ℕ × Receipt)) (heap' : ObjectHeap Transaction) (draft' : Draft) : Prop where
  txs : draft'.txs = draft.txs ++ trace.map Prod.fst
  offered : ∀ p ∈ trace, p.1 ∈ refs
  produced : Produced env draft.height (fun ref => (heap.cell ref).bare) draft.state trace
    draft'.state
  /-- Nothing but receipts changes. -/
  bare : ∀ ref, (heap'.cell ref).bare = (heap.cell ref).bare
  steady : Draft.EachOffer env (Draft.Steady env) refs heap draft ↔
    (∀ ref ∈ draft.txs, heap'.cell ref = heap.cell ref) ∧
      ∀ p ∈ trace, (heap'.cell p.1).receipt = some p.2

lemma ObjectHeap.bare_setReceipt (heap : ObjectHeap Transaction) (ref : ℕ) (r : Receipt) (x : ℕ) :
    ((heap.modify ref (·.setReceipt r)).cell x).bare = (heap.cell x).bare := by
  by_cases hx : x = ref
  · rw [hx, ObjectHeap.cell_modify_self, Transaction.bare_setReceipt]
  · rw [ObjectHeap.cell_modify_of_ne hx]

/-- A round that passes over its transaction. -/
lemma Draft.Ran.skip {ref : ℕ} {trace : List (ℕ × Receipt)}
    (hoffer : draft.offer env ref heap = (some draft, heap))
    (h : Draft.Ran env refs heap draft trace heap' draft') :
    Draft.Ran env (ref :: refs) heap draft trace heap' draft' where
  txs := h.txs
  offered p hp := List.mem_cons_of_mem _ (h.offered p hp)
  produced := h.produced
  bare := h.bare
  steady := by
    rw [← h.steady, EachOffer, Steady, hoffer]
    exact and_iff_right fun _ => rfl

/-- A round that appends its transaction. -/
lemma Draft.Ran.append {ref : ℕ} {r : Receipt} {s₁ s₂ : BlockState} {trace : List (ℕ × Receipt)}
    (hexec : executeTransaction env draft.height (heap.cell ref) draft.state = .ok (r, s₁))
    (haccept : acceptTransaction ((heap.cell ref).setReceipt r) s₁ = .ok s₂)
    (hoffer : draft.offer env ref heap = (some { draft with state := s₂, txs := draft.txs ++ [ref] },
      heap.modify ref (·.setReceipt r)))
    (h : Draft.Ran env refs (heap.modify ref (·.setReceipt r))
      { draft with state := s₂, txs := draft.txs ++ [ref] } trace heap' draft') :
    Draft.Ran env (ref :: refs) heap draft ((ref, r) :: trace) heap' draft' where
  txs := by rw [h.txs, List.append_assoc, List.map_cons, List.singleton_append]
  offered p hp := by
    obtain rfl | hp := List.mem_cons.1 hp
    · exact List.mem_cons_self
    · exact List.mem_cons_of_mem _ (h.offered p hp)
  produced := by
    have hrest := h.produced
    simp only [ObjectHeap.bare_setReceipt] at hrest
    refine .cons ?_ haccept hrest
    rw [executeTransaction_bare, hexec]
  bare x := (h.bare x).trans (ObjectHeap.bare_setReceipt heap ref r x)
  steady := by
    have hbare : (heap'.cell ref).bare = (heap.cell ref).bare :=
      (h.bare ref).trans (ObjectHeap.bare_setReceipt heap ref r ref)
    rw [EachOffer, Steady, hoffer]
    dsimp only
    rw [h.steady, ObjectHeap.cell_modify_self]
    dsimp only
    constructor
    · rintro ⟨hself, hkept, hrest⟩
      have hlast : heap'.cell ref = (heap.cell ref).setReceipt r := by
        rw [hkept ref (by simp), ObjectHeap.cell_modify_self]
      refine ⟨fun x hx => ?_, fun p hp => ?_⟩
      · by_cases hxr : x = ref
        · rw [hxr] at hx ⊢
          rw [hlast, hself hx]
        · rw [hkept x (List.mem_append_left _ hx), ObjectHeap.cell_modify_of_ne hxr]
      · obtain rfl | hp := List.mem_cons.1 hp
        · rw [hlast]
          rfl
        · exact hrest p hp
    · rintro ⟨hkept, hreceipts⟩
      have hlast : heap'.cell ref = (heap.cell ref).setReceipt r :=
        Transaction.setReceipt_of_bare hbare (hreceipts (ref, r) List.mem_cons_self)
      refine ⟨fun hmem => hlast.symm.trans (hkept ref hmem), fun x hx => ?_,
        fun p hp => hreceipts p (List.mem_cons_of_mem _ hp)⟩
      by_cases hxr : x = ref
      · rw [hxr, hlast, ObjectHeap.cell_modify_self]
      · obtain hx | hx := List.mem_append.1 hx
        · rw [hkept x hx, ObjectHeap.cell_modify_of_ne hxr]
        · exact absurd (List.mem_singleton.1 hx) hxr

/-- What the loop does, if it comes to its end. -/
lemma Draft.offerAll_spec (h : Draft.offerAll env refs heap draft = (some draft', heap')) :
    ∃ trace, Draft.Ran env refs heap draft trace heap' draft' := by
  induction refs generalizing heap draft with
  | nil =>
      cases h
      refine ⟨[], (List.append_nil _).symm, fun _ hp => absurd hp List.not_mem_nil, .nil _,
        fun _ => rfl, ?_⟩
      simp [EachOffer]
  | cons ref refs ih =>
      rw [offerAll] at h
      obtain hoffer | hoffer | ⟨r, s₁, hexec, ⟨hoffer, -⟩ | ⟨s₂, haccept, hoffer⟩⟩ :=
        draft.offer_cases env ref heap <;> rw [hoffer] at h
      · cases h
      · obtain ⟨trace, hran⟩ := ih h
        exact ⟨trace, hran.skip hoffer⟩
      · cases h
      · obtain ⟨trace, hran⟩ := ih h
        exact ⟨_, hran.append hexec haccept hoffer⟩

/-- A transaction that is executed and accepted is accepted in the ledger. -/
lemma Ledger.accept_of_executed {height : ℕ} {tx : Transaction} {s s₁ s₂ : BlockState} {r : Receipt}
    (hexec : executeTransaction env height tx s = .ok (r, s₁))
    (haccept : acceptTransaction (tx.setReceipt r) s₁ = .ok s₂) :
    Ledger.accept env tx ⟨height, s, none, []⟩ = .ok ⟨height, s₂, none, [tx.setReceipt r]⟩ := by
  rw [Ledger.accept, bind_of_ok hexec]
  exact bind_of_ok haccept _

/-- A nonce that an account has reached is not due. -/
lemma not_due_of_le {height : ℕ} {tx : Transaction} {s s₁ : BlockState} {r : Receipt}
    (hexec : executeTransaction env height tx s = .ok (r, s₁)) (hzero : tx.nonce ≠ 0)
    (hused : tx.nonce.toNat ≤ s.nonceOf tx.fromAddr) : False := by
  obtain ⟨exeTx, usage, hexecuted⟩ := executeTransaction_spec hexec
  obtain ⟨acc, hacc, hnonce⟩ := hexecuted.nonce
  have hread : s.nonceOf tx.fromAddr = acc.nonce.toNat := by
    rw [← BlockState.address_of_getAccount hacc]
    exact (Edit.of_getAccount hacc acc rfl).nonceOf_read
  rw [hnonce] at hzero hused
  rw [hread, toNat_succ_iff.2 hzero] at hused
  omega

/-- If no transaction names its sender as its payer, none is accepted twice: its nonce is used up. -/
lemma Draft.eachOffer_steady {tx : ℕ → Transaction} (hcell : ∀ x, (heap.cell x).bare = tx x)
    (hapart : ∀ ref ∈ refs, (tx ref).PayerApart ∧ (tx ref).nonce ≠ 0)
    (hdone : ∀ ref ∈ draft.txs, (tx ref).nonce ≠ 0 ∧
      (tx ref).nonce.toNat ≤ draft.state.nonceOf (tx ref).fromAddr) :
    Draft.EachOffer env (Draft.Steady env) refs heap draft := by
  induction refs generalizing heap draft with
  | nil => trivial
  | cons ref refs ih =>
      have hrest : ∀ x ∈ refs, (tx x).PayerApart ∧ (tx x).nonce ≠ 0 :=
        fun x hx => hapart x (List.mem_cons_of_mem _ hx)
      rw [EachOffer, Steady]
      obtain hoffer | hoffer | ⟨r, s₁, hexec, hend⟩ := draft.offer_cases env ref heap
      · rw [hoffer]
        exact ⟨fun _ => rfl, trivial⟩
      · rw [hoffer]
        exact ⟨fun _ => rfl, ih hcell hrest hdone⟩
      -- the transaction has been executed, so it is not in the block yet
      · rw [← executeTransaction_bare, hcell] at hexec
        refine ⟨fun hmem => (not_due_of_le hexec (hdone ref hmem).1 (hdone ref hmem).2).elim, ?_⟩
        obtain ⟨hoffer, -⟩ | ⟨s₂, haccept, hoffer⟩ := hend
        · rw [hoffer]
          trivial
        · rw [hoffer]
          change acceptTransaction ((heap.cell ref).bare.setReceipt r) s₁ = .ok s₂ at haccept
          rw [hcell] at haccept
          obtain ⟨⟨n, hn, hnonce, hsender⟩, hother⟩ :=
            Ledger.accept_nonceOf (Ledger.accept_of_executed hexec haccept)
          obtain ⟨hpayer, hzero⟩ := hapart ref List.mem_cons_self
          rw [if_pos hpayer] at hsender
          refine ih (fun x => (ObjectHeap.bare_setReceipt heap ref r x).trans (hcell x)) hrest ?_
          intro x hx
          obtain hx | hx := List.mem_append.1 hx
          · refine ⟨(hdone x hx).1, (hdone x hx).2.trans ?_⟩
            by_cases hfrom : (tx x).fromAddr = (tx ref).fromAddr
            · rw [hfrom]
              dsimp only at hn hsender ⊢
              rw [hsender, hn, hnonce, toNat_succ_iff.2 (hnonce ▸ hzero)]
              exact Nat.le_succ _
            · exact (hother _ hfrom).ge
          · rw [List.mem_singleton.1 hx]
            exact ⟨hzero, hsender.ge⟩

end Loop

/-! ## What the validator finds -/

section Validator

variable {env : BlockEnv} {consensus : Consensus} {height : ℕ} {tx : ℕ → Transaction}
  {s s' : BlockState} {trace : List (ℕ × Receipt)}

/-- The validator executes a transaction as the maker has done exactly if it carries the receipt
that the maker has got. -/
lemma executeOn_iff {u t : Transaction} {r : Receipt} {s₁ s₂ : BlockState} (hbare : u.bare = t.bare)
    (hexec : executeTransaction env.toEnv height t s = .ok (r, s₁))
    (haccept : acceptTransaction (t.setReceipt r) s₁ = .ok s₂) :
    executeOn env height s u = .ok s' ↔ u.receipt = some r ∧ s' = s₂ := by
  have hsame : executeTransaction env.toEnv height u s = .ok (r, s₁) := by
    rw [← executeTransaction_bare, hbare, executeTransaction_bare, hexec]
  rw [executeOn, bind_of_ok (orFault_eq_ok.2 hsame)]
  dsimp only
  constructor
  · intro h
    obtain ⟨claimed, hclaimed, h⟩ := bind_eq_ok_iff.1 h
    obtain ⟨_, hequal, h⟩ := bind_eq_ok_iff.1 h
    rw [ofOption_eq_ok] at hclaimed
    rw [failIf_eq_ok, Bool.not_eq_false, Receipt.equal_iff] at hequal
    rw [← hequal] at hclaimed
    rw [orFault_eq_ok, Transaction.setReceipt_of_bare hbare hclaimed, haccept] at h
    exact ⟨hclaimed, (Except.ok.inj h).symm⟩
  · rintro ⟨hr, rfl⟩
    have hequal : ¬ r.equal r = false := by
      rw [Bool.not_eq_false]
      exact Receipt.equal_iff.2 rfl
    rw [hr, bind_of_ok (ofOption_eq_ok.2 rfl), bind_of_ok (failIf_of_not hequal), orFault_eq_ok,
      Transaction.setReceipt_of_bare hbare hr, haccept]

/-- The same for the transactions of a block. -/
lemma Produced.foldlM_iff {final : ℕ → Transaction} {s'' : BlockState}
    (hbare : ∀ ref, (final ref).bare = (tx ref).bare)
    (h : Produced env.toEnv height tx s trace s') :
    (trace.map fun p => final p.1).foldlM (executeOn env height) s = .ok s'' ↔
      (∀ p ∈ trace, (final p.1).receipt = some p.2) ∧ s'' = s' := by
  induction h with
  | nil s =>
      simp only [List.map_nil, List.foldlM_nil, List.not_mem_nil, false_implies, implies_true,
        true_and]
      exact ⟨fun h => (Except.ok.inj h).symm, fun h => h ▸ rfl⟩
  | cons hexec haccept hrest ih =>
      rw [List.map_cons, List.foldlM_cons, bind_eq_ok_iff]
      simp only [executeOn_iff (hbare _) hexec haccept, List.forall_mem_cons]
      constructor
      · rintro ⟨s₂, ⟨hr, rfl⟩, hfold⟩
        obtain ⟨hall, hlast⟩ := ih.1 hfold
        exact ⟨⟨hr, hall⟩, hlast⟩
      · rintro ⟨⟨hr, hall⟩, hlast⟩
        exact ⟨_, ⟨hr, rfl⟩, ih.2 ⟨hall, hlast⟩⟩

lemma Produced.timestamp {env : Env} (h : Produced env height tx s trace s') :
    s'.timestamp = s.timestamp := by
  induction h with
  | nil s => rfl
  | cons hexec haccept hrest ih =>
      exact ih.trans (Ledger.accept_frame (Ledger.accept_of_executed hexec haccept)).2

/-- Receipts that are there are added up. -/
lemma BlockData.sumReceipts_isOk (usage : Receipt → UInt64) {txs : List Transaction}
    (h : ∀ tx ∈ txs, ∃ r, tx.receipt = some r) : ∃ sum, sumReceipts usage txs = .ok sum := by
  have hrun : ∀ start : UInt64, ∃ sum, txs.foldlM (fun sum tx => (do
      let receipt ← ofOption .nilPointer tx.receipt
      return sum + usage receipt : Except Fault UInt64)) start = .ok sum := by
    induction txs with
    | nil => exact fun start => ⟨start, rfl⟩
    | cons tx txs ih =>
        intro start
        obtain ⟨r, hr⟩ := h tx List.mem_cons_self
        rw [List.foldlM_cons, hr]
        exact ih (fun tx htx => h tx (List.mem_cons_of_mem _ htx)) _
  exact hrun 0

lemma mapM_verifyIntegrity {env : Env} {chainID : UInt32} {txs : List Transaction}
    (h : ∀ tx ∈ txs, tx.verifyIntegrity env chainID = .ok tx) :
    txs.mapM (·.verifyIntegrity env chainID) = .ok txs := by
  induction txs with
  | nil => rfl
  | cons tx txs ih =>
      rw [List.mapM_cons, bind_of_ok (h tx List.mem_cons_self),
        bind_of_ok (ih fun tx htx => h tx (List.mem_cons_of_mem _ htx))]
      rfl

/-- What `VerifyIntegrity` asks of a block with admitted transactions. -/
lemma BlockData.verifyIntegrity_of {bd : BlockData}
    (htxs : ∀ tx ∈ bd.transactions, Admitted env.toEnv bd.chainID bd.height tx)
    (hmeter : ∀ m : Meter, m.header bd.toBlockHeader ≤ m.limit ∧
      sumReceipts m.stated bd.transactions = .ok (m.header bd.toBlockHeader))
    (hhash : bd.calcHash env = bd.hash) : bd.verifyIntegrity env = .ok bd := by
  unfold verifyIntegrity
  split_ifs with hheight
  · rfl
  · have hmap := mapM_verifyIntegrity fun tx htx => (htxs tx htx).2 hheight
    have husage : ∀ {limit header : UInt64} {usage : Receipt → UInt64} {invalid wrong : Err},
        header ≤ limit ∧ sumReceipts usage bd.transactions = .ok header →
        verifyUsage limit header usage invalid wrong bd.transactions = .ok () := by
      intro limit header usage invalid wrong ⟨hle, hsum⟩
      rw [verifyUsage, bind_of_ok (failIf_of_not (UInt64.not_lt.2 hle)), bind_of_ok hsum]
      exact failIf_of_not (not_not.2 rfl)
    have hcpu : bd.verifyCPUUsage = .ok () := husage (hmeter .cpu)
    have hnet : bd.verifyNetUsage = .ok () := husage (hmeter .net)
    have hdata : bd.verifyUsageData = .ok () := (bind_of_ok hcpu _).trans hnet
    rw [bind_of_ok (orFault_eq_ok.2 hmap)]
    dsimp only
    rw [bind_of_ok hdata, bind_of_ok (failIf_of_not (not_not.2 hhash))]
    rfl

/-- `VerifyIntegrity` leaves a block with admitted transactions as it is. -/
lemma BlockData.eq_of_verifyIntegrity {bd bd' : BlockData}
    (htxs : ∀ tx ∈ bd.transactions, Admitted env.toEnv bd.chainID bd.height tx)
    (h : bd.verifyIntegrity env = .ok bd') : bd' = bd := by
  unfold verifyIntegrity at h
  split_ifs at h with hheight
  · exact (Except.ok.inj h).symm
  · have hmap := mapM_verifyIntegrity fun tx htx => (htxs tx htx).2 hheight
    rw [bind_of_ok (orFault_eq_ok.2 hmap)] at h
    obtain ⟨_, -, h⟩ := bind_eq_ok_iff.1 h
    obtain ⟨_, -, h⟩ := bind_eq_ok_iff.1 h
    exact (Except.ok.inj h).symm

/-- A header with the counters that the transactions leave passes the check of its usages. -/
lemma Meter.verified_of_executed {bd : BlockData} {s₁ s₂ : BlockState} (m : Meter)
    (hzero : m.counter s₁ = 0)
    (hexec : bd.transactions.foldlM (executeOn env bd.height) s₁ = .ok s₂)
    (hheader : m.header bd.toBlockHeader = m.counter s₂) :
    m.header bd.toBlockHeader ≤ m.limit ∧
      BlockData.sumReceipts m.stated bd.transactions = .ok (m.header bd.toBlockHeader) := by
  have hall : Block.executeAll env ⟨bd, s₁⟩ = .ok ⟨bd, s₂⟩ := by
    rw [Block.executeAll, Block.foldlM_execute_eq]
    exact map_eq_ok_iff.2 ⟨s₂, hexec, rfl⟩
  obtain ⟨⟨hcounter, hle⟩, hstated⟩ := Block.executeAll_meter hall m hzero
  obtain ⟨sum, hsum⟩ := BlockData.sumReceipts_isOk m.stated
    fun tx htx => (hstated tx htx).imp fun _ h => h.1
  have hmod := BlockData.sumReceipts_eq hstated hsum
  have heq : sum = m.counter s₂ := by
    rw [← UInt64.toNat_inj, hmod, hcounter, Nat.mod_eq_of_lt]
    rw [← hcounter]
    exact UInt64.toNat_lt _
  rw [hheader, hsum, heq]
  exact ⟨hle, rfl⟩

end Validator

/-! ## The two together -/

section Agreement

variable {env : BlockEnv} {consensus : Consensus} {tail started block : Block} {coinbase : Address}
  {nextMintTs : ℤ} {refs : List ℕ} {heap : ObjectHeap Transaction}

lemma withMintDynasty_frame {parent s s' : BlockState}
    (h : withMintDynasty consensus parent s = .ok s') :
    s' = { s with dposState := s'.dposState } := by
  unfold withMintDynasty at h
  split at h
  · cases h
    rfl
  · split_ifs at h
    cases h
    rfl

/-- What the block starts from. -/
lemma Block.start_spec (h : tail.start consensus coinbase nextMintTs = .ok started) :
    (∃ price, tail.calcChildPrice = .ok price ∧
      withMintDynasty consensus tail.state { tail.state with
        cpuUsage := 0
        netUsage := 0
        cpuPrice := price.1
        netPrice := price.2
        timestamp := nextMintTs } = .ok started.state) ∧
    started.chainID = tail.chainID ∧ started.height = tail.height + 1 ∧
      started.coinbase = coinbase := by
  obtain ⟨child, hchild, h⟩ := bind_eq_ok_iff.1 h
  obtain ⟨price, hprice, hchild⟩ := bind_eq_ok_iff.1 hchild
  cases hchild
  rw [setMintDynasty_eq] at h
  obtain ⟨s, hs, h⟩ := map_eq_ok_iff.1 h
  cases h
  exact ⟨⟨price, hprice, hs⟩, rfl, rfl, rfl⟩

/-- What the block is filled with. -/
lemma Block.fill_spec {env : Env} (h : tail.fill env started refs heap = some block) :
    ∃ draft heap' trace state,
      Draft.Ran env refs heap ⟨started.height, started.state, []⟩ trace heap' draft ∧
      payReward started.coinbase tail.supply draft.state = .ok state ∧
      block = { started with state := state, transactions := trace.map fun p => heap'.cell p.1 } := by
  unfold fill at h
  obtain ⟨⟨draft?, heap'⟩, hoffer⟩ :
      ∃ out, Draft.offerAll env refs heap ⟨started.height, started.state, []⟩ = out := ⟨_, rfl⟩
  rw [hoffer] at h
  dsimp only at h
  obtain ⟨draft, hdraft, h⟩ := Option.bind_eq_some_iff.1 h
  obtain ⟨state, hpay, h⟩ := Option.bind_eq_some_iff.1 h
  rw [hdraft] at hoffer
  obtain ⟨trace, hran⟩ := Draft.offerAll_spec hoffer
  have hreward : payReward started.coinbase tail.supply draft.state = .ok state := by
    cases hresult : payReward started.coinbase tail.supply draft.state with
    | error e => rw [hresult] at hpay; cases hpay
    | ok s => rw [hresult] at hpay; cases hpay; rfl
  refine ⟨draft, heap', trace, state, hran, hreward, ?_⟩
  cases h
  rw [ObjectHeap.read, hran.txs, List.nil_append, List.map_map]
  rfl

/-- The data of a block is encoded, decoded, verified and executed on a parent, and ends with the
given state. -/
def BlockData.Validates (env : BlockEnv) (blocks : Codec PbBlock) (consensus : Consensus)
    (parent : Block) (bd : BlockData) (s : BlockState) : Prop :=
  ∃ bd₁ bd₂ child, BlockData.fromBytes env.toEnv blocks (bd.toBytes blocks) = .ok bd₁ ∧
    bd₁.verifyIntegrity env = .ok bd₂ ∧
    parent.createChildWithBlockData env consensus bd₂ = .ok child ∧ child.state = s

/-- **Maker and validator.**  A block of admitted transactions that is made, sealed and signed by
the proposer of its slot is valid, with the state it was made with, exactly if no round of the loop
changed the receipt of an object that the block held already.  That is so if no transaction that is
offered names its sender as its payer. -/
theorem produced_block_valid_iff (env : BlockEnv) (blocks : Codec PbBlock) (d : Dpos)
    (sortByVotePower : DposState → Except Err (List Address)) {tail started block : Block}
    {coinbase proposer : Address} {nextMintTs : ℤ} {refs : List ℕ} {heap : ObjectHeap Transaction}
    {sign : Bytes}
    (hadmitted : ∀ ref ∈ refs,
      Admitted env.toEnv tail.chainID (tail.height + 1) (heap.cell ref))
    (hstart : tail.start (d.asConsensus env.toEnv sortByVotePower) coinbase nextMintTs = .ok started)
    (hmake : makeBlock env.toEnv (d.asConsensus env.toEnv sortByVotePower) tail coinbase nextMintTs
      refs heap = some block)
    (hproposer : d.readProposer started.state = .ok proposer)
    (hsigned : ((block.seal env).signed sign).proposer env.toEnv = .ok proposer) :
    (((block.seal env).signed sign).Validates env blocks (d.asConsensus env.toEnv sortByVotePower)
        tail block.state ↔
      Draft.EachOffer env.toEnv (Draft.Steady env.toEnv) refs heap
        ⟨started.height, started.state, []⟩) ∧
    ((∀ ref ∈ refs, (heap.cell ref).PayerApart ∧ (heap.cell ref).nonce ≠ 0) →
      Draft.EachOffer env.toEnv (Draft.Steady env.toEnv) refs heap
        ⟨started.height, started.state, []⟩) := by
  refine ⟨?_, fun hapart => Draft.eachOffer_steady (fun _ => rfl) hapart
    fun _ h => absurd h List.not_mem_nil⟩
  rw [makeBlock, hstart] at hmake
  obtain ⟨draft, heap', trace, state, hran, hpay, rfl⟩ := Block.fill_spec hmake
  obtain ⟨⟨price, hprice, hdynasty⟩, hchain, hheight, rfl⟩ := Block.start_spec hstart
  obtain ⟨bd, hbd⟩ : ∃ bd, bd = (Block.seal env { started with
    state := state
    transactions := trace.map fun p => heap'.cell p.1 }).signed sign := ⟨_, rfl⟩
  rw [← hbd] at hsigned ⊢
  have htxs : ∀ tx ∈ bd.transactions, Admitted env.toEnv bd.chainID bd.height tx := by
    rw [hbd]
    intro tx htx
    obtain ⟨p, hp, rfl⟩ := List.mem_map.1 htx
    have hcell := (hadmitted p.1 (hran.offered p hp)).of_bare (hran.bare p.1)
    rw [← hchain, ← hheight] at hcell
    exact hcell
  have hround : BlockData.fromBytes env.toEnv blocks (bd.toBytes blocks) = .ok bd :=
    BlockData.fromBytes_toBytes blocks fun tx htx => (htxs tx htx).1
  have hframe := withMintDynasty_frame hdynasty
  have hts : bd.timestamp = nextMintTs := by
    have hstate : state.timestamp = draft.state.timestamp := by rw [payReward_frame hpay]
    have hbegin : started.state.timestamp = nextMintTs := by rw [hframe]
    rw [hbd]
    exact (hstate.trans hran.produced.timestamp).trans hbegin
  rw [← hts] at hdynasty
  have hvalid : ∀ s, (trace.map fun p => heap'.cell p.1).foldlM (executeOn env started.height)
      started.state = .ok s ↔
        (∀ p ∈ trace, (heap'.cell p.1).receipt = some p.2) ∧ s = draft.state := by
    intro s
    refine hran.produced.foldlM_iff ?_
    exact hran.bare
  constructor
  · rintro ⟨bd₁, bd₂, child, hdecode, hverify, hcreate, -⟩
    obtain rfl : bd = bd₁ := Except.ok.inj (hround.symm.trans hdecode)
    obtain rfl := BlockData.eq_of_verifyIntegrity htxs hverify
    obtain ⟨s, hreplay, -⟩ := Block.createChildWithBlockData_eq_ok_iff.1 hcreate
    obtain ⟨price', s₁, s₂, hprice', hdynasty', -, hexec, -, -⟩ := replay_spec hreplay
    obtain rfl : price = price' := Except.ok.inj (hprice.symm.trans hprice')
    obtain rfl : started.state = s₁ := Except.ok.inj (hdynasty.symm.trans hdynasty')
    rw [hbd] at hexec
    exact hran.steady.2 ⟨fun _ h => absurd h List.not_mem_nil, ((hvalid s₂).1 hexec).1⟩
  · intro hsteady
    have hexec : bd.transactions.foldlM (executeOn env bd.height) started.state =
        .ok draft.state := by
      rw [hbd]
      exact (hvalid _).2 ⟨(hran.steady.1 hsteady).2, rfl⟩
    have hverify : bd.verifyIntegrity env = .ok bd := by
      refine BlockData.verifyIntegrity_of htxs (fun m => ?_) (by rw [hbd]; rfl)
      refine m.verified_of_executed ?_ hexec ?_
      · rw [hframe]
        cases m <;> rfl
      · rw [← payReward_counter hpay m, hbd]
        cases m <;> rfl
    have hslot : (d.asConsensus env.toEnv sortByVotePower).verifyProposer ⟨bd, started.state⟩ =
        .ok () := by
      have hstate : { started.state with timestamp := bd.timestamp } = started.state := by
        rw [hts, hframe]
      change d.verifyProposer (bd.proposer env.toEnv)
        { started.state with timestamp := bd.timestamp } = .ok ()
      rw [hstate, Dpos.verifyProposer, bind_of_ok hsigned, bind_of_ok hproposer]
      exact failIf_of_not (not_not.2 rfl)
    have hreplay : replay env (d.asConsensus env.toEnv sortByVotePower) tail bd = .ok state := by
      refine replay_of hprice hdynasty hslot hexec ?_ ?_
      · rw [hbd]
        exact hpay
      · rw [hbd]
        exact ⟨rfl, rfl, rfl, rfl, rfl, rfl, rfl⟩
    exact ⟨bd, bd, ⟨bd, state⟩, hround, hverify,
      Block.createChildWithBlockData_eq_ok_iff.2 ⟨state, hreplay, rfl⟩, rfl⟩

end Agreement

/-! ## Blocks of transfers -/

namespace Plain

/-- A consensus with a dynasty of three. -/
def dpos : Dpos := ⟨3, Dpos.three_pos⟩

def byVotePower : DposState → Except Err (List Address) :=
  fun _ => .ok [address 1, address 2, address 3]

/-- A transfer of 600 of the 1000 that address 1 has. -/
def transfer600 : Transaction := signed ⟨.transfer, address 1, address 2, .ofUint 600, 1, 0, []⟩

/-- The same transfer with its sender as its payer. -/
def selfPaid600 : Transaction :=
  { transfer600 with payerSign := (address 1).toList, payer := address 1 }

/-- The first part of making the block for the slot at 6. -/
def startedBlock : Except Err Block :=
  parentBlock.start (dpos.asConsensus .plain byVotePower) (address 3) 6

/-- The block for that slot when the pool offers one transaction twice. -/
def offeredTwice (tx : Transaction) : Option Block :=
  makeBlock .plain (dpos.asConsensus .plain byVotePower) parentBlock (address 3) 6 [0, 0]
    ⟨fun _ => tx, 1⟩

/-- The data of a made block with the signature of the proposer at 6. -/
def mintedData (block : Block) : BlockData := (block.seal blockEnv).signed (address 3).toList

lemma startedBlock_proposer :
    ∃ started, startedBlock = .ok started ∧ dpos.readProposer started.state = .ok (address 3) :=
  bind_eq_ok_iff.1 (show (startedBlock >>= fun b => dpos.readProposer b.state) = .ok (address 3) by
    decide +kernel)

end Plain

/-- The block with the transfer is valid; offered again, the transfer is passed over. -/
theorem transfer_block_valid : ∃ block, Plain.offeredTwice Plain.transfer600 = some block ∧
    (Plain.mintedData block).Validates Plain.blockEnv (Codec.ofCountable PbBlock)
      (Plain.dpos.asConsensus .plain Plain.byVotePower) Plain.parentBlock block.state := by
  obtain ⟨started, hstart, hproposer⟩ := Plain.startedBlock_proposer
  have hmade : (Plain.offeredTwice Plain.transfer600).any (fun block =>
      decide ((Plain.mintedData block).proposer .plain = .ok (Plain.address 3))) = true := by
    decide +kernel
  obtain ⟨block, hblock, hsigned⟩ := (Option.any_eq_true _ _).1 hmade
  obtain ⟨hvalid, hapart⟩ := produced_block_valid_iff Plain.blockEnv (Codec.ofCountable PbBlock)
    Plain.dpos Plain.byVotePower (by decide +kernel) hstart hblock hproposer
    (of_decide_eq_true hsigned)
  exact ⟨block, hblock, hvalid.2 (hapart (by decide +kernel))⟩

/-- One self-paid transfer is offered twice, executed once with success and once without, and is in
the block twice, both times with its last receipt.  No validator accepts the block. -/
theorem self_paid_block_refused : ∃ started block,
    (∀ ref ∈ [0, 0], Admitted .plain Plain.parentBlock.chainID (Plain.parentBlock.height + 1)
      ((⟨fun _ => Plain.selfPaid600, 1⟩ : ObjectHeap Transaction).cell ref)) ∧
    Plain.startedBlock = .ok started ∧ Plain.offeredTwice Plain.selfPaid600 = some block ∧
    Plain.dpos.readProposer started.state = .ok (Plain.address 3) ∧
    (Plain.mintedData block).proposer .plain = .ok (Plain.address 3) ∧
    ∀ (blocks : Codec PbBlock) (s : BlockState), ¬ (Plain.mintedData block).Validates Plain.blockEnv
      blocks (Plain.dpos.asConsensus .plain Plain.byVotePower) Plain.parentBlock s := by
  obtain ⟨started, hstart, hproposer⟩ := Plain.startedBlock_proposer
  have hmade : (Plain.offeredTwice Plain.selfPaid600).any (fun block =>
      decide ((Plain.mintedData block).proposer .plain = .ok (Plain.address 3) ∧
        (∀ tx ∈ (Plain.mintedData block).transactions, Admitted .plain
          (Plain.mintedData block).chainID (Plain.mintedData block).height tx) ∧
        (Plain.parentBlock.createChildWithBlockData Plain.blockEnv
          (Plain.dpos.asConsensus .plain Plain.byVotePower) (Plain.mintedData block)).isOk =
            false)) = true := by
    decide +kernel
  obtain ⟨block, hblock, hall⟩ := (Option.any_eq_true _ _).1 hmade
  obtain ⟨hsigned, htxs, hnot⟩ := of_decide_eq_true hall
  refine ⟨started, block, by decide +kernel, hstart, hblock, hproposer, hsigned, ?_⟩
  rintro blocks s ⟨bd₁, bd₂, child, hdecode, hverify, hcreate, -⟩
  have hround := BlockData.fromBytes_toBytes blocks fun tx htx => (htxs tx htx).1
  obtain rfl : Plain.mintedData block = bd₁ := Except.ok.inj (hround.symm.trans hdecode)
  obtain rfl := BlockData.eq_of_verifyIntegrity htxs hverify
  rw [isOk_iff.2 ⟨child, hcreate⟩] at hnot
  cases hnot

end GoMedibloc
