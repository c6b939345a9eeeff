import GoMedibloc.Chain.BlockChain
import GoMedibloc.Framework.ObjectHeap
import GoMedibloc.Ledger.MakeBlock

/-!
# Blocks that share their transactions

A block holds its transactions by reference.  The cache of blocks, the main tail, the pool and
the block in the making may all point to one transaction object.  A transaction enters the pool
from the network, or `rearrangeTransactions` pushes it there when its block leaves the canonical
chain: the object itself, which the reverted block goes on to hold.  When `makeBlock` takes the
transaction from the pool, `SetReceipt` writes the receipt of the new block into that object.
The receipt has the height and the timestamp of its block, so the reverted block now reads
differently from what is stored under its hash.

`TxNode` is a process with these holders, and `TxStep` its steps.  The cache agrees with the
storage as long as no transaction that `makeBlock` takes belongs to a cached block
(`cache_agrees_with_storage`); in `reverted_block_is_changed` one does.
-/

namespace GoMedibloc

variable {H : Type} [HashableBlock H]

/-! ## A process and its objects -/

/-- A block in memory: all of it but its transactions, and references to those. -/
structure BlockObject (H : Type) where
  header : H
  txs : List ℕ
deriving DecidableEq

/-- A process: the transaction objects, the storage under the hashes of blocks, the cache of
blocks, the block objects that are pointed to from anywhere, the transactions in the pool, and
the block in the making.  The encoding of a block is one-to-one, so the storage is given what is
encoded. -/
structure TxNode (H : Type) where
  heap : ObjectHeap Transaction
  storage : Hash → Option (H × List Transaction)
  cachedBlocks : Lru Hash (BlockObject H)
  objects : List (BlockObject H)
  pool : List ℕ
  draft : Option Draft

namespace TxNode

/-- A process that starts on a storage. -/
def start (heap : ObjectHeap Transaction) (storage : Hash → Option (H × List Transaction))
    (cacheSize : ℕ) : TxNode H :=
  ⟨heap, storage, Lru.new cacheSize, [], [], none⟩

/-- What the encoding of a block holds. -/
def encoded (s : TxNode H) (b : BlockObject H) : H × List Transaction :=
  (b.header, s.heap.read b.txs)

/-- `cacheBlock`. -/
def cacheBlock (b : BlockObject H) (s : TxNode H) : TxNode H :=
  { s with cachedBlocks := s.cachedBlocks.add (hash b.header) b, objects := b :: s.objects }

/-- `storeBlock`. -/
def storeBlock (b : BlockObject H) (s : TxNode H) : TxNode H :=
  { s with storage := Function.update s.storage (hash b.header) (some (s.encoded b)) }.cacheBlock b

/-- The block object that decoding makes. -/
def decoded (s : TxNode H) (header : H) (txs : List Transaction) : BlockObject H :=
  ⟨header, s.heap.fresh txs.length⟩

/-- The transaction objects that decoding makes. -/
def allocAll (s : TxNode H) (txs : List Transaction) : TxNode H :=
  { s with heap := s.heap.allocAll txs }

/-- `BlockByHash`: from the cache, or decoded from the storage and cached. -/
def blockByHash (h : Hash) (s : TxNode H) : Option (BlockObject H) × TxNode H :=
  match (s.cachedBlocks.get h).1 with
  | some b => (some b, { s with cachedBlocks := (s.cachedBlocks.get h).2 })
  | none =>
    match s.storage h with
    | none => (none, s)
    | some (header, txs) =>
      (some (s.decoded header txs), (s.allocAll txs).cacheBlock (s.decoded header txs))

/-- The transactions that `rearrangeTransactions` pushes: those of the reverted blocks that are
not objects of the new blocks. -/
def rearranged (revertBlocks newBlocks : List (BlockObject H)) : List ℕ :=
  (revertBlocks.flatMap BlockObject.txs).filter (· ∉ newBlocks.flatMap BlockObject.txs)

end TxNode

/-- The steps of a process.  `ok` restricts the transactions that `makeBlock` is offered. -/
inductive TxStep (env : Env) (ok : TxNode H → ℕ → Prop) : TxNode H → TxNode H → Prop
  /-- a transaction enters the pool from outside -/
  | receive (s : TxNode H) (tx : Transaction) :
      TxStep env ok s { s with heap := s.heap.alloc tx, pool := s.heap.next :: s.pool }
  /-- a block from the network has been verified and is put on the chain -/
  | accept (s : TxNode H) (header : H) (txs : List Transaction) :
      TxStep env ok s ((s.allocAll txs).storeBlock (s.decoded header txs))
  /-- a block is looked up -/
  | lookup (s : TxNode H) (h : Hash) : TxStep env ok s (s.blockByHash h).2
  /-- a block is dropped from the cache -/
  | evict (s : TxNode H) (h : Hash) :
      TxStep env ok s { s with cachedBlocks := s.cachedBlocks.remove h }
  /-- the main tail has moved, and transactions of reverted blocks go back to the pool -/
  | rearrange (s : TxNode H) (revertBlocks newBlocks : List (BlockObject H))
      (hrevert : ∀ b ∈ revertBlocks, b ∈ s.objects) :
      TxStep env ok s { s with pool := s.pool ++ TxNode.rearranged revertBlocks newBlocks }
  /-- transactions leave the pool -/
  | prune (s : TxNode H) (pool : List ℕ) (hpool : ∀ r ∈ pool, r ∈ s.pool) :
      TxStep env ok s { s with pool := pool }
  /-- the making of a block begins -/
  | begin (s : TxNode H) (height : ℕ) (state : BlockState) (hdraft : s.draft = none) :
      TxStep env ok s { s with draft := some ⟨height, state, []⟩ }
  /-- `makeBlock` takes a transaction from the pool -/
  | offer (s : TxNode H) (draft : Draft) (ref : ℕ) (hdraft : s.draft = some draft)
      (hpool : ref ∈ s.pool) (hok : ok s ref) :
      TxStep env ok s { s with
        draft := (draft.offer env ref s.heap).1, heap := (draft.offer env ref s.heap).2 }
  /-- the block is sealed and put on the chain -/
  | finish (s : TxNode H) (draft : Draft) (header : H) (hdraft : s.draft = some draft) :
      TxStep env ok s { s.storeBlock ⟨header, draft.txs⟩ with draft := none }

/-! ## What holds in every state -/

/-- The cached blocks read as what is stored, and every reference is in use. -/
structure TxNodeOk (s : TxNode H) : Prop where
  agrees : ∀ h b, s.cachedBlocks.Holds h b → s.storage h = some (s.encoded b)
  keyed : ∀ h x, s.storage h = some x → hash x.1 = h
  cached : ∀ h b, s.cachedBlocks.Holds h b → b ∈ s.objects
  objects : ∀ b ∈ s.objects, s.heap.Valid b.txs
  pool : s.heap.Valid s.pool
  draft : ∀ d ∈ s.draft, s.heap.Valid d.txs

namespace TxNodeOk

variable {s : TxNode H}

lemma start {heap : ObjectHeap Transaction} {storage : Hash → Option (H × List Transaction)}
    (hkeyed : ∀ h x, storage h = some x → hash x.1 = h) (cacheSize : ℕ) :
    TxNodeOk (TxNode.start heap storage cacheSize) where
  agrees h b hb := absurd hb (Lru.not_holds_new _)
  keyed := hkeyed
  cached h b hb := absurd hb (Lru.not_holds_new _)
  objects b hb := by cases hb
  pool r hr := by cases hr
  draft d hd := by cases hd

/-- New transaction objects change nothing. -/
lemma allocAll (h : TxNodeOk s) (txs : List Transaction) : TxNodeOk (s.allocAll txs) where
  agrees k b hb := by
    rw [TxNode.encoded, TxNode.allocAll, ObjectHeap.read_allocAll (h.objects b (h.cached k b hb))]
    exact h.agrees k b hb
  keyed := h.keyed
  cached := h.cached
  objects b hb := (h.objects b hb).mono (by simp [TxNode.allocAll])
  pool := h.pool.mono (by simp [TxNode.allocAll])
  draft d hd := (h.draft d hd).mono (by simp [TxNode.allocAll])

/-- A block that reads as what is stored under its hash may be cached. -/
lemma cacheBlock (h : TxNodeOk s) {b : BlockObject H} (hvalid : s.heap.Valid b.txs)
    (hstored : s.storage (hash b.header) = some (s.encoded b)) : TxNodeOk (s.cacheBlock b) where
  agrees k c hc := by
    rcases Lru.holds_of_add hc with ⟨rfl, rfl⟩ | hc
    · exact hstored
    · exact h.agrees k c hc
  keyed := h.keyed
  cached k c hc := by
    rcases Lru.holds_of_add hc with ⟨rfl, rfl⟩ | hc
    · exact List.mem_cons_self
    · exact List.mem_cons_of_mem _ (h.cached k c hc)
  objects c hc := by
    rcases List.mem_cons.1 hc with rfl | hc
    · exact hvalid
    · exact h.objects c hc
  pool := h.pool
  draft := h.draft

/-- A block goes to the storage and to the cache at once. -/
lemma storeBlock (h : TxNodeOk s) {b : BlockObject H} (hvalid : s.heap.Valid b.txs) :
    TxNodeOk (s.storeBlock b) where
  agrees k c hc := by
    change Function.update s.storage (hash b.header) (some (s.encoded b)) k = some (s.encoded c)
    rcases Lru.add_cases hc with ⟨rfl, rfl⟩ | ⟨hne, hc⟩
    · rw [Function.update_self]
    · rw [Function.update_of_ne hne]
      exact h.agrees k c hc
  keyed k x hx := by
    change Function.update s.storage (hash b.header) (some (s.encoded b)) k = some x at hx
    by_cases heq : k = hash b.header
    · rw [heq, Function.update_self] at hx
      rw [← Option.some.inj hx, heq]
      rfl
    · rw [Function.update_of_ne heq] at hx
      exact h.keyed k x hx
  cached k c hc := by
    rcases Lru.holds_of_add hc with ⟨rfl, rfl⟩ | hc
    · exact List.mem_cons_self
    · exact List.mem_cons_of_mem _ (h.cached k c hc)
  objects c hc := by
    rcases List.mem_cons.1 hc with rfl | hc
    · exact hvalid
    · exact h.objects c hc
  pool := h.pool
  draft := h.draft

/-- A smaller or reordered cache. -/
lemma shrinkCache (h : TxNodeOk s) {cache : Lru Hash (BlockObject H)}
    (hcache : ∀ k b, cache.Holds k b → s.cachedBlocks.Holds k b) :
    TxNodeOk { s with cachedBlocks := cache } where
  agrees k b hb := h.agrees k b (hcache k b hb)
  keyed := h.keyed
  cached k b hb := h.cached k b (hcache k b hb)
  objects := h.objects
  pool := h.pool
  draft := h.draft

lemma blockByHash (h : TxNodeOk s) (k : Hash) : TxNodeOk (s.blockByHash k).2 := by
  unfold TxNode.blockByHash
  split
  · exact h.shrinkCache fun x b hb => Lru.holds_of_get hb
  · split
    · exact h
    · next header txs hstored =>
      have hkey : hash header = k := h.keyed k (header, txs) hstored
      refine (h.allocAll txs).cacheBlock ObjectHeap.valid_fresh ?_
      change s.storage (hash header) = some (header, (s.heap.allocAll txs).read _)
      rw [hkey, hstored, TxNode.decoded, ObjectHeap.read_fresh]

end TxNodeOk

/-- No cached block holds the transaction. -/
def Unshared (s : TxNode H) (ref : ℕ) : Prop :=
  ∀ h b, s.cachedBlocks.Holds h b → ref ∉ b.txs

namespace TxNodeOk

variable {s : TxNode H}

/-- A receipt is set in an object that no cached block holds. -/
lemma modify (h : TxNodeOk s) {ref : ℕ} (hfree : Unshared s ref) (f : Transaction → Transaction) :
    TxNodeOk { s with heap := s.heap.modify ref f } where
  agrees k b hb := by
    rw [TxNode.encoded, ObjectHeap.read_modify (hfree k b hb)]
    exact h.agrees k b hb
  keyed := h.keyed
  cached := h.cached
  objects := h.objects
  pool := h.pool
  draft := h.draft

lemma setDraft (h : TxNodeOk s) {draft : Option Draft}
    (hdraft : ∀ d ∈ draft, s.heap.Valid d.txs) : TxNodeOk { s with draft := draft } :=
  ⟨h.agrees, h.keyed, h.cached, h.objects, h.pool, hdraft⟩

lemma setPool (h : TxNodeOk s) {pool : List ℕ} (hpool : s.heap.Valid pool) :
    TxNodeOk { s with pool := pool } :=
  ⟨h.agrees, h.keyed, h.cached, h.objects, hpool, h.draft⟩

/-- A round of `makeBlock` with a transaction that no cached block holds. -/
lemma offer (h : TxNodeOk s) {env : Env} {draft : Draft} {ref : ℕ} (hdraft : s.draft = some draft)
    (hpool : ref ∈ s.pool) (hfree : Unshared s ref) :
    TxNodeOk { s with
      draft := (draft.offer env ref s.heap).1, heap := (draft.offer env ref s.heap).2 } := by
  have hvalid : s.heap.Valid draft.txs := h.draft draft hdraft
  rcases draft.offer_cases env ref s.heap with
    heq | heq | ⟨receipt, s₁, -, ⟨heq, -⟩ | ⟨state, -, heq⟩⟩
  · rw [heq]
    exact h.setDraft (by simp)
  · rw [heq]
    exact h.setDraft (by simpa using hvalid)
  · rw [heq]
    exact (h.modify hfree _).setDraft (by simp)
  · rw [heq]
    refine (h.modify hfree _).setDraft fun d hd r hr => ?_
    obtain rfl := Option.mem_some.1 hd
    rcases List.mem_append.1 hr with hr | hr
    · exact hvalid r hr
    · rw [List.mem_singleton.1 hr]
      exact h.pool ref hpool

/-- Every step keeps the cache in agreement with the storage, if the transactions that
`makeBlock` takes are held by no cached block. -/
lemma step {env : Env} {s' : TxNode H} (h : TxNodeOk s) (hstep : TxStep env Unshared s s') :
    TxNodeOk s' := by
  cases hstep with
  | receive tx =>
      refine (h.allocAll [tx]).setPool fun r hr => ?_
      change r < s.heap.next + 1
      rcases List.mem_cons.1 hr with rfl | hr
      · exact Nat.lt_succ_self _
      · exact (h.pool r hr).trans (Nat.lt_succ_self _)
  | accept header txs => exact (h.allocAll txs).storeBlock ObjectHeap.valid_fresh
  | lookup k => exact h.blockByHash k
  | evict k => exact h.shrinkCache fun x b hb => (Lru.remove_holds.1 hb).2
  | rearrange revertBlocks newBlocks hrevert =>
      refine h.setPool fun r hr => ?_
      rcases List.mem_append.1 hr with hr | hr
      · exact h.pool r hr
      · obtain ⟨b, hb, hr⟩ := List.mem_flatMap.1 (List.mem_filter.1 hr).1
        exact h.objects b (hrevert b hb) r hr
  | prune pool hpool => exact h.setPool fun r hr => h.pool r (hpool r hr)
  | begin height state hdraft => exact h.setDraft (by simp [ObjectHeap.Valid])
  | offer draft ref hdraft hpool hok => exact h.offer hdraft hpool hok
  | finish draft header hdraft =>
      exact (h.storeBlock (b := ⟨header, draft.txs⟩) (h.draft draft hdraft)).setDraft (by simp)

lemma run {env : Env} {s' : TxNode H} (h : TxNodeOk s)
    (hrun : Relation.ReflTransGen (TxStep env Unshared) s s') : TxNodeOk s' := by
  induction hrun with
  | refl => exact h
  | tail _ hstep ih => exact ih.step hstep

/-- A receipt that is set in an object of a cached block shows in that block. -/
lemma disagrees (h : TxNodeOk s) {k : Hash} {b : BlockObject H} (hb : s.cachedBlocks.Holds k b)
    {ref : ℕ} (href : ref ∈ b.txs) {receipt : Receipt}
    (hne : (s.heap.cell ref).receipt ≠ some receipt) :
    s.storage k ≠
      some (b.header, (s.heap.modify ref (·.setReceipt receipt)).read b.txs) := by
  rw [h.agrees k b hb]
  intro heq
  have hread := (Prod.mk.inj (Option.some.inj heq)).2
  have hcell := List.map_inj_left.1 hread ref href
  rw [ObjectHeap.cell_modify_self] at hcell
  exact hne (congrArg Transaction.receipt hcell)

end TxNodeOk

/-- **The cache agrees with the storage as long as `makeBlock` takes no transaction of a cached
block.**  In every state of every run in which each transaction that `makeBlock` takes from the
pool is held by no block in the cache, a block that `BlockByHash` returns from the cache reads
as what is stored under its hash.  And the condition is needed: if a transaction of a cached
block is taken in such a state and gets another receipt than it has, that block reads differently
from what is stored. -/
theorem cache_agrees_with_storage (env : Env) {heap : ObjectHeap Transaction}
    {storage : Hash → Option (H × List Transaction)}
    (hkeyed : ∀ h x, storage h = some x → hash x.1 = h) (cacheSize : ℕ) {s : TxNode H}
    (hrun : Relation.ReflTransGen (TxStep env Unshared) (TxNode.start heap storage cacheSize) s) :
    (∀ h b, (s.cachedBlocks.get h).1 = some b → s.storage h = some (s.encoded b)) ∧
    ∀ (draft : Draft) (ref : ℕ) (h : Hash) (b : BlockObject H) (receipt : Receipt),
      s.cachedBlocks.Holds h b → ref ∈ b.txs →
      (draft.offer env ref s.heap).2 = s.heap.modify ref (·.setReceipt receipt) →
      (s.heap.cell ref).receipt ≠ some receipt →
      s.storage h ≠ some (b.header, (draft.offer env ref s.heap).2.read b.txs) := by
  have hstart : TxNodeOk (TxNode.start heap storage cacheSize) := .start hkeyed cacheSize
  have hok := hstart.run hrun
  refine ⟨fun h b hb => hok.agrees h b (Lru.holds_of_peek (Lru.get_fst.symm.trans hb)), ?_⟩
  intro draft ref h b receipt hb href hoffer hne
  rw [hoffer]
  exact hok.disagrees hb href hne

/-! ## A block is reverted and its transaction is made part of another one -/

namespace Reverted

open Except

/-- A stake of address 1. -/
def stake : Transaction := Plain.signed ⟨.stake, Plain.address 1, .none, .ofUint 400, 1, 0, []⟩

/-- The state of the second block with the given timestamp, on a genesis block that has given
address 1 its tokens. -/
def stateAt (timestamp : ℤ) : Except Err BlockState :=
  (Ledger.start.acceptAll .plain [Plain.distribution 1 (Plain.address 1) (.ofUint 1000)] >>=
    Ledger.beginChild timestamp).map Ledger.state

/-- The receipt of the stake in the second block. -/
def receiptAt (timestamp : ℤ) : Except Err Receipt :=
  stateAt timestamp >>= fun s => (executeTransaction .plain 2 stake s).map Prod.fst

/-- A block for the timestamp, without its transactions. -/
def header (timestamp : ℤ) : BareBlock := ⟨[timestamp.toNat.toUInt8], [0], 2, timestamp⟩

/-- A process with an empty storage. -/
def start : TxNode BareBlock := .start ⟨fun _ => stake, 0⟩ (fun _ => none) 8

/-- The process has accepted a block for timestamp 3 with the stake in it and has reverted it. -/
def reverted (receipt : Receipt) : TxNode BareBlock :=
  let s := (start.allocAll [stake.setReceipt receipt]).storeBlock ⟨header 3, [0]⟩
  { s with pool := [0] }

lemma run_reverted {ok : TxNode BareBlock → ℕ → Prop} (receipt : Receipt) :
    Relation.ReflTransGen (TxStep .plain ok) start (reverted receipt) := by
  have haccept : TxStep .plain ok start _ := .accept start (header 3) [stake.setReceipt receipt]
  have hheld : ∀ b ∈ [(⟨header 3, [0]⟩ : BlockObject BareBlock)], b ∈
      ((start.allocAll [stake.setReceipt receipt]).storeBlock ⟨header 3, [0]⟩).objects := by
    intro b hb
    rw [List.mem_singleton.1 hb]
    exact List.mem_cons_self
  exact .tail (.single haccept) (.rearrange _ [⟨header 3, [0]⟩] [] hheld)

/-- The process makes a block for timestamp 6 and takes the stake from its pool. -/
def making (receipt : Receipt) (state : BlockState) : TxNode BareBlock :=
  let draft : Draft := ⟨2, state, []⟩
  { reverted receipt with
    draft := (draft.offer .plain 0 (reverted receipt).heap).1
    heap := (draft.offer .plain 0 (reverted receipt).heap).2 }

lemma run_making (receipt : Receipt) (state : BlockState) :
    Relation.ReflTransGen (TxStep .plain fun _ _ => True) start (making receipt state) :=
  .tail (.tail (run_reverted receipt) (.begin _ 2 state rfl))
    (.offer _ ⟨2, state, []⟩ 0 rfl List.mem_cons_self trivial)

/-- The block that has been accepted and reverted reads as it is stored. -/
theorem reverted_block_is_stored :
    ∃ receipt, receiptAt 3 = .ok receipt ∧
      (reverted receipt).storage (hash (header 3)) =
        some ((reverted receipt).encoded ⟨header 3, [0]⟩) := by
  have hreceipt : (receiptAt 3).isOk = true := by decide +kernel
  obtain ⟨receipt, hreceipt⟩ := isOk_iff.1 hreceipt
  obtain ⟨hagrees, -⟩ := cache_agrees_with_storage .plain (by simp) 8 (run_reverted receipt)
  exact ⟨receipt, hreceipt, hagrees _ _ rfl⟩

/-- **A reverted block is changed.**  The stake of the reverted block is taken into a block for
timestamp 6 and gets its receipt from there.  `BlockByHash` returns the reverted block from the
cache, and it reads differently from what was stored. -/
theorem reverted_block_is_changed :
    ∃ receipt s b, receiptAt 3 = .ok receipt ∧
      Relation.ReflTransGen (TxStep .plain fun _ _ => True) start s ∧
      (s.cachedBlocks.get (hash (header 3))).1 = some b ∧
      s.storage (hash (header 3)) = some (header 3, [stake.setReceipt receipt]) ∧
      s.encoded b ≠ (header 3, [stake.setReceipt receipt]) := by
  have hrun : (receiptAt 3 >>= fun receipt => (stateAt 6).map fun state =>
      decide ((making receipt state).encoded ⟨header 3, [0]⟩ ≠
        (header 3, [stake.setReceipt receipt]))) = .ok true := by
    decide +kernel
  obtain ⟨receipt, hreceipt, hrun⟩ := bind_eq_ok_iff.1 hrun
  obtain ⟨state, -, hchanged⟩ := map_eq_ok_iff.1 hrun
  exact ⟨receipt, making receipt state, ⟨header 3, [0]⟩, hreceipt, run_making receipt state, rfl,
    rfl, of_decide_eq_true hchanged⟩

end Reverted

end GoMedibloc
