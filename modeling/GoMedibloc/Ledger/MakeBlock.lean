import GoMedibloc.Framework.ObjectHeap
import GoMedibloc.Ledger.Run

/-!
# Making a block

`makeBlock` asks the transaction pool for one transaction after the other, executes it on the
state of the block in the making, and appends it to the block.  The pool, the block and every
other holder have the transaction by reference: `SetReceipt` writes the new receipt into the
object itself.

A transaction whose nonce is not due or that cannot be executed is skipped; one that is executed
and cannot be accepted ends the making, with the receipt set already.
-/

namespace GoMedibloc

/-- A block in the making: its height, its state and its transactions. -/
structure Draft where
  height : ℕ
  state : BlockState
  txs : List ℕ

/-- One round of the loop of `makeBlock`, for the transaction that `Next` has returned; without
a draft `makeBlock` has returned an error. -/
def Draft.offer (env : Env) (ref : ℕ) (heap : ObjectHeap Transaction) (draft : Draft) :
    Option Draft × ObjectHeap Transaction :=
  match draft.state.getAccount (heap.cell ref).fromAddr with
  | .error _ => (none, heap)
  | .ok acc =>
    if acc.nonce + 1 ≠ (heap.cell ref).nonce then (some draft, heap)
    else match executeTransaction env draft.height (heap.cell ref) draft.state with
      | .error _ => (some draft, heap)
      | .ok (receipt, state) =>
        let heap := heap.modify ref (·.setReceipt receipt)
        match acceptTransaction (heap.cell ref) state with
        | .error _ => (none, heap)
        | .ok state => (some { draft with state := state, txs := draft.txs ++ [ref] }, heap)

/-- What a round can do: it leaves the block and all objects as they are or gives up, or it sets
the receipt of the offered transaction and then appends it or gives up. -/
lemma Draft.offer_cases (env : Env) (ref : ℕ) (heap : ObjectHeap Transaction) (draft : Draft) :
    draft.offer env ref heap = (none, heap) ∨ draft.offer env ref heap = (some draft, heap) ∨
    ∃ receipt s₁, executeTransaction env draft.height (heap.cell ref) draft.state =
        .ok (receipt, s₁) ∧
      ((draft.offer env ref heap = (none, heap.modify ref (·.setReceipt receipt)) ∧
          ∃ e, acceptTransaction ((heap.cell ref).setReceipt receipt) s₁ = .error e) ∨
        ∃ state, acceptTransaction ((heap.cell ref).setReceipt receipt) s₁ = .ok state ∧
          draft.offer env ref heap = (some { draft with state := state, txs := draft.txs ++ [ref] },
            heap.modify ref (·.setReceipt receipt))) := by
  unfold offer
  cases draft.state.getAccount (heap.cell ref).fromAddr with
  | error e => exact .inl rfl
  | ok acc =>
      dsimp only
      split_ifs
      · exact .inr (.inl rfl)
      · cases hexec : executeTransaction env draft.height (heap.cell ref) draft.state with
        | error e => exact .inr (.inl rfl)
        | ok result =>
            obtain ⟨receipt, s₁⟩ := result
            refine .inr (.inr ⟨receipt, s₁, rfl, ?_⟩)
            dsimp only
            rw [ObjectHeap.cell_modify_self]
            cases haccept : acceptTransaction ((heap.cell ref).setReceipt receipt) s₁ with
            | error e => exact .inl ⟨rfl, e, rfl⟩
            | ok state => exact .inr ⟨state, rfl, rfl⟩

end GoMedibloc
