import GoMedibloc.Block.Usage
import GoMedibloc.Chain.Dynasty

/-!
# A block as a run on a state

`CreateChildWithBlockData` works on a block object that has data and state.  Nothing it does changes
the data, so it is a run on the state that reads the data: `executeOn` is one transaction of it and
`replay` the whole.  `createChildWithBlockData_eq` says that this is all the function does, and what
is known about it later is known about `replay`.

What `replay` reads of the data is little: the signature is only used to find the signer.  And it
leaves a record of every transaction under its hash.

The consensus of the source is `Dpos`; `Dpos.asConsensus` has it in the form that the validation of a
block uses.
-/

namespace GoMedibloc

open Except

variable {env : BlockEnv} {consensus : Consensus} {parent b b' child : Block} {bd : BlockData}
  {tx : Transaction} {s s' : BlockState}

/-! ## The run -/

lemma orFault_bind {α β : Type} (x : Except Err α) (f : α → Except Err β) :
    orFault (x >>= f) = orFault x >>= fun a => orFault (f a) := by
  cases x <;> rfl

lemma orFault_pure {α : Type} (a : α) : orFault (pure a) = pure a := rfl

lemma orFault_map {α β : Type} (f : α → β) (x : Except Err α) :
    orFault (f <$> x) = f <$> orFault x := by
  cases x <;> rfl

/-- `execute` as a step of the state. -/
def executeOn (env : BlockEnv) (height : ℕ) (s : BlockState) (tx : Transaction) :
    Except Fault BlockState := do
  let (receipt, s) ← orFault (executeTransaction env.toEnv height tx s)
  let claimed ← ofOption .nilPointer tx.receipt
  failIf (receipt.equal claimed = false) (.err .wrongReceipt)
  orFault (acceptTransaction tx s)

/-- Executing a transaction changes the state of a block only. -/
lemma Block.execute_eq (b : Block) (tx : Transaction) :
    b.execute env tx =
      (fun s => { b with state := s }) <$> executeOn env b.height b.state tx := by
  simp only [execute, executeOn, map_eq_pure_bind, bind_assoc]

lemma Block.foldlM_execute_eq (txs : List Transaction) (b : Block) :
    txs.foldlM (·.execute env) b =
      (fun s => { b with state := s }) <$> txs.foldlM (executeOn env b.height) b.state := by
  induction txs generalizing b with
  | nil => rfl
  | cons tx txs ih =>
      rw [List.foldlM_cons, List.foldlM_cons, execute_eq, map_bind, bind_map_left]
      refine bind_congr fun s => ?_
      rw [ih]

/-- The state of `SetMintDynasty`. -/
def withMintDynasty (consensus : Consensus) (parent s : BlockState) : Except Err BlockState :=
  match consensus.makeMintDynasty s.timestamp parent with
  | .ok mintDynasty => return { s with dposState := s.dposState.setDynasty mintDynasty }
  | .error e => if e = .sameDynasty then return s else throw e

lemma Block.setMintDynasty_eq (parent b : Block) :
    setMintDynasty consensus parent b =
      (fun s => { b with state := s }) <$> withMintDynasty consensus parent.state b.state := by
  unfold setMintDynasty withMintDynasty
  cases consensus.makeMintDynasty b.state.timestamp parent.state with
  | ok mintDynasty => rfl
  | error e =>
      dsimp only
      split_ifs <;> rfl

/-- `CreateChildWithBlockData` as a run on the state. -/
def replay (env : BlockEnv) (consensus : Consensus) (parent : Block) (bd : BlockData) :
    Except Fault BlockState := do
  let (cpuPrice, netPrice) ← orFault parent.calcChildPrice
  let s ← orFault (withMintDynasty consensus parent.state { parent.state with
    cpuUsage := 0
    netUsage := 0
    cpuPrice := cpuPrice
    netPrice := netPrice
    timestamp := bd.timestamp })
  orFault (consensus.verifyProposer ⟨bd, s⟩)
  let s ← bd.transactions.foldlM (executeOn env bd.height) s
  let s ← orFault (payReward bd.coinbase parent.supply s)
  orFault (Block.verifyState env ⟨bd, s⟩)
  return s

/-- All that `CreateChildWithBlockData` does is a run on the state. -/
lemma Block.createChildWithBlockData_eq :
    parent.createChildWithBlockData env consensus bd =
      (fun s => ⟨bd, s⟩) <$> replay env consensus parent bd := by
  simp only [createChildWithBlockData, verifyExecution, initChild, orFault_bind, orFault_pure,
    bind_assoc, pure_bind, setMintDynasty_eq, orFault_map, bind_map_left, executeAll,
    foldlM_execute_eq, replay, map_bind, map_pure]

lemma Block.createChildWithBlockData_eq_ok_iff :
    parent.createChildWithBlockData env consensus bd = .ok child ↔
      ∃ s, replay env consensus parent bd = .ok s ∧ ⟨bd, s⟩ = child := by
  rw [createChildWithBlockData_eq]
  exact map_eq_ok_iff

/-- The parts of a run that succeeds. -/
lemma replay_spec (h : replay env consensus parent bd = .ok s) : ∃ price s₁ s₂,
      parent.calcChildPrice = .ok price ∧
      withMintDynasty consensus parent.state { parent.state with
        cpuUsage := 0
        netUsage := 0
        cpuPrice := price.1
        netPrice := price.2
        timestamp := bd.timestamp } = .ok s₁ ∧
      consensus.verifyProposer ⟨bd, s₁⟩ = .ok () ∧
      bd.transactions.foldlM (executeOn env bd.height) s₁ = .ok s₂ ∧
      payReward bd.coinbase parent.supply s₂ = .ok s ∧ Block.Matches env ⟨bd, s⟩ := by
  obtain ⟨price, hprice, h⟩ := bind_eq_ok_iff.1 h
  obtain ⟨s₁, hdynasty, h⟩ := bind_eq_ok_iff.1 h
  obtain ⟨_, hproposer, h⟩ := bind_eq_ok_iff.1 h
  obtain ⟨s₂, hexec, h⟩ := bind_eq_ok_iff.1 h
  obtain ⟨s₃, hpay, h⟩ := bind_eq_ok_iff.1 h
  obtain ⟨_, hstate, h⟩ := bind_eq_ok_iff.1 h
  cases h
  rw [orFault_eq_ok] at hprice hdynasty hproposer hpay hstate
  exact ⟨price, s₁, s₂, hprice, hdynasty, hproposer, hexec, hpay, Block.verifyState_iff.1 hstate⟩

/-- Parts that succeed make a run that succeeds. -/
lemma replay_of {price : Uint128 × Uint128} {s₁ s₂ : BlockState}
    (hprice : parent.calcChildPrice = .ok price)
    (hdynasty : withMintDynasty consensus parent.state { parent.state with
      cpuUsage := 0
      netUsage := 0
      cpuPrice := price.1
      netPrice := price.2
      timestamp := bd.timestamp } = .ok s₁)
    (hproposer : consensus.verifyProposer ⟨bd, s₁⟩ = .ok ())
    (hexec : bd.transactions.foldlM (executeOn env bd.height) s₁ = .ok s₂)
    (hpay : payReward bd.coinbase parent.supply s₂ = .ok s) (hmatch : Block.Matches env ⟨bd, s⟩) :
    replay env consensus parent bd = .ok s := by
  rw [replay, bind_of_ok (orFault_eq_ok.2 hprice)]
  dsimp only
  rw [bind_of_ok (orFault_eq_ok.2 hdynasty), bind_of_ok (orFault_eq_ok.2 hproposer),
    bind_of_ok hexec, bind_of_ok (orFault_eq_ok.2 hpay),
    bind_of_ok (orFault_eq_ok.2 ((Block.verifyState_iff (u := ())).2 hmatch))]
  rfl

/-! ## The consensus -/

/-- `Proposer`: the signer of a block. -/
def BlockHeader.proposer (env : Env) (b : BlockHeader) : Except Err Address := do
  failIf (b.sign = []) .blockSignatureNotExist
  ofOption .recoverFailed (env.recoverPublic b.hash b.sign)

/-- `Dpos` as the consensus of the validation. -/
def Dpos.asConsensus (env : Env) (d : Dpos) (sortByVotePower : DposState → Except Err (List Address)) :
    Consensus where
  makeMintDynasty := d.makeMintDynasty sortByVotePower
  verifyProposer b :=
    d.verifyProposer (b.proposer env) { b.state with timestamp := b.timestamp }

/-- The signature of a block matters only for its signer. -/
lemma replay_congr_sign {d : Dpos} {sortByVotePower : DposState → Except Err (List Address)}
    {bd' : BlockData} (hsame : bd' = { bd with sign := bd'.sign })
    (h : bd'.proposer env.toEnv = bd.proposer env.toEnv) :
    replay env (d.asConsensus env.toEnv sortByVotePower) parent bd' =
      replay env (d.asConsensus env.toEnv sortByVotePower) parent bd := by
  have hproposer : ∀ s, (d.asConsensus env.toEnv sortByVotePower).verifyProposer ⟨bd', s⟩ =
      (d.asConsensus env.toEnv sortByVotePower).verifyProposer ⟨bd, s⟩ := by
    intro s
    have hts : bd'.timestamp = bd.timestamp := by rw [hsame]
    simp only [Dpos.asConsensus, h, hts]
  unfold replay
  simp only [hproposer]
  rw [hsame]
  rfl

/-! ## The recorded transactions -/

/-- A transaction is recorded under its hash. -/
lemma executeOn_txState {height : ℕ} (h : executeOn env height s tx = .ok s') :
    s'.txState = s.txState.insert tx.hash tx := by
  obtain ⟨⟨receipt, s₁⟩, hexec, h⟩ := bind_eq_ok_iff.1 h
  obtain ⟨claimed, -, h⟩ := bind_eq_ok_iff.1 h
  obtain ⟨_, -, h⟩ := bind_eq_ok_iff.1 h
  rw [orFault_eq_ok] at hexec h
  obtain ⟨exeTx, usage, hexecuted⟩ := executeTransaction_spec hexec
  have hsame : s₁.txState = s.txState := by
    obtain rfl | heffect := hexecuted.effect
    · rfl
    · rw [heffect.frame]
  obtain ⟨r, -, h⟩ := bind_eq_ok_iff.1 h
  obtain ⟨acc, -, h⟩ := bind_eq_ok_iff.1 h
  rw [← hsame]
  dsimp only at h
  split_ifs at h
  · obtain ⟨payer, -, h⟩ := bind_eq_ok_iff.1 h
    obtain ⟨points, -, h⟩ := bind_eq_ok_iff.1 h
    cases h
    rfl
  · obtain ⟨points, -, h⟩ := bind_eq_ok_iff.1 h
    cases h
    rfl

/-- Transactions with different hashes are all recorded. -/
lemma foldlM_executeOn_lookup {height : ℕ} {txs : List Transaction}
    (hnodup : (txs.map Transaction.hash).Nodup)
    (h : txs.foldlM (executeOn env height) s = .ok s') :
    (∀ k ∉ txs.map Transaction.hash, s'.txState.lookup k = s.txState.lookup k) ∧
      ∀ tx ∈ txs, s'.txState.lookup tx.hash = some tx := by
  induction txs generalizing s with
  | nil =>
      cases h
      exact ⟨fun _ _ => rfl, fun _ htx => absurd htx List.not_mem_nil⟩
  | cons tx txs ih =>
      rw [List.foldlM_cons] at h
      obtain ⟨s₁, hexec, h⟩ := bind_eq_ok_iff.1 h
      rw [List.map_cons, List.nodup_cons] at hnodup
      obtain ⟨hother, hall⟩ := ih hnodup.2 h
      have hinsert := executeOn_txState hexec
      refine ⟨fun k hk => ?_, fun tx' htx' => ?_⟩
      · rw [List.map_cons, List.mem_cons, not_or] at hk
        rw [hother k hk.2, hinsert, Finmap.lookup_insert_of_ne _ hk.1]
      · obtain rfl | htx' := List.mem_cons.1 htx'
        · rw [hother _ hnodup.1, hinsert, Finmap.lookup_insert]
        · exact hall tx' htx'

end GoMedibloc
