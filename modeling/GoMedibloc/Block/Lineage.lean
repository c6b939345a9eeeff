import GoMedibloc.Block.Production
import GoMedibloc.Ledger.Conservation

/-!
# Chains of blocks

A chain starts with the genesis block, which `NewGenesisBlock` makes from a configuration, and goes
on with blocks that have passed `VerifyIntegrity` and were created by `CreateChildWithBlockData` on
their predecessor.

The ledger (`LedgerStep`) is the abstract view of a chain: it has no headers, and its steps are
single transactions, rewards, dynasties and new blocks.  The blocks refine it.  Every block of a
chain states in its header what its state has (`Block.Sealed`), and its state is that of a reachable
ledger of the same height, which has accepted the transactions of all blocks up to it
(`Block.Descends.sound`).  So what holds of reachable ledgers holds of the states of blocks.
-/

namespace GoMedibloc

open Except

/-! ## The genesis block -/

/-- How making the genesis block can fail: with an error, or with the message in the receipt of a
transaction that was not executed. -/
inductive GenesisErr
  | err (e : Err)
  | notExecuted (message : Bytes)

/-- `genesisTemplate`; the parent hash is that many zeros as a hash has bytes. -/
def Block.genesisTemplate (chainID : UInt32) : Block where
  hash := []
  parentHash := List.replicate 32 0
  accStateRoot := []
  txStateRoot := []
  dposRoot := []
  coinbase := genesisCoinbase
  reward := .zero
  supply := .zero
  timestamp := 0
  chainID := chainID
  sign := []
  cpuPrice := .zero
  cpuUsage := 0
  netPrice := .zero
  netUsage := 0
  transactions := []
  height := genesisHeight
  state := .genesis

/-- What `NewGenesisBlock` does with one transaction of the configuration. -/
def Block.addConfigured (env : Env) (b : Block) (pb : PbTransaction) : Except GenesisErr Block := do
  let tx ← (Transaction.fromProto env pb).mapError .err
  let (receipt, s) ← (executeTransaction env b.height tx b.state).mapError .err
  failIf (receipt.executed = false) (.notExecuted receipt.error)
  let tx := tx.setReceipt receipt
  let s ← (acceptTransaction tx s).mapError .err
  return { b with state := s, transactions := b.transactions ++ [tx] }

/-- `NewGenesisBlock`, for the chain and the transactions of a configuration. -/
def newGenesisBlock (env : BlockEnv) (chainID : UInt32) (conf : List PbTransaction) :
    Except GenesisErr Block := do
  let genesis ← conf.foldlM (Block.addConfigured env.toEnv) (.genesisTemplate chainID)
  return genesis.seal env

/-! ## Headers and states -/

/-- The header of a block states what its state has. -/
structure Block.Sealed (b : Block) : Prop where
  timestamp : b.state.timestamp = b.timestamp
  cpuPrice : b.state.cpuPrice = b.cpuPrice
  netPrice : b.state.netPrice = b.netPrice
  supply : b.state.supply = b.supply
  usage : ∀ m : Meter, m.header b.toBlockHeader = m.counter b.state

lemma Block.sealed_seal (env : BlockEnv) (b : Block) : (b.seal env).Sealed :=
  ⟨rfl, rfl, rfl, rfl, fun m => by cases m <;> rfl⟩

/-- The prices of a child come from the state as they come from the header. -/
lemma Block.Sealed.initChild {b : Block} (h : b.Sealed) (ts : ℤ) {price : Uint128 × Uint128}
    (hprice : b.calcChildPrice = .ok price) :
    b.state.initChild ts = .ok { b.state with
      timestamp := ts
      cpuUsage := 0
      netUsage := 0
      cpuPrice := price.1
      netPrice := price.2 } := by
  obtain ⟨cpu, hcpu, hprice⟩ := bind_eq_ok_iff.1 hprice
  obtain ⟨net, hnet, hprice⟩ := bind_eq_ok_iff.1 hprice
  have hcpuUsage : b.state.cpuUsage = b.cpuUsage := (h.usage .cpu).symm
  have hnetUsage : b.state.netUsage = b.netUsage := (h.usage .net).symm
  rw [← hcpuUsage, ← h.cpuPrice, ← h.supply] at hcpu
  rw [← hnetUsage, ← h.netPrice, ← h.supply] at hnet
  rw [← Except.ok.inj hprice, BlockState.initChild, bind_of_ok hcpu, bind_of_ok hnet]
  rfl

/-! ## Blocks and ledgers -/

section Refinement

variable {env : BlockEnv} {consensus : Consensus} {bd : BlockData} {s s' : BlockState}
  {tick : ℤ → ℤ → Prop} {rule : ℕ → Transaction → Prop}

lemma execute_of_executeOn {tx : Transaction} (h : executeOn env bd.height s tx = .ok s') :
    Block.execute env ⟨bd, s⟩ tx = .ok ⟨bd, s'⟩ := by
  rw [Block.execute_eq]
  exact map_eq_ok_iff.2 ⟨s', h, rfl⟩

/-- A transaction of a block is accepted in the ledger. -/
lemma executeOn_ledger (due : Option Uint128) (accepted : List Transaction) {tx : Transaction}
    (h : executeOn env bd.height s tx = .ok s') :
    Ledger.accept env.toEnv tx ⟨bd.height, s, due, accepted⟩ =
      .ok ⟨bd.height, s', due, tx :: accepted⟩ :=
  (Block.execute_ledger due accepted (execute_of_executeOn h)).2

/-- A property of states that every transaction of a block keeps holds at its end. -/
lemma foldlM_executeOn_induct {P : BlockState → Prop} {txs : List Transaction}
    (hstep : ∀ {s tx s'}, executeOn env bd.height s tx = .ok s' → P s → P s')
    (h : txs.foldlM (executeOn env bd.height) s = .ok s') (hs : P s) : P s' := by
  induction txs generalizing s with
  | nil =>
      cases h
      exact hs
  | cons tx txs ih =>
      rw [List.foldlM_cons] at h
      obtain ⟨s₁, hexec, h⟩ := bind_eq_ok_iff.1 h
      exact ih h (hstep hexec hs)

/-- The transactions of a block are steps of the ledger. -/
lemma foldlM_executeOn_steps {due : Option Uint128} {accepted txs : List Transaction}
    (hrule : ∀ tx ∈ txs, rule bd.height tx)
    (h : txs.foldlM (executeOn env bd.height) s = .ok s') :
    Relation.ReflTransGen (LedgerStep env.toEnv tick rule) ⟨bd.height, s, due, accepted⟩
      ⟨bd.height, s', due, txs.reverse ++ accepted⟩ := by
  induction txs generalizing s accepted with
  | nil =>
      cases h
      exact .refl
  | cons tx txs ih =>
      rw [List.foldlM_cons] at h
      obtain ⟨s₁, hexec, h⟩ := bind_eq_ok_iff.1 h
      have hstep : LedgerStep env.toEnv tick rule ⟨bd.height, s, due, accepted⟩
          ⟨bd.height, s₁, due, tx :: accepted⟩ :=
        .accept (hrule tx List.mem_cons_self) (executeOn_ledger due accepted hexec)
      rw [List.reverse_cons, List.append_assoc, List.singleton_append]
      exact .head hstep (ih (fun tx htx => hrule tx (List.mem_cons_of_mem _ htx)) h)

/-- A new dynasty is a step of the ledger. -/
lemma withMintDynasty_steps {parent : BlockState} {height : ℕ} {due : Option Uint128}
    {accepted : List Transaction} (h : withMintDynasty consensus parent s = .ok s') :
    Relation.ReflTransGen (LedgerStep env.toEnv tick rule) ⟨height, s, due, accepted⟩
      ⟨height, s', due, accepted⟩ := by
  unfold withMintDynasty at h
  split at h
  · rename_i mintDynasty _
    cases h
    exact .single (.dynasty mintDynasty)
  · split_ifs at h
    cases h
    exact .refl

/-- The start of a block is a run of the ledger: a child is begun and the dynasty is set. -/
lemma begin_steps {parent : Block} {height : ℕ} {ts : ℤ} {price : Uint128 × Uint128}
    {accepted : List Transaction} (hsealed : parent.Sealed) (hheight : height = parent.height + 1)
    (htick : tick parent.timestamp ts) (hprice : parent.calcChildPrice = .ok price)
    (hdynasty : withMintDynasty consensus parent.state { parent.state with
      cpuUsage := 0
      netUsage := 0
      cpuPrice := price.1
      netPrice := price.2
      timestamp := ts } = .ok s) :
    Relation.ReflTransGen (LedgerStep env.toEnv tick rule)
      ⟨parent.height, parent.state, none, accepted⟩
      ⟨height, s, some parent.supply, accepted⟩ := by
  have hchild : LedgerStep env.toEnv tick rule ⟨parent.height, parent.state, none, accepted⟩
      ⟨parent.height + 1, _, some parent.state.supply, accepted⟩ :=
    .child (hsealed.timestamp.symm ▸ htick) (hsealed.initChild ts hprice)
  rw [← hheight, hsealed.supply] at hchild
  exact .head hchild (withMintDynasty_steps hdynasty)

/-- **A block is a run of the ledger**: after its start the transactions are accepted and the reward
is paid. -/
lemma replay_steps {parent : Block} {accepted : List Transaction} (hsealed : parent.Sealed)
    (hheight : bd.height = parent.height + 1) (htick : tick parent.timestamp bd.timestamp)
    (hrule : ∀ tx ∈ bd.transactions, rule bd.height tx)
    (h : replay env consensus parent bd = .ok s) :
    Relation.ReflTransGen (LedgerStep env.toEnv tick rule)
      ⟨parent.height, parent.state, none, accepted⟩
      ⟨bd.height, s, none, bd.transactions.reverse ++ accepted⟩ := by
  obtain ⟨price, s₁, s₂, hprice, hdynasty, -, hexec, hpay, -⟩ := replay_spec h
  refine .trans (begin_steps hsealed hheight htick hprice hdynasty) ?_
  refine .tail (foldlM_executeOn_steps hrule hexec) ?_
  exact .reward rfl hpay

end Refinement

/-! ## Chains -/

section Chains

variable {env : BlockEnv} {consensus : Consensus} {cond : Block → BlockData → Prop} {g b : Block}
  {tick : ℤ → ℤ → Prop} {rule : ℕ → Transaction → Prop} {chainID : UInt32}
  {conf : List PbTransaction}

/-- The blocks of a chain from `g`, with the transactions of the chain up to them, the newest first.
Each block has passed `VerifyIntegrity`, was created on its predecessor, and is one higher; `cond` is
what is known of its data and its predecessor besides. -/
inductive Block.Descends (env : BlockEnv) (consensus : Consensus)
    (cond : Block → BlockData → Prop) (g : Block) : Block → List Transaction → Prop
  | refl : Block.Descends env consensus cond g g g.transactions.reverse
  | child {parent child : Block} {bd bd' : BlockData} {txs : List Transaction}
      (h : Block.Descends env consensus cond g parent txs) (hcond : cond parent bd)
      (hheight : bd.height = parent.height + 1) (hverify : bd.verifyIntegrity env = .ok bd')
      (hcreate : parent.createChildWithBlockData env consensus bd' = .ok child) :
      Block.Descends env consensus cond g child (child.transactions.reverse ++ txs)

/-- No transaction changes the prices. -/
lemma Ledger.accept_prices {env : Env} {tx : Transaction} {l l' : Ledger}
    (h : l.accept env tx = .ok l') :
    l'.state.cpuPrice = l.state.cpuPrice ∧ l'.state.netPrice = l.state.netPrice := by
  obtain ⟨r, s₁, exeTx, usage, haccepts⟩ := Ledger.accept_spec h
  rw [haccepts.accepted.frame]
  obtain heq | heffect := haccepts.executed.effect
  · rw [heq]
    exact ⟨rfl, rfl⟩
  · rw [heffect.frame]
    exact ⟨rfl, rfl⟩

/-- A transaction of the configuration is accepted in the ledger, with the receipt it gets. -/
lemma Block.addConfigured_ledger {env : Env} {b b' : Block} {pb : PbTransaction}
    (h : b.addConfigured env pb = .ok b') :
    ∃ tx r, Transaction.fromProto env pb = .ok tx ∧
      b' = { b with state := b'.state, transactions := b.transactions ++ [tx.setReceipt r] } ∧
      Ledger.accept env tx ⟨b.height, b.state, none, b.transactions.reverse⟩ =
        .ok ⟨b'.height, b'.state, none, b'.transactions.reverse⟩ := by
  obtain ⟨tx, htx, h⟩ := bind_eq_ok_iff.1 h
  obtain ⟨⟨r, s₁⟩, hexec, h⟩ := bind_eq_ok_iff.1 h
  obtain ⟨_, -, h⟩ := bind_eq_ok_iff.1 h
  obtain ⟨s₂, haccept, h⟩ := bind_eq_ok_iff.1 h
  rw [mapError_eq_ok] at htx hexec haccept
  cases h
  refine ⟨tx, r, htx, rfl, ?_⟩
  rw [Ledger.accept, bind_of_ok hexec]
  dsimp only
  rw [bind_of_ok haccept, List.reverse_append]
  rfl

/-- What is known of a block to which the transactions of a configuration are added. -/
structure Block.Configured (env : Env) (tick : ℤ → ℤ → Prop) (rule : ℕ → Transaction → Prop)
    (b b' : Block) : Prop where
  height : b'.height = b.height
  chainID : b'.chainID = b.chainID
  cpuPrice : b'.state.cpuPrice = b.state.cpuPrice
  netPrice : b'.state.netPrice = b.state.netPrice
  steps : Relation.ReflTransGen (LedgerStep env tick rule)
    ⟨b.height, b.state, none, b.transactions.reverse⟩
    ⟨b'.height, b'.state, none, b'.transactions.reverse⟩

lemma Block.foldlM_addConfigured {env : Env} {b' : Block}
    (hrule : ∀ pb ∈ conf, ∀ tx, Transaction.fromProto env pb = .ok tx → rule b.height tx)
    (h : conf.foldlM (Block.addConfigured env) b = .ok b') :
    Block.Configured env tick rule b b' := by
  induction conf generalizing b with
  | nil =>
      cases h
      exact ⟨rfl, rfl, rfl, rfl, .refl⟩
  | cons pb conf ih =>
      rw [List.foldlM_cons] at h
      obtain ⟨b₁, hadd, h⟩ := bind_eq_ok_iff.1 h
      obtain ⟨tx, r, htx, hb₁, haccept⟩ := Block.addConfigured_ledger hadd
      have hheight : b₁.height = b.height := by rw [hb₁]
      have hchain : b₁.chainID = b.chainID := by rw [hb₁]
      obtain ⟨hcpu, hnet⟩ := Ledger.accept_prices haccept
      have hrest := ih (b := b₁) (fun pb' hpb tx' htx' =>
        hheight ▸ hrule pb' (List.mem_cons_of_mem _ hpb) tx' htx') h
      exact ⟨hrest.height.trans hheight, hrest.chainID.trans hchain, hrest.cpuPrice.trans hcpu,
        hrest.netPrice.trans hnet,
        .head (.accept (hrule pb List.mem_cons_self tx htx) haccept) hrest.steps⟩

/-- What is known of a genesis block. -/
structure Block.Genesis (env : Env) (tick : ℤ → ℤ → Prop) (rule : ℕ → Transaction → Prop)
    (chainID : UInt32) (g : Block) : Prop where
  height : g.height = genesisHeight
  chainID : g.chainID = chainID
  isSealed : g.Sealed
  cpuPrice : g.cpuPrice = .zero
  netPrice : g.netPrice = .zero
  reachable : Reachable env tick rule ⟨g.height, g.state, none, g.transactions.reverse⟩

lemma newGenesisBlock_spec
    (hrule : ∀ pb ∈ conf, ∀ tx, Transaction.fromProto env.toEnv pb = .ok tx → rule genesisHeight tx)
    (h : newGenesisBlock env chainID conf = .ok g) :
    Block.Genesis env.toEnv tick rule chainID g := by
  obtain ⟨b, hfold, h⟩ := bind_eq_ok_iff.1 h
  have hconf : Block.Configured env.toEnv tick rule (.genesisTemplate chainID) b :=
    Block.foldlM_addConfigured hrule hfold
  cases h
  exact ⟨hconf.height, hconf.chainID, Block.sealed_seal env b, hconf.cpuPrice, hconf.netPrice,
    hconf.steps⟩

/-- A created block states what its state has. -/
lemma Block.sealed_of_created {parent child : Block} {bd bd' : BlockData}
    (hheight : bd.height ≠ genesisHeight) (hverify : bd.verifyIntegrity env = .ok bd')
    (hcreate : parent.createChildWithBlockData env consensus bd' = .ok child) : child.Sealed := by
  have husage := header_eq_counter hheight hverify hcreate
  obtain ⟨s, hreplay, rfl⟩ := Block.createChildWithBlockData_eq_ok_iff.1 hcreate
  obtain ⟨price, s₁, s₂, hprice, hdynasty, -, hexec, hpay, hmatch⟩ := replay_spec hreplay
  refine ⟨?_, hmatch.cpuPrice, hmatch.netPrice, hmatch.supply, fun m => (husage m).1⟩
  have hts₁ : s₁.timestamp = bd'.timestamp := by rw [withMintDynasty_frame hdynasty]
  rw [payReward_frame hpay]
  show s₂.timestamp = bd'.timestamp
  refine foldlM_executeOn_induct (P := fun s => s.timestamp = bd'.timestamp) ?_ hexec hts₁
  intro s tx s' hstep hs
  exact (Ledger.accept_frame (executeOn_ledger none [] hstep)).2.trans hs

/-- What is known of a block of a chain, with the transactions of the chain: its header states what
its state has, and its state is that of a reachable ledger that has accepted the transactions. -/
structure Block.Sound (env : Env) (tick : ℤ → ℤ → Prop) (rule : ℕ → Transaction → Prop)
    (b : Block) (txs : List Transaction) : Prop where
  isSealed : b.Sealed
  reachable : Reachable env tick rule ⟨b.height, b.state, none, txs⟩

/-- **Chains of blocks refine the ledger.** -/
lemma Block.Descends.sound {txs : List Transaction}
    (hg : Block.Genesis env.toEnv tick rule chainID g)
    (htick : ∀ parent bd, cond parent bd → tick parent.timestamp bd.timestamp)
    (hrule : ∀ parent bd bd', cond parent bd → bd.verifyIntegrity env = .ok bd' →
      ∀ tx ∈ bd'.transactions, rule bd.height tx)
    (h : Block.Descends env consensus cond g b txs) : Block.Sound env.toEnv tick rule b txs := by
  induction h with
  | refl => exact ⟨hg.isSealed, hg.reachable⟩
  | @child parent child bd bd' txs hparent hcond hheight hverify hcreate ih =>
      have hpos : genesisHeight ≤ parent.height := (Reachable.backed ih.reachable).height
      have hne : bd.height ≠ genesisHeight := by omega
      have hverified := BlockData.verifyIntegrity_spec hne hverify
      have hheight' : bd'.height = bd.height := by rw [hverified.same]
      have hts : bd'.timestamp = bd.timestamp := by rw [hverified.same]
      refine ⟨Block.sealed_of_created hne hverify hcreate, ?_⟩
      obtain ⟨s, hreplay, rfl⟩ := Block.createChildWithBlockData_eq_ok_iff.1 hcreate
      refine ih.reachable.trans (replay_steps ih.isSealed (hheight'.trans hheight) ?_ ?_ hreplay)
      · rw [hts]
        exact htick parent bd hcond
      · rw [hheight']
        exact hrule parent bd bd' hcond hverify

end Chains

end GoMedibloc
