import GoMedibloc.Block.Lineage
import GoMedibloc.Ledger.Spending
import GoMedibloc.Ledger.VotePower

/-!
# Prices along a chain

The prices of bandwidth rise by a twentieth after every block that uses more than half of its limit,
and nothing in `calcPrice` bounds them.  What bounds them is that bandwidth is paid for.  A block that
uses more than half of the limit has paid its price more than 1500000 times, with points that were
there at its start, and there are no more of those than tokens.

So a price that has just risen is at most 21/20 of the supply divided by 1500001, and the price of
any block keeps that bound (`prices_stay_bounded`); in particular the next prices can always be
computed.  The supply itself is that of the header, and covers the tokens (`supply_covers_chain`).
-/

namespace GoMedibloc

open Except

/-! ## One price -/

/-- The price of a kind of bandwidth, in a header. -/
def Meter.price : Meter → BlockHeader → Uint128
  | .cpu, b => b.cpuPrice
  | .net, b => b.netPrice

/-- The price of a kind of bandwidth, in a state. -/
def Meter.statePrice : Meter → BlockState → Uint128
  | .cpu, s => s.cpuPrice
  | .net, s => s.netPrice

/-- The bound that prices keep. -/
def PriceBound (price supply : Uint128) : Prop := 20 * 1500001 * price.val ≤ 21 * supply.val

section Prices

variable {m : Meter} {usage : UInt64} {price price' supply : Uint128}

lemma Meter.threshold_toNat (m : Meter) : (usageThreshold m.limit).toNat = 1500000 := by
  cases m <;> decide

/-- The least price can be computed, and is little. -/
lemma Meter.minPrice (m : Meter) (supply : Uint128) :
    ∃ p, minPricePerBandwidth supply m.limit = .ok p ∧ p.val ≤ supply.val / 60480000000000 := by
  have hlimit : (Uint128.ofUint m.limit).val = 3000000 := m.limit_toNat
  have hwindow : (Uint128.ofUint 201600).val = 201600 := by decide
  obtain ⟨x, hx, hxval⟩ := Uint128.exists_div supply (.ofUint 201600)
  obtain ⟨y, hy, hyval⟩ := Uint128.exists_div x (.ofUint m.limit)
  have hlt := supply.lt
  rw [hwindow] at hxval
  rw [hlimit] at hyval
  obtain ⟨p, hp, hpval⟩ := Uint128.exists_ofNat (n := y.val * 1 / 100) (by omega)
  refine ⟨p, ?_, by omega⟩
  rw [minPricePerBandwidth, bind_of_ok hx, bind_of_ok hy]
  exact hp

/-- A price within the bound has a next price, which is within the bound again if a price that rises
has been paid as often as the usage says. -/
lemma Meter.next_price (m : Meter) (hbound : PriceBound price supply)
    (hpaid : 1500000 < usage.toNat → 1500001 * price.val ≤ supply.val) :
    ∃ p, calcPrice m.limit usage price supply = .ok p ∧ PriceBound p supply := by
  obtain ⟨low, hlow, hlowval⟩ := m.minPrice supply
  have hlt := supply.lt
  unfold PriceBound at hbound ⊢
  -- the price before it is compared with the least price
  obtain ⟨new, hnew, hnewval⟩ : ∃ new : Uint128,
      (if usage ≤ usageThreshold m.limit then price.mulWithRat 95 100
        else price.mulWithRat 105 100) = .ok new ∧ 20 * 1500001 * new.val ≤ 21 * supply.val := by
    split_ifs with husage
    · obtain ⟨new, hnew, hval⟩ := Uint128.exists_ofNat (n := price.val * 95 / 100) (by omega)
      exact ⟨new, hnew, by omega⟩
    · rw [UInt64.le_iff_toNat_le, m.threshold_toNat, not_le] at husage
      have hle := hpaid husage
      obtain ⟨new, hnew, hval⟩ := Uint128.exists_ofNat (n := price.val * 105 / 100) (by omega)
      exact ⟨new, hnew, by omega⟩
  refine ⟨if new.val < low.val then low else new, ?_, ?_⟩
  · have hrest : (do
        let minPrice ← minPricePerBandwidth supply m.limit
        return if new.val < minPrice.val then minPrice else new : Except Err Uint128) =
          .ok (if new.val < low.val then low else new) := by
      rw [bind_of_ok hlow]
      rfl
    unfold calcPrice
    by_cases husage : usage ≤ usageThreshold m.limit
    · rw [if_pos husage] at hnew ⊢
      exact (bind_of_ok hnew _).trans hrest
    · rw [if_neg husage] at hnew ⊢
      exact (bind_of_ok hnew _).trans hrest
  · split_ifs <;> omega

end Prices

/-! ## What a block pays -/

section Paying

variable {env : BlockEnv} {bd : BlockData} {s s' : BlockState} {tx : Transaction}

lemma executeOn_meter (h : executeOn env bd.height s tx = .ok s') (m : Meter) :
    m.counter s' = m.counter s + m.used (tx.bandwidth env.toEnv) ∧ m.counter s' ≤ m.limit ∧
      (m.used (tx.bandwidth env.toEnv)).toNat < 2 ^ 63 :=
  (Block.execute_meter (execute_of_executeOn h) m).2

/-- The prices and what has been paid so far, while the transactions of a block are executed. -/
structure PaidFrom (s₁ s : BlockState) : Prop where
  price : ∀ m : Meter, m.statePrice s = m.statePrice s₁
  limit : ∀ m : Meter, m.counter s ≤ m.limit
  paid : s₁.cpuPrice.val * s.cpuUsage.toNat + s₁.netPrice.val * s.netUsage.toNat + s.spendable ≤
    s₁.spendable

lemma PaidFrom.executeOn {s₁ : BlockState} (hp : PaidFrom s₁ s) (hheight : bd.height ≠ genesisHeight)
    (h : executeOn env bd.height s tx = .ok s') : PaidFrom s₁ s' := by
  have hledger := executeOn_ledger none [] h
  obtain ⟨exeTx, hconv, hspent⟩ := Ledger.accept_spendable hheight hledger
  obtain ⟨hcpuPrice, hnetPrice⟩ := Ledger.accept_prices hledger
  have hbandwidth : tx.bandwidth env.toEnv = exeTx.bandwidth := by
    rw [Transaction.bandwidth, hconv]
  have hcounter : ∀ m : Meter, (m.counter s').toNat =
      (m.counter s).toNat + (m.used exeTx.bandwidth).toNat := by
    intro m
    obtain ⟨hadd, -, hlt⟩ := executeOn_meter h m
    rw [hadd, Meter.counter_add (hp.limit m) hlt, hbandwidth]
  refine ⟨fun m => ?_, fun m => (executeOn_meter h m).2.1, ?_⟩
  · rw [← hp.price m]
    cases m with
    | cpu => exact hcpuPrice
    | net => exact hnetPrice
  · have hcpu : s'.cpuUsage.toNat = s.cpuUsage.toNat + exeTx.bandwidth.cpuUsage.toNat :=
      hcounter .cpu
    have hnet : s'.netUsage.toNat = s.netUsage.toNat + exeTx.bandwidth.netUsage.toNat :=
      hcounter .net
    have hprice : s.cpuPrice = s₁.cpuPrice := hp.price .cpu
    have hprice' : s.netPrice = s₁.netPrice := hp.price .net
    have hpaid := hp.paid
    dsimp only at hspent
    rw [hprice, hprice'] at hspent
    rw [hcpu, hnet, mul_add, mul_add]
    omega

/-- A block that starts without usage pays its prices for all of its usage. -/
lemma foldlM_executeOn_paid (hheight : bd.height ≠ genesisHeight)
    (hzero : ∀ m : Meter, m.counter s = 0)
    (h : bd.transactions.foldlM (executeOn env bd.height) s = .ok s') : PaidFrom s s' := by
  refine foldlM_executeOn_induct (P := PaidFrom s) (fun hstep hp => hp.executeOn hheight hstep) h ?_
  have hcpu : s.cpuUsage = 0 := hzero .cpu
  have hnet : s.netUsage = 0 := hzero .net
  refine ⟨fun _ => rfl, fun m => ?_, ?_⟩
  · rw [hzero m, UInt64.le_iff_toNat_le]
    exact Nat.zero_le _
  · rw [hcpu, hnet, UInt64.toNat_zero, mul_zero, mul_zero, zero_add, zero_add]

/-- What has been paid for one kind of bandwidth is at most what could be spent. -/
lemma PaidFrom.le {s₁ : BlockState} (h : PaidFrom s₁ s) (m : Meter) :
    (m.statePrice s₁).val * (m.counter s).toNat ≤ s₁.spendable := by
  have hpaid := h.paid
  cases m with
  | cpu => exact (Nat.le_add_right _ _).trans ((Nat.le_add_right _ _).trans hpaid)
  | net => exact (Nat.le_add_left _ _).trans ((Nat.le_add_right _ _).trans hpaid)

end Paying

/-! ## Chains -/

section Chains

variable {env : BlockEnv} {consensus : Consensus} {b : Block}

/-- The prices of a block are within the bound, and a price that is going to rise has been paid. -/
structure Block.Priced (b : Block) : Prop where
  bound : ∀ m : Meter, PriceBound (m.price b.toBlockHeader) b.supply
  paid : ∀ m : Meter, 1500000 < (m.header b.toBlockHeader).toNat →
    1500001 * (m.price b.toBlockHeader).val ≤ b.supply.val

/-- The prices of a child. -/
lemma Block.Priced.calcChildPrice (h : b.Priced) :
    ∃ price, b.calcChildPrice = .ok price ∧ PriceBound price.1 b.supply ∧
      PriceBound price.2 b.supply := by
  obtain ⟨cpu, hcpu, hcpuBound⟩ := Meter.cpu.next_price (h.bound .cpu) (h.paid .cpu)
  obtain ⟨net, hnet, hnetBound⟩ := Meter.net.next_price (h.bound .net) (h.paid .net)
  exact ⟨(cpu, net), (bind_of_ok hcpu _).trans (bind_of_ok hnet _), hcpuBound, hnetBound⟩

lemma payReward_supply {coinbase : Address} {parentSupply : Uint128} {s s' : BlockState}
    (h : payReward coinbase parentSupply s = .ok s') : parentSupply.val ≤ s'.supply.val := by
  obtain ⟨_, -, h⟩ := bind_eq_ok_iff.1 h
  obtain ⟨reward, -, h⟩ := bind_eq_ok_iff.1 h
  obtain ⟨supply, hsupply, h⟩ := bind_eq_ok_iff.1 h
  obtain ⟨acc, -, h⟩ := bind_eq_ok_iff.1 h
  obtain ⟨balance, -, h⟩ := bind_eq_ok_iff.1 h
  rw [Uint128.add_eq_ok] at hsupply
  rw [← Except.ok.inj h]
  dsimp only
  omega

/-- One block keeps the bound. -/
lemma Block.Priced.child {parent child : Block} {bd bd' : BlockData} {txs : List Transaction}
    (h : parent.Priced) (hsound : parent.Sound env.toEnv (fun _ _ => True) (fun _ _ => True) txs)
    (hheight : bd.height = parent.height + 1) (hverify : bd.verifyIntegrity env = .ok bd')
    (hcreate : parent.createChildWithBlockData env consensus bd' = .ok child) : child.Priced := by
  have hpos : genesisHeight ≤ parent.height := (Reachable.backed hsound.reachable).height
  have hne : bd.height ≠ genesisHeight := by omega
  have hheight' : bd'.height = bd.height := by
    rw [(BlockData.verifyIntegrity_spec hne hverify).same]
  have hsealed := Block.sealed_of_created hne hverify hcreate
  obtain ⟨price, hprice, hcpu, hnet⟩ := h.calcChildPrice
  obtain ⟨s, hreplay, rfl⟩ := Block.createChildWithBlockData_eq_ok_iff.1 hcreate
  obtain ⟨price', s₁, s₂, hprice', hdynasty, -, hexec, hpay, -⟩ := replay_spec hreplay
  obtain rfl : price = price' := Except.ok.inj (hprice.symm.trans hprice')
  have hframe := withMintDynasty_frame hdynasty
  -- the start of the block is a reachable state, so its tokens are backed
  have hstart : Reachable env.toEnv (fun _ _ => True) (fun _ _ => True)
      ⟨bd'.height, s₁, some parent.supply, txs⟩ :=
    hsound.reachable.trans (begin_steps hsound.isSealed (hheight'.trans hheight) trivial hprice
      hdynasty)
  have hspend : s₁.spendable ≤ parent.supply.val := by
    have hwithin := (AllAccounts.run Account.within_rule trivial (fun _ _ _ => trivial)
      hstart).accounts
    have hsupply : s₁.supply = parent.supply := by rw [hframe, ← hsound.isSealed.supply]
    rw [← hsupply]
    exact (BlockState.spendable_le hwithin).trans (Reachable.backed hstart).circulation
  have hzero : ∀ m : Meter, m.counter s₁ = 0 := by
    intro m
    rw [hframe]
    cases m <;> rfl
  have hpaid := foldlM_executeOn_paid (hheight' ▸ hne) hzero hexec
  have hsupply := payReward_supply hpay
  have hmeter : ∀ m : Meter, m.price bd'.toBlockHeader = m.statePrice s₁ := by
    intro m
    have hlast : m.statePrice s = m.statePrice s₂ := by
      rw [payReward_frame hpay]
      cases m <;> rfl
    rw [← hpaid.price m, ← hlast]
    cases m with
    | cpu => exact hsealed.cpuPrice.symm
    | net => exact hsealed.netPrice.symm
  have hsame : s.supply = bd'.supply := hsealed.supply
  rw [hsame] at hsupply
  refine ⟨fun m => ?_, fun m husage => ?_⟩
  · have hbound : PriceBound (m.statePrice s₁) parent.supply := by
      rw [hframe]
      cases m with
      | cpu => exact hcpu
      | net => exact hnet
    unfold PriceBound at hbound ⊢
    rw [hmeter m]
    dsimp only
    omega
  · have hcounter : m.header bd'.toBlockHeader = m.counter s₂ := by
      rw [← payReward_counter hpay m]
      exact hsealed.usage m
    rw [hcounter] at husage
    rw [hmeter m]
    calc 1500001 * (m.statePrice s₁).val
        ≤ (m.counter s₂).toNat * (m.statePrice s₁).val := Nat.mul_le_mul_right _ husage
      _ = (m.statePrice s₁).val * (m.counter s₂).toNat := mul_comm _ _
      _ ≤ s₁.spendable := hpaid.le m
      _ ≤ bd'.supply.val := hspend.trans hsupply

/-- **Prices stay bounded.**  In every chain from a genesis block, whatever blocks follow one
another, the prices of a block are at most 21/20 of its supply divided by 1500001.  So the prices of
its children can be computed, and a child can be begun. -/
theorem prices_stay_bounded (env : BlockEnv) (consensus : Consensus) {chainID : UInt32}
    {conf : List PbTransaction} {g b : Block} {txs : List Transaction}
    (hg : newGenesisBlock env chainID conf = .ok g)
    (h : Block.Descends env consensus (fun _ _ => True) g b txs) :
    20 * 1500001 * b.cpuPrice.val ≤ 21 * b.supply.val ∧
    20 * 1500001 * b.netPrice.val ≤ 21 * b.supply.val ∧
    (∃ price, b.calcChildPrice = .ok price) ∧
    ∀ coinbase, ∃ child, b.initChild coinbase = .ok child := by
  have hgenesis : Block.Genesis env.toEnv (fun _ _ => True) (fun _ _ => True) chainID g :=
    newGenesisBlock_spec (fun _ _ _ _ => trivial) hg
  have hpriced : b.Priced := by
    induction h with
    | refl =>
        have hzero : ∀ m : Meter, (m.price g.toBlockHeader).val = 0 := by
          intro m
          cases m with
          | cpu => exact congrArg Uint128.val hgenesis.cpuPrice
          | net => exact congrArg Uint128.val hgenesis.netPrice
        refine ⟨fun m => ?_, fun m _ => ?_⟩
        · rw [PriceBound, hzero m]
          exact Nat.zero_le _
        · rw [hzero m]
          exact Nat.zero_le _
    | child hparent hcond hheight hverify hcreate ih =>
        exact ih.child (hparent.sound hgenesis (fun _ _ _ => trivial) fun _ _ _ _ _ _ _ => trivial)
          hheight hverify hcreate
  obtain ⟨price, hprice, -⟩ := hpriced.calcChildPrice
  refine ⟨hpriced.bound .cpu, hpriced.bound .net, ⟨price, hprice⟩, fun coinbase => ?_⟩
  exact ⟨_, bind_of_ok hprice _⟩

end Chains

/-! ## A chain of two blocks -/

namespace Plain

/-- A configuration that gives 10 ^ 16 to address 1. -/
def configuration : List PbTransaction :=
  [(distribution 1 (address 1) (.ofUint 10000000000000000)).toProto]

/-- A block without transactions on a given one, at a timestamp, as it is made and sealed. -/
def emptyBlock (parent : Block) (ts : ℤ) : Option BlockData := do
  let block ← makeBlock .plain consensus parent (address 3) ts [] ⟨fun _ => transfer600, 0⟩
  return (block.seal blockEnv).toBlockData

/-- The genesis block of a configuration and an empty child of it. -/
def twoBlocks (conf : List PbTransaction) : Option (Block × Block) := do
  let g ← (newGenesisBlock blockEnv 0 conf).toOption
  let bd ← emptyBlock g 3
  let bd ← (bd.verifyIntegrity blockEnv).toOption
  let child ← (g.createChildWithBlockData blockEnv consensus bd).toOption
  return (g, child)

lemma ok_of_toOption {ε α : Type} {x : Except ε α} {a : α} (h : x.toOption = some a) :
    x = .ok a := by
  cases x with
  | error e => cases h
  | ok a' => exact congrArg Except.ok (Option.some_inj.1 h)

lemma descends_of_twoBlocks {conf : List PbTransaction} {g b : Block}
    (h : twoBlocks conf = some (g, b)) (hb : b.height = g.height + 1) :
    newGenesisBlock blockEnv 0 conf = .ok g ∧
      ∃ txs, Block.Descends blockEnv consensus (fun _ _ => True) g b txs := by
  obtain ⟨g', hg, h⟩ := Option.bind_eq_some_iff.1 h
  obtain ⟨bd, hbd, h⟩ := Option.bind_eq_some_iff.1 h
  obtain ⟨bd', hverify, h⟩ := Option.bind_eq_some_iff.1 h
  obtain ⟨child, hcreate, h⟩ := Option.bind_eq_some_iff.1 h
  cases h
  have hverify := ok_of_toOption hverify
  have hcreate := ok_of_toOption hcreate
  refine ⟨ok_of_toOption hg, _, .child .refl trivial ?_ hverify hcreate⟩
  obtain ⟨s, -, rfl⟩ := Block.createChildWithBlockData_eq_ok_iff.1 hcreate
  rw [← hb]
  by_cases hgenesis : bd.height = genesisHeight
  · rw [BlockData.verifyIntegrity, if_pos hgenesis] at hverify
    rw [Except.ok.inj hverify]
  · rw [(BlockData.verifyIntegrity_spec hgenesis hverify).same]

end Plain

/-- The first block after a genesis block that distributes 10 ^ 16 has prices of 165. -/
theorem first_prices : ∃ g b txs,
    newGenesisBlock Plain.blockEnv 0 Plain.configuration = .ok g ∧
    Block.Descends Plain.blockEnv Plain.consensus (fun _ _ => True) g b txs ∧
    b.cpuPrice.val = 165 ∧ 20 * 1500001 * b.cpuPrice.val ≤ 21 * b.supply.val := by
  have hrun : (Plain.twoBlocks Plain.configuration).any (fun p =>
      decide (p.2.height = p.1.height + 1 ∧ p.2.cpuPrice.val = 165)) = true := by
    decide +kernel
  obtain ⟨⟨g, b⟩, hblocks, hall⟩ := (Option.any_eq_true _ _).1 hrun
  obtain ⟨hheight, hprice⟩ := of_decide_eq_true hall
  obtain ⟨hg, txs, h⟩ := Plain.descends_of_twoBlocks hblocks hheight
  obtain ⟨hbound, -⟩ := prices_stay_bounded Plain.blockEnv Plain.consensus hg h
  exact ⟨g, b, txs, hg, h, hprice, hbound⟩

end GoMedibloc
