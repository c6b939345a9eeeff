import GoMedibloc.Chain.BlockChain

/-!
# Slots, dynasties and the latest irreversible block

Time is cut into slots of `blockInterval` seconds and into dynasties of `dynastySize` slots.
The proposer of a slot is its position in the dynasty.  `FindLIB` walks down from the main
tail inside the tail's dynasty, collects the proposer indices it meets, and stops at the block
where they become more than two thirds of the dynasty.

The main result of the module says what two nodes must have seen before such walks can end in
blocks on different branches: at `n / 3 + 2` or more slots of that dynasty, two different
blocks.  Inside a dynasty a slot is determined by its proposer index, so the two sets of
indices, of more than two thirds each, share `n / 3 + 2` slots; at none of them can the two
chains hold one block, since both results are ancestors of the blocks counted for them.
-/

namespace GoMedibloc

open Forest

/-- `BlockInterval`, in seconds. -/
def blockInterval : ℕ := 3

/-- `NumberOfRounds`. -/
def numberOfRounds : ℕ := 1

/-- The consensus parameters; `Setup` refuses an empty dynasty. -/
structure Dpos where
  dynastySize : ℕ
  pos : 0 < dynastySize

namespace Dpos

lemma three_pos : 0 < 3 := by decide

/-- `consensusSize`. -/
def consensusSize (d : Dpos) : ℕ := d.dynastySize * 2 / 3 + 1

/-- `DynastyInterval`, in seconds. -/
def dynastyInterval (d : Dpos) : ℕ := d.dynastySize * numberOfRounds * blockInterval

/-- `calcDynastyIndex`. -/
def calcDynastyIndex (d : Dpos) (ts : ℤ) : ℤ := ts.tdiv d.dynastyInterval

/-- `calcProposerIndex`. -/
def calcProposerIndex (d : Dpos) (ts : ℤ) : ℤ := (ts.tdiv blockInterval).tmod d.dynastySize

variable {B : Type} [HashableBlock B]

/-- The loop of `FindLIB`: the block it returns from inside the loop, if it does. -/
def findConfirmed (d : Dpos) (bc : BlockChain B) : ℕ → Finset ℤ → B → Option B
  | 0, _, _ => none
  | fuel + 1, confirmed, cur =>
    if d.calcDynastyIndex (timestamp cur) = d.calcDynastyIndex (timestamp bc.mainTailBlock) ∧
        hash cur ≠ hash bc.lib then
      let confirmed := insert (d.calcProposerIndex (timestamp cur)) confirmed
      if d.consensusSize ≤ confirmed.card then some cur
      else match bc.blockByHash (parentHash cur) with
        | none => none
        | some p => d.findConfirmed bc fuel confirmed p
    else none

/-- The block that `FindLIB` returns from inside its loop. -/
def confirmedBlock (d : Dpos) (bc : BlockChain B) : Option B :=
  d.findConfirmed bc (height bc.mainTailBlock) ∅ bc.mainTailBlock

/-- `FindLIB`: the confirmed block, or the LIB as it is. -/
def findLIB (d : Dpos) (bc : BlockChain B) : B := (d.confirmedBlock bc).getD bc.lib

/-! ## What the loop has counted -/

/-- A block returned from inside the loop is an ancestor of the block the loop started from,
and the proposer indices counted on the way are those of blocks between the two, all in the
dynasty of the main tail. -/
lemma findConfirmed_spec (d : Dpos) (bc : BlockChain B) {fuel : ℕ} {confirmed : Finset ℤ}
    {cur X : B} (h : d.findConfirmed bc fuel confirmed cur = some X) :
    Ancestor (parentIn bc.blocks) X cur ∧ hash X ≠ hash bc.lib ∧
    ∃ I : Finset ℤ, d.consensusSize ≤ (confirmed ∪ I).card ∧ ∀ i ∈ I, ∃ c : B,
      Ancestor (parentIn bc.blocks) X c ∧ Ancestor (parentIn bc.blocks) c cur ∧
      d.calcDynastyIndex (timestamp c) = d.calcDynastyIndex (timestamp bc.mainTailBlock) ∧
      d.calcProposerIndex (timestamp c) = i := by
  induction fuel generalizing confirmed cur with
  | zero => simp [findConfirmed] at h
  | succ fuel ih =>
      rw [findConfirmed] at h
      dsimp only at h
      split_ifs at h with hin hcard
      · obtain rfl := Option.some_inj.1 h
        refine ⟨.refl _, hin.2, {d.calcProposerIndex (timestamp cur)}, ?_, ?_⟩
        · rwa [Finset.union_comm, ← Finset.insert_eq]
        · intro i hi
          rw [Finset.mem_singleton] at hi
          exact ⟨cur, .refl _, .refl _, hin.1, hi.symm⟩
      · cases hp : bc.blockByHash (parentHash cur) with
        | none => simp [hp] at h
        | some p =>
            have hp' : parentIn bc.blocks cur = some p := hp
            simp only [hp] at h
            obtain ⟨hXp, hlib, I, hI, hmem⟩ := ih h
            refine ⟨.of_parent hp' hXp, hlib, insert (d.calcProposerIndex (timestamp cur)) I,
              ?_, ?_⟩
            · rwa [Finset.union_insert, ← Finset.insert_union]
            · intro i hi
              rcases Finset.mem_insert.1 hi with rfl | hi
              · exact ⟨cur, .of_parent hp' hXp, .refl _, hin.1, rfl⟩
              · obtain ⟨c, hXc, hcp, hdyn, hidx⟩ := hmem i hi
                exact ⟨c, hXc, .of_parent hp' hcp, hdyn, hidx⟩

/-- The LIB stays an ancestor of every block the loop reaches from a descendant of it. -/
lemma lib_ancestor_of_findConfirmed (d : Dpos) (bc : BlockChain B) {fuel : ℕ}
    {confirmed : Finset ℤ} {cur X : B} (hcur : Ancestor (parentIn bc.blocks) bc.lib cur)
    (h : d.findConfirmed bc fuel confirmed cur = some X) :
    Ancestor (parentIn bc.blocks) bc.lib X := by
  induction fuel generalizing confirmed cur with
  | zero => simp [findConfirmed] at h
  | succ fuel ih =>
      rw [findConfirmed] at h
      dsimp only at h
      split_ifs at h with hin hcard
      · obtain rfl := Option.some_inj.1 h
        exact hcur
      · obtain ⟨p, hp, hlib⟩ := hcur.parent fun heq => hin.2 (by rw [heq])
        have hp' : bc.blockByHash (parentHash cur) = some p := hp
        simp only [hp'] at h
        exact ih hlib h

/-! ## Slots -/

/-- The time of a slot from its dynasty and proposer index. -/
def slotTime (d : Dpos) (dynasty proposer : ℤ) : ℤ :=
  blockInterval * (dynasty * d.dynastySize + proposer)

/-- Dynasty and proposer index of a slot give its time back. -/
lemma slotTime_eq (d : Dpos) {t : ℤ} (h0 : 0 ≤ t) (hdvd : (blockInterval : ℤ) ∣ t) :
    t = d.slotTime (d.calcDynastyIndex t) (d.calcProposerIndex t) := by
  obtain ⟨u, rfl⟩ := hdvd
  have hpos : (0 : ℤ) < blockInterval := by decide
  have hu : 0 ≤ u := nonneg_of_mul_nonneg_right h0 hpos
  have hidx : d.calcDynastyIndex (blockInterval * u) = u / d.dynastySize := by
    rw [calcDynastyIndex, Int.tdiv_eq_ediv_of_nonneg h0, dynastyInterval]
    push_cast
    rw [show ((d.dynastySize : ℤ) * numberOfRounds * blockInterval) =
      blockInterval * d.dynastySize by simp [numberOfRounds, mul_comm]]
    exact Int.mul_ediv_mul_of_pos _ _ hpos
  have hprop : d.calcProposerIndex (blockInterval * u) = u % d.dynastySize := by
    rw [calcProposerIndex, Int.tdiv_eq_ediv_of_nonneg h0,
      Int.mul_ediv_cancel_left _ hpos.ne', Int.tmod_eq_emod_of_nonneg hu]
  rw [hidx, hprop, slotTime, Int.ediv_mul_add_emod]

lemma calcProposerIndex_mem (d : Dpos) {t : ℤ} (h0 : 0 ≤ t) :
    d.calcProposerIndex t ∈ Finset.Ico (0 : ℤ) d.dynastySize := by
  have hpos : (0 : ℤ) < d.dynastySize := by exact_mod_cast d.pos
  have hq : 0 ≤ t.tdiv blockInterval := Int.tdiv_nonneg h0 (by decide)
  rw [Finset.mem_Ico, calcProposerIndex, Int.tmod_eq_emod_of_nonneg hq]
  exact ⟨Int.emod_nonneg _ hpos.ne', Int.emod_lt_of_pos _ hpos⟩

lemma slotTime_injective (d : Dpos) (dynasty : ℤ) : Function.Injective (d.slotTime dynasty) := by
  intro i j hij
  simp only [slotTime, blockInterval] at hij
  omega

/-- Two quorums of a dynasty of `n` slots, `n` a multiple of three, share `n / 3 + 2` slots. -/
lemma card_inter_quorums (d : Dpos) (h3 : 3 ∣ d.dynastySize) {I J : Finset ℤ}
    (hI : I ⊆ Finset.Ico 0 (d.dynastySize : ℤ)) (hJ : J ⊆ Finset.Ico 0 (d.dynastySize : ℤ))
    (hIc : d.consensusSize ≤ I.card) (hJc : d.consensusSize ≤ J.card) :
    d.dynastySize / 3 + 2 ≤ (I ∩ J).card := by
  have hunion : (I ∪ J).card ≤ d.dynastySize := by
    have := Finset.card_le_card (Finset.union_subset hI hJ)
    simpa using this
  have hsum := Finset.card_union_add_card_inter I J
  obtain ⟨k, hk⟩ := h3
  simp only [consensusSize, hk] at hIc hJc hunion ⊢
  omega

end Dpos

/-! ## Two chains from one genesis block -/

variable {B : Type} [HashableBlock B]

/-- The chain with one more block, which becomes its main tail. -/
def BlockChain.extendBy (bc : BlockChain B) (child : B) : BlockChain B :=
  { bc.storeBlock child with mainTailBlock := child }

/-- A chain from the genesis block whose timestamps go up by whole slots. -/
structure SlotChain (g : B) (bc : BlockChain B) : Prop where
  store : StoreOk g bc.blocks
  tail : Stored bc.blocks bc.mainTailBlock
  genesis_time : timestamp g = 0
  slots : ∀ b p, Stored bc.blocks b → parentIn bc.blocks b = some p →
    timestamp p < timestamp b ∧ (blockInterval : ℤ) ∣ timestamp b - timestamp p

namespace SlotChain

variable {g : B} {bc : BlockChain B}

/-- Every block stands at a slot, none before the genesis block. -/
lemma time_spec (hc : SlotChain g bc) {b : B} (hb : Stored bc.blocks b) :
    0 ≤ timestamp b ∧ (blockInterval : ℤ) ∣ timestamp b := by
  induction hn : height b using Nat.strong_induction_on generalizing b with
  | _ n ih =>
      by_cases hbg : b = g
      · rw [hbg, hc.genesis_time]
        simp
      · obtain ⟨p, hp, hheight⟩ := hc.store.linked b hb hbg
        obtain ⟨hlt, hdvd⟩ := hc.slots b p hb hp
        obtain ⟨hp0, hpd⟩ := ih _ (by omega) (hc.store.ranked b hb p hp).1 rfl
        refine ⟨by omega, ?_⟩
        have := dvd_add hdvd hpd
        rwa [sub_add_cancel] at this

/-- A chain of one block. -/
lemma setup (hone : height g = 1) (hroot : parentHash g ≠ hash g) (htime : timestamp g = 0)
    (size : ℕ) : SlotChain g (BlockChain.setup g size) where
  store := StoreOk.setup hone hroot
  tail := BlockChain.setup_blocks.2 ⟨rfl, rfl⟩
  genesis_time := htime
  slots b p hb hp := by
    obtain ⟨-, rfl⟩ := BlockChain.setup_blocks.1 hb
    rw [parentIn, (StoreOk.setup hone hroot).root] at hp
    cases hp

/-- A chain that is extended by a block of a later slot. -/
lemma extendBy (hc : SlotChain g bc) {parent child : B} (hj : Joins g bc.blocks parent child)
    (hlt : timestamp parent < timestamp child)
    (hdvd : (blockInterval : ℤ) ∣ timestamp child - timestamp parent) :
    SlotChain g (bc.extendBy child) where
  store := hj.storeOk hc.store
  tail := Function.update_self _ _ _
  genesis_time := hc.genesis_time
  slots b p hb hp := by
    rcases Joins.stored_cases hb with rfl | hb
    · obtain rfl := Option.some_inj.1 (hj.parentIn_child.symm.trans hp)
      exact ⟨hlt, hdvd⟩
    · exact hc.slots b p hb (hj.parentIn_of_stored hc.store hb hp)

/-- What a walk of `FindLIB` that ends inside the loop leaves behind: a quorum of slots of the
tail's dynasty, each with a block between the result and the main tail. -/
lemma quorum (hc : SlotChain g bc) {d : Dpos} {X : B} (hX : d.confirmedBlock bc = some X) :
    ∃ I : Finset ℤ, I ⊆ Finset.Ico 0 (d.dynastySize : ℤ) ∧ d.consensusSize ≤ I.card ∧
      ∀ i ∈ I, ∃ c, Stored bc.blocks c ∧ Ancestor (parentIn bc.blocks) X c ∧
        Ancestor (parentIn bc.blocks) c bc.mainTailBlock ∧
        timestamp c = d.slotTime (d.calcDynastyIndex (timestamp bc.mainTailBlock)) i := by
  obtain ⟨-, -, I, hI, hmem⟩ := d.findConfirmed_spec bc hX
  rw [Finset.empty_union] at hI
  refine ⟨I, fun i hi => ?_, hI, fun i hi => ?_⟩
  · obtain ⟨c, -, hct, -, rfl⟩ := hmem i hi
    exact d.calcProposerIndex_mem (hc.time_spec (hc.store.stored_of_ancestor hc.tail hct)).1
  · obtain ⟨c, hXc, hct, hdyn, rfl⟩ := hmem i hi
    have hst := hc.store.stored_of_ancestor hc.tail hct
    obtain ⟨h0, hdvd⟩ := hc.time_spec hst
    refine ⟨c, hst, hXc, hct, ?_⟩
    rw [← hdyn]
    exact d.slotTime_eq h0 hdvd

/-- A block of both stores has the same ancestors in both. -/
lemma ancestor_of_agree {bc' : BlockChain B} (hc : SlotChain g bc) (hc' : SlotChain g bc')
    (hagree : ∀ h a b, bc.blocks h = some a → bc'.blocks h = some b → a = b) {a b : B}
    (hb : Stored bc.blocks b) (hb' : Stored bc'.blocks b)
    (h : Ancestor (parentIn bc.blocks) a b) : Ancestor (parentIn bc'.blocks) a b := by
  induction h using Relation.ReflTransGen.head_induction_on with
  | refl => exact .refl a
  | @head x p hp _ ih =>
      obtain ⟨hpst, -⟩ := hc.store.ranked x hb p hp
      have hxg : x ≠ g := by
        rintro rfl
        rw [parentIn, hc.store.root] at hp
        cases hp
      obtain ⟨q, hq, -⟩ := hc'.store.linked x hb' hxg
      obtain rfl := hagree _ _ _ hp hq
      exact .of_parent hq (ih hpst (hc'.store.ranked x hb' p hq).1)

end SlotChain

/-- **Conflicting LIBs need double minting.**  If `FindLIB` returns from inside its loop on
two chains of one genesis block whose tails lie in one dynasty, and neither result is an
ancestor of the other, then at `n / 3 + 2` or more slots of that dynasty the two chains hold
two different blocks.  That no two blocks share a hash is the assumption `hagree`. -/
theorem conflicting_libs_need_double_minting (d : Dpos) (h3 : 3 ∣ d.dynastySize) {g : B}
    {bc₁ bc₂ : BlockChain B} (hc₁ : SlotChain g bc₁) (hc₂ : SlotChain g bc₂)
    (hagree : ∀ h a b, bc₁.blocks h = some a → bc₂.blocks h = some b → a = b)
    {X Y : B} (hX : d.confirmedBlock bc₁ = some X) (hY : d.confirmedBlock bc₂ = some Y)
    (hdyn : d.calcDynastyIndex (timestamp bc₁.mainTailBlock) =
      d.calcDynastyIndex (timestamp bc₂.mainTailBlock))
    (hXY : ¬ Ancestor (parentIn bc₂.blocks) X Y) (hYX : ¬ Ancestor (parentIn bc₁.blocks) Y X) :
    ∃ T : Finset ℤ, d.dynastySize / 3 + 2 ≤ T.card ∧ ∀ t ∈ T,
      (∃ i : ℤ, 0 ≤ i ∧ i < d.dynastySize ∧
        t = d.slotTime (d.calcDynastyIndex (timestamp bc₁.mainTailBlock)) i) ∧
      ∃ a b, Ancestor (parentIn bc₁.blocks) a bc₁.mainTailBlock ∧
        Ancestor (parentIn bc₂.blocks) b bc₂.mainTailBlock ∧
        timestamp a = t ∧ timestamp b = t ∧ hash a ≠ hash b := by
  obtain ⟨I, hI, hIc, hImem⟩ := hc₁.quorum hX
  obtain ⟨J, hJ, hJc, hJmem⟩ := hc₂.quorum hY
  rw [← hdyn] at hJmem
  refine ⟨(I ∩ J).image (d.slotTime (d.calcDynastyIndex (timestamp bc₁.mainTailBlock))), ?_, ?_⟩
  · rw [Finset.card_image_of_injective _ (d.slotTime_injective _)]
    exact d.card_inter_quorums h3 hI hJ hIc hJc
  · intro t ht
    obtain ⟨i, hi, rfl⟩ := Finset.mem_image.1 ht
    obtain ⟨hiI, hiJ⟩ := Finset.mem_inter.1 hi
    obtain ⟨a, hast, hXa, hat, hta⟩ := hImem i hiI
    obtain ⟨b, hbst, hYb, hbt, htb⟩ := hJmem i hiJ
    have hrange := Finset.mem_Ico.1 (hI hiI)
    refine ⟨⟨i, hrange.1, hrange.2, rfl⟩, a, b, hat, hbt, hta, htb, fun hhash => ?_⟩
    -- one block at this slot would have both results among its ancestors
    have hab : a = b := hagree (hash a) a b hast (by rw [hhash]; exact hbst)
    subst hab
    have hXa' := hc₁.ancestor_of_agree hc₂ hagree hast hbst hXa
    rcases hXa'.comparable hYb with h | h
    · exact hXY h
    · have hagree' : ∀ h a b, bc₂.blocks h = some a → bc₁.blocks h = some b → a = b :=
        fun h a b ha hb => (hagree h b a hb ha).symm
      have hXst : Stored bc₂.blocks X := hc₂.store.stored_of_ancestor hbst hXa'
      have hXst' : Stored bc₁.blocks X := hc₁.store.stored_of_ancestor hast hXa
      exact hYX (hc₂.ancestor_of_agree hc₁ hagree' hXst hXst' h)

/-- A branch of three blocks on a genesis block, at the three slots of the second dynasty of
size three. -/
def BareBlock.branch (k : UInt8) : BlockChain BareBlock :=
  (((BlockChain.setup ⟨[0], [], 1, 0⟩ 8).extendBy ⟨[k, 0], [0], 2, 9⟩).extendBy
    ⟨[k, 1], [k, 0], 3, 12⟩).extendBy ⟨[k, 2], [k, 1], 4, 15⟩

/-- Each branch is a chain of slots. -/
lemma BareBlock.slotChain_branch (k : UInt8) : SlotChain ⟨[0], [], 1, 0⟩ (branch k) := by
  have h₀ := SlotChain.setup (g := (⟨[0], [], 1, 0⟩ : BareBlock)) rfl (by decide) rfl 8
  have j₁ : Joins ⟨[0], [], 1, 0⟩ (BlockChain.setup ⟨[0], [], 1, 0⟩ 8).blocks
      ⟨[0], [], 1, 0⟩ (⟨[k, 0], [0], 2, 9⟩ : BareBlock) :=
    ⟨h₀.tail, rfl, rfl, by simp [BlockChain.setup], by simp⟩
  have h₁ := h₀.extendBy j₁ (by simp) (by norm_num [blockInterval])
  have j₂ : Joins ⟨[0], [], 1, 0⟩ _ (⟨[k, 0], [0], 2, 9⟩ : BareBlock)
      (⟨[k, 1], [k, 0], 3, 12⟩ : BareBlock) :=
    ⟨h₁.tail, rfl, rfl,
      by simp [BlockChain.setup, BlockChain.extendBy, BlockChain.storeBlock], by simp⟩
  have h₂ := h₁.extendBy j₂ (by simp) (by simp [blockInterval])
  have j₃ : Joins ⟨[0], [], 1, 0⟩ _ (⟨[k, 1], [k, 0], 3, 12⟩ : BareBlock)
      (⟨[k, 2], [k, 1], 4, 15⟩ : BareBlock) :=
    ⟨h₂.tail, rfl, rfl,
      by simp [BlockChain.setup, BlockChain.extendBy, BlockChain.storeBlock], by simp⟩
  exact h₂.extendBy j₃ (by simp) (by simp [blockInterval])

/-- The two branches share the genesis block only. -/
lemma BareBlock.branch_agree (h : Hash) (a b : BareBlock) (ha : (branch 1).blocks h = some a)
    (hb : (branch 2).blocks h = some b) : a = b := by
  simp only [branch, BlockChain.extendBy, BlockChain.storeBlock, BlockChain.setup,
    Function.update_apply, hash_def] at ha hb
  split_ifs at ha hb <;> simp_all

/-- Two branches of three blocks each fill a dynasty of three slots: both walks end at the
first block of their branch, and the chains differ at all three slots. -/
theorem forks_fill_dynasty :
    ∃ T : Finset ℤ, 3 / 3 + 2 ≤ T.card ∧ ∀ t ∈ T,
      (∃ i : ℤ, 0 ≤ i ∧ i < 3 ∧ t = (Dpos.mk 3 (by decide)).slotTime 1 i) ∧
      ∃ a b, Ancestor (parentIn (BareBlock.branch 1).blocks) a (BareBlock.branch 1).mainTailBlock ∧
        Ancestor (parentIn (BareBlock.branch 2).blocks) b (BareBlock.branch 2).mainTailBlock ∧
        timestamp a = t ∧ timestamp b = t ∧ hash a ≠ hash b := by
  have h₁ := BareBlock.slotChain_branch 1
  have h₂ := BareBlock.slotChain_branch 2
  have hX : (Dpos.mk 3 (by decide)).confirmedBlock (BareBlock.branch 1) =
      some ⟨[1, 0], [0], 2, 9⟩ := by decide
  have hY : (Dpos.mk 3 (by decide)).confirmedBlock (BareBlock.branch 2) =
      some ⟨[2, 0], [0], 2, 9⟩ := by decide
  refine conflicting_libs_need_double_minting (Dpos.mk 3 (by decide)) (by decide) h₁ h₂
    BareBlock.branch_agree hX hY (by decide) (fun h => ?_) (fun h => ?_)
  · -- the first block of one branch is not stored on the other
    have hst := h₂.store.stored_of_ancestor
      (h₂.store.stored_of_ancestor h₂.tail (Dpos.findConfirmed_spec _ _ hY).1) h
    exact absurd hst (by unfold Stored; decide)
  · have hst := h₁.store.stored_of_ancestor
      (h₁.store.stored_of_ancestor h₁.tail (Dpos.findConfirmed_spec _ _ hX).1) h
    exact absurd hst (by unfold Stored; decide)

end GoMedibloc
