import GoMedibloc.Chain.Dpos

/-!
# The chain manager

`runChainManager` is a loop that is woken by a trigger.  It lists the tails, lets `ForkChoice`
choose among them, moves the main tail there with `SetTailBlock`, looks for a new LIB with
`FindLIB`, and lets `SetLIB` store it and cut the branches that are now forked before it.
Accepted blocks enter the chain from other goroutines at any time.

`ChainManager.next` is one step of the loop.  The steps are as small as the interleaving with
an accepted block can tell: the tails are listed one at a time (`tailBlockList` reads the keys
first and then each entry), and the branches are cut one at a time.

`ManagerOk` is what holds in every state.  From it follows the main result: along every run,
for every arrival order of competing branches, the LIB stays on the canonical chain, it only
moves to its descendants, the main tail never gets lower, and what lies at or below the LIB
stays where it is.
-/

namespace GoMedibloc

open Forest

variable {B : Type} [HashableBlock B]

/-- Where `runChainManager` stands in its loop. -/
inductive ManagerPc (B : Type)
  /-- waiting for a trigger -/
  | idle
  /-- in `ForkChoice`: the tails listed so far and the keys still to look up -/
  | choosing (tails : List B) (keys : List Hash)
  /-- before `SetTailBlock` -/
  | setting (newTail : B)
  /-- before `FindLIB` -/
  | finding
  /-- before `SetLIB` -/
  | fixing (newLIB : B)
  /-- in `SetLIB`: the tails listed so far and the keys still to look up -/
  | pruning (tails : List B) (keys : List Hash)
  /-- in the loop at the end of `SetLIB`: the tails still to look at -/
  | cutting (tails : List B)
deriving DecidableEq

/-- The chain, the local variables of `runChainManager` and its position. -/
structure ChainManager (B : Type) where
  bc : BlockChain B
  mainTail : B
  LIB : B
  pc : ManagerPc B

namespace ChainManager

/-- The chain manager of a new chain. -/
def start (genesis : B) (tailCacheSize : ℕ) : ChainManager B where
  bc := BlockChain.setup genesis tailCacheSize
  mainTail := genesis
  LIB := genesis
  pc := .idle

/-- The chain with another tail cache. -/
def setTails (m : ChainManager B) (tails : Lru Hash B) : ChainManager B :=
  { m with bc := { m.bc with tailBlocks := tails } }

/-- One step of `runChainManager`; from `idle` it is the receipt of a trigger. -/
def next (d : Dpos) (m : ChainManager B) : ChainManager B :=
  match m.pc with
  | .idle => { m with pc := .choosing [] m.bc.tailBlocks.keys }
  | .choosing tails (k :: keys) =>
    { m.setTails (m.bc.tailBlocks.get k).2 with
      pc := .choosing (tails ++ (m.bc.tailBlocks.get k).1.toList) keys }
  | .choosing tails [] =>
    if hash m.mainTail = hash (m.bc.forkChoice tails) then { m with pc := .idle }
    else { m with
      mainTail := m.bc.forkChoice tails
      pc := .setting (m.bc.forkChoice tails) }
  | .setting newTail =>
    match BlockChain.setTailBlock newTail m.bc with
    | (.ok _, bc) => { m with bc := bc, pc := .finding }
    | (.error _, bc) => { m with bc := bc, pc := .idle }
  | .finding =>
    if hash m.LIB = hash (d.findLIB m.bc) then { m with pc := .idle }
    else { m with LIB := d.findLIB m.bc, pc := .fixing (d.findLIB m.bc) }
  | .fixing newLIB =>
    if m.bc.KeepsLIB newLIB then { m with pc := .idle }
    else { m with
      bc := { m.bc with lib := newLIB }
      pc := .pruning [] m.bc.tailBlocks.keys }
  | .pruning tails (k :: keys) =>
    { m.setTails (m.bc.tailBlocks.get k).2 with
      pc := .pruning (tails ++ (m.bc.tailBlocks.get k).1.toList) keys }
  | .pruning tails [] => { m with pc := .cutting tails }
  | .cutting (tail :: tails) => { m with bc := m.bc.cutTail tail, pc := .cutting tails }
  | .cutting [] => { m with pc := .idle }

end ChainManager

/-- `PutVerifiedNewBlock`, for a parent that is stored. -/
def BlockChain.putVerifiedNewBlock (parent child : B) (bc : BlockChain B) : BlockChain B :=
  ((bc.storeBlock child).addToTailBlocks child).removeFromTailBlocks parent

/-- A run of the chain manager: blocks are put on the chain, and the manager makes its steps,
in any order. -/
inductive ChainStep (d : Dpos) (g : B) : ChainManager B → ChainManager B → Prop
  | put (m : ChainManager B) (parent child : B) (hj : Joins g m.bc.blocks parent child) :
      ChainStep d g m { m with bc := m.bc.putVerifiedNewBlock parent child }
  | manage (m : ChainManager B) : ChainStep d g m (m.next d)

/-! ## What holds in every state -/

/-- What the position of the manager says about its local variables. -/
def PcOk (m : ChainManager B) : Prop :=
  match m.pc with
  | .idle => m.mainTail = m.bc.mainTailBlock ∧ m.LIB = m.bc.lib
  | .choosing tails _ => m.mainTail = m.bc.mainTailBlock ∧ m.LIB = m.bc.lib ∧
      ∀ t ∈ tails, Stored m.bc.blocks t
  | .setting newTail => m.mainTail = newTail ∧ m.LIB = m.bc.lib ∧
      Stored m.bc.blocks newTail ∧ Ancestor (parentIn m.bc.blocks) m.bc.lib newTail ∧
      height m.bc.mainTailBlock ≤ height newTail
  | .finding => m.mainTail = m.bc.mainTailBlock ∧ m.LIB = m.bc.lib
  | .fixing newLIB => m.mainTail = m.bc.mainTailBlock ∧ m.LIB = newLIB ∧
      Ancestor (parentIn m.bc.blocks) newLIB m.bc.mainTailBlock ∧
      Ancestor (parentIn m.bc.blocks) m.bc.lib newLIB
  | .pruning tails _ => m.mainTail = m.bc.mainTailBlock ∧ m.LIB = m.bc.lib ∧
      ∀ t ∈ tails, Stored m.bc.blocks t
  | .cutting tails => m.mainTail = m.bc.mainTailBlock ∧ m.LIB = m.bc.lib ∧
      ∀ t ∈ tails, Stored m.bc.blocks t

/-- The cached tails are stored blocks under their own hashes. -/
def TailsOk (bc : BlockChain B) : Prop :=
  ∀ k b, bc.tailBlocks.Holds k b → k = hash b ∧ Stored bc.blocks b

/-- What holds of the chain manager between any two steps. -/
structure ManagerOk (g : B) (m : ChainManager B) : Prop where
  chain : ChainOk g m.bc
  tails : TailsOk m.bc
  pc : PcOk m

/-- How the chain may change: blocks stay, the main tail gets no lower, the LIB moves to a
descendant, and the index up to the LIB stays. -/
structure Advance (bc bc' : BlockChain B) : Prop where
  grows : ∀ h b, bc.blocks h = some b → bc'.blocks h = some b
  height_le : height bc.mainTailBlock ≤ height bc'.mainTailBlock
  lib : Ancestor (parentIn bc'.blocks) bc.lib bc'.lib
  index : ∀ n ≤ height bc.lib, bc'.heightIndex n = bc.heightIndex n

namespace Advance

variable {g : B} {bc bc' bc'' : BlockChain B}

lemma refl (bc : BlockChain B) : Advance bc bc :=
  ⟨fun _ _ h => h, le_rfl, .refl _, fun _ _ => rfl⟩

lemma ancestor (h : Advance bc bc') {a b : B} (hab : Ancestor (parentIn bc.blocks) a b) :
    Ancestor (parentIn bc'.blocks) a b :=
  hab.mono fun x y hxy => h.grows (parentHash x) y hxy

lemma trans (hc' : ChainOk g bc') (h : Advance bc bc') (h' : Advance bc' bc'') :
    Advance bc bc'' where
  grows k b hb := h'.grows k b (h.grows k b hb)
  height_le := h.height_le.trans h'.height_le
  lib := (h'.ancestor h.lib).trans h'.lib
  index n hn := by
    have hle := hc'.store.ranked.rank_le hc'.lib_stored h.lib
    rw [h'.index n (hn.trans hle), h.index n hn]

end Advance

lemma TailsOk.functional {bc : BlockChain B} (ht : TailsOk bc) : bc.tailBlocks.Functional := by
  intro k v v' hv hv'
  obtain ⟨hk, hst⟩ := ht k v hv
  obtain ⟨hk', hst'⟩ := ht k v' hv'
  exact StoreOk.eq_of_hash hst hst' (hk.symm.trans hk')

/-- Looking a tail up changes neither the chain nor the cached tails. -/
lemma TailsOk.get {bc : BlockChain B} (ht : TailsOk bc) (k : Hash) :
    TailsOk { bc with tailBlocks := (bc.tailBlocks.get k).2 } :=
  fun x b hb => ht x b ((Lru.get_holds ht.functional).1 hb)

lemma TailsOk.stored_of_get {bc : BlockChain B} (ht : TailsOk bc) {k : Hash} {t : B}
    (h : t ∈ (bc.tailBlocks.get k).1.toList) : Stored bc.blocks t := by
  rw [Lru.get_fst, Option.mem_toList] at h
  exact (ht k t (Lru.holds_of_peek h)).2

lemma TailsOk.remove {bc : BlockChain B} (ht : TailsOk bc) (b : B) :
    TailsOk (bc.removeFromTailBlocks b) :=
  fun x c hx => ht x c (Lru.remove_holds.1 hx).2

lemma TailsOk.add {bc : BlockChain B} (ht : TailsOk bc) {b : B} (hb : Stored bc.blocks b) :
    TailsOk (bc.addToTailBlocks b) := by
  intro x c hx
  rcases Lru.holds_of_add hx with ⟨rfl, rfl⟩ | hx
  · exact ⟨rfl, hb⟩
  · exact ht x c hx

/-- A branch is cut only if it is forked before the LIB, and only its tail is forgotten. -/
lemma BlockChain.cutTail_cases (bc : BlockChain B) (t : B) :
    bc.cutTail t = bc ∨
      (bc.isForkedBeforeLIB t = true ∧ bc.cutTail t = bc.removeFromTailBlocks t) := by
  unfold BlockChain.cutTail
  split_ifs with hf
  · unfold BlockChain.removeForkedBranch
    cases bc.findAncestorOnCanonical t false with
    | error e => exact .inl rfl
    | ok a =>
        cases ha : bc.removeBranch a (height t) t with
        | error e => exact .inl (by simp [ha])
        | ok u => exact .inr ⟨hf, by simp [ha]⟩
  · exact .inl rfl

/-! ## A block joins -/

/-- A block that joins the store leaves the canonical chain in order. -/
lemma ChainOk.storeBlock {g : B} {bc : BlockChain B} (hc : ChainOk g bc) {parent child : B}
    (hj : Joins g bc.blocks parent child) : ChainOk g (bc.storeBlock child) where
  store := hj.storeOk hc.store
  tail := hj.stored hc.tail
  index b hb := hc.index b ((hj.ancestor_iff hc.store hc.tail).1 hb)
  lib := hj.ancestor hc.lib

lemma Advance.storeBlock {g : B} {bc : BlockChain B} {parent child : B}
    (hj : Joins g bc.blocks parent child) : Advance bc (bc.storeBlock child) :=
  ⟨fun _ _ hb => hj.grows hb, le_rfl, .refl _, fun _ _ => rfl⟩

/-- The facts about the position survive any growth of the store that keeps the rest. -/
lemma PcOk.grow {m : ChainManager B} (h : PcOk m) {bc : BlockChain B}
    (hgrow : ∀ k b, m.bc.blocks k = some b → bc.blocks k = some b)
    (htail : bc.mainTailBlock = m.bc.mainTailBlock) (hlib : bc.lib = m.bc.lib) :
    PcOk { m with bc := bc } := by
  have hst : ∀ t, Stored m.bc.blocks t → Stored bc.blocks t := fun t => hgrow _ _
  have hanc : ∀ a b, Ancestor (parentIn m.bc.blocks) a b → Ancestor (parentIn bc.blocks) a b :=
    fun a b hab => hab.mono fun x y => hgrow _ _
  unfold PcOk at h ⊢
  rw [htail, hlib]
  cases hpc : m.pc with
  | idle => simpa [hpc] using h
  | choosing tails keys =>
      simp only [hpc] at h ⊢
      exact ⟨h.1, h.2.1, fun t ht => hst t (h.2.2 t ht)⟩
  | setting newTail =>
      simp only [hpc] at h ⊢
      obtain ⟨h₁, h₂, h₃, h₄, h₅⟩ := h
      exact ⟨h₁, h₂, hst _ h₃, hanc _ _ h₄, h₅⟩
  | finding => simpa [hpc] using h
  | fixing newLIB =>
      simp only [hpc] at h ⊢
      obtain ⟨h₁, h₂, h₃, h₄⟩ := h
      exact ⟨h₁, h₂, hanc _ _ h₃, hanc _ _ h₄⟩
  | pruning tails keys =>
      simp only [hpc] at h ⊢
      exact ⟨h.1, h.2.1, fun t ht => hst t (h.2.2 t ht)⟩
  | cutting tails =>
      simp only [hpc] at h ⊢
      exact ⟨h.1, h.2.1, fun t ht => hst t (h.2.2 t ht)⟩

namespace ManagerOk

variable {g : B} {m : ChainManager B}

lemma storeBlock (h : ManagerOk g m) {parent child : B} (hj : Joins g m.bc.blocks parent child) :
    ManagerOk g { m with bc := m.bc.storeBlock child } where
  chain := h.chain.storeBlock hj
  tails k b hb := ⟨(h.tails k b hb).1, hj.stored (h.tails k b hb).2⟩
  pc := h.pc.grow (fun _ _ hb => hj.grows hb) rfl rfl

lemma addTail (h : ManagerOk g m) {b : B} (hb : Stored m.bc.blocks b) :
    ManagerOk g { m with bc := m.bc.addToTailBlocks b } where
  chain := ⟨h.chain.store, h.chain.tail, h.chain.index, h.chain.lib⟩
  tails := h.tails.add hb
  pc := h.pc.grow (fun _ _ hb => hb) rfl rfl

lemma removeTail (h : ManagerOk g m) (b : B) :
    ManagerOk g { m with bc := m.bc.removeFromTailBlocks b } where
  chain := ⟨h.chain.store, h.chain.tail, h.chain.index, h.chain.lib⟩
  tails := h.tails.remove b
  pc := h.pc.grow (fun _ _ hb => hb) rfl rfl

/-- Putting a verified block on the chain. -/
lemma put (h : ManagerOk g m) {parent child : B} (hj : Joins g m.bc.blocks parent child) :
    ManagerOk g { m with bc := m.bc.putVerifiedNewBlock parent child } :=
  ((h.storeBlock hj).addTail (b := child) (Function.update_self _ _ _)).removeTail parent

/-! ## A step of the manager -/

/-- What `ForkChoice` has chosen, if it is not the main tail already. -/
lemma forkChoice_spec (h : ManagerOk g m) {tails : List B}
    (hst : ∀ t ∈ tails, Stored m.bc.blocks t)
    (hne : m.bc.forkChoice tails ≠ m.bc.mainTailBlock) :
    Stored m.bc.blocks (m.bc.forkChoice tails) ∧
      Ancestor (parentIn m.bc.blocks) m.bc.lib (m.bc.forkChoice tails) ∧
      height m.bc.mainTailBlock ≤ height (m.bc.forkChoice tails) := by
  obtain ⟨hfrom, hle, -⟩ := m.bc.forkChoice_spec tails
  rcases hfrom with heq | ⟨hmem, hnf⟩
  · exact absurd heq hne
  · have hs := hst _ hmem
    refine ⟨hs, ?_, hle⟩
    by_contra hlib
    rw [(h.chain.isForkedBeforeLIB_iff hs).2 hlib] at hnf
    cases hnf

/-- The LIB that `FindLIB` finds lies between the LIB and the main tail. -/
lemma findLIB_spec (h : ManagerOk g m) (d : Dpos) :
    Ancestor (parentIn m.bc.blocks) (d.findLIB m.bc) m.bc.mainTailBlock ∧
      Ancestor (parentIn m.bc.blocks) m.bc.lib (d.findLIB m.bc) := by
  unfold Dpos.findLIB
  cases hX : d.confirmedBlock m.bc with
  | none => exact ⟨h.chain.lib, .refl _⟩
  | some X =>
      exact ⟨(d.findConfirmed_spec m.bc hX).1,
        d.lib_ancestor_of_findConfirmed m.bc h.chain.lib hX⟩

/-- `SetLIB` keeps the LIB only if it is offered the LIB itself. -/
lemma eq_lib_of_keeps (h : ManagerOk g m) {newLIB : B}
    (htail : Ancestor (parentIn m.bc.blocks) newLIB m.bc.mainTailBlock)
    (hlib : Ancestor (parentIn m.bc.blocks) m.bc.lib newLIB) (hk : m.bc.KeepsLIB newLIB) :
    newLIB = m.bc.lib := by
  have hst := h.chain.store.stored_of_ancestor h.chain.tail htail
  rcases hk with hlt | heq
  · have := h.chain.store.ranked.rank_le hst hlib
    omega
  · exact (StoreOk.eq_of_hash h.chain.lib_stored hst heq).symm

/-- **One step of the manager** keeps what holds in every state, and the chain advances. -/
lemma next (h : ManagerOk g m) (d : Dpos) :
    ManagerOk g (m.next d) ∧ Advance m.bc (m.next d).bc := by
  have hp := h.pc
  unfold PcOk at hp
  unfold ChainManager.next
  cases hpc : m.pc with
  | idle =>
      simp only [hpc] at hp ⊢
      exact ⟨⟨h.chain, h.tails, hp.1, hp.2, by simp⟩, .refl _⟩
  | choosing tails keys =>
      simp only [hpc] at hp
      obtain ⟨htail, hlib, hst⟩ := hp
      cases keys with
      | cons k keys =>
          refine ⟨⟨⟨h.chain.store, h.chain.tail, h.chain.index, h.chain.lib⟩, h.tails.get k,
            htail, hlib, ?_⟩, ⟨fun _ _ h => h, le_rfl, .refl _, fun _ _ => rfl⟩⟩
          intro t ht
          rcases List.mem_append.1 ht with ht | ht
          · exact hst t ht
          · exact h.tails.stored_of_get ht
      | nil =>
          dsimp only
          split_ifs with heq
          · exact ⟨⟨h.chain, h.tails, htail, hlib⟩, .refl _⟩
          · have hne : m.bc.forkChoice tails ≠ m.bc.mainTailBlock :=
              fun hc => heq (by rw [hc, htail])
            obtain ⟨h₁, h₂, h₃⟩ := h.forkChoice_spec hst hne
            exact ⟨⟨h.chain, h.tails, rfl, hlib, h₁, h₂, h₃⟩, .refl _⟩
  | setting newTail =>
      simp only [hpc] at hp
      obtain ⟨htail, hlib, hst, hanc, hle⟩ := hp
      obtain ⟨res, bc', hset, hc', hblocks, hlib', htails, hmain, hidx⟩ :=
        h.chain.setTailBlock hst hanc
      simp only [hset]
      refine ⟨⟨hc', ?_, htail.trans hmain.symm, hlib.trans hlib'.symm⟩, ?_⟩
      · intro k b hb
        dsimp only at hb ⊢
        rw [htails] at hb
        rw [hblocks]
        exact h.tails k b hb
      · refine ⟨fun k b hb => by rw [hblocks]; exact hb, ?_, ?_, hidx⟩
        · rw [hmain]
          exact hle
        · rw [hlib']
  | finding =>
      simp only [hpc] at hp
      obtain ⟨htail, hlib⟩ := hp
      dsimp only
      split_ifs with heq
      · exact ⟨⟨h.chain, h.tails, htail, hlib⟩, .refl _⟩
      · obtain ⟨h₁, h₂⟩ := h.findLIB_spec d
        exact ⟨⟨h.chain, h.tails, htail, rfl, h₁, h₂⟩, .refl _⟩
  | fixing newLIB =>
      simp only [hpc] at hp
      obtain ⟨htail, hLIB, hanc, hlib⟩ := hp
      dsimp only
      split_ifs with hk
      · have heq := h.eq_lib_of_keeps hanc hlib hk
        exact ⟨⟨h.chain, h.tails, htail, hLIB.trans heq⟩, .refl _⟩
      · exact ⟨⟨⟨h.chain.store, h.chain.tail, h.chain.index, hanc⟩, h.tails, htail, hLIB,
          by simp⟩, ⟨fun _ _ h => h, le_rfl, hlib, fun _ _ => rfl⟩⟩
  | pruning tails keys =>
      simp only [hpc] at hp
      obtain ⟨htail, hlib, hst⟩ := hp
      cases keys with
      | cons k keys =>
          refine ⟨⟨⟨h.chain.store, h.chain.tail, h.chain.index, h.chain.lib⟩, h.tails.get k,
            htail, hlib, ?_⟩, ⟨fun _ _ h => h, le_rfl, .refl _, fun _ _ => rfl⟩⟩
          intro t ht
          rcases List.mem_append.1 ht with ht | ht
          · exact hst t ht
          · exact h.tails.stored_of_get ht
      | nil => exact ⟨⟨h.chain, h.tails, htail, hlib, hst⟩, .refl _⟩
  | cutting tails =>
      simp only [hpc] at hp
      obtain ⟨htail, hlib, hst⟩ := hp
      cases tails with
      | nil => exact ⟨⟨h.chain, h.tails, htail, hlib⟩, .refl _⟩
      | cons t tails =>
          have hst' : ∀ x ∈ tails, Stored m.bc.blocks x :=
            fun x hx => hst x (List.mem_cons_of_mem _ hx)
          dsimp only
          rcases m.bc.cutTail_cases t with heq | ⟨-, heq⟩
          · rw [heq]
            exact ⟨⟨h.chain, h.tails, htail, hlib, hst'⟩, .refl _⟩
          · rw [heq]
            exact ⟨⟨⟨h.chain.store, h.chain.tail, h.chain.index, h.chain.lib⟩,
              h.tails.remove t, htail, hlib, hst'⟩,
              ⟨fun _ _ h => h, le_rfl, .refl _, fun _ _ => rfl⟩⟩

end ManagerOk

/-! ## Runs -/

/-- A genesis block: the lowest block, whose parent hash is not its own. -/
structure IsGenesis (g : B) : Prop where
  height_eq : height g = 1
  root : parentHash g ≠ hash g

/-- The state in which the manager starts. -/
lemma ManagerOk.start {g : B} (hg : IsGenesis g) (size : ℕ) :
    ManagerOk g (ChainManager.start g size) := by
  have hs : StoreOk g (BlockChain.setup g size).blocks := StoreOk.setup hg.height_eq hg.root
  refine ⟨⟨hs, hs.genesis, ?_, .refl _⟩, ?_, rfl, rfl⟩
  · intro b hb
    obtain ⟨-, rfl⟩ := BlockChain.setup_blocks.1 (hs.stored_of_ancestor hs.genesis hb)
    simp [ChainManager.start, BlockChain.setup]
  · intro k b hb
    rcases Lru.holds_of_add hb with ⟨rfl, rfl⟩ | hb
    · exact ⟨rfl, hs.genesis⟩
    · exact absurd hb (Lru.not_holds_new _)

/-- Every step keeps what holds in every state, and the chain advances. -/
lemma ManagerOk.step {d : Dpos} {g : B} {m m' : ChainManager B} (h : ManagerOk g m)
    (hstep : ChainStep d g m m') : ManagerOk g m' ∧ Advance m.bc m'.bc := by
  cases hstep with
  | put parent child hj =>
      refine ⟨h.put hj, ?_⟩
      have hadv := Advance.storeBlock hj
      exact ⟨hadv.grows, hadv.height_le, hadv.lib, hadv.index⟩
  | manage => exact h.next d

/-- Every run keeps what holds in every state, and the chain advances along it. -/
lemma ManagerOk.run {d : Dpos} {g : B} {m m' : ChainManager B} (h : ManagerOk g m)
    (hrun : Relation.ReflTransGen (ChainStep d g) m m') :
    ManagerOk g m' ∧ Advance m.bc m'.bc := by
  induction hrun with
  | refl => exact ⟨h, .refl _⟩
  | tail _ hstep ih =>
      obtain ⟨hok, hadv⟩ := ih
      obtain ⟨hok', hadv'⟩ := hok.step hstep
      exact ⟨hok', hadv.trans hok.chain hadv'⟩

/-- **The LIB is irreversible.**  In every state of every run the LIB is on the canonical
chain: it is an ancestor of the main tail (or the main tail) and the index holds it.  Whatever
follows, the LIB is then a descendant of it (or the same block), the main tail is not lower,
and every canonical block at or below the LIB is still on the canonical chain and on the
index. -/
theorem lib_is_irreversible (d : Dpos) {g : B} (hg : IsGenesis g) (size : ℕ)
    {m m' : ChainManager B}
    (hm : Relation.ReflTransGen (ChainStep d g) (ChainManager.start g size) m)
    (hm' : Relation.ReflTransGen (ChainStep d g) m m') :
    (Ancestor (parentIn m.bc.blocks) m.bc.lib m.bc.mainTailBlock ∧
      m.bc.heightIndex (height m.bc.lib) = some (hash m.bc.lib)) ∧
    Ancestor (parentIn m'.bc.blocks) m.bc.lib m'.bc.lib ∧
    height m.bc.mainTailBlock ≤ height m'.bc.mainTailBlock ∧
    ∀ b, Ancestor (parentIn m.bc.blocks) b m.bc.mainTailBlock → height b ≤ height m.bc.lib →
      Ancestor (parentIn m'.bc.blocks) b m'.bc.mainTailBlock ∧
      m'.bc.heightIndex (height b) = some (hash b) := by
  obtain ⟨hok, -⟩ := (ManagerOk.start hg size).run hm
  obtain ⟨hok', hadv⟩ := hok.run hm'
  refine ⟨⟨hok.chain.lib, hok.chain.index _ hok.chain.lib⟩, hadv.lib, hadv.height_le, ?_⟩
  intro b hb hle
  -- below the LIB the canonical chain is the chain of the LIB's ancestors
  have hblib := hok.chain.store.ranked.ancestor_of_rank_le hok.chain.tail hb hok.chain.lib hle
  have hb' := ((hadv.ancestor hblib).trans hadv.lib).trans hok'.chain.lib
  exact ⟨hb', hok'.chain.index b hb'⟩

/-- A manager that has put one block on a genesis block and made `n` steps. -/
def BareBlock.oneBlock (n : ℕ) : ChainManager BareBlock :=
  (ChainManager.next ⟨3, by decide⟩)^[n]
    { ChainManager.start (⟨[0], [], 1, 0⟩ : BareBlock) 8 with
      bc := (BlockChain.setup ⟨[0], [], 1, 0⟩ 8).putVerifiedNewBlock ⟨[0], [], 1, 0⟩
        ⟨[1], [0], 2, 3⟩ }

/-- The first block put on a genesis block. -/
lemma BareBlock.joins_genesis :
    Joins (⟨[0], [], 1, 0⟩ : BareBlock) (BlockChain.setup ⟨[0], [], 1, 0⟩ 8).blocks
      ⟨[0], [], 1, 0⟩ ⟨[1], [0], 2, 3⟩ :=
  ⟨by unfold Stored; decide, rfl, rfl, by simp [BlockChain.setup], by simp⟩

lemma BareBlock.run_oneBlock (n : ℕ) :
    Relation.ReflTransGen (ChainStep ⟨3, by decide⟩ ⟨[0], [], 1, 0⟩)
      (ChainManager.start (⟨[0], [], 1, 0⟩ : BareBlock) 8) (oneBlock n) := by
  induction n with
  | zero => exact .single (.put _ _ _ BareBlock.joins_genesis)
  | succ n ih =>
      rw [oneBlock, Function.iterate_succ_apply']
      exact ih.tail (.manage _)

/-- Five steps after a block was put on the genesis block it is the main tail, and the LIB is
still its ancestor. -/
theorem lib_below_new_tail :
    (BareBlock.oneBlock 5).bc.mainTailBlock = ⟨[1], [0], 2, 3⟩ ∧
    (BareBlock.oneBlock 5).pc = .idle ∧
    Ancestor (parentIn (BareBlock.oneBlock 5).bc.blocks) (BareBlock.oneBlock 5).bc.lib
      (BareBlock.oneBlock 5).bc.mainTailBlock :=
  ⟨by decide, by decide, (lib_is_irreversible ⟨3, by decide⟩ ⟨by decide, by decide⟩ 8
    (BareBlock.run_oneBlock 5) .refl).1.1⟩

end GoMedibloc
