import GoMedibloc.Chain.ChainManager
import GoMedibloc.Framework.Fallible

/-!
# The height index and its recovery

The height index and the keys of the tail and of the LIB are single entries of the storage.
`SetTailBlock` writes the index entries of the new branch one by one, from the new tail down to
the canonical chain, and then the tail's key; `SetLIB` writes the LIB's key.  No transaction
holds these writes together.  A process that stops in between leaves entries of the new branch
beside the old tail.

`Setup` loads the tail and the LIB, and indexes the blocks from the stored tail down to the stored
LIB again.  That is enough (`Disk.setup_ok`): the writes of `SetTailBlock` lie above the fork
point, which is not below the LIB, so that the index up to the LIB is right at any moment, and
entries above the stored tail are not read.  Hence the index lists the canonical chain in every
state of every run, with any number of stops and restarts in it (`index_is_canonical`).
-/

namespace GoMedibloc

open Forest Except

variable {B : Type} [HashableBlock B]

/-! ## The storage -/

/-- What the chain keeps in the storage: the blocks, the height index, and the hashes under
`tailBlockKey` and `libKey`. -/
structure Disk (B : Type) where
  blocks : Hash → Option B
  heightIndex : ℕ → Option Hash
  tail : Option Hash
  lib : Option Hash

/-- A single write to the storage: `storeBlock`, `storeHeightToStorage`, `storeTailHashToStorage`
or `storeLIBHashToStorage`. -/
inductive DiskWrite (B : Type)
  | block (b : B)
  | height (b : B)
  | tail (b : B)
  | lib (b : B)
deriving DecidableEq

namespace Disk

/-- One write. -/
def write (disk : Disk B) : DiskWrite B → Disk B
  | .block b => { disk with blocks := Function.update disk.blocks (hash b) (some b) }
  | .height b =>
    { disk with heightIndex := Function.update disk.heightIndex (height b) (some (hash b)) }
  | .tail b => { disk with tail := some (hash b) }
  | .lib b => { disk with lib := some (hash b) }

/-- One write after the other. -/
def writeAll (disk : Disk B) (writes : List (DiskWrite B)) : Disk B := writes.foldl write disk

/-- `loadBlockByHeight`. -/
def loadBlockByHeight (disk : Disk B) (n : ℕ) : Option B :=
  (disk.heightIndex n).bind disk.blocks

/-- `initGenesisToStorage`. -/
def initGenesisToStorage (disk : Disk B) (genesis : B) : Disk B :=
  disk.writeAll [.block genesis, .tail genesis, .height genesis, .lib genesis]

/-- The beginning of `Setup`: an empty storage is given the genesis block. -/
def withGenesis (disk : Disk B) (genesis : B) : Disk B :=
  match disk.loadBlockByHeight 1 with
  | some _ => disk
  | none => disk.initGenesisToStorage genesis

/-- The rest of `Setup`: the tail and the LIB are loaded, and the blocks between them indexed. -/
def load (disk : Disk B) (tailCacheSize : ℕ) : Except ChainErr (BlockChain B) := do
  let mainTailBlock ← ofOption .blockNotExist (disk.tail.bind disk.blocks)
  let lib ← ofOption .blockNotExist (disk.lib.bind disk.blocks)
  let bc : BlockChain B := ⟨disk.blocks, disk.heightIndex, mainTailBlock, lib,
    (Lru.new tailCacheSize).add (hash mainTailBlock) mainTailBlock⟩
  if height mainTailBlock = 1 then return bc
  match BlockChain.buildIndexByBlockHeight lib (height mainTailBlock) mainTailBlock bc with
  | (.ok _, bc) => return bc
  | (.error e, _) => .error e

/-- `Setup`, for a genesis block that is the configured one. -/
def setup (genesis : B) (tailCacheSize : ℕ) (disk : Disk B) : Except ChainErr (BlockChain B) :=
  (disk.withGenesis genesis).load tailCacheSize

/-- What a storage must hold for `Setup` to find the canonical chain in it: a tree of blocks, a
tail, a LIB among its ancestors, and the index up to the LIB. -/
structure Recoverable (g : B) (disk : Disk B) (tail lib : B) : Prop where
  store : StoreOk g disk.blocks
  tail_key : disk.tail = some (hash tail)
  tail_stored : Stored disk.blocks tail
  lib_key : disk.lib = some (hash lib)
  lib_ancestor : Ancestor (parentIn disk.blocks) lib tail
  index : ∀ b, Ancestor (parentIn disk.blocks) b lib →
    disk.heightIndex (height b) = some (hash b)

/-- **`Setup` finds the canonical chain** of the stored tail. -/
lemma setup_ok {g : B} {disk : Disk B} {tail lib : B} (h : disk.Recoverable g tail lib)
    (size : ℕ) :
    ∃ bc, disk.setup g size = .ok bc ∧ ChainOk g bc ∧ TailsOk bc ∧ bc.mainTailBlock = tail := by
  have hlib := h.store.stored_of_ancestor h.tail_stored h.lib_ancestor
  have hgenesis : disk.loadBlockByHeight 1 = some g := by
    rw [loadBlockByHeight, ← h.store.genesis_height, h.index g (h.store.genesis_ancestor hlib)]
    exact h.store.genesis
  have htail : ofOption ChainErr.blockNotExist (disk.tail.bind disk.blocks) = .ok tail := by
    rw [ofOption_eq_ok, h.tail_key]
    exact h.tail_stored
  have hlib' : ofOption ChainErr.blockNotExist (disk.lib.bind disk.blocks) = .ok lib := by
    rw [ofOption_eq_ok, h.lib_key]
    exact hlib
  have htails : ∀ k b, ((Lru.new size).add (hash tail) tail).Holds k b →
      k = hash b ∧ Stored disk.blocks b := by
    intro k b hb
    rcases Lru.holds_of_add hb with ⟨rfl, rfl⟩ | hb
    · exact ⟨rfl, h.tail_stored⟩
    · exact absurd hb (Lru.not_holds_new _)
  have hdisk : disk.withGenesis g = disk := by rw [withGenesis, hgenesis]
  rw [setup, hdisk, load, bind_of_ok htail, bind_of_ok hlib']
  split_ifs with hone
  · -- the tail is the genesis block, and so is the LIB
    have hg : lib = tail := by
      refine h.store.ranked.eq_of_rank_le h.tail_stored h.lib_ancestor ?_
      rw [hone]
      exact h.store.one_le_height hlib
    exact ⟨_, rfl, ⟨h.store, h.tail_stored, fun b hb => h.index b (hg ▸ hb), h.lib_ancestor⟩, htails,
      rfl⟩
  · have hstore : StoreOk g (BlockChain.blocks ⟨disk.blocks, disk.heightIndex, tail, lib,
      (Lru.new size).add (hash tail) tail⟩) := h.store
    obtain ⟨l, bc, hbuild, honly, hout, hin⟩ :=
      buildIndex_spec hstore h.tail_stored h.lib_ancestor le_rfl
    simp only [hbuild]
    refine ⟨bc, rfl, ⟨?_, ?_, ?_, ?_⟩, ?_, honly.mainTailBlock⟩
    · exact honly.blocks ▸ h.store
    · rw [honly.blocks, honly.mainTailBlock]
      exact h.tail_stored
    · intro b hb
      rw [honly.blocks, honly.mainTailBlock] at hb
      rcases Nat.lt_or_ge (height lib) (height b) with hlt | hge
      · exact hin b hb hlt
      · rw [hout _ (.inl hge)]
        exact h.index b (h.store.ranked.ancestor_of_rank_le h.tail_stored hb h.lib_ancestor hge)
    · rw [honly.blocks, honly.lib, honly.mainTailBlock]
      exact h.lib_ancestor
    · intro k b hb
      rw [honly.tailBlocks] at hb
      rw [honly.blocks]
      exact htails k b hb

lemma blocks_writeHeights (disk : Disk B) (l : List B) :
    (disk.writeAll (l.map .height)).blocks = disk.blocks := by
  induction l generalizing disk with
  | nil => rfl
  | cons c l ih => exact ih _

/-- Index entries above the LIB do not matter. -/
lemma Recoverable.writeHeights {g : B} {disk : Disk B} {tail lib : B}
    (h : disk.Recoverable g tail lib) {l : List B} (hl : ∀ c ∈ l, height lib < height c) :
    (disk.writeAll (l.map .height)).Recoverable g tail lib := by
  induction l generalizing disk with
  | nil => exact h
  | cons c l ih =>
      refine ih ⟨h.store, h.tail_key, h.tail_stored, h.lib_key, h.lib_ancestor,
        fun b hb => ?_⟩
        fun x hx => hl x (List.mem_cons_of_mem _ hx)
      have hlt := hl c List.mem_cons_self
      have hle := h.store.ranked.rank_le (h.store.stored_of_ancestor h.tail_stored h.lib_ancestor) hb
      refine (Function.update_of_ne ?_ _ _).trans (h.index b hb)
      omega

end Disk

/-! ## The writes of the chain manager -/

/-- The storage of a chain between two operations. -/
def BlockChain.disk (bc : BlockChain B) : Disk B :=
  ⟨bc.blocks, bc.heightIndex, some (hash bc.mainTailBlock), some (hash bc.lib)⟩

/-- The storage of a chain in order is recoverable. -/
lemma ChainOk.recoverable {g : B} {bc : BlockChain B} (hc : ChainOk g bc) :
    bc.disk.Recoverable g bc.mainTailBlock bc.lib :=
  ⟨hc.store, rfl, hc.tail, rfl, hc.lib, fun b hb => hc.index b (hb.trans hc.lib)⟩

/-- The blocks that `buildIndexByBlockHeight` returns are those it has indexed, in this order. -/
lemma buildIndex_writes {g : B} {bc : BlockChain B} (hs : StoreOk g bc.blocks) {a b : B}
    (hb : Stored bc.blocks b) (hab : Ancestor (parentIn bc.blocks) a b) {fuel : ℕ}
    (hfuel : height b ≤ fuel) :
    ∃ l, BlockChain.buildIndexByBlockHeight a fuel b bc =
        (.ok l, l.foldl (fun bc c => bc.storeHeight c) bc) ∧ ∀ c ∈ l, height a < height c := by
  induction fuel generalizing b bc with
  | zero =>
      have := hs.one_le_height hb
      omega
  | succ fuel ih =>
      rw [BlockChain.buildIndexByBlockHeight]
      by_cases heq : hash b = hash a
      · rw [if_pos heq]
        exact ⟨[], rfl, by simp⟩
      · obtain ⟨p, hp, hap⟩ := hab.parent fun h => heq (by rw [h])
        obtain ⟨hpst, hheight⟩ := hs.ranked b hb p hp
        have hale := hs.ranked.rank_le hpst hap
        have hs' : StoreOk g (bc.storeHeight b).blocks := hs
        obtain ⟨l, hl, hmem⟩ := ih hs' hpst hap (by omega)
        have hpar : (bc.storeHeight b).parentBlock b = .ok p := ChainOk.parentBlock_eq hp
        refine ⟨b :: l, ?_, ?_⟩
        · rw [if_neg heq, Prog.update_bind, Prog.read_bind, hpar]
          dsimp only
          rw [Prog.bind_of_ok hl]
          rfl
        · intro c hc
          rcases List.mem_cons.1 hc with rfl | hc
          · omega
          · exact hmem c hc

/-- The blocks that `SetTailBlock` indexes lie above the LIB. -/
lemma ChainOk.setTailBlock_writes {g : B} {bc : BlockChain B} (hc : ChainOk g bc) {newTail : B}
    (hst : Stored bc.blocks newTail) (hlib : Ancestor (parentIn bc.blocks) bc.lib newTail) :
    ∃ revertBlocks newBlocks, BlockChain.setTailBlock newTail bc =
        (.ok (revertBlocks, newBlocks),
          { newBlocks.foldl (fun bc c => bc.storeHeight c) bc with mainTailBlock := newTail }) ∧
      ∀ c ∈ newBlocks, height bc.lib < height c := by
  rcases hc.findAncestor_spec true hst with ⟨a, ha, hanew, hatail, hal⟩ | ⟨-, hnl, -⟩
  swap
  · exact absurd hlib hnl
  obtain ⟨rev, hrev⟩ := hc.loadBetweenBlocks_spec hc.tail hatail le_rfl
  obtain ⟨new, hbuild, hmem⟩ := buildIndex_writes hc.store hst hanew le_rfl
  refine ⟨rev, new, ?_, fun c hc' => ?_⟩
  · rw [BlockChain.setTailBlock, Prog.read_bind, ha]
    dsimp only
    rw [hrev]
    dsimp only
    rw [Prog.bind_of_ok hbuild]
    rfl
  · exact (hc.store.ranked.rank_le (hc.store.stored_of_ancestor hst hanew) (hal rfl)).trans_lt
      (hmem c hc')

/-- The writes to the storage in the next step of the manager, one by one. -/
def ChainManager.writes (m : ChainManager B) : List (DiskWrite B) :=
  match m.pc with
  | .setting newTail =>
    match BlockChain.setTailBlock newTail m.bc with
    | (.ok (_, newBlocks), _) => newBlocks.map .height ++ [.tail newTail]
    | (.error _, _) => []
  | .fixing newLIB => if m.bc.KeepsLIB newLIB then [] else [.lib newLIB]
  | _ => []

lemma BlockChain.disk_storeHeights (bc : BlockChain B) (l : List B) :
    (l.foldl (fun bc c => bc.storeHeight c) bc).disk = bc.disk.writeAll (l.map .height) := by
  induction l generalizing bc with
  | nil => rfl
  | cons c l ih => exact ih _

/-- The writes of a step lead to the storage of the next state. -/
lemma ManagerOk.disk_next {g : B} {m : ChainManager B} (h : ManagerOk g m) (d : Dpos) :
    (m.next d).bc.disk = m.bc.disk.writeAll m.writes := by
  have hp := h.pc
  unfold PcOk at hp
  unfold ChainManager.next ChainManager.writes
  cases hpc : m.pc with
  | setting newTail =>
      simp only [hpc] at hp
      obtain ⟨rev, new, hset, -⟩ := h.chain.setTailBlock_writes hp.2.2.1 hp.2.2.2.1
      simp only [hset]
      rw [Disk.writeAll, List.foldl_append]
      change _ = Disk.write (m.bc.disk.writeAll (new.map .height)) (.tail newTail)
      rw [← BlockChain.disk_storeHeights]
      rfl
  | fixing newLIB =>
      dsimp only
      split_ifs <;> rfl
  | idle => rfl
  | finding =>
      dsimp only
      split_ifs <;> rfl
  | choosing tails keys =>
      cases keys with
      | cons k keys => rfl
      | nil =>
          dsimp only
          split_ifs <;> rfl
  | pruning tails keys => cases keys <;> rfl
  | cutting tails =>
      cases tails with
      | nil => rfl
      | cons t tails =>
          dsimp only
          rcases m.bc.cutTail_cases t with heq | ⟨-, heq⟩
          · rw [heq]
            rfl
          · rw [heq]
            rfl

/-- However many of the writes of a step have been made, the storage is recoverable. -/
lemma ManagerOk.recoverable_prefix {g : B} {m : ChainManager B} (h : ManagerOk g m)
    {written : List (DiskWrite B)} (hwritten : written <+: m.writes) :
    ∃ tail lib, (m.bc.disk.writeAll written).Recoverable g tail lib := by
  have hp := h.pc
  unfold PcOk at hp
  have hrest : written = [] → ∃ tail lib, (m.bc.disk.writeAll written).Recoverable g tail lib := by
    rintro rfl
    exact ⟨_, _, h.chain.recoverable⟩
  unfold ChainManager.writes at hwritten
  cases hpc : m.pc with
  | setting newTail =>
      simp only [hpc] at hp hwritten
      obtain ⟨rev, new, hset, hmem⟩ := h.chain.setTailBlock_writes hp.2.2.1 hp.2.2.2.1
      simp only [hset] at hwritten
      rcases List.prefix_concat_iff.1 hwritten with rfl | hwritten
      · -- all of the index and the new tail
        have hall := h.chain.recoverable.writeHeights hmem
        have hblocks := m.bc.disk.blocks_writeHeights new
        rw [Disk.writeAll, List.foldl_append]
        refine ⟨newTail, m.bc.lib, hall.store, rfl, ?_, hall.lib_key, ?_, hall.index⟩
        · exact hblocks ▸ hp.2.2.1
        · exact hblocks ▸ hp.2.2.2.1
      · -- a part of the index, and the old tail
        obtain ⟨l, hl, rfl⟩ := List.prefix_map_iff.1 hwritten
        exact ⟨_, _, h.chain.recoverable.writeHeights fun c hc => hmem c (hl.subset hc)⟩
  | fixing newLIB =>
      simp only [hpc] at hp hwritten
      split_ifs at hwritten with hkeep
      · exact hrest (List.prefix_nil.1 hwritten)
      · have hcases : written = [] ++ [.lib newLIB] ∨ written <+: [] :=
          List.prefix_concat_iff.1 hwritten
        rcases hcases with rfl | hwritten
        · exact ⟨m.bc.mainTailBlock, newLIB, h.chain.store, rfl, h.chain.tail, rfl, hp.2.2.1,
            fun b hb => h.chain.index b (hb.trans hp.2.2.1)⟩
        · exact hrest (List.prefix_nil.1 hwritten)
  | idle | finding =>
      simp only [hpc] at hwritten
      exact hrest (List.prefix_nil.1 hwritten)
  | choosing tails keys | pruning tails keys =>
      simp only [hpc] at hwritten
      exact hrest (List.prefix_nil.1 hwritten)
  | cutting tails =>
      simp only [hpc] at hwritten
      exact hrest (List.prefix_nil.1 hwritten)

/-! ## Runs with stops -/

/-- What `BlockByHeight` must answer: at each height from the genesis block to the main tail,
the block of that height on the chain of the main tail. -/
def BlockChain.IndexIsCanonical (bc : BlockChain B) : Prop :=
  ∀ n, 1 ≤ n → n ≤ height bc.mainTailBlock →
    ∃ b, bc.blockByHeight n = .ok b ∧ height b = n ∧
      Ancestor (parentIn bc.blocks) b bc.mainTailBlock

lemma ChainOk.indexIsCanonical {g : B} {bc : BlockChain B} (hc : ChainOk g bc) :
    bc.IndexIsCanonical := by
  intro n hone hle
  obtain ⟨b, -, hb, hn⟩ := hc.store.ranked.exists_ancestor hc.tail
    (hc.store.genesis_ancestor hc.tail) (hc.store.genesis_height.le.trans hone) hle
  exact ⟨b, hn ▸ hc.blockByHeight_eq hb, hn, hb⟩

/-- A step of a run with stops: a step of the running process, or a stop after some of the writes
of the manager's next step and a new start on the storage as it is then. -/
inductive StopStep (d : Dpos) (g : B) (size : ℕ) : ChainManager B → ChainManager B → Prop
  | running {m m' : ChainManager B} (hstep : ChainStep d g m m') : StopStep d g size m m'
  | restart {m : ChainManager B} {written : List (DiskWrite B)} (hwritten : written <+: m.writes)
      {bc : BlockChain B} (hsetup : (m.bc.disk.writeAll written).setup g size = .ok bc) :
      StopStep d g size m ⟨bc, bc.mainTailBlock, bc.lib, .idle⟩

/-- Stops and restarts keep what holds in every state. -/
lemma ManagerOk.runWithStops {d : Dpos} {g : B} {size : ℕ} {m m' : ChainManager B}
    (h : ManagerOk g m) (hrun : Relation.ReflTransGen (StopStep d g size) m m') :
    ManagerOk g m' := by
  induction hrun with
  | refl => exact h
  | tail _ hstep ih =>
      cases hstep with
      | running hstep => exact (ih.step hstep).1
      | restart hwritten hsetup =>
          obtain ⟨tail, lib, hrec⟩ := ih.recoverable_prefix hwritten
          obtain ⟨bc, hbc, hchain, htails, -⟩ := Disk.setup_ok hrec size
          obtain rfl := Except.ok.inj (hbc.symm.trans hsetup)
          exact ⟨hchain, htails, rfl, rfl⟩

/-- **The height index is the canonical chain, also after a stop.**  In every state of every
run, with any stops and restarts in it, `BlockByHeight` lists the chain of the main tail.  The
next step makes its writes to the storage one by one; if the process stops after any of them,
`Setup` succeeds on what is in the storage, its main tail is the stored tail, and `BlockByHeight`
lists the chain of that tail. -/
theorem index_is_canonical (d : Dpos) {g : B} (hg : IsGenesis g) (size : ℕ) {m : ChainManager B}
    (hm : Relation.ReflTransGen (StopStep d g size) (ChainManager.start g size) m) :
    m.bc.IndexIsCanonical ∧
    (m.next d).bc.disk = m.bc.disk.writeAll m.writes ∧
    ∀ written, written <+: m.writes →
      ∃ bc, (m.bc.disk.writeAll written).setup g size = .ok bc ∧
        (m.bc.disk.writeAll written).tail = some (hash bc.mainTailBlock) ∧
        bc.IndexIsCanonical := by
  have hok := (ManagerOk.start hg size).runWithStops hm
  refine ⟨hok.chain.indexIsCanonical, hok.disk_next d, fun written hwritten => ?_⟩
  obtain ⟨tail, lib, hrec⟩ := hok.recoverable_prefix hwritten
  obtain ⟨bc, hbc, hchain, -, htail⟩ := Disk.setup_ok hrec size
  exact ⟨bc, hbc, htail ▸ hrec.tail_key, hchain.indexIsCanonical⟩

/-- The process stops when `SetTailBlock` has indexed its new tail and not yet stored it as the
tail: `Setup` comes back with the genesis block as the main tail. -/
theorem stopped_before_the_tail_key :
    ∃ bc, ((BareBlock.oneBlock 3).bc.disk.writeAll [.height ⟨[1], [0], 2, 3⟩]).setup
        ⟨[0], [], 1, 0⟩ 8 = .ok bc ∧
      hash bc.mainTailBlock = [0] ∧ bc.IndexIsCanonical := by
  have hrun : Relation.ReflTransGen (StopStep ⟨3, by decide⟩ ⟨[0], [], 1, 0⟩ 8)
      (ChainManager.start (⟨[0], [], 1, 0⟩ : BareBlock) 8) (BareBlock.oneBlock 3) :=
    Relation.ReflTransGen.mono (fun _ _ hstep => .running hstep) _ _ (BareBlock.run_oneBlock 3)
  obtain ⟨-, -, hstop⟩ := index_is_canonical ⟨3, by decide⟩ ⟨by decide, by decide⟩ 8 hrun
  obtain ⟨bc, hbc, htail, hindex⟩ := hstop [.height ⟨[1], [0], 2, 3⟩]
    ⟨[.tail ⟨[1], [0], 2, 3⟩], by decide⟩
  have hgenesis : ((BareBlock.oneBlock 3).bc.disk.writeAll
    [.height ⟨[1], [0], 2, 3⟩]).tail = some [0] := by decide
  exact ⟨bc, hbc, Option.some.inj (htail.symm.trans hgenesis), hindex⟩

end GoMedibloc
