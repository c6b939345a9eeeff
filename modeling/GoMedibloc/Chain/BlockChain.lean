import GoMedibloc.Framework.Forest
import GoMedibloc.Framework.Lru
import GoMedibloc.Framework.Program
import GoMedibloc.Trie.Node

/-!
# The chain of stored blocks

`BlockChain` keeps every accepted block in storage under its hash, an index from heights to
the hashes of the canonical chain, the tails of all branches in a least-recently-used cache,
and two distinguished blocks: the main tail, which ends the canonical chain, and the latest
irreversible block (LIB).

The operations below are those of the source.  Their loops walk from a block to its parent;
the fuel they are given is the height of the block they start from, which is never used up in
a store that satisfies `StoreOk`.  The block cache in front of the storage is left out: a
block is put into both at once.  `removeBlock` deletes the storage entry under the bare hash
and not the one under the `bhash_` key, so no block ever leaves the store.

`StoreOk` says that the stored blocks form a tree that grows from the genesis block, and
`ChainOk` that the height index lists the ancestors of the main tail and that the LIB is one
of them.  Under `ChainOk` the walk of `findAncestorOnCanonical` always ends, and a block
counts as forked before the LIB exactly when the LIB is not among its ancestors.
-/

namespace GoMedibloc

open Forest

/-- What the chain reads of a block. -/
class HashableBlock (B : Type) where
  hash : B → Hash
  parentHash : B → Hash
  height : B → ℕ
  timestamp : B → ℤ

export HashableBlock (hash parentHash height timestamp)

/-- The errors of the chain operations. -/
inductive ChainErr
  | missingParentBlock
  | blockNotExist
  | cannotRemoveBlockOnCanonical
deriving DecidableEq, Repr

/-- `BlockChain`: the storage, the two distinguished blocks and the tails. -/
structure BlockChain (B : Type) where
  blocks : Hash → Option B
  heightIndex : ℕ → Option Hash
  mainTailBlock : B
  lib : B
  tailBlocks : Lru Hash B

variable {B : Type} [HashableBlock B]

namespace BlockChain

/-! ## Operations -/

/-- `BlockByHash`. -/
def blockByHash (bc : BlockChain B) (h : Hash) : Option B := bc.blocks h

/-- `BlockByHeight`: only heights of the canonical chain are answered. -/
def blockByHeight (bc : BlockChain B) (n : ℕ) : Except ChainErr B :=
  if height bc.mainTailBlock < n then .error .blockNotExist
  else match bc.heightIndex n with
    | none => .error .blockNotExist
    | some h =>
      match bc.blockByHash h with
      | none => .error .blockNotExist
      | some b => .ok b

/-- `parentBlock`. -/
def parentBlock (bc : BlockChain B) (b : B) : Except ChainErr B :=
  match bc.blockByHash (parentHash b) with
  | none => .error .missingParentBlock
  | some p => .ok p

/-- The first loop of `FindAncestorOnCanonical`: go up until the height is at most `n`. -/
def lowerTo (bc : BlockChain B) (n : ℕ) : ℕ → B → Except ChainErr B
  | fuel, b =>
    if n < height b then
      match fuel with
      | 0 => .error .missingParentBlock
      | fuel + 1 => bc.parentBlock b >>= bc.lowerTo n fuel
    else .ok b

/-- The second loop of `FindAncestorOnCanonical`: go up until the index holds the block. -/
def canonicalAncestor (bc : BlockChain B) (breakAtLIB : Bool) : ℕ → B → Except ChainErr B
  | 0, _ => .error .missingParentBlock
  | fuel + 1, b =>
    if breakAtLIB = true ∧ height b < height bc.lib then .error .missingParentBlock
    else match bc.blockByHeight (height b) with
      | .error _ => .error .missingParentBlock
      | .ok canonical =>
        if hash canonical = hash b then .ok b
        else bc.parentBlock b >>= bc.canonicalAncestor breakAtLIB fuel

/-- `FindAncestorOnCanonical`. -/
def findAncestorOnCanonical (bc : BlockChain B) (b : B) (breakAtLIB : Bool) :
    Except ChainErr B := do
  let b ← bc.lowerTo (height bc.mainTailBlock) (height b) b
  bc.canonicalAncestor breakAtLIB (height b + 1) b

/-- `IsForkedBeforeLIB`. -/
def isForkedBeforeLIB (bc : BlockChain B) (b : B) : Bool :=
  match bc.findAncestorOnCanonical b true with
  | .error _ => true
  | .ok _ => false

/-- `loadBetweenBlocks`: the blocks after `from_` up to `to_`, the highest first. -/
def loadBetweenBlocks (bc : BlockChain B) (from_ : B) : ℕ → B → Except ChainErr (List B)
  | fuel, to_ =>
    if hash from_ = hash to_ then .ok []
    else match fuel with
      | 0 => .error .missingParentBlock
      | fuel + 1 => do
        let p ← bc.parentBlock to_
        let rest ← bc.loadBetweenBlocks from_ fuel p
        return to_ :: rest

/-- `storeHeightToStorage`. -/
def storeHeight (b : B) (bc : BlockChain B) : BlockChain B :=
  { bc with heightIndex := Function.update bc.heightIndex (height b) (some (hash b)) }

/-- `buildIndexByBlockHeight`: index the blocks after `from_` up to `to_`.  Index entries
written before an error stay written. -/
def buildIndexByBlockHeight (from_ : B) : ℕ → B → Prog (BlockChain B) ChainErr (List B)
  | fuel, to_ =>
    if hash to_ = hash from_ then pure []
    else match fuel with
      | 0 => Prog.fail .missingParentBlock
      | fuel + 1 => do
        Prog.update (storeHeight to_)
        let bc ← Prog.read
        match bc.parentBlock to_ with
        | .error e => Prog.fail e
        | .ok p => do
          let rest ← buildIndexByBlockHeight from_ fuel p
          pure (to_ :: rest)

/-- `SetTailBlock`: the blocks that leave the canonical chain and those that enter it. -/
def setTailBlock (newTail : B) : Prog (BlockChain B) ChainErr (List B × List B) := do
  let bc ← Prog.read
  match bc.findAncestorOnCanonical newTail true with
  | .error e => Prog.fail e
  | .ok ancestor =>
    match bc.loadBetweenBlocks ancestor (height bc.mainTailBlock) bc.mainTailBlock with
    | .error e => Prog.fail e
    | .ok revertBlocks => do
      let newBlocks ← buildIndexByBlockHeight ancestor (height newTail) newTail
      Prog.update fun bc => { bc with mainTailBlock := newTail }
      pure (revertBlocks, newBlocks)

/-- `storeBlock`. -/
def storeBlock (b : B) (bc : BlockChain B) : BlockChain B :=
  { bc with blocks := Function.update bc.blocks (hash b) (some b) }

/-- `addToTailBlocks`. -/
def addToTailBlocks (b : B) (bc : BlockChain B) : BlockChain B :=
  { bc with tailBlocks := bc.tailBlocks.add (hash b) b }

/-- `removeFromTailBlocks`. -/
def removeFromTailBlocks (b : B) (bc : BlockChain B) : BlockChain B :=
  { bc with tailBlocks := bc.tailBlocks.remove (hash b) }

/-- The choice of `ForkChoice` among the tails it has listed: the first of the highest ones
that are not forked before the LIB, unless none is higher than the main tail. -/
def forkChoice (bc : BlockChain B) (tails : List B) : B :=
  tails.foldl (fun newTail tail =>
    if bc.isForkedBeforeLIB tail then newTail
    else if height newTail < height tail then tail else newTail) bc.mainTailBlock

/-- `removeBlock`: a block of the canonical chain is refused.  The deletion goes to the
storage key `hash b`, under which no block is stored. -/
def removeBlock (bc : BlockChain B) (b : B) : Except ChainErr Unit :=
  match bc.blockByHeight (height b) with
  | .error _ => .error .cannotRemoveBlockOnCanonical
  | .ok canonical =>
    if hash canonical = hash b then .error .cannotRemoveBlockOnCanonical else .ok ()

/-- The loop of `removeForkedBranch` from a block down to its ancestor on the canonical
chain. -/
def removeBranch (bc : BlockChain B) (ancestor : B) : ℕ → B → Except ChainErr Unit
  | fuel, b =>
    if hash ancestor = hash b then .ok ()
    else match fuel with
      | 0 => .error .missingParentBlock
      | fuel + 1 => do
        bc.removeBlock b
        let p ← bc.parentBlock b
        bc.removeBranch ancestor fuel p

/-- `removeForkedBranch`: the tail is dropped when its whole branch could be removed.  The
caller only logs an error. -/
def removeForkedBranch (tail : B) (bc : BlockChain B) : BlockChain B :=
  match bc.findAncestorOnCanonical tail false with
  | .error _ => bc
  | .ok ancestor =>
    match bc.removeBranch ancestor (height tail) tail with
    | .error _ => bc
    | .ok () => bc.removeFromTailBlocks tail

/-- One round of the loop at the end of `SetLIB`. -/
def cutTail (tail : B) (bc : BlockChain B) : BlockChain B :=
  if bc.isForkedBeforeLIB tail then bc.removeForkedBranch tail else bc

/-- `SetLIB` changes nothing for a lower block or for the LIB itself. -/
def KeepsLIB (bc : BlockChain B) (newLIB : B) : Prop :=
  height newLIB < height bc.lib ∨ hash bc.lib = hash newLIB

instance (bc : BlockChain B) (newLIB : B) : Decidable (bc.KeepsLIB newLIB) := by
  unfold KeepsLIB; infer_instance

/-- The chain that `Setup` creates around a new genesis block. -/
def setup (genesis : B) (tailCacheSize : ℕ) : BlockChain B where
  blocks := Function.update (fun _ => none) (hash genesis) (some genesis)
  heightIndex := Function.update (fun _ => none) (height genesis) (some (hash genesis))
  mainTailBlock := genesis
  lib := genesis
  tailBlocks := (Lru.new tailCacheSize).add (hash genesis) genesis

end BlockChain

/-- A block reduced to what the chain reads of it. -/
structure BareBlock where
  hash : Hash
  parentHash : Hash
  height : ℕ
  timestamp : ℤ
deriving DecidableEq, Repr

instance : HashableBlock BareBlock where
  hash := BareBlock.hash
  parentHash := BareBlock.parentHash
  height := BareBlock.height
  timestamp := BareBlock.timestamp

@[simp] lemma BareBlock.hash_def (b : BareBlock) : GoMedibloc.hash b = b.hash := rfl
@[simp] lemma BareBlock.parentHash_def (b : BareBlock) :
    GoMedibloc.parentHash b = b.parentHash := rfl
@[simp] lemma BareBlock.height_def (b : BareBlock) : GoMedibloc.height b = b.height := rfl
@[simp] lemma BareBlock.timestamp_def (b : BareBlock) :
    GoMedibloc.timestamp b = b.timestamp := rfl

/-! ## The tree of stored blocks -/

/-- The parent of a block in a store. -/
def parentIn (blocks : Hash → Option B) (b : B) : Option B := blocks (parentHash b)

/-- The block is in the store. -/
def Stored (blocks : Hash → Option B) (b : B) : Prop := blocks (hash b) = some b

/-- The stored blocks form a tree with the genesis block as its root. -/
structure StoreOk (g : B) (blocks : Hash → Option B) : Prop where
  keyed : ∀ h b, blocks h = some b → hash b = h
  genesis : Stored blocks g
  genesis_height : height g = 1
  root : blocks (parentHash g) = none
  linked : ∀ b, Stored blocks b → b ≠ g →
    ∃ p, parentIn blocks b = some p ∧ height b = height p + 1

namespace StoreOk

variable {g : B} {blocks : Hash → Option B} (hs : StoreOk g blocks)
include hs

lemma stored_of_eq {h : Hash} {b : B} (hb : blocks h = some b) : Stored blocks b := by
  rw [Stored, hs.keyed h b hb, hb]

lemma ranked : Ranked (parentIn blocks) height {b | Stored blocks b} := by
  intro b hb p hp
  have hne : b ≠ g := by
    rintro rfl
    rw [parentIn, hs.root] at hp
    cases hp
  obtain ⟨q, hq, hheight⟩ := hs.linked b hb hne
  obtain rfl : q = p := Option.some_inj.1 (hq.symm.trans hp)
  exact ⟨hs.stored_of_eq hp, hheight⟩

omit hs in
lemma eq_of_hash {a b : B} (ha : Stored blocks a) (hb : Stored blocks b)
    (h : hash a = hash b) : a = b := by
  rw [Stored, h] at ha
  exact Option.some_inj.1 (ha.symm.trans hb)

lemma stored_of_ancestor {a b : B} (hb : Stored blocks b)
    (h : Ancestor (parentIn blocks) a b) : Stored blocks a :=
  hs.ranked.mem_of_ancestor hb h

/-- The genesis block is an ancestor of every stored block. -/
lemma genesis_ancestor {b : B} (hb : Stored blocks b) : Ancestor (parentIn blocks) g b := by
  induction hn : height b using Nat.strong_induction_on generalizing b with
  | _ n ih =>
      by_cases hbg : b = g
      · rw [hbg]
      · obtain ⟨p, hp, hheight⟩ := hs.linked b hb hbg
        exact .of_parent hp (ih _ (by omega) (hs.ranked b hb p hp).1 rfl)

lemma one_le_height {b : B} (hb : Stored blocks b) : 1 ≤ height b := by
  have := hs.ranked.rank_le hb (hs.genesis_ancestor hb)
  rwa [hs.genesis_height] at this

/-- A stored block above the lowest height has a parent. -/
lemma exists_parent {b : B} (hb : Stored blocks b) (h : 1 < height b) :
    ∃ p, parentIn blocks b = some p ∧ Stored blocks p ∧ height b = height p + 1 := by
  have hne : b ≠ g := by
    rintro rfl
    have := hs.genesis_height
    omega
  obtain ⟨p, hp, hheight⟩ := hs.linked b hb hne
  exact ⟨p, hp, hs.stored_of_eq hp, hheight⟩

end StoreOk

lemma BlockChain.setup_blocks {g b : B} {size : ℕ} {h : Hash} :
    (BlockChain.setup g size).blocks h = some b ↔ h = hash g ∧ b = g := by
  by_cases heq : h = hash g
  · simp [BlockChain.setup, heq, eq_comm]
  · simp [BlockChain.setup, heq]

/-- A store that holds the genesis block alone. -/
lemma StoreOk.setup {g : B} (hone : height g = 1) (hroot : parentHash g ≠ hash g) {size : ℕ} :
    StoreOk g (BlockChain.setup g size).blocks where
  keyed h b hb := by
    obtain ⟨rfl, rfl⟩ := BlockChain.setup_blocks.1 hb
    rfl
  genesis := BlockChain.setup_blocks.2 ⟨rfl, rfl⟩
  genesis_height := hone
  root := by simp [BlockChain.setup, hroot]
  linked b hb hne := absurd (BlockChain.setup_blocks.1 hb).2 hne

/-- A block that may join the store: its parent is stored one height below, and no other
block has its hash. -/
structure Joins (g : B) (blocks : Hash → Option B) (parent child : B) : Prop where
  parent_stored : Stored blocks parent
  link : parentHash child = hash parent
  height_eq : height child = height parent + 1
  fresh : ∀ b, blocks (hash child) = some b → b = child
  not_root : hash child ≠ parentHash g

namespace Joins

variable {g : B} {blocks : Hash → Option B} {parent child : B}

lemma grows (hj : Joins g blocks parent child) {h : Hash} {b : B} (hb : blocks h = some b) :
    Function.update blocks (hash child) (some child) h = some b := by
  by_cases heq : h = hash child
  · subst heq
    rw [Function.update_self, hj.fresh b hb]
  · rw [Function.update_of_ne heq, hb]

lemma stored (hj : Joins g blocks parent child) {b : B} (hb : Stored blocks b) :
    Stored (Function.update blocks (hash child) (some child)) b := hj.grows hb

/-- After a block has joined, a stored block is that block or was stored before. -/
lemma stored_cases {b : B}
    (hb : Stored (Function.update blocks (hash child) (some child)) b) :
    b = child ∨ Stored blocks b := by
  by_cases heq : hash b = hash child
  · rw [Stored, heq, Function.update_self, Option.some_inj] at hb
    exact .inl hb.symm
  · rw [Stored, Function.update_of_ne heq] at hb
    exact .inr hb

lemma parentIn_child (hj : Joins g blocks parent child) :
    parentIn (Function.update blocks (hash child) (some child)) child = some parent := by
  rw [parentIn, hj.link]
  exact hj.grows hj.parent_stored

/-- The tree stays a tree when a block joins it. -/
lemma storeOk (hj : Joins g blocks parent child) (hs : StoreOk g blocks) :
    StoreOk g (Function.update blocks (hash child) (some child)) where
  keyed h b hb := by
    by_cases heq : h = hash child
    · subst heq
      rw [Function.update_self, Option.some_inj] at hb
      rw [hb]
    · rw [Function.update_of_ne heq] at hb
      exact hs.keyed h b hb
  genesis := hj.stored hs.genesis
  genesis_height := hs.genesis_height
  root := by rw [Function.update_of_ne hj.not_root.symm, hs.root]
  linked b hb hne := by
    rcases Joins.stored_cases hb with rfl | hb
    · exact ⟨parent, hj.parentIn_child, hj.height_eq⟩
    · obtain ⟨p, hp, hheight⟩ := hs.linked b hb hne
      exact ⟨p, hj.grows hp, hheight⟩

lemma ancestor (hj : Joins g blocks parent child) {a b : B}
    (h : Ancestor (parentIn blocks) a b) :
    Ancestor (parentIn (Function.update blocks (hash child) (some child))) a b :=
  h.mono fun _ _ => hj.grows

/-- The parent of a stored block was stored before, so a block that joins is not it. -/
lemma parentIn_of_stored (hj : Joins g blocks parent child) (hs : StoreOk g blocks) {b p : B}
    (hb : Stored blocks b)
    (hp : parentIn (Function.update blocks (hash child) (some child)) b = some p) :
    parentIn blocks b = some p := by
  have hne : b ≠ g := by
    rintro rfl
    rw [parentIn, Function.update_of_ne hj.not_root.symm, hs.root] at hp
    cases hp
  obtain ⟨q, hq, -⟩ := hs.linked b hb hne
  have hq' : parentIn (Function.update blocks (hash child) (some child)) b = some q :=
    hj.grows hq
  rw [hq, ← hq', hp]

/-- A stored block gets no new ancestors when another block joins. -/
lemma ancestor_iff (hj : Joins g blocks parent child) (hs : StoreOk g blocks) {a b : B}
    (hb : Stored blocks b) :
    Ancestor (parentIn (Function.update blocks (hash child) (some child))) a b ↔
      Ancestor (parentIn blocks) a b :=
  ⟨hs.ranked.ancestor_of_grown (fun _ hx _ hy => hj.parentIn_of_stored hs hx hy) hb,
    hj.ancestor⟩

end Joins

/-! ## The canonical chain -/

/-- The height index lists the ancestors of the main tail, and the LIB is one of them. -/
structure ChainOk (g : B) (bc : BlockChain B) : Prop where
  store : StoreOk g bc.blocks
  tail : Stored bc.blocks bc.mainTailBlock
  index : ∀ b, Ancestor (parentIn bc.blocks) b bc.mainTailBlock →
    bc.heightIndex (height b) = some (hash b)
  lib : Ancestor (parentIn bc.blocks) bc.lib bc.mainTailBlock

namespace ChainOk

open BlockChain

variable {g : B} {bc : BlockChain B} (hc : ChainOk g bc)
include hc

lemma lib_stored : Stored bc.blocks bc.lib :=
  hc.store.stored_of_ancestor hc.tail hc.lib

omit hc in
lemma parentBlock_eq {b p : B} (hp : parentIn bc.blocks b = some p) :
    bc.parentBlock b = .ok p := by
  rw [BlockChain.parentBlock, blockByHash, show bc.blocks (parentHash b) = some p from hp]

lemma blockByHeight_eq {b : B} (hb : Ancestor (parentIn bc.blocks) b bc.mainTailBlock) :
    bc.blockByHeight (height b) = .ok b := by
  have hle : ¬ height bc.mainTailBlock < height b :=
    not_lt.2 (hc.store.ranked.rank_le hc.tail hb)
  have hst : bc.blocks (hash b) = some b := hc.store.stored_of_ancestor hc.tail hb
  simp only [BlockChain.blockByHeight, hle, hc.index b hb, blockByHash, hst, if_false]

/-- Going up to a height of at least one always succeeds. -/
lemma lowerTo_spec {n : ℕ} (hn : 1 ≤ n) {fuel : ℕ} {b : B} (hb : Stored bc.blocks b)
    (hfuel : height b ≤ fuel) :
    ∃ a, bc.lowerTo n fuel b = .ok a ∧ Ancestor (parentIn bc.blocks) a b ∧
      height a ≤ n ∧ (height a = n ∨ a = b) := by
  induction fuel generalizing b with
  | zero =>
      have := hc.store.one_le_height hb
      omega
  | succ fuel ih =>
      rw [BlockChain.lowerTo]
      split_ifs with hlt
      · obtain ⟨p, hp, hpst, hheight⟩ := hc.store.exists_parent hb (by omega)
        obtain ⟨a, ha, hap, hle, hor⟩ := ih hpst (by omega)
        refine ⟨a, ?_, .of_parent hp hap, hle, ?_⟩
        · rw [ChainOk.parentBlock_eq hp]
          exact ha
        · rcases hor with hor | rfl
          · exact .inl hor
          · exact .inl (by omega)
      · exact ⟨b, rfl, .refl b, not_lt.1 hlt, .inr rfl⟩

/-- The walk along the index ends at an ancestor on the canonical chain, or it breaks off
because the LIB is not among the ancestors. -/
lemma canonicalAncestor_spec (brk : Bool) {fuel : ℕ} {b : B} (hb : Stored bc.blocks b)
    (hfuel : height b < fuel) (hle : height b ≤ height bc.mainTailBlock) :
    (∃ a, bc.canonicalAncestor brk fuel b = .ok a ∧ Ancestor (parentIn bc.blocks) a b ∧
      Ancestor (parentIn bc.blocks) a bc.mainTailBlock ∧
      (brk = true → height bc.lib ≤ height a)) ∨
    (brk = true ∧ ¬ Ancestor (parentIn bc.blocks) bc.lib b ∧
      ∃ e, bc.canonicalAncestor brk fuel b = .error e) := by
  induction fuel generalizing b with
  | zero => omega
  | succ fuel ih =>
      rw [BlockChain.canonicalAncestor]
      by_cases hbrk : brk = true ∧ height b < height bc.lib
      · rw [if_pos hbrk]
        refine .inr ⟨hbrk.1, fun hlib => ?_, _, rfl⟩
        have := hc.store.ranked.rank_le hb hlib
        omega
      · rw [if_neg hbrk]
        have hlib : brk = true → height bc.lib ≤ height b :=
          fun h => not_lt.1 fun hlt => hbrk ⟨h, hlt⟩
        -- the canonical block of this height
        obtain ⟨c, -, hct, hcb⟩ := hc.store.ranked.exists_ancestor hc.tail
          (hc.store.genesis_ancestor hc.tail)
          (n := height b) (by rw [hc.store.genesis_height]; exact hc.store.one_le_height hb) hle
        have hcst := hc.store.stored_of_ancestor hc.tail hct
        rw [← hcb, hc.blockByHeight_eq hct]
        dsimp only
        by_cases heq : hash c = hash b
        · obtain rfl := StoreOk.eq_of_hash hcst hb heq
          rw [if_pos rfl]
          exact .inl ⟨c, rfl, .refl c, hct, hlib⟩
        · rw [if_neg heq]
          have hne : b ≠ g := by
            rintro rfl
            have hgc := hc.store.ranked.eq_of_rank_eq hc.tail hct
              (hc.store.genesis_ancestor hc.tail) hcb
            exact heq (by rw [hgc])
          obtain ⟨p, hp, hheight⟩ := hc.store.linked b hb hne
          have hpst := hc.store.stored_of_eq hp
          rw [ChainOk.parentBlock_eq hp]
          rcases ih hpst (by omega) (by omega) with ⟨a, ha, hap, hat, hal⟩ | ⟨hb1, hnl, e, he⟩
          · exact .inl ⟨a, ha, .of_parent hp hap, hat, hal⟩
          · refine .inr ⟨hb1, fun hl => ?_, e, he⟩
            -- were the LIB an ancestor of `b` and not of its parent, it would be `b`, which
            -- the index does not hold
            by_cases hlb : bc.lib = b
            · have hcl := hc.store.ranked.eq_of_rank_eq hc.tail hct hc.lib (by rw [hcb, hlb])
              exact heq (by rw [hcl, hlb])
            · obtain ⟨q, hq, hlq⟩ := hl.parent hlb
              obtain rfl := Option.some_inj.1 (hp.symm.trans hq)
              exact hnl hlq

/-- `FindAncestorOnCanonical` ends with a common ancestor of the block and the main tail, or,
if it may break at the LIB, with an error for a block that the LIB is no ancestor of. -/
lemma findAncestor_spec (brk : Bool) {b : B} (hb : Stored bc.blocks b) :
    (∃ a, bc.findAncestorOnCanonical b brk = .ok a ∧ Ancestor (parentIn bc.blocks) a b ∧
      Ancestor (parentIn bc.blocks) a bc.mainTailBlock ∧
      (brk = true → Ancestor (parentIn bc.blocks) bc.lib a)) ∨
    (brk = true ∧ ¬ Ancestor (parentIn bc.blocks) bc.lib b ∧
      ∃ e, bc.findAncestorOnCanonical b brk = .error e) := by
  obtain ⟨b', hb', hb'b, hle, hor⟩ :=
    hc.lowerTo_spec (hc.store.one_le_height hc.tail) hb le_rfl
  have hb'st := hc.store.stored_of_ancestor hb hb'b
  have hfind : bc.findAncestorOnCanonical b brk =
      bc.canonicalAncestor brk (height b' + 1) b' := by
    rw [findAncestorOnCanonical, hb']
    rfl
  rw [hfind]
  rcases hc.canonicalAncestor_spec brk hb'st (Nat.lt_succ_self _) hle with
    ⟨a, ha, hab, hat, hal⟩ | ⟨hbrk, hnl, e, he⟩
  · refine .inl ⟨a, ha, hab.trans hb'b, hat, fun h => ?_⟩
    exact hc.store.ranked.ancestor_of_rank_le hc.tail hc.lib hat (hal h)
  · refine .inr ⟨hbrk, fun hl => hnl ?_, e, he⟩
    rcases hor with hor | rfl
    · refine hc.store.ranked.ancestor_of_rank_le hb hl hb'b ?_
      rw [hor]
      exact hc.store.ranked.rank_le hc.tail hc.lib
    · exact hl

/-- **A block is forked before the LIB exactly when the LIB is not among its ancestors.** -/
lemma isForkedBeforeLIB_iff {b : B} (hb : Stored bc.blocks b) :
    bc.isForkedBeforeLIB b = true ↔ ¬ Ancestor (parentIn bc.blocks) bc.lib b := by
  rw [BlockChain.isForkedBeforeLIB]
  rcases hc.findAncestor_spec true hb with ⟨a, ha, hab, -, hal⟩ | ⟨-, hnl, e, he⟩
  · rw [ha]
    simp [(hal rfl).trans hab]
  · rw [he]
    simp [hnl]

/-! ## Moving the main tail -/

lemma loadBetweenBlocks_spec {a b : B} (hb : Stored bc.blocks b)
    (hab : Ancestor (parentIn bc.blocks) a b) {fuel : ℕ} (hfuel : height b ≤ fuel) :
    ∃ l, bc.loadBetweenBlocks a fuel b = .ok l := by
  induction fuel generalizing b with
  | zero =>
      have := hc.store.one_le_height hb
      omega
  | succ fuel ih =>
      rw [BlockChain.loadBetweenBlocks]
      split_ifs with heq
      · exact ⟨[], rfl⟩
      · obtain ⟨p, hp, hap⟩ := hab.parent fun h => heq (by rw [h])
        obtain ⟨hpst, hheight⟩ := hc.store.ranked b hb p hp
        obtain ⟨l, hl⟩ := ih hpst hap (by omega)
        refine ⟨b :: l, ?_⟩
        rw [ChainOk.parentBlock_eq hp]
        exact congrArg (· >>= fun rest => Except.ok (b :: rest)) hl

end ChainOk

/-- Only the height index differs. -/
structure OnlyIndex (bc bc' : BlockChain B) : Prop where
  blocks : bc'.blocks = bc.blocks
  mainTailBlock : bc'.mainTailBlock = bc.mainTailBlock
  lib : bc'.lib = bc.lib
  tailBlocks : bc'.tailBlocks = bc.tailBlocks

/-- Indexing a branch changes the index at the heights above its lower end and there alone,
to the blocks of the branch. -/
lemma buildIndex_spec {g : B} {bc : BlockChain B} (hs : StoreOk g bc.blocks) {a b : B}
    (hb : Stored bc.blocks b) (hab : Ancestor (parentIn bc.blocks) a b) {fuel : ℕ}
    (hfuel : height b ≤ fuel) :
    ∃ l bc', BlockChain.buildIndexByBlockHeight a fuel b bc = (.ok l, bc') ∧ OnlyIndex bc bc' ∧
      (∀ n, n ≤ height a ∨ height b < n → bc'.heightIndex n = bc.heightIndex n) ∧
      (∀ c, Ancestor (parentIn bc.blocks) c b → height a < height c →
        bc'.heightIndex (height c) = some (hash c)) := by
  induction fuel generalizing b bc with
  | zero =>
      have := hs.one_le_height hb
      omega
  | succ fuel ih =>
      rw [BlockChain.buildIndexByBlockHeight]
      by_cases heq : hash b = hash a
      · obtain rfl := StoreOk.eq_of_hash hb (hs.stored_of_ancestor hb hab) heq
        refine ⟨[], bc, by rw [if_pos heq]; rfl, ⟨rfl, rfl, rfl, rfl⟩, fun _ _ => rfl, ?_⟩
        intro c hcb hlt
        have := hs.ranked.rank_le hb hcb
        omega
      · obtain ⟨p, hp, hap⟩ := hab.parent fun h => heq (by rw [h])
        obtain ⟨hpst, hheight⟩ := hs.ranked b hb p hp
        have hale := hs.ranked.rank_le hpst hap
        -- the rest of the branch is indexed in the chain where `b` is indexed already
        have hs' : StoreOk g (bc.storeHeight b).blocks := hs
        obtain ⟨l, bc', hl, honly, hout, hin⟩ := ih hs' hpst hap (by omega)
        have hpar : (bc.storeHeight b).parentBlock b = .ok p := by
          rw [BlockChain.parentBlock, BlockChain.blockByHash,
            show (bc.storeHeight b).blocks (parentHash b) = some p from hp]
        refine ⟨b :: l, bc', ?_, ⟨honly.blocks, honly.mainTailBlock, honly.lib,
          honly.tailBlocks⟩, ?_, ?_⟩
        · rw [if_neg heq, Prog.update_bind, Prog.read_bind, hpar]
          dsimp only
          rw [Prog.bind_of_ok hl]
          rfl
        · intro n hn
          rw [hout n (by omega), BlockChain.storeHeight]
          exact Function.update_of_ne (by omega) _ _
        · intro c hcb hlt
          by_cases hcb' : c = b
          · subst hcb'
            rw [hout _ (by omega), BlockChain.storeHeight]
            exact Function.update_self _ _ _
          · obtain ⟨q, hq, hcq⟩ := hcb.parent hcb'
            obtain rfl := Option.some_inj.1 (hp.symm.trans hq)
            exact hin c hcq hlt

/-- **`SetTailBlock` succeeds for every stored descendant of the LIB.**  The new chain is in
order again, its index is unchanged up to the LIB, and nothing but the index and the main tail
has changed. -/
lemma ChainOk.setTailBlock {g : B} {bc : BlockChain B} (hc : ChainOk g bc) {newTail : B}
    (hst : Stored bc.blocks newTail) (hlib : Ancestor (parentIn bc.blocks) bc.lib newTail) :
    ∃ res bc', BlockChain.setTailBlock newTail bc = (.ok res, bc') ∧ ChainOk g bc' ∧
      bc'.blocks = bc.blocks ∧ bc'.lib = bc.lib ∧ bc'.tailBlocks = bc.tailBlocks ∧
      bc'.mainTailBlock = newTail ∧
      ∀ n ≤ height bc.lib, bc'.heightIndex n = bc.heightIndex n := by
  rcases hc.findAncestor_spec true hst with ⟨a, ha, hanew, hatail, hal⟩ | ⟨-, hnl, -⟩
  swap
  · exact absurd hlib hnl
  obtain ⟨rev, hrev⟩ := hc.loadBetweenBlocks_spec hc.tail hatail le_rfl
  obtain ⟨new, bc', hbuild, honly, hout, hin⟩ := buildIndex_spec hc.store hst hanew le_rfl
  refine ⟨(rev, new), { bc' with mainTailBlock := newTail }, ?_, ?_, honly.blocks, honly.lib,
    honly.tailBlocks, rfl, ?_⟩
  · rw [BlockChain.setTailBlock, Prog.read_bind, ha]
    dsimp only
    rw [hrev]
    dsimp only
    rw [Prog.bind_of_ok hbuild]
    rfl
  · constructor
    · exact honly.blocks ▸ hc.store
    · exact honly.blocks ▸ hst
    · intro b hb
      have hb' : Ancestor (parentIn bc.blocks) b newTail := honly.blocks ▸ hb
      show bc'.heightIndex (height b) = some (hash b)
      rcases Nat.lt_or_ge (height a) (height b) with hlt | hge
      · exact hin b hb' hlt
      · -- below the common ancestor the old index is still right
        rw [hout _ (.inl hge)]
        have hba := hc.store.ranked.ancestor_of_rank_le hst hb' hanew hge
        exact hc.index b (hba.trans hatail)
    · show Ancestor (parentIn bc'.blocks) bc'.lib newTail
      rw [honly.blocks, honly.lib]
      exact hlib
  · intro n hn
    have := hc.store.ranked.rank_le (hc.store.stored_of_ancestor hst hanew) (hal rfl)
    exact hout n (.inl (by omega))

/-! ## The choice among the tails -/

/-- The choice of `ForkChoice` is the main tail or a higher tail that is not forked before
the LIB, and no listed tail that is not forked is higher. -/
lemma BlockChain.forkChoice_spec (bc : BlockChain B) (tails : List B) :
    (bc.forkChoice tails = bc.mainTailBlock ∨
      (bc.forkChoice tails ∈ tails ∧ bc.isForkedBeforeLIB (bc.forkChoice tails) = false)) ∧
    height bc.mainTailBlock ≤ height (bc.forkChoice tails) ∧
    ∀ t ∈ tails, bc.isForkedBeforeLIB t = false → height t ≤ height (bc.forkChoice tails) := by
  unfold BlockChain.forkChoice
  generalize bc.mainTailBlock = start
  induction tails generalizing start with
  | nil => simp
  | cons t ts ih =>
      rw [List.foldl_cons]
      obtain ⟨hfrom, hstart, hmax⟩ := ih (if bc.isForkedBeforeLIB t then start
        else if height start < height t then t else start)
      by_cases hf : bc.isForkedBeforeLIB t = true
      · simp only [hf, if_true] at hfrom hstart hmax ⊢
        refine ⟨hfrom.imp_right fun h => ⟨List.mem_cons_of_mem _ h.1, h.2⟩, hstart, ?_⟩
        intro x hx hxf
        rcases List.mem_cons.1 hx with rfl | hx
        · rw [hf] at hxf
          cases hxf
        · exact hmax x hx hxf
      · rw [Bool.not_eq_true] at hf
        simp only [hf, Bool.false_eq_true, if_false] at hfrom hstart hmax ⊢
        by_cases hlt : height start < height t
        · simp only [hlt, if_true] at hfrom hstart hmax ⊢
          refine ⟨.inr ?_, by omega, ?_⟩
          · rcases hfrom with h | h
            · rw [h]
              exact ⟨List.mem_cons_self, hf⟩
            · exact ⟨List.mem_cons_of_mem _ h.1, h.2⟩
          · intro x hx hxf
            rcases List.mem_cons.1 hx with rfl | hx
            · exact hstart
            · exact hmax x hx hxf
        · simp only [hlt, if_false] at hfrom hstart hmax ⊢
          refine ⟨hfrom.imp_right fun h => ⟨List.mem_cons_of_mem _ h.1, h.2⟩, hstart, ?_⟩
          intro x hx hxf
          rcases List.mem_cons.1 hx with rfl | hx
          · omega
          · exact hmax x hx hxf

end GoMedibloc
