import GoMedibloc.Chain.BlockChain

/-!
# The pool of received blocks

Blocks that were received but are not on the chain yet wait in the pool.  An entry of the pool
is linked with the entries of its parent and of its children, if they are in the pool too;
the links are set when a block is pushed and cut when one is removed.  A pointer to an entry
is the hash of its block here, since an entry that is removed leaves no pointer to it behind.

The pool never drops a block by itself in this model: its size is large enough for the blocks
that are pushed.
-/

namespace GoMedibloc

variable {B : Type} [HashableBlock B]

/-- `GenesisParentHash`. -/
def genesisParentHash : Hash := List.replicate 32 0

/-- `linkedBlock`: a block with its links to the parent and the children in the pool. -/
structure LinkedBlock (B : Type) where
  block : B
  parentLinkedBlock : Option Hash
  childLinkedBlocks : List Hash

/-- `BlockPool`, the entry used longest ago first. -/
structure BlockPool (B : Type) where
  cache : List (LinkedBlock B)

namespace BlockPool

/-- The entry of a hash. -/
def find (pool : BlockPool B) (h : Hash) : Option (LinkedBlock B) :=
  pool.cache.find? fun lb => hash lb.block = h

/-- `Has`. -/
def has (pool : BlockPool B) (b : B) : Bool := (pool.find (hash b)).isSome

/-- `findParentLinkedBlock`. -/
def findParentLinkedBlock (pool : BlockPool B) (b : B) : Option (LinkedBlock B) :=
  pool.find (parentHash b)

/-- `findChildLinkedBlocks`. -/
def findChildLinkedBlocks (pool : BlockPool B) (b : B) : List (LinkedBlock B) :=
  pool.cache.filter fun lb =>
    parentHash lb.block ≠ genesisParentHash ∧ parentHash lb.block = hash b

/-- `Push`, where the pool does not hold the block: link it with its parent and its children
and put it in. -/
def push (b : B) (pool : BlockPool B) : BlockPool B :=
  let parent := (pool.findParentLinkedBlock b).map fun plb => hash plb.block
  let children := (pool.findChildLinkedBlocks b).map fun clb => hash clb.block
  ⟨pool.cache.map (fun lb =>
      let lb := if parent = some (hash lb.block)
        then { lb with childLinkedBlocks := hash b :: lb.childLinkedBlocks } else lb
      if hash lb.block ∈ children then { lb with parentLinkedBlock := some (hash b) } else lb) ++
    [⟨b, parent, children⟩]⟩

/-- `Remove` with `dispose`: cut the links of the entry and take it out. -/
def remove (b : B) (pool : BlockPool B) : BlockPool B :=
  match pool.find (hash b) with
  | none => pool
  | some gone =>
    ⟨(pool.cache.filter fun lb => hash lb.block ≠ hash b).map fun lb =>
      let lb := if gone.parentLinkedBlock = some (hash lb.block)
        then { lb with childLinkedBlocks := lb.childLinkedBlocks.filter (· ≠ hash b) } else lb
      if hash lb.block ∈ gone.childLinkedBlocks
        then { lb with parentLinkedBlock := none } else lb⟩

/-- The loop of `FindUnlinkedAncestor`: follow the links to the parents to their end. -/
def unlinked (pool : BlockPool B) : ℕ → LinkedBlock B → B
  | 0, lb => lb.block
  | fuel + 1, lb =>
    match lb.parentLinkedBlock.bind pool.find with
    | none => lb.block
    | some plb => pool.unlinked fuel plb

/-- `FindUnlinkedAncestor`. -/
def findUnlinkedAncestor (pool : BlockPool B) (b : B) : Option B :=
  (pool.findParentLinkedBlock b).map (pool.unlinked pool.cache.length)

/-- `FindChildren`: by the links of the block's entry, or by the parent hashes of all entries
if it has none. -/
def findChildren (pool : BlockPool B) (b : B) : List B :=
  match pool.find (hash b) with
  | some lb => (lb.childLinkedBlocks.filterMap pool.find).map LinkedBlock.block
  | none => (pool.findChildLinkedBlocks b).map LinkedBlock.block

/-- The blocks in the pool. -/
def blocks (pool : BlockPool B) : List B := pool.cache.map LinkedBlock.block

/-! ## What the operations do to the blocks in the pool -/

variable {pool : BlockPool B} {b c : B}

lemma mem_blocks_of_find {h : Hash} {lb : LinkedBlock B} (hf : pool.find h = some lb) :
    lb.block ∈ pool.blocks ∧ hash lb.block = h := by
  unfold find at hf
  exact ⟨List.mem_map_of_mem (List.mem_of_find?_eq_some hf),
    by simpa using List.find?_some hf⟩

lemma find_eq_none {h : Hash} : pool.find h = none ↔ ∀ x ∈ pool.blocks, hash x ≠ h := by
  simp [find, blocks]

/-- Pushing adds the block and keeps the others. -/
@[simp] lemma push_blocks : (pool.push b).blocks = pool.blocks ++ [b] := by
  unfold push blocks
  simp only [List.map_append, List.map_map, List.map_cons, List.map_nil]
  congr 1
  apply List.map_congr_left
  intro lb _
  simp only [Function.comp_apply]
  split_ifs <;> rfl

/-- Removing takes out the block of that hash and keeps the others. -/
@[simp] lemma remove_blocks :
    (pool.remove b).blocks = pool.blocks.filter fun x => hash x ≠ hash b := by
  unfold remove
  cases hf : pool.find (hash b) with
  | none =>
      refine (List.filter_eq_self.2 fun x hx => ?_).symm
      simpa using find_eq_none.1 hf x hx
  | some gone =>
      unfold blocks
      rw [List.filter_map, List.map_map]
      apply List.map_congr_left
      intro lb _
      simp only [Function.comp_apply]
      split_ifs <;> rfl

/-- The ancestor that is found is in the pool. -/
lemma unlinked_mem {fuel : ℕ} {lb : LinkedBlock B} (hlb : lb.block ∈ pool.blocks) :
    pool.unlinked fuel lb ∈ pool.blocks := by
  induction fuel generalizing lb with
  | zero => exact hlb
  | succ fuel ih =>
      rw [unlinked]
      cases hf : lb.parentLinkedBlock.bind pool.find with
      | none => exact hlb
      | some plb =>
          obtain ⟨h, -, hfind⟩ := Option.bind_eq_some_iff.1 hf
          exact ih (mem_blocks_of_find hfind).1

lemma findUnlinkedAncestor_mem (h : pool.findUnlinkedAncestor b = some c) :
    c ∈ pool.blocks ∧ ∃ p ∈ pool.blocks, hash p = parentHash b := by
  unfold findUnlinkedAncestor at h
  obtain ⟨lb, hlb, rfl⟩ := Option.map_eq_some_iff.1 h
  obtain ⟨hmem, hhash⟩ := mem_blocks_of_find hlb
  exact ⟨unlinked_mem hmem, lb.block, hmem, hhash⟩

/-- Of a block that is not in the pool, the children are found by their parent hash. -/
lemma mem_findChildren (hb : ∀ x ∈ pool.blocks, hash x ≠ hash b) :
    c ∈ pool.findChildren b ↔
      c ∈ pool.blocks ∧ parentHash c ≠ genesisParentHash ∧ parentHash c = hash b := by
  unfold findChildren
  rw [find_eq_none.2 hb]
  simp only [findChildLinkedBlocks, blocks, List.mem_map, List.mem_filter, decide_eq_true_eq]
  constructor
  · rintro ⟨lb, ⟨hlb, h⟩, rfl⟩
    exact ⟨⟨lb, hlb, rfl⟩, h⟩
  · rintro ⟨⟨lb, hlb, rfl⟩, h⟩
    exact ⟨lb, ⟨hlb, h⟩, rfl⟩

end BlockPool

end GoMedibloc
