import GoMedibloc.Chain.LinkedBlocks

/-!
# The block pool with its links

The block pool is a least-recently-used cache of pointers to entries.  An entry leaves it by
`Remove` or because the cache is full, and in both cases the cache calls back and the entry is
disposed.  A new entry is linked before it is put into the cache, and putting it there may dispose
its parent or one of its children at once.

The proofs take the two halves of such a call apart: first the links of one entry more, then those
of one entry less.  `links_mirror_parents` collects what holds in every pool that any calls lead
to.  `BlockPool` is the same pool with hashes for pointers and without a bound.
-/

namespace GoMedibloc

open Forest Relation

variable {B : Type} [HashableBlock B]

/-! ## The pool -/

/-- The errors of `Push`. -/
inductive PoolErr
  | duplicatedBlock
deriving DecidableEq, Repr

/-- `BlockPool`, with the entries it points to. -/
structure LinkedPool (B : Type) where
  heap : LinkedHeap B
  cache : Lru Hash ℕ

namespace LinkedPool

/-- `NewBlockPool`. -/
def new (size : ℕ) : LinkedPool B := ⟨⟨fun _ => disposedBlock, 0⟩, .new size⟩

/-- `Has`. -/
def has (pool : LinkedPool B) (b : B) : Bool := (pool.cache.peek (hash b)).isSome

/-- One round of the loop of `findChildLinkedBlocks`. -/
def findChildStep (heap : LinkedHeap B) (b : B) (found : List ℕ × Lru Hash ℕ) (key : Hash) :
    Option (List ℕ × Lru Hash ℕ) :=
  let (v, cache) := found.2.get key
  match v with
  | none => some (found.1, cache)
  | some lb => do
    let block ← (heap.cell lb).block
    if parentHash block = genesisParentHash then return (found.1, cache)
    if parentHash block = hash b then return (found.1 ++ [lb], cache)
    return (found.1, cache)

/-- `findChildLinkedBlocks`, with the cache after the lookups. -/
def findChildLinkedBlocks (heap : LinkedHeap B) (cache : Lru Hash ℕ) (b : B) :
    Option (List ℕ × Lru Hash ℕ) :=
  cache.keys.foldlM (findChildStep heap b) ([], cache)

/-- The callback of the cache, with the entry that it drops. -/
def onEvict (heap : LinkedHeap B) (dropped : Option ℕ) : Option (LinkedHeap B) :=
  match dropped with
  | some lb => dispose heap lb
  | none => some heap

/-- `Push`, of a block that is not nil. -/
def push (b : B) (pool : LinkedPool B) : Option (Except PoolErr (LinkedPool B)) :=
  if pool.has b then some (.error .duplicatedBlock)
  else do
    let lb := pool.heap.next
    let heap := pool.heap.alloc (newLinkedBlock b)
    let (plb, cache) := pool.cache.get (parentHash b)
    let heap ← linkToParent heap lb plb
    let (children, cache) ← findChildLinkedBlocks heap cache b
    let heap ← children.foldlM (fun heap clb => linkParent heap clb lb) heap
    let heap ← onEvict heap ((cache.evicted (hash b)).map Prod.snd)
    return .ok ⟨heap, cache.add (hash b) lb⟩

/-- `Remove`. -/
def remove (b : B) (pool : LinkedPool B) : Option (LinkedPool B) := do
  let heap ← onEvict pool.heap (pool.cache.peek (hash b))
  return ⟨heap, pool.cache.remove (hash b)⟩

/-- `FindParent`. -/
def findParent (b : B) (pool : LinkedPool B) : Option B × LinkedPool B :=
  let (plb, cache) := pool.cache.get (parentHash b)
  (plb.bind fun plb => (pool.heap.cell plb).block, ⟨pool.heap, cache⟩)

/-- `FindChildren`: by the links of the block's entry, or by the parent hashes of all entries if it
has none. -/
def findChildren (b : B) (pool : LinkedPool B) : Option (List (Option B) × LinkedPool B) :=
  let (v, cache) := pool.cache.get (hash b)
  match v with
  | some lb =>
    some ((pool.heap.cell lb).children.map fun c => (pool.heap.cell c).block, ⟨pool.heap, cache⟩)
  | none => do
    let (children, cache) ← findChildLinkedBlocks pool.heap cache b
    return (children.map fun c => (pool.heap.cell c).block, ⟨pool.heap, cache⟩)

/-- The loop of `FindUnlinkedAncestor`: follow the links to the parents to their end; `none` if
that takes more than `fuel` rounds. -/
def unlinked (heap : LinkedHeap B) : ℕ → ℕ → Option ℕ
  | 0, _ => none
  | fuel + 1, lb =>
    match (heap.cell lb).parentLinkedBlock with
    | none => some lb
    | some plb => unlinked heap fuel plb

/-- `FindUnlinkedAncestor`, with a bound on the rounds of its loop. -/
def findUnlinkedAncestor (fuel : ℕ) (b : B) (pool : LinkedPool B) :
    Option (Option B × LinkedPool B) :=
  let (lb, cache) := pool.cache.get (parentHash b)
  match lb with
  | none => some (none, ⟨pool.heap, cache⟩)
  | some lb =>
    (unlinked pool.heap fuel lb).map fun top => ((pool.heap.cell top).block, ⟨pool.heap, cache⟩)

end LinkedPool

/-! ## The operations on a pool -/

/-- Blocks whose parent hashes lead in no circle and whose hashes are not that of the genesis
block's parent. -/
structure AcyclicBlocks (U : Set B) : Prop where
  no_cycle : ∀ b ∈ U, ¬ TransGen (fun p c => p ∈ U ∧ c ∈ U ∧ parentHash c = hash p) b b
  genesis : ∀ b ∈ U, hash b ≠ genesisParentHash

lemma AcyclicBlocks.parentHash_ne {U : Set B} (hU : AcyclicBlocks U) {b : B} (hb : b ∈ U) :
    parentHash b ≠ hash b :=
  fun h => hU.no_cycle b hb (.single ⟨hb, hb, h⟩)

namespace LinkedPool

variable {heap : LinkedHeap B} {cache : Lru Hash ℕ} {pool pool' : LinkedPool B} {b : B} {U : Set B}

/-- The children that `findChildLinkedBlocks` collects. -/
def IsChild (heap : LinkedHeap B) (b : B) (c : ℕ) : Prop :=
  ∃ x, (heap.cell c).block = some x ∧ parentHash x ≠ genesisParentHash ∧ parentHash x = hash b

/-- What a round of the loop does. -/
lemma findChildStep_spec (b : B) {found : List ℕ × Lru Hash ℕ} (key : Hash)
    (hblocks : ∀ k c, found.2.peek k = some c → (heap.cell c).block.isSome) :
    ∃ found', findChildStep heap b found key = some found' ∧ found.2.Reordered found'.2 ∧
      ∀ c, c ∈ found'.1 ↔ c ∈ found.1 ∨ (found.2.peek key = some c ∧ IsChild heap b c) := by
  have hreordered := found.2.reordered_get key
  have hfst : (found.2.get key).1 = found.2.peek key := Lru.get_fst
  unfold findChildStep
  rcases hget : found.2.get key with ⟨v, cache'⟩
  rw [hget] at hreordered hfst
  cases v with
  | none => exact ⟨(found.1, cache'), rfl, hreordered, fun c => by simp [← hfst]⟩
  | some lb =>
      obtain ⟨x, hx⟩ := Option.isSome_iff_exists.1 (hblocks key lb hfst.symm)
      have hchild : IsChild heap b lb ↔
          parentHash x ≠ genesisParentHash ∧ parentHash x = hash b := by simp [IsChild, hx]
      have hmem : ∀ c, found.2.peek key = some c ∧ IsChild heap b c ↔
          c = lb ∧ IsChild heap b lb := by
        intro c
        rw [← hfst, Option.some_inj]
        constructor
        · rintro ⟨rfl, h⟩
          exact ⟨rfl, h⟩
        · rintro ⟨rfl, h⟩
          exact ⟨rfl, h⟩
      simp only [hx, Option.bind_eq_bind, Option.bind_some, hmem, hchild]
      split_ifs with hgenesis hparent
      · exact ⟨_, rfl, hreordered, fun c => by simp [hgenesis]⟩
      · have hne : hash b ≠ genesisParentHash := hparent ▸ hgenesis
        exact ⟨_, rfl, hreordered, fun c => by simp [hparent, hne]⟩
      · exact ⟨_, rfl, hreordered, fun c => by simp [hparent]⟩

lemma findChildren_loop (b : B) (keys : List Hash) (found : List ℕ × Lru Hash ℕ)
    (hblocks : ∀ k c, found.2.peek k = some c → (heap.cell c).block.isSome) :
    ∃ found', keys.foldlM (findChildStep heap b) found = some found' ∧
      found.2.Reordered found'.2 ∧ ∀ c, c ∈ found'.1 ↔
        c ∈ found.1 ∨ ∃ k ∈ keys, found.2.peek k = some c ∧ IsChild heap b c := by
  induction keys generalizing found with
  | nil => exact ⟨found, rfl, .refl _, fun c => by simp⟩
  | cons key keys ih =>
      obtain ⟨mid, hmid, hre, hmem⟩ := findChildStep_spec b key hblocks
      obtain ⟨found', hfound', hre', hmem'⟩ := ih mid
        fun k c hc => hblocks k c ((hre.peek k).symm.trans hc)
      refine ⟨found', ?_, hre.trans hre', fun c => ?_⟩
      · rw [List.foldlM_cons, hmid]
        exact hfound'
      · rw [hmem', hmem]
        simp only [hre.peek, List.exists_mem_cons_iff, or_assoc]

/-- `findChildLinkedBlocks` finds the pooled children of a block and changes no entry. -/
lemma findChildLinkedBlocks_spec (heap : LinkedHeap B) (cache : Lru Hash ℕ) (b : B)
    (hblocks : ∀ k c, cache.peek k = some c → (heap.cell c).block.isSome) :
    ∃ cs cache', findChildLinkedBlocks heap cache b = some (cs, cache') ∧
      cache.Reordered cache' ∧
      ∀ c, c ∈ cs ↔ (∃ k, cache.peek k = some c) ∧ IsChild heap b c := by
  obtain ⟨⟨cs, cache'⟩, hfold, hre, hmem⟩ :=
    findChildren_loop b cache.keys ([], cache) hblocks
  refine ⟨cs, cache', hfold, hre, fun c => ?_⟩
  rw [hmem]
  simp only [List.not_mem_nil, false_or]
  constructor
  · rintro ⟨k, -, hk, hc⟩
    exact ⟨⟨k, hk⟩, hc⟩
  · rintro ⟨⟨k, hk⟩, hc⟩
    exact ⟨k, Lru.peek_isSome.1 (by rw [hk]; rfl), hk, hc⟩

/-- A pool of blocks in `U` whose links mirror the parent hashes. -/
structure Ok (U : Set B) (pool : LinkedPool B) : Prop where
  links : LinksOk pool.heap pool.cache.peek
  nodup : pool.cache.keys.Nodup
  size : 0 < pool.cache.size
  known : ∀ {h r b}, pool.cache.peek h = some r → (pool.heap.cell r).block = some b → b ∈ U

lemma ok_new {size : ℕ} (hsize : 0 < size) : Ok U (new size : LinkedPool B) := by
  have hnone : ∀ h, (new size : LinkedPool B).cache.peek h = none := fun _ => rfl
  refine ⟨⟨?_, ?_, ?_, ?_, ?_, ?_⟩, List.nodup_nil, hsize, ?_⟩
  · intro h r hr
    simp [hnone] at hr
  · intro h r hr
    simp [hnone] at hr
  · intro h r hr
    simp [hnone] at hr
  · intro h r b hr
    simp [hnone] at hr
  · intro h r k c hr
    simp [hnone] at hr
  · intro r hr
    exact absurd hr (Nat.not_lt_zero r)
  · intro h r b hr
    simp [hnone] at hr

/-- Lookups keep a pool as it is. -/
lemma Ok.reordered (hok : Ok U pool) {cache : Lru Hash ℕ} (hre : pool.cache.Reordered cache) :
    Ok U ⟨pool.heap, cache⟩ := by
  have hpeek : cache.peek = pool.cache.peek := funext hre.peek
  refine ⟨?_, hre.nodup hok.nodup, hre.size ▸ hok.size, ?_⟩
  · change LinksOk pool.heap cache.peek
    rw [hpeek]
    exact hok.links
  · intro h r b hr hb
    exact hok.known ((hre.peek h).symm.trans hr) hb

/-- The callback of the cache succeeds for a pooled entry, and leaves the pool well linked
without it. -/
lemma onEvict_spec (hU : AcyclicBlocks U) {pooled : Hash → Option ℕ} (pooled' : Hash → Option ℕ)
    (hlinks : LinksOk heap pooled)
    (hknown : ∀ {h r b}, pooled h = some r → (heap.cell r).block = some b → b ∈ U)
    (dropped : Option (Hash × ℕ)) (hdropped : ∀ e, dropped = some e → pooled e.1 = some e.2)
    (hpooled' : ∀ h, pooled' h = if dropped.map Prod.fst = some h then none else pooled h) :
    ∃ heap', onEvict heap (dropped.map Prod.snd) = some heap' ∧ LinksOk heap' pooled' ∧
      ∀ {h r b}, pooled' h = some r → (heap'.cell r).block = some b → b ∈ U := by
  cases dropped with
  | none =>
      obtain rfl : pooled' = pooled := funext fun h => by simpa using hpooled' h
      exact ⟨heap, rfl, hlinks, hknown⟩
  | some e =>
      have he := hdropped e rfl
      obtain ⟨heap', hdispose, hlinks', hblocks⟩ := hlinks.dispose he
        fun b hb => hU.parentHash_ne (hknown he hb)
      obtain rfl : pooled' = Function.update pooled e.1 none := by
        funext h
        rw [hpooled', Function.update_apply]
        simp only [Option.map_some, Option.some_inj, @eq_comm _ h]
      refine ⟨heap', hdispose, hlinks', ?_⟩
      intro h r b hr hb
      have hne : h ≠ e.1 := by
        rintro rfl
        rw [Function.update_self] at hr
        cases hr
      rw [Function.update_of_ne hne] at hr
      have hrne : r ≠ e.2 := fun heq => hne (hlinks.hash_unique (heq ▸ hr) he)
      rw [hblocks r hrne] at hb
      exact hknown hr hb

/-- `Remove` keeps a pool well linked. -/
lemma Ok.remove (hok : Ok U pool) (hU : AcyclicBlocks U) (b : B) :
    ∃ pool', pool.remove b = some pool' ∧ Ok U pool' := by
  obtain ⟨heap', hevict, hlinks, hknown⟩ := onEvict_spec hU
    (pool.cache.remove (hash b)).peek hok.links hok.known
    ((pool.cache.peek (hash b)).map fun r => (hash b, r))
    (by
      intro e he
      obtain ⟨r, hr, rfl⟩ := Option.map_eq_some_iff.1 he
      exact hr)
    (by
      intro h
      rw [Lru.peek_remove]
      by_cases hh : h = hash b
      · subst hh
        cases pool.cache.peek (hash b) <;> simp
      · cases pool.cache.peek (hash b) <;> simp [hh, Ne.symm hh])
  refine ⟨⟨heap', pool.cache.remove (hash b)⟩, ?_,
    ⟨hlinks, Lru.nodup_keys_remove hok.nodup, hok.size, hknown⟩⟩
  rw [Option.map_map] at hevict
  have hsnd : (pool.cache.peek (hash b)).map (Prod.snd ∘ fun r => (hash b, r)) =
      pool.cache.peek (hash b) := Option.map_id'
  rw [LinkedPool.remove, ← hsnd, hevict]
  rfl

/-- `Push` keeps a pool well linked. -/
lemma Ok.push (hok : Ok U pool) (hU : AcyclicBlocks U) (hb : b ∈ U) :
    pool.push b = some (.error .duplicatedBlock) ∨
    ∃ pool', pool.push b = some (.ok pool') ∧ Ok U pool' := by
  by_cases hhas : pool.has b
  · exact .inl (if_pos hhas)
  refine .inr ?_
  have hnew : pool.cache.peek (hash b) = none := Option.not_isSome_iff_eq_none.1 hhas
  have hself := hU.parentHash_ne hb
  have hre := pool.cache.reordered_get (parentHash b)
  have hfst : (pool.cache.get (parentHash b)).1 = pool.cache.peek (parentHash b) := Lru.get_fst
  obtain ⟨heap₁, hparent, h₁⟩ := hok.links.appended_linkToParent (parentHash b) b
  -- the children are looked up in the heap with the new entry, which is not pooled yet
  have hblock₁ : ∀ {k c}, pool.cache.peek k = some c →
      (heap₁.cell c).block = (pool.heap.cell c).block :=
    fun hc => h₁.block _ (hok.links.allocated hc)
  obtain ⟨cs, cache₂, hfind, hre₂, hmem⟩ := findChildLinkedBlocks_spec heap₁
    (pool.cache.get (parentHash b)).2 b fun k c hc => by
      rw [hre.peek] at hc
      rw [hblock₁ hc]
      exact hok.links.blocks_isSome hc
  have hre₂ := hre.trans hre₂
  have hcs : ∀ c, c ∈ cs ↔ (∃ k, pool.cache.peek k = some c) ∧
      (pool.heap.cell c).block.map parentHash = some (hash b) := by
    intro c
    simp only [hmem, hre.peek]
    refine and_congr_right fun hpooled => ?_
    obtain ⟨k, hk⟩ := hpooled
    rw [IsChild, hblock₁ hk, Option.map_eq_some_iff]
    constructor
    · rintro ⟨x, hx, -, hx'⟩
      exact ⟨x, hx, hx'⟩
    · rintro ⟨x, hx, hx'⟩
      exact ⟨x, hx, hx' ▸ hU.genesis b hb, hx'⟩
  have hkey₁ : ∀ {k c}, pool.cache.peek k = some c → (heap₁.cell c).key = some k := fun hc => by
    rw [LinkedNode.key, hblock₁ hc]
    exact hok.links.key hc
  obtain ⟨heap₂, hall, h₂⟩ := relinkAll heap₁ pool.heap.next cs
    (fun heap clb => linkParent heap clb pool.heap.next)
    (fun c hc => by
      obtain ⟨⟨k, hk⟩, -⟩ := (hcs c).1 hc
      rw [hblock₁ hk]
      exact hok.links.blocks_isSome hk)
    h₁.new_live
    (fun heap c hc hlive => by
      obtain ⟨_, hc⟩ := Option.isSome_iff_exists.1 hc
      exact linkParent_spec pool.heap.next hc hlive)
    (fun c hc c' hc' heq => by
      obtain ⟨⟨k, hk⟩, -⟩ := (hcs c).1 hc
      obtain ⟨⟨k', hk'⟩, -⟩ := (hcs c').1 hc'
      rw [hkey₁ hk, hkey₁ hk', Option.some_inj] at heq
      exact Option.some_inj.1 (hk'.symm.trans (heq ▸ hk)))
  have hlinks := hok.links.link hnew hself hcs h₁ h₂
  have hknown : ∀ {h r x},
      Function.update pool.cache.peek (hash b) (some pool.heap.next) h = some r →
      (heap₂.cell r).block = some x → x ∈ U := by
    intro h r x hr hx
    rw [h₂.block] at hx
    by_cases hh : h = hash b
    · rw [hh, Function.update_self, Option.some_inj] at hr
      rw [← hr, h₁.new_block, Option.some_inj] at hx
      exact hx ▸ hb
    · rw [Function.update_of_ne hh] at hr
      rw [hblock₁ hr] at hx
      exact hok.known hr hx
  -- now the entry is put into the cache, which may drop another one
  have hnodup := hre₂.nodup hok.nodup
  have hsize : 0 < cache₂.size := hre₂.size ▸ hok.size
  obtain ⟨heap₃, hevict, hlinks₃, hknown₃⟩ := onEvict_spec hU
    (cache₂.add (hash b) pool.heap.next).peek hlinks hknown (cache₂.evicted (hash b))
    (by
      intro e he
      obtain ⟨hne, hpeek⟩ := Lru.peek_of_evicted he
      rw [Function.update_of_ne hne, ← hre₂.peek, hpeek])
    (by
      intro h
      rw [Lru.peek_add hnodup hsize, hre₂.peek, Function.update_apply])
  refine ⟨⟨heap₃, cache₂.add (hash b) pool.heap.next⟩, ?_,
    ⟨hlinks₃, Lru.nodup_keys_add hnodup, hsize, hknown₃⟩⟩
  rw [LinkedPool.push, if_neg hhas]
  simp only [Option.bind_eq_bind, hfst, hparent, hfind, hall, hevict, Option.bind_some]
  rfl

/-! ## Looking up blocks by their links -/

/-- The pooled blocks by their hashes. -/
def blocks (pool : LinkedPool B) (h : Hash) : Option B :=
  (pool.cache.peek h).bind fun r => (pool.heap.cell r).block

/-- The block is pooled, with the entry `r`. -/
def At (pool : LinkedPool B) (r : ℕ) (b : B) : Prop :=
  pool.cache.peek (hash b) = some r ∧ (pool.heap.cell r).block = some b

lemma Ok.at_of_peek (hok : Ok U pool) {h : Hash} {r : ℕ} (hr : pool.cache.peek h = some r) :
    ∃ b, pool.At r b ∧ hash b = h := by
  obtain ⟨b, hb, rfl⟩ := hok.links.block hr
  exact ⟨b, ⟨hr, hb⟩, rfl⟩

lemma Ok.blocks_eq_some (hok : Ok U pool) {h : Hash} :
    pool.blocks h = some b ↔ hash b = h ∧ ∃ r, pool.At r b := by
  rw [blocks, Option.bind_eq_some_iff]
  constructor
  · rintro ⟨r, hr, hb⟩
    obtain ⟨x, ⟨hx, hx'⟩, rfl⟩ := hok.at_of_peek hr
    obtain rfl : x = b := Option.some_inj.1 (hx'.symm.trans hb)
    exact ⟨rfl, r, hx, hx'⟩
  · rintro ⟨rfl, r, hr, hb⟩
    exact ⟨r, hr, hb⟩

lemma Ok.blocks_eq_none (hok : Ok U pool) {h : Hash} :
    pool.blocks h = none ↔ pool.cache.peek h = none := by
  unfold blocks
  cases hr : pool.cache.peek h with
  | none => simp
  | some r =>
      obtain ⟨x, hx, -⟩ := hok.links.block hr
      simp [hx]

/-- The child links of a pooled block lead to its pooled children. -/
lemma Ok.child_iff (hok : Ok U pool) {rp rc : ℕ} {p : B} (hp : pool.At rp p) :
    (∃ k, (pool.heap.cell rp).childAt k = some rc) ↔
      ∃ c, pool.At rc c ∧ parentHash c = hash p := by
  constructor
  · rintro ⟨k, hk⟩
    obtain ⟨hpeek, hparent⟩ := (hok.links.child hp.1).1 hk
    obtain ⟨c, hc, -⟩ := hok.at_of_peek hpeek
    rw [hc.2, Option.map_some, Option.some_inj] at hparent
    exact ⟨c, hc, hparent⟩
  · rintro ⟨c, hc, hparent⟩
    exact ⟨hash c, (hok.links.child hp.1).2 ⟨hc.1, by rw [hc.2, ← hparent]; rfl⟩⟩

/-- The parent link of a pooled block leads to its pooled parent. -/
lemma Ok.parent_iff (hok : Ok U pool) {rp rc : ℕ} {c : B} (hc : pool.At rc c) :
    (pool.heap.cell rc).parentLinkedBlock = some rp ↔
      ∃ p, pool.At rp p ∧ parentHash c = hash p := by
  rw [hok.links.parent hc.1 hc.2]
  constructor
  · intro hp
    obtain ⟨p, hp, hhash⟩ := hok.at_of_peek hp
    exact ⟨p, hp, hhash.symm⟩
  · rintro ⟨p, hp, hhash⟩
    rw [hhash]
    exact hp.1

/-- No link of any entry leads to a disposed one. -/
lemma Ok.linked (hok : Ok U pool) {r r' : ℕ} (hr : r < pool.heap.next)
    (hlink : (pool.heap.cell r).parentLinkedBlock = some r' ∨
      ∃ k, (pool.heap.cell r).childAt k = some r') : ∃ b, pool.At r' b := by
  by_cases hpooled : ∃ h, pool.cache.peek h = some r
  · obtain ⟨h, hh⟩ := hpooled
    obtain ⟨b, hb, -⟩ := hok.at_of_peek hh
    rcases hlink with hparent | hchild
    · obtain ⟨p, hp, -⟩ := (hok.parent_iff hb).1 hparent
      exact ⟨p, hp⟩
    · obtain ⟨c, hc, -⟩ := (hok.child_iff hb).1 hchild
      exact ⟨c, hc⟩
  · rw [hok.links.disposed hr fun h hh => hpooled ⟨h, hh⟩] at hlink
    rcases hlink with hparent | ⟨k, hchild⟩
    · cases hparent
    · cases hchild

/-- `FindChildren` finds the pooled children of a block, pooled or not. -/
lemma Ok.findChildren (hok : Ok U pool) (hb : hash b ≠ genesisParentHash) :
    ∃ found cache, pool.findChildren b = some (found, ⟨pool.heap, cache⟩) ∧
      pool.cache.Reordered cache ∧
      ∀ y, y ∈ found ↔ ∃ c, y = some c ∧ (∃ r, pool.At r c) ∧ parentHash c = hash b := by
  have hre := pool.cache.reordered_get (hash b)
  have hfst : (pool.cache.get (hash b)).1 = pool.cache.peek (hash b) := Lru.get_fst
  unfold LinkedPool.findChildren
  rcases hget : pool.cache.get (hash b) with ⟨v, cache⟩
  rw [hget] at hre hfst
  dsimp only at hre hfst ⊢
  cases v with
  | some lb =>
      refine ⟨_, cache, rfl, hre, fun y => ?_⟩
      obtain ⟨x, hx, hhash⟩ := hok.at_of_peek hfst.symm
      simp only [List.mem_map, LinksOk.mem_children, hok.child_iff hx, hhash]
      constructor
      · rintro ⟨r, ⟨c, hc, hparent⟩, rfl⟩
        exact ⟨c, hc.2, ⟨r, hc⟩, hparent⟩
      · rintro ⟨c, rfl, ⟨r, hc⟩, hparent⟩
        exact ⟨r, ⟨c, hc, hparent⟩, hc.2⟩
  | none =>
      obtain ⟨cs, cache₂, hfind, hre₂, hmem⟩ := findChildLinkedBlocks_spec pool.heap cache b
        fun k c hc => hok.links.blocks_isSome ((hre.peek k).symm.trans hc)
      refine ⟨_, cache₂, by rw [hfind]; exact (rfl), hre.trans hre₂, fun y => ?_⟩
      simp only [List.mem_map, hmem, hre.peek]
      constructor
      · rintro ⟨r, ⟨⟨k, hk⟩, x, hx, -, hparent⟩, rfl⟩
        obtain ⟨c, hc, -⟩ := hok.at_of_peek hk
        obtain rfl : c = x := Option.some_inj.1 (hc.2.symm.trans hx)
        exact ⟨c, hx, ⟨r, hc⟩, hparent⟩
      · rintro ⟨c, rfl, ⟨r, hc⟩, hparent⟩
        exact ⟨r, ⟨⟨hash c, hc.1⟩, c, hc.2, hparent ▸ hb, hparent⟩, hc.2⟩

/-- One of the pooled hashes is the parent hash of the block under another one. -/
def Above (pool : LinkedPool B) (h' h : {h // h ∈ pool.cache.keys}) : Prop :=
  ∃ b, pool.blocks h.1 = some b ∧ parentHash b = h'.1

/-- Among the pooled hashes there is no endless way up. -/
lemma Ok.above_wellFounded (hok : Ok U pool) (hU : AcyclicBlocks U) :
    WellFounded (TransGen pool.Above) := by
  have hfinite : Finite {h // h ∈ pool.cache.keys} := List.finite_toSet pool.cache.keys
  have hblock : ∀ h : {h // h ∈ pool.cache.keys}, ∃ b, pool.blocks h.1 = some b := fun h =>
    Option.ne_none_iff_exists'.1 fun hnone => by
      have hsome := Lru.peek_isSome.2 h.2
      rw [hok.blocks_eq_none.1 hnone] at hsome
      cases hsome
  choose block hblock using hblock
  have hmem : ∀ h, block h ∈ U := fun h => by
    obtain ⟨-, r, hr⟩ := hok.blocks_eq_some.1 (hblock h)
    exact hok.known hr.1 hr.2
  have hirrefl : Std.Irrefl (TransGen pool.Above) := ⟨fun h hcycle => by
    refine hU.no_cycle (block h) (hmem h) (hcycle.lift block fun x y ⟨b, hb, hparent⟩ => ?_)
    obtain rfl : block y = b := Option.some_inj.1 ((hblock y).symm.trans hb)
    exact ⟨hmem x, hmem y, hparent.trans (hok.blocks_eq_some.1 (hblock x)).1.symm⟩⟩
  exact Finite.wellFounded_of_trans_of_irrefl _

/-- The loop of `FindUnlinkedAncestor` ends at the topmost pooled ancestor. -/
lemma Ok.unlinked_spec (hok : Ok U pool) (hU : AcyclicBlocks U) {r : ℕ} (hb : pool.At r b) :
    ∃ n top t, (∀ fuel ≥ n, unlinked pool.heap fuel r = some top) ∧ pool.At top t ∧
      Ancestor (parentIn pool.blocks) t b ∧ parentIn pool.blocks t = none := by
  have hkey : hash b ∈ pool.cache.keys := Lru.peek_isSome.1 (by rw [hb.1]; rfl)
  obtain ⟨h, hh⟩ : ∃ h : {h // h ∈ pool.cache.keys}, h.1 = hash b := ⟨⟨hash b, hkey⟩, rfl⟩
  induction h using (hok.above_wellFounded hU).induction generalizing b r with
  | _ h ih =>
      have hparent := hok.links.parent hb.1 hb.2
      cases hp : pool.cache.peek (parentHash b) with
      | none =>
          refine ⟨1, r, b, fun fuel hfuel => ?_, hb, .refl b, hok.blocks_eq_none.2 hp⟩
          obtain ⟨fuel, rfl⟩ := Nat.exists_eq_add_of_le' hfuel
          rw [unlinked, hparent, hp]
      | some rp =>
          obtain ⟨p, hat, hhash⟩ := hok.at_of_peek hp
          have hkey' : hash p ∈ pool.cache.keys := Lru.peek_isSome.1 (by rw [hat.1]; rfl)
          have hup : pool.Above ⟨hash p, hkey'⟩ h :=
            ⟨b, hok.blocks_eq_some.2 ⟨hh.symm, r, hb⟩, hhash.symm⟩
          obtain ⟨n, top, t, hfuel, htop, hanc, hnone⟩ := ih _ (.single hup) hat hkey' rfl
          refine ⟨n + 1, top, t, fun fuel hle => ?_, htop, ?_, hnone⟩
          · obtain ⟨fuel, rfl⟩ := Nat.exists_eq_add_of_le' (Nat.le_of_add_left_le hle)
            rw [unlinked, hparent, hp]
            exact hfuel fuel (by omega)
          · exact .of_parent (hok.blocks_eq_some.2 ⟨hhash, rp, hat⟩) hanc

/-- What `FindUnlinkedAncestor` has to return: the topmost block of the unbroken chain of pooled
ancestors, or nil if the parent is not pooled. -/
def Topmost (pool : LinkedPool B) (b : B) (found : Option B) : Prop :=
  match parentIn pool.blocks b with
  | none => found = none
  | some p => ∃ t, found = some t ∧ Ancestor (parentIn pool.blocks) t p ∧
      parentIn pool.blocks t = none

/-- `FindUnlinkedAncestor` ends, with the topmost pooled ancestor. -/
lemma Ok.findUnlinkedAncestor (hok : Ok U pool) (hU : AcyclicBlocks U) (b : B) :
    ∃ n found, pool.Topmost b found ∧ ∀ fuel ≥ n,
      pool.findUnlinkedAncestor fuel b =
        some (found, ⟨pool.heap, (pool.cache.get (parentHash b)).2⟩) := by
  have hfst : (pool.cache.get (parentHash b)).1 = pool.cache.peek (parentHash b) := Lru.get_fst
  unfold LinkedPool.findUnlinkedAncestor Topmost
  simp only [hfst]
  cases hp : pool.cache.peek (parentHash b) with
  | none =>
      have hnone : parentIn pool.blocks b = none := hok.blocks_eq_none.2 hp
      exact ⟨0, none, by rw [hnone], fun _ _ => rfl⟩
  | some rp =>
      obtain ⟨p, hat, hhash⟩ := hok.at_of_peek hp
      have hsome : parentIn pool.blocks b = some p := hok.blocks_eq_some.2 ⟨hhash, rp, hat⟩
      obtain ⟨n, top, t, hfuel, htop, hanc, hnone⟩ := hok.unlinked_spec hU hat
      refine ⟨n, some t, by rw [hsome]; exact ⟨t, rfl, hanc, hnone⟩, fun fuel hle => ?_⟩
      dsimp only
      rw [hfuel fuel hle, ← htop.2]
      rfl

/-! ## Runs -/

/-- A call on a pool of blocks in `U`.  The lookups are among them, since they change the order in
which the cache drops its entries. -/
inductive Step (U : Set B) : LinkedPool B → LinkedPool B → Prop
  | push {pool pool' : LinkedPool B} {b : B} (hb : b ∈ U)
      (h : pool.push b = some (.ok pool')) : Step U pool pool'
  | remove {pool pool' : LinkedPool B} {b : B} (h : pool.remove b = some pool') :
      Step U pool pool'
  | findParent (pool : LinkedPool B) (b : B) : Step U pool (pool.findParent b).2
  | findChildren {pool pool' : LinkedPool B} {b : B} {found : List (Option B)} (hb : b ∈ U)
      (h : pool.findChildren b = some (found, pool')) : Step U pool pool'
  | findUnlinkedAncestor {pool pool' : LinkedPool B} {b : B} {found : Option B} {fuel : ℕ}
      (h : pool.findUnlinkedAncestor fuel b = some (found, pool')) : Step U pool pool'

lemma Ok.step (hok : Ok U pool) (hU : AcyclicBlocks U) (hstep : Step U pool pool') : Ok U pool' := by
  cases hstep with
  | push hb h =>
      rcases hok.push hU hb with herr | ⟨next, hnext, hok'⟩
      · rw [herr] at h
        cases h
      · rw [hnext, Option.some_inj, Except.ok.injEq] at h
        exact h ▸ hok'
  | @remove _ b h =>
      obtain ⟨next, hnext, hok'⟩ := hok.remove hU b
      rw [hnext, Option.some_inj] at h
      exact h ▸ hok'
  | findParent b => exact hok.reordered (pool.cache.reordered_get (parentHash b))
  | @findChildren _ b found hb h =>
      obtain ⟨found', cache, hnext, hre, -⟩ := hok.findChildren (hU.genesis b hb)
      rw [hnext, Option.some_inj, Prod.mk.injEq] at h
      exact h.2 ▸ hok.reordered hre
  | @findUnlinkedAncestor _ b found fuel h =>
      have hpool : pool' = ⟨pool.heap, (pool.cache.get (parentHash b)).2⟩ := by
        unfold LinkedPool.findUnlinkedAncestor at h
        dsimp only at h
        cases hlb : (pool.cache.get (parentHash b)).1 with
        | none =>
            rw [hlb, Option.some_inj, Prod.mk.injEq] at h
            exact h.2.symm
        | some lb =>
            rw [hlb] at h
            obtain ⟨top, -, heq⟩ := Option.map_eq_some_iff.1 h
            rw [Prod.mk.injEq] at heq
            exact heq.2.symm
      rw [hpool]
      exact hok.reordered (pool.cache.reordered_get (parentHash b))

lemma Ok.run {size : ℕ} (hU : AcyclicBlocks U) (hsize : 0 < size)
    (hrun : ReflTransGen (Step U) (new size) pool) : Ok U pool := by
  induction hrun with
  | refl => exact ok_new hsize
  | tail _ hstep ih => exact ih.step hU hstep

/-- **The links mirror the parent relation.**  In every pool that calls on blocks in `U` lead to,
whatever its size: the child links of a pooled block lead to the pooled blocks with its hash as
their parent hash, and the parent links back; no link of any entry leads to one that was disposed;
`FindChildren` finds the pooled children of a block, pooled or not; `FindUnlinkedAncestor` ends and
finds the topmost pooled ancestor; and `Push` and `Remove` never dereference nil. -/
theorem links_mirror_parents {size : ℕ} (hU : AcyclicBlocks U) (hsize : 0 < size)
    (hrun : ReflTransGen (Step U) (new size) pool) :
    (∀ p rp rc, pool.At rp p → ((∃ k, (pool.heap.cell rp).childAt k = some rc) ↔
      ∃ c, pool.At rc c ∧ parentHash c = hash p)) ∧
    (∀ c rc rp, pool.At rc c → ((pool.heap.cell rc).parentLinkedBlock = some rp ↔
      ∃ p, pool.At rp p ∧ ∃ k, (pool.heap.cell rp).childAt k = some rc)) ∧
    (∀ r < pool.heap.next, ∀ r', ((pool.heap.cell r).parentLinkedBlock = some r' ∨
      ∃ k, (pool.heap.cell r).childAt k = some r') → ∃ b, pool.At r' b) ∧
    (∀ b ∈ U, ∃ found pool', pool.findChildren b = some (found, pool') ∧
      ∀ y, y ∈ found ↔ ∃ c, y = some c ∧ (∃ r, pool.At r c) ∧ parentHash c = hash b) ∧
    (∀ b, ∃ n found, pool.Topmost b found ∧ ∀ fuel ≥ n, ∃ pool',
      pool.findUnlinkedAncestor fuel b = some (found, pool')) ∧
    (∀ b ∈ U, pool.push b ≠ none ∧ pool.remove b ≠ none) := by
  have hok := Ok.run hU hsize hrun
  refine ⟨fun p rp rc hp => hok.child_iff hp, fun c rc rp hc => ?_,
    fun r hr r' hlink => hok.linked hr hlink, fun b hb => ?_, fun b => ?_, fun b hb => ⟨?_, ?_⟩⟩
  · rw [hok.parent_iff hc]
    refine exists_congr fun p => and_congr_right fun hp => ?_
    rw [hok.child_iff hp]
    constructor
    · intro hparent
      exact ⟨c, hc, hparent⟩
    · rintro ⟨x, hx, hparent⟩
      obtain rfl : x = c := Option.some_inj.1 (hx.2.symm.trans hc.2)
      exact hparent
  · obtain ⟨found, cache, hfind, -, hmem⟩ := hok.findChildren (hU.genesis b hb)
    exact ⟨found, _, hfind, hmem⟩
  · obtain ⟨n, found, htop, hfuel⟩ := hok.findUnlinkedAncestor hU b
    exact ⟨n, found, htop, fun fuel hle => ⟨_, hfuel fuel hle⟩⟩
  · rcases hok.push hU hb with herr | ⟨pool', hpush, -⟩
    · simp [herr]
    · simp [hpush]
  · obtain ⟨pool', hremove, -⟩ := hok.remove hU b
    simp [hremove]

end LinkedPool

/-- A block and its child. -/
def BareBlock.parentAndChild : Set BareBlock :=
  {⟨[1], [7], 2, 3⟩, ⟨[2], [1], 3, 6⟩}

lemma BareBlock.acyclic_parentAndChild : AcyclicBlocks parentAndChild := by
  constructor
  · intro b _ hcycle
    have hheight : ∀ {p c : BareBlock}, TransGen (fun p c => p ∈ parentAndChild ∧
        c ∈ parentAndChild ∧ GoMedibloc.parentHash c = GoMedibloc.hash p) p c →
        p.height < c.height := by
      intro p c h
      induction h with
      | single hstep =>
          obtain ⟨rfl | rfl, rfl | rfl, heq⟩ := hstep <;> simp_all
      | tail _ hstep ih =>
          refine ih.trans ?_
          obtain ⟨rfl | rfl, rfl | rfl, heq⟩ := hstep <;> simp_all
    exact lt_irrefl _ (hheight hcycle)
  · rintro b (rfl | rfl) <;> decide

/-- A child that arrives first and then its parent, in a pool of two: the parent's entry links
to the child's. -/
theorem BareBlock.child_is_linked_to_late_parent :
    ∃ pool : LinkedPool BareBlock,
      ReflTransGen (LinkedPool.Step parentAndChild) (.new 2) pool ∧
      pool.At 1 ⟨[1], [7], 2, 3⟩ ∧ ∃ k, (pool.heap.cell 1).childAt k = some 0 := by
  obtain ⟨pool₁, h₁⟩ : ∃ pool₁ : LinkedPool BareBlock,
    (LinkedPool.new 2).push ⟨[2], [1], 3, 6⟩ = some (.ok pool₁) := ⟨_, rfl⟩
  obtain ⟨pool, h₂⟩ : ∃ pool : LinkedPool BareBlock,
    pool₁.push ⟨[1], [7], 2, 3⟩ = some (.ok pool) := by
      obtain rfl := Except.ok.inj (Option.some_inj.1 h₁)
      exact ⟨_, rfl⟩
  have hrun : ReflTransGen (LinkedPool.Step parentAndChild) (.new 2) pool :=
    .tail (.single (.push (.inr rfl) h₁)) (.push (.inl rfl) h₂)
  obtain rfl := Except.ok.inj (Option.some_inj.1 h₁)
  obtain rfl := Except.ok.inj (Option.some_inj.1 h₂)
  have hmirror := LinkedPool.links_mirror_parents acyclic_parentAndChild (by decide) hrun
  exact ⟨_, hrun, ⟨rfl, rfl⟩, (hmirror.1 _ 1 0 ⟨rfl, rfl⟩).2 ⟨⟨[2], [1], 3, 6⟩, ⟨rfl, rfl⟩, rfl⟩⟩

end GoMedibloc
