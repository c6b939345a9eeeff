import GoMedibloc.Chain.ChainManager

/-!
# The block cache, and the pruning of forked branches

`BlockByHash` looks into the cache of blocks first and then into the storage, where a block
lies under the key `bhash_` followed by its hash; what it finds there goes into the cache.
`CachedChain` is the chain with this cache and with the storage under its byte keys.  While the
cache holds nothing but stored blocks (`CacheOk`), every lookup answers as it does without a
cache (`findAncestorOnCanonical_answers`), which is why the rest of the chain is modelled
without one.

`SetLIB` ends with the removal of the branches that are forked before the new LIB.
`removeBlock` takes a block out of the cache, but it deletes the storage entry under the bare
hash and not the one under the key of the block.  The removed block stays in the storage and is
found there.  A branch that is higher than the main tail is not removed at all: `removeBlock`
takes the missing index entry of its tail for an error.  So the pruning is complete only if
there is nothing to remove but tails on the canonical chain itself
(`pruning_is_complete_iff`).
-/

namespace GoMedibloc

open Forest

variable {B : Type} [HashableBlock B]

/-! ## The chain with its cache -/

/-- `blockByHashPrefix`, the bytes of `bhash_`. -/
def blockByHashPrefix : Bytes := [98, 104, 97, 115, 104, 95]

/-- The key of a block in the storage. -/
def blockKey (h : Hash) : Bytes := blockByHashPrefix ++ h

/-- `BlockChain` with `cachedBlocks`, and with the entries for blocks in the storage. -/
structure CachedChain (B : Type) where
  storage : Bytes → Option B
  heightIndex : ℕ → Option Hash
  mainTailBlock : B
  lib : B
  cachedBlocks : Lru Hash B
  tailBlocks : Lru Hash B

namespace CachedChain

/-- The chain without the cache. -/
def view (s : CachedChain B) : BlockChain B :=
  ⟨fun h => s.storage (blockKey h), s.heightIndex, s.mainTailBlock, s.lib, s.tailBlocks⟩

/-- `cacheBlock`. -/
def cacheBlock (b : B) (s : CachedChain B) : CachedChain B :=
  { s with cachedBlocks := s.cachedBlocks.add (hash b) b }

/-- `loadBlockFromCache`. -/
def loadBlockFromCache (h : Hash) : Prog (CachedChain B) ChainErr (Option B) := fun s =>
  (.ok (s.cachedBlocks.get h).1, { s with cachedBlocks := (s.cachedBlocks.get h).2 })

/-- `BlockByHash`. -/
def blockByHash (h : Hash) : Prog (CachedChain B) ChainErr (Option B) := do
  match ← loadBlockFromCache h with
  | some b => pure (some b)
  | none =>
    match ← Prog.asks fun s => s.storage (blockKey h) with
    | none => pure none
    | some b => do
      Prog.update (cacheBlock b)
      pure (some b)

/-- `BlockByHeight`. -/
def blockByHeight (n : ℕ) : Prog (CachedChain B) ChainErr B := do
  let mainTailBlock ← Prog.asks mainTailBlock
  if height mainTailBlock < n then Prog.fail .blockNotExist
  else
    match ← Prog.asks fun s => s.heightIndex n with
    | none => Prog.fail .blockNotExist
    | some h =>
      match ← blockByHash h with
      | none => Prog.fail .blockNotExist
      | some b => pure b

/-- `parentBlock`. -/
def parentBlock (b : B) : Prog (CachedChain B) ChainErr B := do
  match ← blockByHash (parentHash b) with
  | none => Prog.fail .missingParentBlock
  | some p => pure p

/-- The first loop of `FindAncestorOnCanonical`. -/
def lowerTo (n : ℕ) : ℕ → B → Prog (CachedChain B) ChainErr B
  | fuel, b =>
    if n < height b then
      match fuel with
      | 0 => Prog.fail .missingParentBlock
      | fuel + 1 => parentBlock b >>= lowerTo n fuel
    else pure b

/-- The second loop of `FindAncestorOnCanonical`. -/
def canonicalAncestor (breakAtLIB : Bool) (lib : B) : ℕ → B → Prog (CachedChain B) ChainErr B
  | 0, _ => Prog.fail .missingParentBlock
  | fuel + 1, b =>
    if breakAtLIB = true ∧ height b < height lib then Prog.fail .missingParentBlock
    else do
      match ← (blockByHeight (height b)).attempt with
      | .error _ => Prog.fail .missingParentBlock
      | .ok canonical =>
        if hash canonical = hash b then pure b
        else parentBlock b >>= canonicalAncestor breakAtLIB lib fuel

/-- `FindAncestorOnCanonical`. -/
def findAncestorOnCanonical (b : B) (breakAtLIB : Bool) : Prog (CachedChain B) ChainErr B := do
  let tail ← Prog.asks mainTailBlock
  let b ← lowerTo (height tail) (height b) b
  let lib ← Prog.asks lib
  canonicalAncestor breakAtLIB lib (height b + 1) b

/-- `IsForkedBeforeLIB`. -/
def isForkedBeforeLIB (b : B) : Prog (CachedChain B) ChainErr Bool := do
  match ← (findAncestorOnCanonical b true).attempt with
  | .error _ => pure true
  | .ok _ => pure false

/-- `removeBlock`: the deletion goes to the storage key `hash b`. -/
def removeBlock (b : B) : Prog (CachedChain B) ChainErr Unit := do
  match ← (blockByHeight (height b)).attempt with
  | .error _ => Prog.fail .cannotRemoveBlockOnCanonical
  | .ok canonical =>
    if hash canonical = hash b then Prog.fail .cannotRemoveBlockOnCanonical
    else do
      Prog.update fun s => { s with storage := Function.update s.storage (hash b) none }
      Prog.update fun s => { s with cachedBlocks := s.cachedBlocks.remove (hash b) }

/-- The loop of `removeForkedBranch`. -/
def removeBranch (ancestor : B) : ℕ → B → Prog (CachedChain B) ChainErr Unit
  | fuel, b =>
    if hash ancestor = hash b then pure ()
    else match fuel with
      | 0 => Prog.fail .missingParentBlock
      | fuel + 1 => do
        removeBlock b
        let p ← parentBlock b
        removeBranch ancestor fuel p

/-- `removeForkedBranch`. -/
def removeForkedBranch (tail : B) : Prog (CachedChain B) ChainErr Unit := do
  let ancestor ← findAncestorOnCanonical tail false
  removeBranch ancestor (height tail) tail
  Prog.update fun s => { s with tailBlocks := s.tailBlocks.remove (hash tail) }

/-- `tailBlockList`, from the keys on. -/
def tailBlockList : List Hash → Prog (CachedChain B) ChainErr (List B)
  | [] => pure []
  | k :: keys => do
    let tail ← Prog.asks fun s => (s.tailBlocks.get k).1
    Prog.update fun s => { s with tailBlocks := (s.tailBlocks.get k).2 }
    let tails ← tailBlockList keys
    pure (tail.toList ++ tails)

/-- One round of the loop at the end of `SetLIB`; an error of `removeForkedBranch` is only
logged. -/
def cutTail (tail : B) : Prog (CachedChain B) ChainErr Unit := do
  let forked ← isForkedBeforeLIB tail
  if forked then
    let _ ← (removeForkedBranch tail).attempt
    pure ()
  else pure ()

/-- The loop at the end of `SetLIB`. -/
def cutTails : List B → Prog (CachedChain B) ChainErr Unit
  | [] => pure ()
  | tail :: tails => do
    cutTail tail
    cutTails tails

/-- `SetLIB`. -/
def setLIB (newLIB : B) : Prog (CachedChain B) ChainErr Unit := do
  let prevLIB ← Prog.asks lib
  if height newLIB < height prevLIB ∨ hash prevLIB = hash newLIB then pure ()
  else do
    Prog.update fun s => { s with lib := newLIB }
    let keys ← Prog.asks fun s => s.tailBlocks.keys
    let tails ← tailBlockList keys
    cutTails tails

/-! ## Lookups answer as without the cache -/

/-- Blocks are stored under their hashes, which have 32 bytes, and the cache holds stored blocks
only. -/
structure CacheOk (s : CachedChain B) : Prop where
  keyed : ∀ h b, s.storage (blockKey h) = some b → hash b = h
  size : ∀ h b, s.storage (blockKey h) = some b → h.length = 32
  cached : ∀ h b, s.cachedBlocks.Holds h b → s.storage (blockKey h) = some b

/-- The chain is `bc` behind a cache. -/
def Represents (bc : BlockChain B) (s : CachedChain B) : Prop := CacheOk s ∧ s.view = bc

lemma CacheOk.functional {s : CachedChain B} (h : CacheOk s) : s.cachedBlocks.Functional :=
  fun k _ _ hv hv' => Option.some.inj ((h.cached k _ hv).symm.trans (h.cached k _ hv'))

/-- Another cache that holds nothing new. -/
lemma CacheOk.of_cached {s : CachedChain B} (h : CacheOk s) {cache : Lru Hash B}
    (hcache : ∀ k b, cache.Holds k b → s.storage (blockKey k) = some b) :
    CacheOk { s with cachedBlocks := cache } :=
  ⟨h.keyed, h.size, hcache⟩

open Prog

variable {bc : BlockChain B}

/-- **The cache is transparent**: `BlockByHash` finds what is stored. -/
lemma blockByHash_answers (h : Hash) :
    Answers (Represents bc) (blockByHash h) (.ok (bc.blockByHash h)) := by
  rintro s ⟨hok, rfl⟩
  cases hpeek : s.cachedBlocks.peek h with
  | some b =>
      have hget : (s.cachedBlocks.get h).1 = some b := Lru.get_fst.trans hpeek
      have hb := hok.cached h b (Lru.holds_of_peek hpeek)
      have hrun : blockByHash h s =
          (.ok (some b), { s with cachedBlocks := (s.cachedBlocks.get h).2 }) := by
        rw [blockByHash, bind_apply, loadBlockFromCache, hget]
        rfl
      rw [hrun]
      refine ⟨congrArg Except.ok hb.symm, hok.of_cached fun k c hc => ?_, rfl⟩
      exact hok.cached k c ((Lru.get_holds hok.functional).1 hc)
  | none =>
      have hget : s.cachedBlocks.get h = (none, s.cachedBlocks) := by rw [Lru.get, hpeek]
      cases hst : s.storage (blockKey h) with
      | none =>
          have hrun : blockByHash h s = (.ok none, s) := by
            rw [blockByHash, bind_apply, loadBlockFromCache, hget]
            simp [Prog.asks, bind_apply, hst]
          rw [hrun]
          exact ⟨congrArg Except.ok hst.symm, hok, rfl⟩
      | some b =>
          have hrun : blockByHash h s = (.ok (some b), s.cacheBlock b) := by
            rw [blockByHash, bind_apply, loadBlockFromCache, hget]
            simp [Prog.asks, bind_apply, hst]
          rw [hrun]
          refine ⟨congrArg Except.ok hst.symm, hok.of_cached fun k c hc => ?_, rfl⟩
          rcases Lru.holds_of_add hc with ⟨rfl, rfl⟩ | hc
          · rw [hok.keyed h c hst, hst]
          · exact hok.cached k c hc

lemma mainTailBlock_answers :
    Answers (Represents bc) (Prog.asks mainTailBlock : Prog _ ChainErr B) (.ok bc.mainTailBlock) :=
  answers_asks fun _ hs => congrArg BlockChain.mainTailBlock hs.2

lemma blockByHeight_answers (n : ℕ) :
    Answers (Represents bc) (blockByHeight n) (bc.blockByHeight n) := by
  refine mainTailBlock_answers.bind_ok ?_
  unfold BlockChain.blockByHeight
  split_ifs
  · exact answers_fail _
  · have hindex : Answers (Represents bc)
        (Prog.asks fun s => s.heightIndex n : Prog _ ChainErr _) (.ok (bc.heightIndex n)) :=
      answers_asks fun _ hs => congrArg (BlockChain.heightIndex · n) hs.2
    refine hindex.bind_ok ?_
    cases bc.heightIndex n with
    | none => exact answers_fail _
    | some h =>
        refine (blockByHash_answers h).bind_ok ?_
        dsimp only
        cases bc.blockByHash h with
        | none => exact answers_fail _
        | some b => exact answers_pure _

lemma parentBlock_answers (b : B) :
    Answers (Represents bc) (parentBlock b) (bc.parentBlock b) := by
  refine (blockByHash_answers _).bind_ok ?_
  unfold BlockChain.parentBlock
  cases bc.blockByHash (parentHash b) with
  | none => exact answers_fail _
  | some p => exact answers_pure _

lemma lowerTo_answers (n fuel : ℕ) (b : B) :
    Answers (Represents bc) (lowerTo n fuel b) (bc.lowerTo n fuel b) := by
  induction fuel generalizing b with
  | zero =>
      unfold lowerTo BlockChain.lowerTo
      split_ifs
      · exact answers_fail _
      · exact answers_pure _
  | succ fuel ih =>
      unfold lowerTo BlockChain.lowerTo
      split_ifs
      · exact (parentBlock_answers b).bind fun p _ => ih p
      · exact answers_pure _

lemma canonicalAncestor_answers (brk : Bool) (fuel : ℕ) (b : B) :
    Answers (Represents bc) (canonicalAncestor brk bc.lib fuel b)
      (bc.canonicalAncestor brk fuel b) := by
  induction fuel generalizing b with
  | zero => exact answers_fail _
  | succ fuel ih =>
      unfold canonicalAncestor BlockChain.canonicalAncestor
      split_ifs
      · exact answers_fail _
      · refine (blockByHeight_answers (height b)).attempt.bind_ok ?_
        cases bc.blockByHeight (height b) with
        | error e => exact answers_fail _
        | ok canonical =>
            dsimp only
            split_ifs
            · exact answers_pure _
            · exact (parentBlock_answers b).bind fun p _ => ih p

/-- `FindAncestorOnCanonical` answers as it does without the cache. -/
lemma findAncestorOnCanonical_answers (b : B) (brk : Bool) :
    Answers (Represents bc) (findAncestorOnCanonical b brk) (bc.findAncestorOnCanonical b brk) := by
  refine mainTailBlock_answers.bind_ok ((lowerTo_answers _ _ _).bind fun a _ => ?_)
  have hlib : Answers (Represents bc) (Prog.asks lib : Prog _ ChainErr B) (.ok bc.lib) :=
    answers_asks fun _ hs => congrArg BlockChain.lib hs.2
  exact hlib.bind_ok (canonicalAncestor_answers brk _ a)

lemma isForkedBeforeLIB_answers (b : B) :
    Answers (Represents bc) (isForkedBeforeLIB b) (.ok (bc.isForkedBeforeLIB b)) := by
  refine (findAncestorOnCanonical_answers b true).attempt.bind_ok ?_
  unfold BlockChain.isForkedBeforeLIB
  cases bc.findAncestorOnCanonical b true with
  | error e => exact answers_pure _
  | ok a => exact answers_pure _

/-! ## Removals leave the storage as it is -/

/-- The key that `removeBlock` deletes is too short to be the key of a block. -/
lemma Represents.delete {s : CachedChain B} (hs : Represents bc s) {b : B}
    (hb : Stored bc.blocks b) :
    Represents bc { s with storage := Function.update s.storage (hash b) none } := by
  obtain ⟨hok, rfl⟩ := hs
  have hlen : (hash b).length = 32 := hok.size _ b hb
  have hkey : ∀ h, Function.update s.storage (hash b) none (blockKey h) =
      s.storage (blockKey h) := by
    intro h
    by_cases heq : blockKey h = hash b
    · cases hst : s.storage (blockKey h) with
      | none => rw [heq, Function.update_self]
      | some c =>
          have hh := hok.size h c hst
          rw [← heq, blockKey, List.length_append, hh] at hlen
          exact absurd hlen (by decide)
    · rw [Function.update_of_ne heq]
  refine ⟨⟨fun h c hc => ?_, fun h c hc => ?_, fun h c hc => ?_⟩, ?_⟩
  · exact hok.keyed h c ((hkey h).symm.trans hc)
  · exact hok.size h c ((hkey h).symm.trans hc)
  · exact (hkey h).trans (hok.cached h c hc)
  · simp only [view, hkey]

lemma removeBlock_answers {b : B} (hb : Stored bc.blocks b) :
    Answers (Represents bc) (removeBlock b) (bc.removeBlock b) := by
  refine (blockByHeight_answers (height b)).attempt.bind_ok ?_
  unfold BlockChain.removeBlock
  cases bc.blockByHeight (height b) with
  | error e => exact answers_fail _
  | ok canonical =>
      dsimp only
      split_ifs
      · exact answers_fail _
      · refine (answers_update fun s hs => hs.delete hb).bind_ok (answers_update fun s hs => ?_)
        exact ⟨hs.1.of_cached fun k c hc => hs.1.cached k c (Lru.remove_holds.1 hc).2, hs.2⟩

lemma removeBranch_answers {g : B} (hstore : StoreOk g bc.blocks) (ancestor : B) (fuel : ℕ)
    {b : B} (hb : Stored bc.blocks b) :
    Answers (Represents bc) (removeBranch ancestor fuel b) (bc.removeBranch ancestor fuel b) := by
  induction fuel generalizing b with
  | zero =>
      unfold removeBranch BlockChain.removeBranch
      split_ifs
      · exact answers_pure _
      · exact answers_fail _
  | succ fuel ih =>
      unfold removeBranch BlockChain.removeBranch
      split_ifs
      · exact answers_pure _
      · refine (removeBlock_answers hb).bind fun _ _ => (parentBlock_answers b).bind fun p hp => ?_
        refine ih (hstore.stored_of_eq (h := parentHash b) ?_)
        unfold BlockChain.parentBlock at hp
        split at hp
        · cases hp
        · next q hq => rw [← Except.ok.inj hp]; exact hq

/-- `removeForkedBranch` does what it does without the cache. -/
lemma removeForkedBranch_run {g : B} (hstore : StoreOk g bc.blocks) {tail : B}
    (hst : Stored bc.blocks tail) {s : CachedChain B} (hs : Represents bc s) :
    Represents (bc.removeForkedBranch tail) (removeForkedBranch tail s).2 := by
  obtain ⟨hr, hs₁⟩ := findAncestorOnCanonical_answers tail false s hs
  unfold BlockChain.removeForkedBranch
  cases hfind : bc.findAncestorOnCanonical tail false with
  | error e =>
      rw [removeForkedBranch, bind_of_error (Prod.ext (hr.trans hfind) rfl)]
      exact hs₁
  | ok a =>
      obtain ⟨hr₂, hs₂⟩ := removeBranch_answers hstore a (height tail) hst _ hs₁
      rw [removeForkedBranch, bind_of_ok (Prod.ext (hr.trans hfind) rfl)]
      dsimp only
      cases hrem : bc.removeBranch a (height tail) tail with
      | error e =>
          rw [bind_of_error (Prod.ext (hr₂.trans hrem) rfl)]
          exact hs₂
      | ok u =>
          rw [bind_of_ok (Prod.ext (hr₂.trans hrem) rfl)]
          exact ⟨⟨hs₂.1.keyed, hs₂.1.size, hs₂.1.cached⟩,
            congrArg (BlockChain.removeFromTailBlocks tail) hs₂.2⟩

lemma cutTail_run {g : B} (hstore : StoreOk g bc.blocks) {tail : B} (hst : Stored bc.blocks tail)
    {s : CachedChain B} (hs : Represents bc s) :
    ∃ s', cutTail tail s = (.ok (), s') ∧ Represents (bc.cutTail tail) s' := by
  obtain ⟨hr, hs₁⟩ := isForkedBeforeLIB_answers tail s hs
  rw [cutTail, bind_of_ok (Prod.ext hr rfl)]
  unfold BlockChain.cutTail
  split_ifs
  · exact ⟨_, rfl, removeForkedBranch_run hstore hst hs₁⟩
  · exact ⟨_, rfl, hs₁⟩

/-- The loop at the end of `SetLIB` does what it does without the cache. -/
lemma cutTails_run {g : B} (hstore : StoreOk g bc.blocks) {tails : List B}
    (hst : ∀ t ∈ tails, Stored bc.blocks t) {s : CachedChain B} (hs : Represents bc s) :
    ∃ s', cutTails tails s = (.ok (), s') ∧
      Represents (tails.foldl (fun bc t => bc.cutTail t) bc) s' := by
  induction tails generalizing bc s with
  | nil => exact ⟨s, rfl, hs⟩
  | cons t tails ih =>
      obtain ⟨s₁, hcut, hs₁⟩ := cutTail_run hstore (hst t List.mem_cons_self) hs
      have hblocks : (bc.cutTail t).blocks = bc.blocks := by
        rcases bc.cutTail_cases t with heq | ⟨-, heq⟩ <;> rw [heq]
        rfl
      obtain ⟨s', hrun, hs'⟩ := ih (hblocks ▸ hstore)
        (fun x hx => hblocks ▸ hst x (List.mem_cons_of_mem _ hx)) hs₁
      exact ⟨s', by rw [cutTails, bind_of_ok hcut, hrun], hs'⟩

/-- `tailBlockList` lists the cached tails; it changes nothing but their order. -/
lemma tailBlockList_run (keys : List Hash) {s : CachedChain B} (hs : CacheOk s)
    (hfun : s.tailBlocks.Functional) :
    ∃ tails s', tailBlockList keys s = (.ok tails, s') ∧ CacheOk s' ∧
      s'.view = { s.view with tailBlocks := s'.tailBlocks } ∧
      (∀ k b, s'.tailBlocks.Holds k b ↔ s.tailBlocks.Holds k b) ∧
      (∀ t ∈ tails, ∃ k, s.tailBlocks.Holds k t) ∧
      ∀ k ∈ keys, ∀ t, s.tailBlocks.Holds k t → t ∈ tails := by
  induction keys generalizing s with
  | nil => exact ⟨[], s, rfl, hs, rfl, fun _ _ => Iff.rfl, by simp, by simp⟩
  | cons k keys ih =>
      have hholds : ∀ x b, (s.tailBlocks.get k).2.Holds x b ↔ s.tailBlocks.Holds x b :=
        fun x b => Lru.get_holds hfun
      have hs₁ : CacheOk { s with tailBlocks := (s.tailBlocks.get k).2 } :=
        ⟨hs.keyed, hs.size, hs.cached⟩
      obtain ⟨tails, s', hrun, hs', hview, hsame, hmem, hall⟩ := ih hs₁ fun x v v' hv hv' =>
        hfun x v v' ((hholds x v).1 hv) ((hholds x v').1 hv')
      refine ⟨(s.tailBlocks.get k).1.toList ++ tails, s', ?_, hs', hview,
        fun x b => (hsame x b).trans (hholds x b), fun t ht => ?_, fun x hx t ht => ?_⟩
      · change (tailBlockList keys >>= _) _ = _
        rw [bind_of_ok hrun]
        rfl
      · rcases List.mem_append.1 ht with ht | ht
        · rw [Lru.get_fst, Option.mem_toList] at ht
          exact ⟨k, Lru.holds_of_peek ht⟩
        · obtain ⟨x, hx⟩ := hmem t ht
          exact ⟨x, (hholds x t).1 hx⟩
      · rcases List.mem_cons.1 hx with rfl | hx
        · refine List.mem_append_left _ ?_
          rw [Lru.get_fst, Option.mem_toList]
          obtain ⟨v, hv⟩ := Option.ne_none_iff_exists'.1 (Lru.peek_ne_none ht)
          rw [hv, hfun x v t (Lru.holds_of_peek hv) ht]
        · exact List.mem_append_right _ (hall x hx t ((hholds x t).2 ht))

end CachedChain

/-! ## What is cut -/

/-- A tail on the canonical chain is its own ancestor there. -/
lemma ChainOk.findAncestor_of_canonical {g : B} {bc : BlockChain B} (hc : ChainOk g bc) {t : B}
    (ht : Ancestor (parentIn bc.blocks) t bc.mainTailBlock) :
    bc.findAncestorOnCanonical t false = .ok t := by
  have hle : ¬ height bc.mainTailBlock < height t :=
    not_lt.2 (hc.store.ranked.rank_le hc.tail ht)
  have hlower : bc.lowerTo (height bc.mainTailBlock) (height t) t = .ok t := by
    unfold BlockChain.lowerTo
    rw [if_neg hle]
  rw [BlockChain.findAncestorOnCanonical, hlower]
  change bc.canonicalAncestor false (height t + 1) t = _
  rw [BlockChain.canonicalAncestor, hc.blockByHeight_eq ht]
  simp

/-- A tail on the canonical chain below the LIB is dropped. -/
lemma ChainOk.cutTail_of_canonical {g : B} {bc : BlockChain B} (hc : ChainOk g bc) {t : B}
    (ht : Ancestor (parentIn bc.blocks) t bc.mainTailBlock)
    (hlib : ¬ Ancestor (parentIn bc.blocks) bc.lib t) :
    bc.cutTail t = bc.removeFromTailBlocks t := by
  have hst := hc.store.stored_of_ancestor hc.tail ht
  have hbranch : bc.removeBranch t (height t) t = .ok () := by
    unfold BlockChain.removeBranch
    rw [if_pos rfl]
  rw [BlockChain.cutTail, if_pos ((hc.isForkedBeforeLIB_iff hst).2 hlib),
    BlockChain.removeForkedBranch, hc.findAncestor_of_canonical ht]
  simp only [hbranch]

/-- A round of the loop at the end of `SetLIB` changes nothing but the tails; none is added, and
the descendants of the LIB stay. -/
lemma ChainOk.cutTail_spec {g : B} {bc : BlockChain B} (hc : ChainOk g bc) {t : B}
    (hst : Stored bc.blocks t) :
    ∃ cache, bc.cutTail t = { bc with tailBlocks := cache } ∧
      (∀ k b, cache.Holds k b → bc.tailBlocks.Holds k b) ∧
      ∀ b, Stored bc.blocks b → Ancestor (parentIn bc.blocks) bc.lib b →
        bc.tailBlocks.Holds (hash b) b → cache.Holds (hash b) b := by
  rcases bc.cutTail_cases t with heq | ⟨hforked, heq⟩
  · exact ⟨bc.tailBlocks, heq, fun _ _ h => h, fun _ _ _ h => h⟩
  · refine ⟨_, heq, fun k b h => (Lru.remove_holds.1 h).2, fun b hb hlib h => ?_⟩
    refine Lru.remove_holds.2 ⟨fun hhash => ?_, h⟩
    obtain rfl := StoreOk.eq_of_hash hb hst hhash
    exact (hc.isForkedBeforeLIB_iff hst).1 hforked hlib

/-- The loop at the end of `SetLIB` changes nothing but the tails; none is added, the descendants
of the LIB stay, and the tails on the canonical chain below the LIB are gone. -/
lemma ChainOk.foldl_cutTail {g : B} {bc : BlockChain B} (hc : ChainOk g bc) {tails : List B}
    (hst : ∀ t ∈ tails, Stored bc.blocks t) :
    ∃ cache, tails.foldl (fun bc t => bc.cutTail t) bc = { bc with tailBlocks := cache } ∧
      (∀ k b, cache.Holds k b → bc.tailBlocks.Holds k b) ∧
      (∀ b, Stored bc.blocks b → Ancestor (parentIn bc.blocks) bc.lib b →
        bc.tailBlocks.Holds (hash b) b → cache.Holds (hash b) b) ∧
      ∀ t ∈ tails, Ancestor (parentIn bc.blocks) t bc.mainTailBlock →
        ¬ Ancestor (parentIn bc.blocks) bc.lib t → ∀ b, ¬ cache.Holds (hash t) b := by
  induction tails generalizing bc with
  | nil => exact ⟨bc.tailBlocks, rfl, fun _ _ h => h, fun _ _ _ h => h, by simp⟩
  | cons t tails ih =>
      obtain ⟨cut, hcut, hsub, hstay⟩ := hc.cutTail_spec (hst t List.mem_cons_self)
      have hc' : ChainOk g { bc with tailBlocks := cut } := ⟨hc.store, hc.tail, hc.index, hc.lib⟩
      obtain ⟨cache, hrun, hless, hmore, hgone⟩ := ih hc' fun x hx => hst x (.tail _ hx)
      refine ⟨cache, by rw [List.foldl_cons, hcut, hrun], fun k b h => hsub k b (hless k b h),
        fun b hb hlib h => hmore b hb hlib (hstay b hb hlib h), ?_⟩
      intro x hx hxt hlib b hb
      rcases List.mem_cons.1 hx with rfl | hx
      · have hrem : cut = bc.tailBlocks.remove (hash x) :=
          congrArg BlockChain.tailBlocks (hcut.symm.trans (hc.cutTail_of_canonical hxt hlib))
        have hheld := hless _ b hb
        rw [show ({ bc with tailBlocks := cut } : BlockChain B).tailBlocks = cut from rfl, hrem,
          Lru.remove_holds] at hheld
        exact hheld.1 rfl
      · exact hgone x hx hxt hlib b hb

namespace CachedChain

/-- The block is among the tails. -/
def HasTail (s : CachedChain B) (t : B) : Prop := s.tailBlocks.Holds (hash t) t

instance [DecidableEq B] (s : CachedChain B) (t : B) : Decidable (s.HasTail t) := by
  unfold HasTail Lru.Holds; infer_instance

/-- `SetLIB` for a block that it makes the LIB. -/
lemma setLIB_run {g L : B} {s : CachedChain B} (hs : CacheOk s) (hc : ChainOk g s.view)
    (ht : TailsOk s.view) (hL : Ancestor (parentIn s.view.blocks) L s.mainTailBlock)
    (hset : ¬ s.view.KeepsLIB L) :
    ∃ s', setLIB L s = (.ok (), s') ∧ CacheOk s' ∧ s'.view.blocks = s.view.blocks ∧
      (∀ t, s'.HasTail t → s.HasTail t) ∧
      (∀ t, s.HasTail t → Ancestor (parentIn s.view.blocks) L t → s'.HasTail t) ∧
      ∀ t, s.HasTail t → Ancestor (parentIn s.view.blocks) t s.mainTailBlock →
        ¬ Ancestor (parentIn s.view.blocks) L t → ¬ s'.HasTail t := by
  have hs₁ : CacheOk { s with lib := L } := ⟨hs.keyed, hs.size, hs.cached⟩
  obtain ⟨tails, s₂, hlist, hs₂, hview, hsame, hmem, hall⟩ :=
    tailBlockList_run s.tailBlocks.keys hs₁ ht.functional
  have hc₂ : ChainOk g s₂.view := by
    rw [hview]
    exact ⟨hc.store, hc.tail, hc.index, hL⟩
  have hblocks : s₂.view.blocks = s.view.blocks := by rw [hview]; rfl
  have hst : ∀ t ∈ tails, Stored s₂.view.blocks t := by
    intro t hmemt
    obtain ⟨k, hk⟩ := hmem t hmemt
    rw [hblocks]
    exact (ht k t hk).2
  obtain ⟨s', hcut, hs', hview'⟩ := cutTails_run hc₂.store hst ⟨hs₂, rfl⟩
  obtain ⟨cache, hfold, hless, hmore, hgone⟩ := hc₂.foldl_cutTail hst
  rw [hfold] at hview'
  have htails : s'.tailBlocks = cache := congrArg BlockChain.tailBlocks hview'
  refine ⟨s', ?_, hs', (congrArg BlockChain.blocks hview').trans hblocks, fun t h => ?_,
    fun t h hdesc => ?_, fun t h hcan hnot h' => ?_⟩
  · have hrun : setLIB L s = (do
        let tails ← tailBlockList s.tailBlocks.keys
        cutTails tails : Prog (CachedChain B) ChainErr Unit) { s with lib := L } := by
      change (if s.view.KeepsLIB L then _ else _ : Prog _ _ _) s = _
      rw [if_neg hset]
      rfl
    rw [hrun, Prog.bind_of_ok hlist, hcut]
  · rw [HasTail, htails] at h
    exact (hsame _ _).1 (hless _ _ h)
  · rw [HasTail, htails]
    refine hmore t ?_ ?_ ((hsame _ _).2 h)
    · rw [hblocks]
      exact (ht _ _ h).2
    · rw [hview]
      exact hdesc
  · rw [HasTail, htails] at h'
    refine hgone t (hall _ (Lru.mem_keys_of_holds h) t h) ?_ ?_ t h'
    · rw [hview]
      exact hcan
    · rw [hview]
      exact hnot

/-- **Pruning is complete only where there is nothing to prune.**  After `SetLIB` every tail is
the new LIB or a descendant of it, and no block between a removed tail and the canonical chain is
found by its hash, if and only if every tail was the new LIB or a descendant of it before, or
`SetLIB` did set the LIB and the tail lay on the canonical chain itself. -/
theorem pruning_is_complete_iff {g L : B} {s : CachedChain B} (hs : CacheOk s)
    (hc : ChainOk g s.view) (ht : TailsOk s.view)
    (hL : Ancestor (parentIn s.view.blocks) L s.mainTailBlock) :
    ∃ s', setLIB L s = (.ok (), s') ∧
      (((∀ t, s'.HasTail t → Ancestor (parentIn s.view.blocks) L t) ∧
          ∀ t, s.HasTail t → ¬ s'.HasTail t → ∀ b, Ancestor (parentIn s.view.blocks) b t →
            ¬ Ancestor (parentIn s.view.blocks) b s.mainTailBlock →
            (blockByHash (hash b) s').1 = .ok none) ↔
        ∀ t, s.HasTail t → Ancestor (parentIn s.view.blocks) L t ∨
          (¬ s.view.KeepsLIB L ∧ Ancestor (parentIn s.view.blocks) t s.mainTailBlock)) := by
  by_cases hkeep : s.view.KeepsLIB L
  · refine ⟨s, ?_, ?_⟩
    · change (if s.view.KeepsLIB L then _ else _ : Prog _ _ _) s = _
      rw [if_pos hkeep]
      rfl
    · simp only [hkeep, not_true_eq_false, false_and, or_false]
      exact ⟨fun h => h.1, fun h => ⟨h, fun t hin hout => absurd hin hout⟩⟩
  · obtain ⟨s', hrun, hs', hblocks, hless, hmore, hgone⟩ := setLIB_run hs hc ht hL hkeep
    refine ⟨s', hrun, fun ⟨htails, hfound⟩ t hin => ?_, fun h => ⟨fun t hin' => ?_, ?_⟩⟩
    · -- a tail off the canonical chain is found in the storage when it is removed
      by_cases hout : s'.HasTail t
      · exact .inl (htails t hout)
      · refine .inr ⟨hkeep, by_contra fun hcan => ?_⟩
        have hnone := hfound t hin hout t (.refl t) hcan
        have hst : s'.view.blockByHash (hash t) = some t := by
          rw [BlockChain.blockByHash, hblocks]
          exact (ht _ _ hin).2
        rw [(blockByHash_answers (hash t) s' ⟨hs', rfl⟩).1, hst] at hnone
        cases hnone
    · rcases h t (hless t hin') with hdesc | ⟨-, hcan⟩
      · exact hdesc
      · exact by_contra fun hnot => hgone t (hless t hin') hcan hnot hin'
    · intro t hin hout b hbt hb
      rcases h t hin with hdesc | ⟨-, hcan⟩
      · exact absurd (hmore t hin hdesc) hout
      · exact absurd (hbt.trans hcan) hb

/-- A chain behind a cache, with nothing but its blocks in the storage. -/
def behind (cache : Lru Hash B) (bc : BlockChain B) : CachedChain B where
  storage key := if key.take 6 = blockByHashPrefix then bc.blocks (key.drop 6) else none
  heightIndex := bc.heightIndex
  mainTailBlock := bc.mainTailBlock
  lib := bc.lib
  cachedBlocks := cache
  tailBlocks := bc.tailBlocks

omit [HashableBlock B] in
lemma view_behind (cache : Lru Hash B) (bc : BlockChain B) : (behind cache bc).view = bc := by
  simp [view, behind, blockKey, blockByHashPrefix]

lemma CacheOk.behind {g : B} {bc : BlockChain B} (hs : StoreOk g bc.blocks)
    (hsize : ∀ h b, bc.blocks h = some b → h.length = 32) {cache : Lru Hash B}
    (hcache : ∀ h b, cache.Holds h b → bc.blocks h = some b) : CacheOk (behind cache bc) := by
  have hview : ∀ h, (CachedChain.behind cache bc).storage (blockKey h) = bc.blocks h :=
    fun h => congrFun (congrArg BlockChain.blocks (view_behind cache bc)) h
  refine ⟨fun h b hb => ?_, fun h b hb => ?_, fun h b hb => ?_⟩
  · exact hs.keyed h b ((hview h).symm.trans hb)
  · exact hsize h b ((hview h).symm.trans hb)
  · exact (hview h).trans (hcache h b hb)

end CachedChain

/-! ## Two branches -/

namespace BareBlock

open CachedChain

/-- A genesis block. -/
def root : BareBlock := ⟨.replicate 32 0, [], 1, 0⟩

/-- A block on it. -/
def child (n : UInt8) : BareBlock := ⟨.replicate 32 n, .replicate 32 0, 2, 3⟩

/-- The chain manager has put the children on the genesis block and has moved its tail. -/
def withChildren (children : List BareBlock) : ChainManager BareBlock :=
  (ChainManager.next ⟨3, Dpos.three_pos⟩)^[5]
    (children.foldl (fun m c => { m with bc := m.bc.putVerifiedNewBlock root c })
      (ChainManager.start root 8))

/-- The chain of the manager, with the children in the cache. -/
def cachedChildren (children : List BareBlock) : CachedChain BareBlock :=
  behind (children.foldl (fun cache c => cache.add (hash c) c) (Lru.new 8))
    (withChildren children).bc

lemma managerOk_iterate {d : Dpos} {g : BareBlock} {m : ChainManager BareBlock}
    (h : ManagerOk g m) (n : ℕ) : ManagerOk g ((ChainManager.next d)^[n] m) := by
  induction n with
  | zero => exact h
  | succ n ih =>
      rw [Function.iterate_succ_apply']
      exact (ih.next d).1

lemma managerOk_put {m : ChainManager BareBlock} (h : ManagerOk root m) {n : UInt8}
    (hn : m.bc.blocks (hash (child n)) = none) :
    ManagerOk root { m with bc := m.bc.putVerifiedNewBlock root (child n) } := by
  refine h.put ⟨h.chain.store.genesis, rfl, rfl, fun b hb => ?_, by simp [child, root]⟩
  cases hn.symm.trans hb

lemma size_update {blocks : Hash → Option BareBlock}
    (h : ∀ k b, blocks k = some b → k.length = 32) (n : UInt8) :
    ∀ k b, Function.update blocks (hash (child n)) (some (child n)) k = some b →
      k.length = 32 := by
  intro k b hb
  by_cases heq : k = hash (child n)
  · rw [heq]
    exact List.length_replicate
  · rw [Function.update_of_ne heq] at hb
    exact h k b hb

lemma size_start : ∀ k b, (ChainManager.start root 8).bc.blocks k = some b → k.length = 32 := by
  intro k b hb
  obtain ⟨rfl, -⟩ := BlockChain.setup_blocks.1 hb
  exact List.length_replicate

lemma managerOk_one : ManagerOk root (withChildren [child 1]) :=
  managerOk_iterate (managerOk_put (ManagerOk.start ⟨by decide, by decide⟩ 8) (by decide)) 5

lemma managerOk_two : ManagerOk root (withChildren [child 1, child 2]) :=
  managerOk_iterate (managerOk_put (managerOk_put (ManagerOk.start ⟨by decide, by decide⟩ 8)
    (by decide)) (by decide)) 5

lemma cacheOk_one : CacheOk (cachedChildren [child 1]) := by
  refine CacheOk.behind managerOk_one.chain.store (size_update size_start 1) fun h b hb => ?_
  rcases Lru.holds_of_add hb with ⟨rfl, rfl⟩ | hb
  · exact (rfl)
  · exact absurd hb (Lru.not_holds_new _)

/-- With one child, which is the main tail, `SetLIB` for this child leaves it as the only tail. -/
theorem one_child_is_pruned :
    ∃ s', setLIB (child 1) (cachedChildren [child 1]) = (.ok (), s') ∧
      ∀ t, s'.HasTail t →
        Ancestor (parentIn (cachedChildren [child 1]).view.blocks) (child 1) t := by
  have hview := view_behind ([child 1].foldl (fun cache c => cache.add (hash c) c) (Lru.new 8))
    (withChildren [child 1]).bc
  have hok := managerOk_one
  have htail : (cachedChildren [child 1]).mainTailBlock = child 1 := by decide +kernel
  obtain ⟨s', hrun, hiff⟩ := pruning_is_complete_iff (g := root) (L := child 1) cacheOk_one
    (hview ▸ hok.chain) (hview ▸ hok.tails) (htail ▸ .refl _)
  have honly : (cachedChildren [child 1]).tailBlocks.entries = [(hash (child 1), child 1)] := by
    decide +kernel
  refine ⟨s', hrun, (hiff.2 fun t ht => .inl ?_).1⟩
  rw [HasTail, Lru.Holds, honly, List.mem_singleton] at ht
  rw [(Prod.mk.inj ht).2]

/-- **A pruned block is found.**  `SetLIB` for one of two children of the genesis block takes the
other one from the tails; it is not on the canonical chain, and `BlockByHash` still finds it. -/
theorem pruned_block_is_found :
    ∃ s', setLIB (child 1) (cachedChildren [child 1, child 2]) = (.ok (), s') ∧
      (cachedChildren [child 1, child 2]).mainTailBlock = child 1 ∧
      (cachedChildren [child 1, child 2]).HasTail (child 2) ∧ ¬ s'.HasTail (child 2) ∧
      ¬ Ancestor (parentIn (cachedChildren [child 1, child 2]).view.blocks) (child 2) (child 1) ∧
      s'.cachedBlocks.peek (hash (child 2)) = none ∧
      (blockByHash (hash (child 2)) s').1 = .ok (some (child 2)) := by
  have hview := view_behind
    ([child 1, child 2].foldl (fun cache c => cache.add (hash c) c) (Lru.new 8))
    (withChildren [child 1, child 2]).bc
  have hstored : Stored (cachedChildren [child 1, child 2]).view.blocks (child 1) := (rfl)
  refine ⟨(setLIB (child 1) (cachedChildren [child 1, child 2])).2, (rfl), by decide +kernel,
    by decide +kernel, by decide +kernel, fun hanc => ?_, by decide +kernel, (rfl)⟩
  have hstore : StoreOk root (cachedChildren [child 1, child 2]).view.blocks :=
    hview ▸ managerOk_two.chain.store
  exact absurd (hstore.ranked.eq_of_rank_le hstored hanc le_rfl) (by decide)

end BareBlock

end GoMedibloc
