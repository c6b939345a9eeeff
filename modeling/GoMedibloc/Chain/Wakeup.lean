import GoMedibloc.Chain.ChainManager

/-!
# Accepting blocks while the chain manager runs

A goroutine that accepts a block stores it, adds it to the tails, removes its parent from the
tails, and then sends a trigger to the chain manager without blocking: if a trigger is waiting
already, this one is dropped.  Any number of acceptances run at once, and the chain manager
may be anywhere in its loop when they make their steps.

The question is whether the manager can go back to sleep with a higher tail unseen.  It cannot
(`main_tail_is_highest`).  Two facts carry the proof over every interleaving.  `leaves`: a
stored block above the LIB that is not among the tails has a child, or its acceptance has just
begun; so above every block there is a tail or an acceptance that will still send its trigger.
`covered`: while no trigger is waiting, every block above the LIB is no higher than what the
manager has seen in the current round, or lies below a tail that the round has still to look
up, or below a block whose acceptance has yet to send.
-/

namespace GoMedibloc

open Forest

variable {B : Type} [HashableBlock B]

/-- How far the acceptance of a block has come. -/
inductive AcceptStage
  /-- after `storeBlock` -/
  | stored
  /-- after `addToTailBlocks` -/
  | added
  /-- after `removeFromTailBlocks`, before the trigger is sent -/
  | removed
deriving DecidableEq, Repr

/-- An acceptance in progress. -/
structure Acceptance (B : Type) where
  parent : B
  child : B
  stage : AcceptStage

/-- The chain manager, the trigger channel of capacity one, and the acceptances in progress. -/
structure ChainSystem (B : Type) where
  manager : ChainManager B
  trig : Bool
  accepting : List (Acceptance B)

/-- Change the chain that the manager works on. -/
def ChainManager.onChain (m : ChainManager B) (f : BlockChain B → BlockChain B) :
    ChainManager B :=
  { m with bc := f m.bc }

/-- The steps of acceptances and of the chain manager.  A block is added to the tails only
where the cache has room for it. -/
inductive SystemStep (d : Dpos) (g : B) : ChainSystem B → ChainSystem B → Prop
  | store (s : ChainSystem B) (parent child : B)
      (hj : Joins g s.manager.bc.blocks parent child) :
      SystemStep d g s { s with
        manager := s.manager.onChain (BlockChain.storeBlock child)
        accepting := ⟨parent, child, .stored⟩ :: s.accepting }
  | addTail (s : ChainSystem B) (a : Acceptance B) (l₁ l₂ : List (Acceptance B))
      (hacc : s.accepting = l₁ ++ a :: l₂) (hstage : a.stage = .stored)
      (hfits : s.manager.bc.tailBlocks.Fits (hash a.child)) :
      SystemStep d g s { s with
        manager := s.manager.onChain (BlockChain.addToTailBlocks a.child)
        accepting := l₁ ++ { a with stage := .added } :: l₂ }
  | removeTail (s : ChainSystem B) (a : Acceptance B) (l₁ l₂ : List (Acceptance B))
      (hacc : s.accepting = l₁ ++ a :: l₂) (hstage : a.stage = .added) :
      SystemStep d g s { s with
        manager := s.manager.onChain (BlockChain.removeFromTailBlocks a.parent)
        accepting := l₁ ++ { a with stage := .removed } :: l₂ }
  | send (s : ChainSystem B) (a : Acceptance B) (l₁ l₂ : List (Acceptance B))
      (hacc : s.accepting = l₁ ++ a :: l₂) (hstage : a.stage = .removed) :
      SystemStep d g s { s with trig := true, accepting := l₁ ++ l₂ }
  | wake (s : ChainSystem B) (htrig : s.trig = true) (hpc : s.manager.pc = .idle) :
      SystemStep d g s { s with trig := false, manager := s.manager.next d }
  | manage (s : ChainSystem B) (hpc : s.manager.pc ≠ .idle) :
      SystemStep d g s { s with manager := s.manager.next d }

/-- The system before the first block is accepted. -/
def ChainSystem.start (genesis : B) (tailCacheSize : ℕ) : ChainSystem B :=
  ⟨ChainManager.start genesis tailCacheSize, false, []⟩

/-! ## What holds in every state -/

/-- A block that the manager has seen in the current round: the main tail, a tail it has
listed, or the tail it has chosen. -/
def ChainManager.Seen (m : ChainManager B) (t : B) : Prop :=
  match m.pc with
  | .choosing tails _ => t ∈ tails ∨ t = m.bc.mainTailBlock
  | .setting newTail => t = newTail
  | _ => t = m.bc.mainTailBlock

/-- A tail that the manager has still to look up in the current round. -/
def ChainManager.Waiting (m : ChainManager B) (t : B) : Prop :=
  match m.pc with
  | .choosing _ keys => hash t ∈ keys ∧ m.bc.tailBlocks.Holds (hash t) t
  | _ => False

/-- The block is no higher than one the manager has seen, or it lies below one that will
still come to its attention. -/
def Covered (s : ChainSystem B) (b : B) : Prop :=
  (∃ t, s.manager.Seen t ∧ Ancestor (parentIn s.manager.bc.blocks) s.manager.bc.lib t ∧
    height b ≤ height t) ∨
  (∃ t, s.manager.Waiting t ∧ Ancestor (parentIn s.manager.bc.blocks) b t) ∨
  ∃ a ∈ s.accepting, Ancestor (parentIn s.manager.bc.blocks) b a.child

/-- The acceptance is about stored blocks. -/
structure Acceptance.Ok (blocks : Hash → Option B) (a : Acceptance B) : Prop where
  parent : Stored blocks a.parent
  child : Stored blocks a.child
  link : parentIn blocks a.child = some a.parent

/-- A block that is among the tails, or has a child, or whose acceptance has just begun. -/
def HasLeaf (s : ChainSystem B) (b : B) : Prop :=
  s.manager.bc.tailBlocks.Holds (hash b) b ∨
  (∃ c, Stored s.manager.bc.blocks c ∧ parentIn s.manager.bc.blocks c = some b) ∨
  ∃ a ∈ s.accepting, a.child = b ∧ a.stage = .stored

/-- What holds of the system between any two steps. -/
structure SystemOk (g : B) (s : ChainSystem B) : Prop where
  manager : ManagerOk g s.manager
  accepting : ∀ a ∈ s.accepting, a.Ok s.manager.bc.blocks
  bounded : ∃ n, ∀ b, Stored s.manager.bc.blocks b → height b ≤ n
  leaves : ∀ b, Stored s.manager.bc.blocks b →
    Ancestor (parentIn s.manager.bc.blocks) s.manager.bc.lib b → HasLeaf s b
  covered : s.trig = false → ∀ b, Stored s.manager.bc.blocks b →
    Ancestor (parentIn s.manager.bc.blocks) s.manager.bc.lib b → Covered s b

/-- In a list with one entry replaced, every other entry was there before. -/
lemma mem_replaced {α : Type} {l₁ l₂ : List α} {a a' x : α} (hx : x ∈ l₁ ++ a' :: l₂) :
    x = a' ∨ x ∈ l₁ ++ a :: l₂ := by
  simp only [List.mem_append, List.mem_cons] at hx ⊢
  tauto

namespace SystemOk

variable {g : B} {s : ChainSystem B}

/-- Above every block there is a tail or a block whose acceptance has just begun: going to a
child again and again ends, since heights are bounded. -/
lemma exists_leaf (h : SystemOk g s) {b : B} (hb : Stored s.manager.bc.blocks b)
    (hlib : Ancestor (parentIn s.manager.bc.blocks) s.manager.bc.lib b) :
    ∃ t, Ancestor (parentIn s.manager.bc.blocks) b t ∧
      (s.manager.bc.tailBlocks.Holds (hash t) t ∨ ∃ a ∈ s.accepting, a.child = t) := by
  obtain ⟨n, hn⟩ := h.bounded
  induction hk : n - height b using Nat.strong_induction_on generalizing b with
  | _ k ih =>
      rcases h.leaves b hb hlib with htail | ⟨c, hc, hcb⟩ | ⟨a, ha, hab, -⟩
      · exact ⟨b, .refl b, .inl htail⟩
      · have hheight := (h.manager.chain.store.ranked c hc b hcb).2
        have hle := hn c hc
        obtain ⟨t, hct, ht⟩ := ih (n - height c) (by omega) hc (.of_parent hcb hlib) rfl
        exact ⟨t, .trans (.of_parent hcb (.refl b)) hct, ht⟩
      · exact ⟨b, .refl b, .inr ⟨a, ha, hab⟩⟩

/-! ## Steps of an acceptance -/

lemma store (h : SystemOk g s) {parent child : B}
    (hj : Joins g s.manager.bc.blocks parent child) :
    SystemOk g { s with
      manager := s.manager.onChain (BlockChain.storeBlock child)
      accepting := ⟨parent, child, .stored⟩ :: s.accepting } where
  manager := h.manager.storeBlock hj
  accepting := by
    intro a ha
    rcases List.mem_cons.1 ha with rfl | ha
    · exact ⟨hj.stored hj.parent_stored, Function.update_self _ _ _, hj.parentIn_child⟩
    · obtain ⟨h₁, h₂, h₃⟩ := h.accepting a ha
      exact ⟨hj.stored h₁, hj.stored h₂, hj.grows h₃⟩
  bounded := by
    obtain ⟨n, hn⟩ := h.bounded
    refine ⟨max n (height child), fun b hb => ?_⟩
    rcases Joins.stored_cases hb with rfl | hb
    · exact le_max_right _ _
    · exact (hn b hb).trans (le_max_left _ _)
  leaves b hb hlib := by
    rcases Joins.stored_cases hb with rfl | hb
    · exact .inr (.inr ⟨_, List.mem_cons_self, rfl, rfl⟩)
    · have hlib' := (hj.ancestor_iff h.manager.chain.store hb).1 hlib
      rcases h.leaves b hb hlib' with htail | ⟨c, hc, hcb⟩ | ⟨a, ha, hab⟩
      · exact .inl htail
      · exact .inr (.inl ⟨c, hj.stored hc, hj.grows hcb⟩)
      · exact .inr (.inr ⟨a, List.mem_cons_of_mem _ ha, hab⟩)
  covered htrig b hb hlib := by
    rcases Joins.stored_cases hb with rfl | hb
    · exact .inr (.inr ⟨_, List.mem_cons_self, .refl _⟩)
    · have hlib' := (hj.ancestor_iff h.manager.chain.store hb).1 hlib
      rcases h.covered htrig b hb hlib' with ⟨t, ht, hlt, hle⟩ | ⟨t, ht, hbt⟩ | ⟨a, ha, hba⟩
      · exact .inl ⟨t, ht, hj.ancestor hlt, hle⟩
      · exact .inr (.inl ⟨t, ht, hj.ancestor hbt⟩)
      · exact .inr (.inr ⟨a, List.mem_cons_of_mem _ ha, hj.ancestor hba⟩)

lemma addTail (h : SystemOk g s) {a : Acceptance B} {l₁ l₂ : List (Acceptance B)}
    (hacc : s.accepting = l₁ ++ a :: l₂)
    (hfits : s.manager.bc.tailBlocks.Fits (hash a.child)) :
    SystemOk g { s with
      manager := s.manager.onChain (BlockChain.addToTailBlocks a.child)
      accepting := l₁ ++ { a with stage := .added } :: l₂ } := by
  have haok : a.Ok s.manager.bc.blocks := h.accepting a (by rw [hacc]; simp)
  -- the cached tails stay, since there is room
  have hholds : ∀ t, s.manager.bc.tailBlocks.Holds (hash t) t →
      (s.manager.bc.tailBlocks.add (hash a.child) a.child).Holds (hash t) t := by
    intro t ht
    rw [Lru.add_holds hfits]
    by_cases heq : hash t = hash a.child
    · exact .inl ⟨heq, StoreOk.eq_of_hash (h.manager.tails _ _ ht).2 haok.child heq⟩
    · exact .inr ⟨heq, ht⟩
  refine ⟨h.manager.addTail haok.child, ?_, h.bounded, ?_, ?_⟩
  · intro x hx
    rcases mem_replaced (a := a) hx with rfl | hx
    · exact ⟨haok.parent, haok.child, haok.link⟩
    · exact h.accepting x (hacc ▸ hx)
  · intro b hb hlib
    rcases h.leaves b hb hlib with htail | hchild | ⟨x, hx, hxb, hst⟩
    · exact .inl (hholds b htail)
    · exact .inr (.inl hchild)
    · rw [hacc] at hx
      rcases mem_replaced hx with rfl | hx
      · subst hxb
        exact .inl ((Lru.add_holds hfits).2 (.inl ⟨rfl, rfl⟩))
      · exact .inr (.inr ⟨x, hx, hxb, hst⟩)
  · intro htrig b hb hlib
    rcases h.covered htrig b hb hlib with hseen | ⟨t, ht, hbt⟩ | ⟨x, hx, hbx⟩
    · exact .inl hseen
    · refine .inr (.inl ⟨t, ?_, hbt⟩)
      unfold ChainManager.Waiting at ht ⊢
      cases hpc : s.manager.pc <;> simp only [hpc, ChainManager.onChain] at ht ⊢
      exact ⟨ht.1, hholds t ht.2⟩
    · rw [hacc] at hx
      rcases mem_replaced hx with rfl | hx
      · exact .inr (.inr ⟨_, List.mem_append_right _ List.mem_cons_self, hbx⟩)
      · exact .inr (.inr ⟨x, hx, hbx⟩)

lemma removeTail (h : SystemOk g s) {a : Acceptance B} {l₁ l₂ : List (Acceptance B)}
    (hacc : s.accepting = l₁ ++ a :: l₂) (hstage : a.stage = .added) :
    SystemOk g { s with
      manager := s.manager.onChain (BlockChain.removeFromTailBlocks a.parent)
      accepting := l₁ ++ { a with stage := .removed } :: l₂ } := by
  have haok : a.Ok s.manager.bc.blocks := h.accepting a (by rw [hacc]; simp)
  have hne : ∀ t, s.manager.bc.tailBlocks.Holds (hash t) t → t ≠ a.parent →
      (s.manager.bc.tailBlocks.remove (hash a.parent)).Holds (hash t) t := by
    intro t ht hneq
    refine Lru.remove_holds.2 ⟨fun heq => hneq ?_, ht⟩
    exact StoreOk.eq_of_hash (h.manager.tails _ _ ht).2 haok.parent heq
  refine ⟨h.manager.removeTail a.parent, ?_, h.bounded, ?_, ?_⟩
  · intro x hx
    rcases mem_replaced (a := a) hx with rfl | hx
    · exact ⟨haok.parent, haok.child, haok.link⟩
    · exact h.accepting x (hacc ▸ hx)
  · intro b hb hlib
    by_cases hbp : b = a.parent
    · exact .inr (.inl ⟨a.child, haok.child, hbp ▸ haok.link⟩)
    · rcases h.leaves b hb hlib with htail | hchild | ⟨x, hx, hxb, hst⟩
      · exact .inl (hne b htail hbp)
      · exact .inr (.inl hchild)
      · rw [hacc] at hx
        rcases mem_replaced hx with rfl | hx
        · rw [hstage] at hst
          cases hst
        · exact .inr (.inr ⟨x, hx, hxb, hst⟩)
  · intro htrig b hb hlib
    rcases h.covered htrig b hb hlib with hseen | ⟨t, ht, hbt⟩ | ⟨x, hx, hbx⟩
    · exact .inl hseen
    · by_cases htp : t = a.parent
      · -- the parent is gone from the tails, but its child has yet to send the trigger
        subst htp
        exact .inr (.inr ⟨_, List.mem_append_right _ List.mem_cons_self,
          hbt.trans (.of_parent haok.link (.refl _))⟩)
      · refine .inr (.inl ⟨t, ?_, hbt⟩)
        unfold ChainManager.Waiting at ht ⊢
        cases hpc : s.manager.pc <;> simp only [hpc, ChainManager.onChain] at ht ⊢
        exact ⟨ht.1, hne t ht.2 htp⟩
    · rw [hacc] at hx
      rcases mem_replaced hx with rfl | hx
      · exact .inr (.inr ⟨_, List.mem_append_right _ List.mem_cons_self, hbx⟩)
      · exact .inr (.inr ⟨x, hx, hbx⟩)

lemma send (h : SystemOk g s) {a : Acceptance B} {l₁ l₂ : List (Acceptance B)}
    (hacc : s.accepting = l₁ ++ a :: l₂) (hstage : a.stage = .removed) :
    SystemOk g { s with trig := true, accepting := l₁ ++ l₂ } := by
  refine ⟨h.manager, ?_, h.bounded, ?_, fun htrig => by cases htrig⟩
  · intro x hx
    refine h.accepting x ?_
    rw [hacc]
    simp only [List.mem_append, List.mem_cons] at hx ⊢
    tauto
  · intro b hb hlib
    rcases h.leaves b hb hlib with htail | hchild | ⟨x, hx, hxb, hst⟩
    · exact .inl htail
    · exact .inr (.inl hchild)
    · refine .inr (.inr ⟨x, ?_, hxb, hst⟩)
      rw [hacc, List.mem_append, List.mem_cons] at hx
      rcases hx with hx | rfl | hx
      · exact List.mem_append_left _ hx
      · rw [hstage] at hst
        cases hst
      · exact List.mem_append_right _ hx

end SystemOk

/-! ## Steps of the manager -/

/-- The manager stores and deletes no block. -/
lemma ManagerOk.next_blocks {g : B} {m : ChainManager B} (h : ManagerOk g m) (d : Dpos) :
    (m.next d).bc.blocks = m.bc.blocks := by
  have hp := h.pc
  unfold PcOk at hp
  unfold ChainManager.next
  cases hpc : m.pc with
  | idle => rfl
  | choosing tails keys =>
      cases keys with
      | cons k keys => rfl
      | nil => dsimp only; split_ifs <;> rfl
  | setting newTail =>
      simp only [hpc] at hp
      obtain ⟨res, bc', hset, -, hblocks, -⟩ := h.chain.setTailBlock hp.2.2.1 hp.2.2.2.1
      simp only [hset]
      exact hblocks
  | finding => dsimp only; split_ifs <;> rfl
  | fixing newLIB => dsimp only; split_ifs <;> rfl
  | pruning tails keys => cases keys <;> rfl
  | cutting tails =>
      cases tails with
      | nil => rfl
      | cons t tails =>
          dsimp only
          rcases m.bc.cutTail_cases t with heq | ⟨-, heq⟩ <;> rw [heq]
          rfl

/-- The manager forgets a tail only if it is forked before the LIB. -/
lemma ManagerOk.next_holds {g : B} {m : ChainManager B} (h : ManagerOk g m) (d : Dpos) {b : B}
    (hlib : Ancestor (parentIn m.bc.blocks) m.bc.lib b)
    (hb : m.bc.tailBlocks.Holds (hash b) b) :
    (m.next d).bc.tailBlocks.Holds (hash b) b := by
  have hp := h.pc
  unfold PcOk at hp
  unfold ChainManager.next
  cases hpc : m.pc with
  | idle => exact hb
  | choosing tails keys =>
      cases keys with
      | cons k keys => exact (Lru.get_holds h.tails.functional).2 hb
      | nil => dsimp only; split_ifs <;> exact hb
  | setting newTail =>
      simp only [hpc] at hp
      obtain ⟨res, bc', hset, -, -, -, htails, -⟩ :=
        h.chain.setTailBlock hp.2.2.1 hp.2.2.2.1
      simp only [hset, htails]
      exact hb
  | finding => dsimp only; split_ifs <;> exact hb
  | fixing newLIB => dsimp only; split_ifs <;> exact hb
  | pruning tails keys =>
      cases keys with
      | cons k keys => exact (Lru.get_holds h.tails.functional).2 hb
      | nil => exact hb
  | cutting tails =>
      cases tails with
      | nil => exact hb
      | cons t tails =>
          simp only [hpc] at hp
          dsimp only
          rcases m.bc.cutTail_cases t with heq | ⟨hforked, heq⟩
          · rw [heq]
            exact hb
          · rw [heq]
            have hst := hp.2.2 t List.mem_cons_self
            refine Lru.remove_holds.2 ⟨fun hhash => ?_, hb⟩
            obtain rfl := StoreOk.eq_of_hash (h.tails _ _ hb).2 hst hhash
            exact (h.chain.isForkedBeforeLIB_iff hst).1 hforked hlib

namespace SystemOk

variable {g : B} {s : ChainSystem B}

/-- A round that begins has every tail before it: each block above the LIB lies below a tail
still to be looked up, or below a block whose acceptance has yet to send. -/
lemma covered_wake (h : SystemOk g s) (d : Dpos) (hpc : s.manager.pc = .idle) {b : B}
    (hb : Stored s.manager.bc.blocks b)
    (hlib : Ancestor (parentIn s.manager.bc.blocks) s.manager.bc.lib b) :
    Covered { s with trig := false, manager := s.manager.next d } b := by
  have hnext : s.manager.next d =
      { s.manager with pc := .choosing [] s.manager.bc.tailBlocks.keys } := by
    unfold ChainManager.next
    rw [hpc]
  obtain ⟨t, hbt, ht | ⟨a, ha, rfl⟩⟩ := h.exists_leaf hb hlib
  · refine .inr (.inl ⟨t, ?_, ?_⟩) <;> rw [hnext]
    · exact ⟨Lru.mem_keys_of_holds ht, ht⟩
    · exact hbt
  · refine .inr (.inr ⟨a, ha, ?_⟩)
    rw [hnext]
    exact hbt

end SystemOk

/-- No tail that the manager has listed is higher than its choice, nor is the main tail. -/
lemma ManagerOk.height_le_forkChoice {g : B} {m : ChainManager B} (h : ManagerOk g m)
    {tails : List B} (hst : ∀ t ∈ tails, Stored m.bc.blocks t) {t : B}
    (ht : t ∈ tails ∨ t = m.bc.mainTailBlock)
    (hlib : Ancestor (parentIn m.bc.blocks) m.bc.lib t) :
    height t ≤ height (m.bc.forkChoice tails) := by
  obtain ⟨-, hmain, hmax⟩ := m.bc.forkChoice_spec tails
  rcases ht with ht | rfl
  · refine hmax t ht ?_
    by_contra hf
    rw [Bool.not_eq_false] at hf
    exact (h.chain.isForkedBeforeLIB_iff (hst t ht)).1 hf hlib
  · exact hmain

/-- What the manager has seen it does not lose: a step leaves it with a block that is at
least as high. -/
lemma ManagerOk.seen_next {g : B} {m : ChainManager B} (h : ManagerOk g m) (d : Dpos) {t : B}
    (ht : m.Seen t) (hlib : Ancestor (parentIn m.bc.blocks) m.bc.lib t) :
    ∃ t', (m.next d).Seen t' ∧
      Ancestor (parentIn (m.next d).bc.blocks) (m.next d).bc.lib t' ∧ height t ≤ height t' := by
  have hp := h.pc
  obtain ⟨hok, hadv⟩ := h.next d
  have hmain := hok.chain.lib
  unfold PcOk at hp
  unfold ChainManager.Seen at ht ⊢
  unfold ChainManager.next at hmain hadv ⊢
  cases hpc : m.pc with
  | idle =>
      simp only [hpc] at ht
      exact ⟨t, .inr ht, hlib, le_rfl⟩
  | choosing tails keys =>
      simp only [hpc] at ht hp
      cases keys with
      | cons k keys =>
          exact ⟨t, ht.imp_left (List.mem_append_left _), hlib, le_rfl⟩
      | nil =>
          obtain ⟨htail, -, hst⟩ := hp
          have hle := h.height_le_forkChoice hst ht hlib
          simp only [hpc] at hmain ⊢
          split_ifs at hmain ⊢ with heq
          · refine ⟨m.bc.mainTailBlock, rfl, hmain, ?_⟩
            by_cases hne : m.bc.forkChoice tails = m.bc.mainTailBlock
            · rwa [hne] at hle
            · obtain ⟨hfst, -, -⟩ := h.forkChoice_spec hst hne
              rw [htail] at heq
              rwa [← StoreOk.eq_of_hash h.chain.tail hfst heq] at hle
          · by_cases hne : m.bc.forkChoice tails = m.bc.mainTailBlock
            · exact absurd (by rw [hne, htail]) heq
            · exact ⟨_, rfl, (h.forkChoice_spec hst hne).2.1, hle⟩
  | setting newTail =>
      simp only [hpc] at ht hp
      subst ht
      obtain ⟨res, bc', hset, hc', -, -, -, hnew, -⟩ := h.chain.setTailBlock hp.2.2.1 hp.2.2.2.1
      simp only [hset]
      exact ⟨t, hnew.symm, hnew ▸ hc'.lib, le_rfl⟩
  | finding =>
      simp only [hpc] at ht hmain hadv ⊢
      split_ifs at hmain hadv ⊢
      · exact ⟨_, rfl, hmain, ht ▸ hadv.height_le⟩
      · exact ⟨_, rfl, hmain, ht ▸ hadv.height_le⟩
  | fixing newLIB =>
      simp only [hpc] at ht hmain hadv ⊢
      split_ifs at hmain hadv ⊢
      · exact ⟨_, rfl, hmain, ht ▸ hadv.height_le⟩
      · exact ⟨_, rfl, hmain, ht ▸ hadv.height_le⟩
  | pruning tails keys =>
      simp only [hpc] at ht hmain hadv
      cases keys <;> exact ⟨_, rfl, hmain, ht ▸ hadv.height_le⟩
  | cutting tails =>
      simp only [hpc] at ht hmain hadv
      cases tails <;> exact ⟨_, rfl, hmain, ht ▸ hadv.height_le⟩

/-- A tail that is still to be looked up is looked up, or is still to be looked up. -/
lemma ManagerOk.waiting_next {g : B} {m : ChainManager B} (h : ManagerOk g m) (d : Dpos) {t : B}
    (ht : m.Waiting t) (hlib : Ancestor (parentIn m.bc.blocks) m.bc.lib t) :
    (m.next d).Waiting t ∨ ((m.next d).Seen t ∧
      Ancestor (parentIn (m.next d).bc.blocks) (m.next d).bc.lib t) := by
  unfold ChainManager.Waiting at ht
  cases hpc : m.pc with
  | choosing tails keys =>
      simp only [hpc] at ht
      obtain ⟨hkey, hholds⟩ := ht
      cases keys with
      | nil => simp at hkey
      | cons k keys =>
          have hnext : m.next d = { m.setTails (m.bc.tailBlocks.get k).2 with
              pc := .choosing (tails ++ (m.bc.tailBlocks.get k).1.toList) keys } := by
            unfold ChainManager.next
            rw [hpc]
          rw [hnext]
          rcases List.mem_cons.1 hkey with rfl | hkey
          · refine .inr ⟨.inl (List.mem_append_right _ ?_), hlib⟩
            rw [Lru.get_fst, Option.mem_toList]
            obtain ⟨v, hv⟩ := Option.ne_none_iff_exists'.1 (Lru.peek_ne_none hholds)
            rw [hv, h.tails.functional _ _ _ hholds (Lru.holds_of_peek hv)]
          · exact .inl ⟨hkey, (Lru.get_holds h.tails.functional).2 hholds⟩
  | _ => simp [hpc] at ht

namespace SystemOk

variable {g : B} {s : ChainSystem B}

/-- A step of the manager keeps the coverage. -/
lemma covered_next (h : SystemOk g s) (d : Dpos) {b : B}
    (hlib : Ancestor (parentIn s.manager.bc.blocks) s.manager.bc.lib b)
    (hcov : Covered s b) : Covered { s with manager := s.manager.next d } b := by
  have hblocks := h.manager.next_blocks d
  rcases hcov with ⟨t, ht, hlt, hle⟩ | ⟨t, ht, hbt⟩ | ⟨a, ha, hba⟩
  · obtain ⟨t', ht', hlt', hle'⟩ := h.manager.seen_next d ht hlt
    exact .inl ⟨t', ht', hlt', hle.trans hle'⟩
  · rcases h.manager.waiting_next d ht (hlib.trans hbt) with hw | ⟨hseen, hlt⟩
    · refine .inr (.inl ⟨t, hw, ?_⟩)
      dsimp only
      rwa [hblocks]
    · refine .inl ⟨t, hseen, hlt, h.manager.chain.store.ranked.rank_le ?_ hbt⟩
      unfold ChainManager.Waiting at ht
      cases hpc : s.manager.pc <;> simp only [hpc] at ht
      exact (h.manager.tails _ _ ht.2).2
  · refine .inr (.inr ⟨a, ha, ?_⟩)
    dsimp only
    rwa [hblocks]

/-- A step of the manager, from the receipt of a trigger to the end of the round. -/
lemma next (h : SystemOk g s) (d : Dpos) {trig : Bool}
    (htrig : trig = false → s.trig = false ∨ s.manager.pc = .idle) :
    SystemOk g { s with trig := trig, manager := s.manager.next d } := by
  obtain ⟨hok, hadv⟩ := h.manager.next d
  have hblocks := h.manager.next_blocks d
  -- a block above the new LIB is above the old one
  have hlib : ∀ b, Ancestor (parentIn (s.manager.next d).bc.blocks) (s.manager.next d).bc.lib b →
      Ancestor (parentIn s.manager.bc.blocks) s.manager.bc.lib b := by
    intro b hb
    have := hadv.lib.trans hb
    rwa [hblocks] at this
  refine ⟨hok, ?_, ?_, ?_, ?_⟩
  · dsimp only
    rw [hblocks]
    exact h.accepting
  · dsimp only
    rw [hblocks]
    exact h.bounded
  · intro b hb hb'
    dsimp only at hb hb'
    rw [hblocks] at hb
    rcases h.leaves b hb (hlib b hb') with htail | hchild | hacc
    · exact .inl (h.manager.next_holds d (hlib b hb') htail)
    · refine .inr (.inl ?_)
      dsimp only
      rw [hblocks]
      exact hchild
    · exact .inr (.inr hacc)
  · intro hfalse b hb hb'
    dsimp only at hb hb'
    rw [hblocks] at hb
    rcases htrig hfalse with hold | hidle
    · exact h.covered_next d (hlib b hb') (h.covered hold b hb (hlib b hb'))
    · exact h.covered_wake d hidle hb (hlib b hb')

/-- Every step keeps what holds in every state. -/
lemma step {d : Dpos} {s' : ChainSystem B} (h : SystemOk g s) (hstep : SystemStep d g s s') :
    SystemOk g s' := by
  cases hstep with
  | store parent child hj => exact h.store hj
  | addTail a l₁ l₂ hacc hstage hfits => exact h.addTail hacc hfits
  | removeTail a l₁ l₂ hacc hstage => exact h.removeTail hacc hstage
  | send a l₁ l₂ hacc hstage => exact h.send hacc hstage
  | wake htrig hpc => exact h.next d fun _ => .inr hpc
  | manage hpc => exact h.next d .inl

lemma start (hg : IsGenesis g) {size : ℕ} (hsize : 0 < size) :
    SystemOk g (ChainSystem.start g size) := by
  have hok := ManagerOk.start hg size
  have hone : ∀ b, Stored (ChainManager.start g size).bc.blocks b → b = g :=
    fun b hb => (BlockChain.setup_blocks.1 hb).2
  refine ⟨hok, by simp [ChainSystem.start], ⟨1, ?_⟩, ?_, ?_⟩
  · intro b hb
    rw [hone b hb, hg.height_eq]
  · intro b hb _
    rw [hone b hb]
    refine .inl ((Lru.add_holds ?_).2 (.inl ⟨rfl, rfl⟩))
    simpa [Lru.Fits, Lru.remove, Lru.new] using hsize
  · intro _ b hb hlib
    rw [hone b hb] at hlib ⊢
    exact .inl ⟨g, rfl, hlib, le_rfl⟩

/-- Every run keeps what holds in every state. -/
lemma run {d : Dpos} {s' : ChainSystem B} (h : SystemOk g s)
    (hrun : Relation.ReflTransGen (SystemStep d g) s s') : SystemOk g s' := by
  induction hrun with
  | refl => exact h
  | tail _ hstep ih => exact ih.step hstep

end SystemOk

/-- **Fork choice has no lost wake-up.**  Whenever no trigger is waiting, no acceptance is in
progress and the chain manager is idle, the main tail is a highest block among the stored
blocks that are not forked before the LIB. -/
theorem main_tail_is_highest (d : Dpos) {g : B} (hg : IsGenesis g) {size : ℕ} (hsize : 0 < size)
    {s : ChainSystem B}
    (hrun : Relation.ReflTransGen (SystemStep d g) (ChainSystem.start g size) s)
    (htrig : s.trig = false) (hacc : s.accepting = []) (hpc : s.manager.pc = .idle) :
    (Stored s.manager.bc.blocks s.manager.bc.mainTailBlock ∧
      s.manager.bc.isForkedBeforeLIB s.manager.bc.mainTailBlock = false) ∧
    ∀ b, Stored s.manager.bc.blocks b → s.manager.bc.isForkedBeforeLIB b = false →
      height b ≤ height s.manager.bc.mainTailBlock := by
  have h := (SystemOk.start hg hsize).run hrun
  have hfork : ∀ b, Stored s.manager.bc.blocks b →
      (s.manager.bc.isForkedBeforeLIB b = false ↔
        Ancestor (parentIn s.manager.bc.blocks) s.manager.bc.lib b) := by
    intro b hb
    rw [← Bool.not_eq_true, h.manager.chain.isForkedBeforeLIB_iff hb, not_not]
  refine ⟨⟨h.manager.chain.tail, (hfork _ h.manager.chain.tail).2 h.manager.chain.lib⟩, ?_⟩
  intro b hb hnf
  rcases h.covered htrig b hb ((hfork b hb).1 hnf) with ⟨t, ht, -, hle⟩ | ⟨t, ht, -⟩ | ⟨a, ha, -⟩
  · unfold ChainManager.Seen at ht
    simp only [hpc] at ht
    rwa [ht] at hle
  · unfold ChainManager.Waiting at ht
    simp only [hpc] at ht
  · rw [hacc] at ha
    cases ha

/-- One block is accepted, the trigger wakes the manager, and the manager makes its round. -/
lemma BareBlock.run_accept :
    Relation.ReflTransGen (SystemStep ⟨3, by decide⟩ (⟨[0], [], 1, 0⟩ : BareBlock))
      (ChainSystem.start ⟨[0], [], 1, 0⟩ 8) ⟨oneBlock 5, false, []⟩ := by
  have haccept : Relation.ReflTransGen (SystemStep ⟨3, by decide⟩ (⟨[0], [], 1, 0⟩ : BareBlock))
      (ChainSystem.start ⟨[0], [], 1, 0⟩ 8) ⟨oneBlock 0, true, []⟩ := by
    refine .tail (.tail (.tail (.single (.store _ _ _ BareBlock.joins_genesis))
      (.addTail _ _ [] [] rfl rfl ?_)) (.removeTail _ _ [] [] rfl rfl)) (.send _ _ [] [] rfl rfl)
    decide
  have hwake : Relation.ReflTransGen (SystemStep ⟨3, by decide⟩ (⟨[0], [], 1, 0⟩ : BareBlock))
      (ChainSystem.start ⟨[0], [], 1, 0⟩ 8) ⟨oneBlock 1, false, []⟩ :=
    haccept.tail (.wake _ rfl (by decide))
  exact (((hwake.tail (.manage _ (by decide))).tail (.manage _ (by decide))).tail
    (.manage _ (by decide))).tail (.manage _ (by decide))

/-- After the first accepted block the manager has made it the main tail. -/
theorem accepted_block_is_highest :
    (BareBlock.oneBlock 5).bc.mainTailBlock = ⟨[1], [0], 2, 3⟩ ∧
    ∀ b, Stored (BareBlock.oneBlock 5).bc.blocks b →
      (BareBlock.oneBlock 5).bc.isForkedBeforeLIB b = false →
      height b ≤ height (BareBlock.oneBlock 5).bc.mainTailBlock :=
  ⟨by decide, (main_tail_is_highest ⟨3, by decide⟩ ⟨by decide, by decide⟩ (by decide)
    BareBlock.run_accept rfl rfl (by decide)).2⟩

end GoMedibloc
