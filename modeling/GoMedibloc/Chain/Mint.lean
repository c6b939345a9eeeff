import GoMedibloc.Chain.Wakeup

/-!
# Minting blocks

The minting goroutine takes a tick from its ticker, reads the main tail, and checks against it
whether a block is due in the next slot and whose turn it is.  It then collects transactions
until the deadline, seals the block, sleeps until the slot, and pushes the block to the chain
like any other acceptance.  The chain manager makes the pushed block the main tail later, in
its own goroutine.

The ticker holds one tick.  A tick that fires while a block is being made waits there and is
handled as soon as the block is pushed, and it may belong to the slot of that very block.  The
only guard against a second block for the slot is the comparison with the main tail's
timestamp.  So everything depends on whether the main tail has reached the slot when such a
tick is handled (`CaughtUp`): if it always has, no proposer of the node ever signs two blocks
for one slot; where it has not, the call mints a second time
(`no_equivocation_when_caught_up`).  Nothing in the code makes the minting goroutine wait for
the chain manager, and `stale_tail_equivocates` is a run in which it does not.
-/

namespace GoMedibloc

variable {B A T : Type} [HashableBlock B]

/-! ## Times and slots -/

/-- `time.Second`, in nanoseconds. -/
def second : ℤ := 1000000000

/-- `BlockInterval`, in nanoseconds. -/
def slotInterval : ℤ := blockInterval * second

/-- `minMintDuration`, in nanoseconds. -/
def minMintDuration : ℤ := 500000000

/-- `maxMintDuration`, in nanoseconds. -/
def maxMintDuration : ℤ := 1100000000

/-- `Time.Unix`: the full seconds of a time given in nanoseconds. -/
def unix (t : ℤ) : ℤ := t / second

/-- `lastMintSlot`. -/
def lastMintSlot (t : ℤ) : ℤ :=
  ((unix t * second - second).tdiv slotInterval * slotInterval).tdiv second * second

/-- `nextMintSlot`. -/
def nextMintSlot (t : ℤ) : ℤ :=
  ((unix t * second + slotInterval - second).tdiv slotInterval * slotInterval).tdiv second
    * second

/-- `mintDeadline`. -/
def mintDeadline (t : ℤ) : ℤ :=
  if unix (t + maxMintDuration) < unix (nextMintSlot t) then t + maxMintDuration
  else nextMintSlot t

/-- Why `mintBlock` makes no block. -/
inductive MintErr
  | blockMintedInNextSlot
  | waitingBlockInLastSlot
  | invalidBlockProposer
deriving DecidableEq, Repr

/-- `checkDeadline`. -/
def checkDeadline (tail : B) (t : ℤ) : Except MintErr ℤ :=
  if unix (nextMintSlot t) ≤ timestamp tail then .error .blockMintedInNextSlot
  else if timestamp tail = unix (lastMintSlot t) then .ok (mintDeadline t)
  else if nextMintSlot t - t < minMintDuration then .ok (mintDeadline t)
  else .error .waitingBlockInLastSlot

/-- A call that passes `checkDeadline` has a main tail before its slot. -/
lemma timestamp_lt_of_checkDeadline {tail : B} {t deadline : ℤ}
    (h : checkDeadline tail t = .ok deadline) : timestamp tail < unix (nextMintSlot t) := by
  unfold checkDeadline at h
  by_contra hle
  rw [if_pos (not_lt.1 hle)] at h
  cases h

/-! ## The minting goroutine -/

/-- What a node mints with: the proposer that a parent block's dynasty gives to a time, the
proposers whose keys the node has, and the block that `makeBlock` and `Seal` make of a parent,
a timestamp and a list of transactions, if they succeed. -/
structure Minter (B A T : Type) [HashableBlock B] where
  findMintProposer : ℤ → B → Option A
  isMine : A → Bool
  makeBlock : A → B → ℤ → List T → Option B
  makeBlock_parent : ∀ {p tail ts txs b},
    makeBlock p tail ts txs = some b → parentHash b = hash tail
  makeBlock_timestamp : ∀ {p tail ts txs b},
    makeBlock p tail ts txs = some b → timestamp b = ts

/-- The checks of `mintBlock`: the deadline and the proposer of the block to make. -/
def Minter.mintCheck (m : Minter B A T) (tail : B) (t : ℤ) : Except MintErr (ℤ × A) := do
  let deadline ← checkDeadline tail t
  match m.findMintProposer (unix deadline) tail with
  | some p => if m.isMine p then .ok (deadline, p) else .error .invalidBlockProposer
  | none => .error .invalidBlockProposer

/-- Where the minting goroutine is: at the select of its loop, in the loop of `makeBlock`, at
the sleep before the push, or in `directPush`. -/
inductive MintPc (B A T : Type)
  | idle
  | making (tick deadline : ℤ) (tail : B) (proposer : A) (txs : List T)
  | sleeping (tick : ℤ) (proposer : A) (block : B)
  | pushing (block : B)

/-- A node that mints: its chain, the time, the tick waiting in the ticker's channel, the
minting goroutine, and the blocks it has pushed so far with their proposers, newest first. -/
structure MintNode (B A T : Type) where
  system : ChainSystem B
  now : ℤ
  ticker : Option ℤ
  pc : MintPc B A T
  pushed : List (A × B)

/-- The main tail that `TailBlock` returns. -/
def MintNode.tail (s : MintNode B A T) : B := s.system.manager.bc.mainTailBlock

/-- The steps of a node.  `R` are the steps of its other goroutines, among them the chain
manager and the acceptances in progress.  A tick that finds the channel full is dropped, so it
changes nothing.  `ok` restricts the calls of `mintBlock` that go ahead. -/
inductive MintStep (m : Minter B A T) (R : ChainSystem B → ChainSystem B → Prop)
    (ok : MintNode B A T → ℤ → Prop) : MintNode B A T → MintNode B A T → Prop
  | other (s : MintNode B A T) (system : ChainSystem B) (hstep : R s.system system) :
      MintStep m R ok s { s with system := system }
  | wait (s : MintNode B A T) (t : ℤ) (ht : s.now ≤ t) :
      MintStep m R ok s { s with now := t }
  | tick (s : MintNode B A T) (hticker : s.ticker = none) :
      MintStep m R ok s { s with ticker := some s.now }
  | refuse (s : MintNode B A T) (t : ℤ) (e : MintErr) (hpc : s.pc = .idle)
      (hticker : s.ticker = some t) (hcheck : m.mintCheck s.tail t = .error e) :
      MintStep m R ok s { s with ticker := none }
  | begin (s : MintNode B A T) (t deadline : ℤ) (p : A) (hpc : s.pc = .idle)
      (hticker : s.ticker = some t) (hcheck : m.mintCheck s.tail t = .ok (deadline, p))
      (hok : ok s t) :
      MintStep m R ok s { s with ticker := none, pc := .making t deadline s.tail p [] }
  | collect (s : MintNode B A T) (t deadline : ℤ) (tail : B) (p : A) (txs : List T) (tx : T)
      (hpc : s.pc = .making t deadline tail p txs) (hnow : s.now < deadline) :
      MintStep m R ok s { s with pc := .making t deadline tail p (txs ++ [tx]) }
  | finish (s : MintNode B A T) (t deadline : ℤ) (tail : B) (p : A) (txs : List T) (b : B)
      (hpc : s.pc = .making t deadline tail p txs) (hnow : deadline ≤ s.now)
      (hmake : m.makeBlock p tail (unix (nextMintSlot t)) txs = some b) :
      MintStep m R ok s { s with pc := .sleeping t p b }
  | fail (s : MintNode B A T) (t deadline : ℤ) (tail : B) (p : A) (txs : List T)
      (hpc : s.pc = .making t deadline tail p txs) :
      MintStep m R ok s { s with pc := .idle }
  | push (s : MintNode B A T) (t : ℤ) (p : A) (b parent : B) (hpc : s.pc = .sleeping t p b)
      (hnow : nextMintSlot t ≤ s.now)
      (hparent : s.system.manager.bc.blockByHash (parentHash b) = some parent) :
      MintStep m R ok s { s with
        system := { s.system with
          manager := s.system.manager.onChain (BlockChain.storeBlock b)
          accepting := ⟨parent, b, .stored⟩ :: s.system.accepting }
        pc := .pushing b
        pushed := (p, b) :: s.pushed }
  | pushFail (s : MintNode B A T) (t : ℤ) (p : A) (b : B) (hpc : s.pc = .sleeping t p b)
      (hnow : nextMintSlot t ≤ s.now) :
      MintStep m R ok s { s with pc := .idle }
  | done (s : MintNode B A T) (b : B) (hpc : s.pc = .pushing b)
      (hdone : ∀ a ∈ s.system.accepting, hash a.child ≠ hash b) :
      MintStep m R ok s { s with pc := .idle }

/-- The node before its first tick. -/
def MintNode.start (system : ChainSystem B) (now : ℤ) : MintNode B A T :=
  ⟨system, now, none, .idle, []⟩

/-- Two different blocks of one proposer for one timestamp have been pushed. -/
def MintNode.Equivocates (s : MintNode B A T) : Prop :=
  ∃ x ∈ s.pushed, ∃ y ∈ s.pushed,
    x.1 = y.1 ∧ timestamp x.2 = timestamp y.2 ∧ hash x.2 ≠ hash y.2

/-- If the node has pushed a block for the slot of the tick, the main tail has reached that
slot. -/
def CaughtUp (s : MintNode B A T) (t : ℤ) : Prop :=
  (∃ x ∈ s.pushed, timestamp x.2 = unix (nextMintSlot t)) →
    unix (nextMintSlot t) ≤ timestamp s.tail

/-! ## One block for each slot -/

/-- The timestamp of the block in the making, while none has been pushed for it. -/
def MintPc.slot : MintPc B A T → Option ℤ
  | .making t _ _ _ _ => some (unix (nextMintSlot t))
  | .sleeping _ _ b => some (timestamp b)
  | _ => none

/-- What holds between any two steps of a node whose main tail keeps up. -/
structure MintOk (s : MintNode B A T) : Prop where
  /-- the pushed blocks have different timestamps -/
  distinct : s.pushed.Pairwise fun x y => timestamp x.2 ≠ timestamp y.2
  /-- no block has been pushed for the slot of the one in the making -/
  unused : ∀ ts ∈ s.pc.slot, ∀ x ∈ s.pushed, timestamp x.2 ≠ ts

namespace MintOk

variable {m : Minter B A T} {R : ChainSystem B → ChainSystem B → Prop} {s s' : MintNode B A T}

/-- A call that passes its checks has a main tail before its slot. -/
lemma timestamp_lt_of_mintCheck {tail : B} {t deadline : ℤ} {p : A}
    (h : m.mintCheck tail t = .ok (deadline, p)) :
    timestamp tail < unix (nextMintSlot t) := by
  unfold Minter.mintCheck at h
  cases hd : checkDeadline tail t with
  | error e =>
      rw [hd] at h
      cases h
  | ok d => exact timestamp_lt_of_checkDeadline hd

/-- A goroutine that gives up the block in the making has none. -/
lemma idle (h : MintOk s) : MintOk { s with pc := (.idle : MintPc B A T) } :=
  ⟨h.distinct, by simp [MintPc.slot]⟩

/-- Every step keeps the invariant, if the calls that go ahead have a main tail that has
caught up. -/
lemma step (h : MintOk s) (hstep : MintStep m R CaughtUp s s') : MintOk s' := by
  cases hstep with
  | other system hstep => exact ⟨h.distinct, h.unused⟩
  | wait t ht => exact ⟨h.distinct, h.unused⟩
  | tick hticker => exact ⟨h.distinct, h.unused⟩
  | refuse t e hpc hticker hcheck => exact ⟨h.distinct, h.unused⟩
  | begin t deadline p hpc hticker hcheck hok =>
      refine ⟨h.distinct, fun ts hts x hx heq => ?_⟩
      obtain rfl : unix (nextMintSlot t) = ts := Option.mem_some.1 hts
      exact (timestamp_lt_of_mintCheck hcheck).not_ge (hok ⟨x, hx, heq⟩)
  | collect t deadline tail p txs tx hpc hnow =>
      refine ⟨h.distinct, ?_⟩
      have hunused := h.unused
      rw [hpc] at hunused
      exact hunused
  | finish t deadline tail p txs b hpc hnow hmake =>
      refine ⟨h.distinct, fun ts hts => ?_⟩
      obtain rfl : timestamp b = ts := Option.mem_some.1 hts
      rw [m.makeBlock_timestamp hmake]
      exact h.unused _ (by rw [hpc]; exact Option.mem_some_self _)
  | fail t deadline tail p txs hpc => exact h.idle
  | push t p b parent hpc hnow hparent =>
      refine ⟨List.pairwise_cons.2 ⟨fun x hx => ?_, h.distinct⟩, by simp [MintPc.slot]⟩
      exact (h.unused _ (by rw [hpc]; exact Option.mem_some_self _) x hx).symm
  | pushFail t p b hpc hnow => exact h.idle
  | done b hpc hdone => exact h.idle

lemma run (h : MintOk s) (hrun : Relation.ReflTransGen (MintStep m R CaughtUp) s s') :
    MintOk s' := by
  induction hrun with
  | refl => exact h
  | tail _ hstep ih => exact ih.step hstep

/-- Pushed blocks of one timestamp are one block. -/
lemma not_equivocates (h : MintOk s) : ¬ s.Equivocates := by
  rintro ⟨x, hx, y, hy, -, hts, hne⟩
  have : Std.Symm fun x y : A × B => timestamp x.2 ≠ timestamp y.2 := ⟨fun _ _ => Ne.symm⟩
  refine h.distinct.forall hx hy ?_ hts
  rintro rfl
  exact hne rfl

end MintOk

/-! ## What a late main tail leads to -/

/-- A call that goes ahead while a block of its slot has been pushed makes another one: in the
run that collects no transaction, the node pushes a second block with that timestamp. -/
lemma pushes_again (m : Minter B A T) (R : ChainSystem B → ChainSystem B → Prop)
    {s : MintNode B A T} {t deadline : ℤ} {p : A} {b parent : B} (hpc : s.pc = .idle)
    (hticker : s.ticker = some t) (hcheck : m.mintCheck s.tail t = .ok (deadline, p))
    (hmake : m.makeBlock p s.tail (unix (nextMintSlot t)) [] = some b)
    (hparent : s.system.manager.bc.blockByHash (hash s.tail) = some parent) :
    ∃ s', Relation.ReflTransGen (MintStep m R fun _ _ => True) s s' ∧
      s'.pushed = (p, b) :: s.pushed := by
  have hbegin : MintStep m R (fun _ _ => True) s _ :=
    .begin s t deadline p hpc hticker hcheck trivial
  refine ⟨_, .tail (.tail (.tail (.tail (.single hbegin)
    (.wait _ (max s.now (max deadline (nextMintSlot t))) (le_max_left _ _)))
    (.finish _ t deadline s.tail p [] b rfl ?_ hmake))
    (.wait _ _ le_rfl)) (.push _ t p b parent rfl ?_ ?_), rfl⟩
  · exact (le_max_left _ _).trans (le_max_right _ _)
  · exact (le_max_right _ _).trans (le_max_right _ _)
  · rw [m.makeBlock_parent hmake]
    exact hparent

/-- **A proposer signs one block for a slot as long as the main tail keeps up.**  In every run
in which each call of `mintBlock` that goes ahead finds the main tail caught up with the blocks
the node has pushed, no proposer of the node pushes two different blocks with one timestamp.
And the condition is needed at every call: if a call passes its checks although a block of its
slot has been pushed and the main tail is behind that slot, then it can end in a second block
with that timestamp, which is an equivocation as soon as the proposer is the same and the
hashes differ. -/
theorem no_equivocation_when_caught_up (m : Minter B A T)
    (R : ChainSystem B → ChainSystem B → Prop) :
    (∀ (system : ChainSystem B) (now : ℤ) (s : MintNode B A T),
      Relation.ReflTransGen (MintStep m R CaughtUp) (MintNode.start system now) s →
      ¬ s.Equivocates) ∧
    ∀ (s : MintNode B A T) (t deadline : ℤ) (p : A) (b parent : B),
      s.pc = .idle → s.ticker = some t → m.mintCheck s.tail t = .ok (deadline, p) →
      ¬ CaughtUp s t → m.makeBlock p s.tail (unix (nextMintSlot t)) [] = some b →
      s.system.manager.bc.blockByHash (hash s.tail) = some parent →
      ∃ s', Relation.ReflTransGen (MintStep m R fun _ _ => True) s s' ∧
        ∃ x ∈ s.pushed, timestamp x.2 = timestamp b ∧
          (x.1 = p → hash x.2 ≠ hash b → s'.Equivocates) := by
  refine ⟨fun system now s hrun => ?_, fun s t deadline p b parent hpc hticker hcheck hlate
    hmake hparent => ?_⟩
  · have hstart : MintOk (MintNode.start system now : MintNode B A T) :=
      ⟨List.Pairwise.nil, by simp [MintNode.start]⟩
    exact (hstart.run hrun).not_equivocates
  · obtain ⟨s', hrun, hpushed⟩ := pushes_again m R hpc hticker hcheck hmake hparent
    obtain ⟨⟨x, hx, hts⟩, -⟩ := Classical.not_imp.1 hlate
    have hts' : timestamp x.2 = timestamp b := hts.trans (m.makeBlock_timestamp hmake).symm
    refine ⟨s', hrun, x, hx, hts', fun hp hne => ⟨x, ?_, (p, b), ?_, hp, hts', hne⟩⟩
    · rw [hpushed]
      exact List.mem_cons_of_mem _ hx
    · rw [hpushed]
      exact List.mem_cons_self

/-! ## A run in which the tail is late -/

/-- A node with one proposer, whose turn it always is.  The hash of a block tells how many
transactions it has. -/
def BareBlock.minter : Minter BareBlock Unit Unit where
  findMintProposer _ _ := some ()
  isMine _ := true
  makeBlock _ tail ts txs :=
    some ⟨txs.length.toUInt8 :: tail.hash, tail.hash, tail.height + 1, ts⟩
  makeBlock_parent h := by cases h; rfl
  makeBlock_timestamp h := by cases h; rfl

/-- The node after its first block was pushed and `mintBlock` has returned.  The tick of 2.2
seconds is waiting, and the chain manager has a trigger waiting but has not run. -/
def BareBlock.afterPush : MintNode BareBlock Unit Unit where
  system :=
    ⟨{ ChainManager.start (⟨[0], [], 1, 0⟩ : BareBlock) 8 with
        bc := (BlockChain.setup ⟨[0], [], 1, 0⟩ 8).putVerifiedNewBlock ⟨[0], [], 1, 0⟩
          ⟨[1, 0], [0], 2, 3⟩ }, true, []⟩
  now := 3000000000
  ticker := some 2200000000
  pc := .idle
  pushed := [((), ⟨[1, 0], [0], 2, 3⟩)]

/-- The tick of 2.1 seconds makes a block with one transaction, which is pushed at 3 seconds;
the tick of 2.2 seconds waits in the channel meanwhile. -/
lemma BareBlock.run_afterPush {ok : MintNode BareBlock Unit Unit → ℤ → Prop}
    (hok : ∀ s t, s.pushed = [] → ok s t) :
    Relation.ReflTransGen
      (MintStep minter (SystemStep ⟨3, by decide⟩ ⟨[0], [], 1, 0⟩) ok)
      (MintNode.start (ChainSystem.start (⟨[0], [], 1, 0⟩ : BareBlock) 8) 2100000000)
      afterPush := by
  refine .head (.tick _ rfl) ?_
  refine .head (.begin _ 2100000000 3000000000 () rfl rfl (by decide) (hok _ _ rfl)) ?_
  refine .head (.wait _ 2200000000 (by decide)) (.head (.tick _ rfl) ?_)
  refine .head (.collect _ _ _ _ _ _ () rfl (by decide)) ?_
  refine .head (.wait _ 3000000000 (by decide)) ?_
  refine .head (.finish _ _ _ _ _ _ ⟨[1, 0], [0], 2, 3⟩ rfl (by decide) (by decide)) ?_
  refine .head (.push _ _ _ _ ⟨[0], [], 1, 0⟩ rfl (by decide) (by decide)) ?_
  refine .head (.other _ _ (.addTail _ _ [] [] rfl rfl (by decide))) ?_
  refine .head (.other _ _ (.removeTail _ _ [] [] rfl rfl)) ?_
  refine .head (.other _ _ (.send _ _ [] [] rfl rfl)) ?_
  exact .single (.done _ _ rfl (by simp))

/-- The first block of the node is minted with the main tail caught up, so that there is no
equivocation yet; the waiting tick finds it behind, and its call can end in one. -/
theorem first_block_caught_up :
    ¬ BareBlock.afterPush.Equivocates ∧ ¬ CaughtUp BareBlock.afterPush 2200000000 ∧
    ∃ s', Relation.ReflTransGen
      (MintStep BareBlock.minter (SystemStep ⟨3, by decide⟩ ⟨[0], [], 1, 0⟩) fun _ _ => True)
      BareBlock.afterPush s' ∧
      ∃ x ∈ BareBlock.afterPush.pushed, timestamp x.2 = 3 ∧
        (x.1 = () → hash x.2 ≠ [0, 0] → s'.Equivocates) := by
  have hlate : ¬ CaughtUp BareBlock.afterPush 2200000000 := by
    intro h
    exact absurd (h ⟨_, List.mem_cons_self, rfl⟩) (by decide)
  have h := no_equivocation_when_caught_up BareBlock.minter
    (SystemStep ⟨3, by decide⟩ ⟨[0], [], 1, 0⟩)
  refine ⟨h.1 _ _ _ (BareBlock.run_afterPush fun s t hs => ?_), hlate, ?_⟩
  · simp [CaughtUp, hs]
  · exact h.2 BareBlock.afterPush 2200000000 3000000000 () ⟨[0, 0], [0], 2, 3⟩ ⟨[0], [], 1, 0⟩
      rfl rfl (by decide) hlate (by decide) (by decide)

/-- **A tick that waited while a block was made leads to a second block.**  From the start, and
with the steps of the chain manager and of the acceptances as they are, the node reaches a
state in which its proposer has pushed two different blocks with the timestamp 3. -/
theorem stale_tail_equivocates :
    ∃ s, Relation.ReflTransGen
      (MintStep BareBlock.minter (SystemStep ⟨3, by decide⟩ ⟨[0], [], 1, 0⟩) fun _ _ => True)
      (MintNode.start (ChainSystem.start (⟨[0], [], 1, 0⟩ : BareBlock) 8) 2100000000) s ∧
      s.Equivocates := by
  have hcheck : BareBlock.minter.mintCheck BareBlock.afterPush.tail 2200000000 =
      .ok (3000000000, ()) := by decide
  have hparent : BareBlock.afterPush.system.manager.bc.blockByHash
      (hash BareBlock.afterPush.tail) = some ⟨[0], [], 1, 0⟩ := by decide
  obtain ⟨s', hrun, hpushed⟩ := pushes_again BareBlock.minter
    (SystemStep ⟨3, by decide⟩ ⟨[0], [], 1, 0⟩) (b := ⟨[0, 0], [0], 2, 3⟩) rfl rfl hcheck
    (by decide) hparent
  refine ⟨s', (BareBlock.run_afterPush fun _ _ _ => trivial).trans hrun, ?_⟩
  refine ⟨((), ⟨[1, 0], [0], 2, 3⟩), ?_, ((), ⟨[0, 0], [0], 2, 3⟩), ?_, rfl, rfl, by decide⟩
  all_goals
    rw [hpushed]
    simp [BareBlock.afterPush]

end GoMedibloc
