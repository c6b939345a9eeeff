import GoMedibloc.Chain.BlockPool

/-!
# From the pool to the chain

Received blocks reach the chain through three kinds of goroutines that talk over channels.
A call of `push` puts its block into the pool and sends the distributor the unlinked ancestor
of the block, or the block itself.  The distributor starts a task for a block it is sent if
none is running and its parent is on the chain; when a task reports that it is done, the
distributor removes its block from the pool and starts tasks for the block's children there.
A task executes its block on the parent, puts it on the chain and reports.

Every step below touches shared state once, so that all interleavings are covered: a push may
put its block into the pool between the removal of its parent and the search for children, two
tasks may run for one block, and a report about a block that is on the chain already may
overtake the report of the task that put it there.

The blocks that are pushed form trees on stored blocks, each is pushed once, and its execution
on its parent succeeds.  Then nothing is lost: when every push has returned, no task is
running and the channels are empty, every pushed block is on the chain and the pool is empty
(`pushed_blocks_reach_chain`).  The invariant behind it says what wakes a waiting block: as
soon as its parent is on the chain, its own push will send it, or a report about its parent
will make the distributor find it, or it is being worked on.
-/

namespace GoMedibloc

variable {B : Type} [HashableBlock B]

/-- Where the call of `push` for a block stands. -/
inductive PushPc (B : Type)
  /-- not called yet -/
  | waiting
  /-- after the check for duplicates and `verifyBlockData` -/
  | checked
  /-- after `BlockPool.Push` -/
  | inserted
  /-- after `FindUnlinkedAncestor`, with the block to send -/
  | sending (msg : B)
  /-- the call has returned -/
  | returned

/-- Where a call of `processTask` stands. -/
inductive TaskPc
  | started
  /-- the block is not on the chain and its parent is -/
  | executing
  /-- before the result is sent -/
  | finished (isValid : Bool)
deriving DecidableEq, Repr

/-- A call of `processTask`. -/
structure Task (B : Type) where
  block : B
  pc : TaskPc

/-- Where `runDistributor` stands. -/
inductive DistributorPc (B : Type)
  | idle
  /-- a result was received, and the block is to be removed from the pool -/
  | removing (block : B) (isValid : Bool)
  /-- before `FindChildren` -/
  | waking (block : B)
  /-- the children still to start -/
  | starting (children : List B)

/-- The pool, the stored blocks, the channels and the goroutines. -/
structure Pipeline (B : Type) where
  pool : BlockPool B
  chain : Hash → Option B
  pushes : Hash → PushPc B
  newBlockCh : List B
  finishWorkCh : List (B × Bool)
  /-- the blocks of the work manager -/
  work : Hash → Bool
  tasks : List (Task B)
  distributor : DistributorPc B

/-- `newBlockChannelSize`. -/
def newBlockChannelSize : ℕ := 128

/-- `finishWorkChannelSize`. -/
def finishWorkChannelSize : ℕ := 128

namespace Pipeline

/-- Before any of the blocks is pushed. -/
def start (chain : Hash → Option B) : Pipeline B where
  pool := ⟨[]⟩
  chain := chain
  pushes := fun _ => .waiting
  newBlockCh := []
  finishWorkCh := []
  work := fun _ => false
  tasks := []
  distributor := .idle

/-- Move the push of a block on. -/
def setPush (s : Pipeline B) (b : B) (pc : PushPc B) : Pipeline B :=
  { s with pushes := Function.update s.pushes (hash b) pc }

/-- The work manager takes a block on, and a task for it starts. -/
def spawn (s : Pipeline B) (b : B) : Pipeline B :=
  { s with work := Function.update s.work (hash b) true, tasks := ⟨b, .started⟩ :: s.tasks }

/-- The beginning of `push`: a block that is known already is refused. -/
def checkPush (s : Pipeline B) (b : B) : Pipeline B :=
  if s.pool.has b = true ∨ (s.chain (hash b)).isSome = true then s.setPush b .returned
  else s.setPush b .checked

/-- `BlockPool.Push` inside `push`. -/
def insertPush (s : Pipeline B) (b : B) : Pipeline B :=
  if s.pool.has b then s.setPush b .returned
  else { s.setPush b .inserted with pool := s.pool.push b }

/-- The case of the distributor for a block from `newBlockCh`. -/
def handleNew (s : Pipeline B) (b : B) : Pipeline B :=
  if s.work (hash b) then s
  else if (s.chain (parentHash b)).isNone then s
  else s.spawn b

/-- The checks at the beginning of `processTask`.  Those on the LIB, the height, the
timestamps and the execution itself succeed for the blocks at hand. -/
def checkTask (s : Pipeline B) (b : B) : TaskPc :=
  if (s.chain (hash b)).isSome then .finished false
  else if (s.chain (parentHash b)).isNone then .finished false
  else .executing

end Pipeline

/-- The steps of pushes, tasks and the distributor, for the blocks in `l`. -/
inductive PipelineStep (l : List B) : Pipeline B → Pipeline B → Prop
  | check (s : Pipeline B) (b : B) (hb : b ∈ l) (hpc : s.pushes (hash b) = .waiting) :
      PipelineStep l s (s.checkPush b)
  | insert (s : Pipeline B) (b : B) (hb : b ∈ l) (hpc : s.pushes (hash b) = .checked) :
      PipelineStep l s (s.insertPush b)
  | lookup (s : Pipeline B) (b : B) (hb : b ∈ l) (hpc : s.pushes (hash b) = .inserted) :
      PipelineStep l s (s.setPush b (.sending ((s.pool.findUnlinkedAncestor b).getD b)))
  | send (s : Pipeline B) (b msg : B) (hb : b ∈ l) (hpc : s.pushes (hash b) = .sending msg)
      (hroom : s.newBlockCh.length < newBlockChannelSize) :
      PipelineStep l s { s.setPush b .returned with newBlockCh := s.newBlockCh ++ [msg] }
  | receiveNew (s : Pipeline B) (b : B) (rest : List B) (hpc : s.distributor = .idle)
      (hch : s.newBlockCh = b :: rest) :
      PipelineStep l s ({ s with newBlockCh := rest }.handleNew b)
  | receiveResult (s : Pipeline B) (b : B) (v : Bool) (rest : List (B × Bool))
      (hpc : s.distributor = .idle) (hch : s.finishWorkCh = (b, v) :: rest) :
      PipelineStep l s { s with
        finishWorkCh := rest
        work := Function.update s.work (hash b) false
        distributor := .removing b v }
  | remove (s : Pipeline B) (b : B) (v : Bool) (hpc : s.distributor = .removing b v) :
      PipelineStep l s { s with
        pool := s.pool.remove b
        distributor := if v then .waking b else .idle }
  | findChildren (s : Pipeline B) (b : B) (hpc : s.distributor = .waking b) :
      PipelineStep l s { s with distributor := .starting (s.pool.findChildren b) }
  | startChild (s : Pipeline B) (b : B) (rest : List B)
      (hpc : s.distributor = .starting (b :: rest)) :
      PipelineStep l s { s.spawn b with distributor := .starting rest }
  | startEnd (s : Pipeline B) (hpc : s.distributor = .starting []) :
      PipelineStep l s { s with distributor := .idle }
  | checkTask (s : Pipeline B) (b : B) (l₁ l₂ : List (Task B))
      (htasks : s.tasks = l₁ ++ ⟨b, .started⟩ :: l₂) :
      PipelineStep l s { s with tasks := l₁ ++ ⟨b, s.checkTask b⟩ :: l₂ }
  | putBlock (s : Pipeline B) (b : B) (l₁ l₂ : List (Task B))
      (htasks : s.tasks = l₁ ++ ⟨b, .executing⟩ :: l₂) :
      PipelineStep l s { s with
        chain := Function.update s.chain (hash b) (some b)
        tasks := l₁ ++ ⟨b, .finished true⟩ :: l₂ }
  | report (s : Pipeline B) (b : B) (v : Bool) (l₁ l₂ : List (Task B))
      (htasks : s.tasks = l₁ ++ ⟨b, .finished v⟩ :: l₂)
      (hroom : s.finishWorkCh.length < finishWorkChannelSize) :
      PipelineStep l s { s with
        tasks := l₁ ++ l₂
        finishWorkCh := s.finishWorkCh ++ [(b, v)] }

/-! ## What holds in every state -/

/-- The blocks in `l` form trees whose roots stand on stored blocks. -/
structure PushedTrees (stored : Hash → Option B) (l : List B) : Prop where
  distinct : ∀ b ∈ l, ∀ c ∈ l, hash b = hash c → b = c
  fresh : ∀ b ∈ l, stored (hash b) = none
  rooted : ∀ b ∈ l, (∃ p, stored (parentHash b) = some p) ∨
    ∃ p ∈ l, hash p = parentHash b ∧ height b = height p + 1
  not_root : ∀ b ∈ l, parentHash b ≠ genesisParentHash

namespace Pipeline

/-- The push of the block has not reached the pool. -/
def Early (pushes : Hash → PushPc B) (b : B) : Prop :=
  pushes (hash b) = .waiting ∨ pushes (hash b) = .checked

/-- A report that the block was put on the chain is on its way, and the block has not been
removed from the pool for it. -/
def Announced (s : Pipeline B) (b : B) : Prop :=
  ⟨b, .finished true⟩ ∈ s.tasks ∨ (b, true) ∈ s.finishWorkCh ∨ s.distributor = .removing b true

/-- A task for the block is running, or its report is on its way. -/
def Busy (s : Pipeline B) (b : B) : Prop :=
  (∃ pc, ⟨b, pc⟩ ∈ s.tasks) ∨ ∃ v, (b, v) ∈ s.finishWorkCh

/-- What will bring a waiting block to the attention of the distributor, or has done so. -/
inductive Pending (s : Pipeline B) (b : B) : Prop
  | announced (p : B) (hp : hash p = parentHash b) (h : s.Announced p)
  | waking (p : B) (hp : hash p = parentHash b) (h : s.distributor = .waking p)
  | busy (h : s.Busy b)
  | removing (v : Bool) (h : s.distributor = .removing b v)
  | starting (cs : List B) (h : s.distributor = .starting cs) (hb : b ∈ cs)
  | sent (h : b ∈ s.newBlockCh)
  | inserted (h : s.pushes (hash b) = .inserted)
  | sending (h : s.pushes (hash b) = .sending b)

/-- A block that the distributor or a task may be given. -/
structure Startable (l : List B) (pushes : Hash → PushPc B) (chain : Hash → Option B) (b : B) :
    Prop where
  mem : b ∈ l
  late : ¬ Early pushes b
  parent : chain (parentHash b) ≠ none

/-- A block that is on the chain, and was pushed. -/
structure OnChain (l : List B) (chain : Hash → Option B) (b : B) : Prop where
  mem : b ∈ l
  chain : chain (hash b) = some b

end Pipeline

open Pipeline

/-- What holds of the pipeline between any two steps. -/
structure PipelineOk (stored : Hash → Option B) (l : List B) (s : Pipeline B) : Prop where
  pool : ∀ b ∈ s.pool.blocks, b ∈ l ∧ ¬ Early s.pushes b
  stays : ∀ h b, stored h = some b → s.chain h = some b
  chain : ∀ h b, s.chain h = some b → stored h = some b ∨ (b ∈ l ∧ hash b = h)
  early : ∀ b ∈ l, Early s.pushes b → s.chain (hash b) = none
  late : ∀ b ∈ l, ¬ Early s.pushes b → b ∈ s.pool.blocks ∨ s.chain (hash b) = some b
  sent : ∀ b ∈ s.newBlockCh, b ∈ l ∧ ¬ Early s.pushes b
  sending : ∀ b ∈ l, ∀ msg, s.pushes (hash b) = .sending msg → msg ∈ l ∧ ¬ Early s.pushes msg
  tasks : ∀ b pc, ⟨b, pc⟩ ∈ s.tasks → Startable l s.pushes s.chain b
  finished : ∀ b v, ⟨b, .finished v⟩ ∈ s.tasks → s.chain (hash b) = some b
  results : ∀ b v, (b, v) ∈ s.finishWorkCh → OnChain l s.chain b
  removing : ∀ b v, s.distributor = .removing b v → OnChain l s.chain b
  waking : ∀ b, s.distributor = .waking b → OnChain l s.chain b ∧ b ∉ s.pool.blocks
  starting : ∀ cs, s.distributor = .starting cs → ∀ c ∈ cs, Startable l s.pushes s.chain c
  leaving : ∀ b ∈ s.pool.blocks, s.chain (hash b) = some b → s.Announced b
  work : ∀ b ∈ l, s.work (hash b) = true → s.Busy b
  wake : ∀ b ∈ s.pool.blocks, s.chain (parentHash b) ≠ none → s.Pending b

namespace PipelineOk

variable {stored : Hash → Option B} {l : List B} {s : Pipeline B}

/-- The pool holds a pushed block if it holds one of its hash. -/
lemma has_iff (ht : PushedTrees stored l) (h : PipelineOk stored l s) {b : B} (hb : b ∈ l) :
    s.pool.has b = true ↔ b ∈ s.pool.blocks := by
  unfold BlockPool.has
  rw [Option.isSome_iff_ne_none, ne_eq, BlockPool.find_eq_none]
  push Not
  constructor
  · rintro ⟨x, hx, hxb⟩
    rwa [← ht.distinct x (h.pool x hx).1 b hb hxb]
  · intro hb
    exact ⟨b, hb, rfl⟩

lemma start (ht : PushedTrees stored l) : PipelineOk stored l (Pipeline.start stored) where
  pool b hb := by simp [Pipeline.start, BlockPool.blocks] at hb
  stays h b hb := hb
  chain h b hb := .inl hb
  early b hb _ := ht.fresh b hb
  late b _ hlate := absurd (.inl rfl) hlate
  sent b hb := by simp [Pipeline.start] at hb
  sending b _ msg hmsg := by simp [Pipeline.start] at hmsg
  tasks b pc hb := by simp [Pipeline.start] at hb
  finished b v hb := by simp [Pipeline.start] at hb
  results b v hb := by simp [Pipeline.start] at hb
  removing b v hd := by simp [Pipeline.start] at hd
  waking b hd := by simp [Pipeline.start] at hd
  starting cs hd := by simp [Pipeline.start] at hd
  leaving b hb := by simp [Pipeline.start, BlockPool.blocks] at hb
  work b _ hb := by simp [Pipeline.start] at hb
  wake b hb := by simp [Pipeline.start, BlockPool.blocks] at hb

/-! ## Steps of a push -/

/-- Moving one push on leaves the other pushes where they are. -/
lemma pushes_of_ne (ht : PushedTrees stored l) {b c : B} (hb : b ∈ l) (hc : c ∈ l) (hne : c ≠ b)
    (pc : PushPc B) : (s.setPush b pc).pushes (hash c) = s.pushes (hash c) :=
  Function.update_of_ne (fun heq => hne (ht.distinct c hc b hb heq)) _ _

lemma pushes_self (b : B) (pc : PushPc B) : (s.setPush b pc).pushes (hash b) = pc :=
  Function.update_self _ _ _

/-- A push that moves on without entering the pool, with more messages in `newBlockCh`. -/
lemma move (ht : PushedTrees stored l) (h : PipelineOk stored l s) {b : B} (hb : b ∈ l)
    {pc : PushPc B} {ch : List B} (hpc : (pc = .waiting ∨ pc = .checked) ↔ Early s.pushes b)
    (hmsg : ∀ msg, pc = .sending msg → msg ∈ l ∧ ¬ Early s.pushes msg)
    (hch : ∀ x ∈ ch, x ∈ l ∧ ¬ Early s.pushes x) (hsub : s.newBlockCh ⊆ ch)
    (hwake : b ∈ s.pool.blocks → s.chain (parentHash b) ≠ none →
      Pending { s.setPush b pc with newBlockCh := ch } b) :
    PipelineOk stored l { s.setPush b pc with newBlockCh := ch } := by
  have hearly : ∀ c ∈ l, Early (s.setPush b pc).pushes c ↔ Early s.pushes c := by
    intro c hc
    by_cases heq : c = b
    · subst heq
      rw [← hpc, Early, pushes_self]
    · rw [Early, pushes_of_ne ht hb hc heq, Early]
  have hlate : ∀ c, c ∈ l ∧ ¬ Early s.pushes c → c ∈ l ∧ ¬ Early (s.setPush b pc).pushes c :=
    fun c hc => ⟨hc.1, fun he => hc.2 ((hearly c hc.1).1 he)⟩
  have hstartable : ∀ c, Startable l s.pushes s.chain c →
      Startable l (s.setPush b pc).pushes s.chain c :=
    fun c hc => ⟨hc.mem, (hlate c ⟨hc.mem, hc.late⟩).2, hc.parent⟩
  refine
    { h with
      pool := fun c hc => hlate c (h.pool c hc)
      early := fun c hc he => h.early c hc ((hearly c hc).1 he)
      late := fun c hc hl => h.late c hc fun he => hl ((hearly c hc).2 he)
      sent := fun c hc => hlate c (hch c hc)
      sending := fun c hc msg hsend => ?_
      tasks := fun c pc' hc => hstartable c (h.tasks c pc' hc)
      starting := fun cs hd c hc => hstartable c (h.starting cs hd c hc)
      wake := fun c hc hparent => ?_ }
  · by_cases heq : c = b
    · subst heq
      exact hlate msg (hmsg msg ((pushes_self c pc).symm.trans hsend))
    · exact hlate msg (h.sending c hc msg ((pushes_of_ne ht hb hc heq pc).symm.trans hsend))
  · by_cases heq : c = b
    · subst heq
      exact hwake hc hparent
    · have hsame := pushes_of_ne (s := s) ht hb (h.pool c hc).1 heq pc
      cases h.wake c hc hparent with
      | announced p hp ha => exact .announced p hp ha
      | waking p hp hw => exact .waking p hp hw
      | busy hbusy => exact .busy hbusy
      | removing v hr => exact .removing v hr
      | starting cs hs hmem => exact .starting cs hs hmem
      | sent hs => exact .sent (hsub hs)
      | inserted hi => exact .inserted (hsame.trans hi)
      | sending hs => exact .sending (hsame.trans hs)

lemma check (ht : PushedTrees stored l) (h : PipelineOk stored l s) {b : B} (hb : b ∈ l)
    (hpc : s.pushes (hash b) = .waiting) : PipelineOk stored l (s.checkPush b) := by
  have hearly : Early s.pushes b := .inl hpc
  have hnot : b ∉ s.pool.blocks := fun hmem => (h.pool b hmem).2 hearly
  have hcond : ¬ (s.pool.has b = true ∨ (s.chain (hash b)).isSome = true) := by
    rw [h.has_iff ht hb, h.early b hb hearly]
    simpa using hnot
  rw [checkPush, if_neg hcond]
  exact h.move ht hb (by simp [hearly]) (by simp) h.sent (List.Subset.refl _)
    fun hmem => absurd hmem hnot

/-- The block enters the pool. -/
lemma insert (ht : PushedTrees stored l) (h : PipelineOk stored l s) {b : B} (hb : b ∈ l)
    (hpc : s.pushes (hash b) = .checked) : PipelineOk stored l (s.insertPush b) := by
  have hearly : Early s.pushes b := .inr hpc
  have hnot : b ∉ s.pool.blocks := fun hmem => (h.pool b hmem).2 hearly
  have hnone := h.early b hb hearly
  rw [insertPush, if_neg (by rw [h.has_iff ht hb]; exact hnot)]
  -- the push of `b` is late now, the others are what they were
  have hself : ¬ Early (s.setPush b .inserted).pushes b := by simp [Early, pushes_self]
  have hback : ∀ c ∈ l, Early (s.setPush b .inserted).pushes c → Early s.pushes c ∧ c ≠ b := by
    intro c hc he
    have hne : c ≠ b := by
      rintro rfl
      exact hself he
    rw [Early, pushes_of_ne ht hb hc hne] at he
    exact ⟨he, hne⟩
  have hlate : ∀ c, c ∈ l ∧ ¬ Early s.pushes c → c ∈ l ∧ ¬ Early (s.setPush b .inserted).pushes c :=
    fun c hc => ⟨hc.1, fun he => hc.2 (hback c hc.1 he).1⟩
  have hstartable : ∀ c, Startable l s.pushes s.chain c →
      Startable l (s.setPush b .inserted).pushes s.chain c :=
    fun c hc => ⟨hc.mem, (hlate c ⟨hc.mem, hc.late⟩).2, hc.parent⟩
  have hmem : ∀ c, c ∈ (s.pool.push b).blocks ↔ c ∈ s.pool.blocks ∨ c = b := by simp
  refine
    { h with
      pool := fun c hc => ?_
      early := fun c hc he => h.early c hc (hback c hc he).1
      late := fun c hc hl => ?_
      sent := fun c hc => hlate c (h.sent c hc)
      sending := fun c hc msg hsend => ?_
      tasks := fun c pc' hc => hstartable c (h.tasks c pc' hc)
      waking := fun c hd => ?_
      starting := fun cs hd c hc => hstartable c (h.starting cs hd c hc)
      leaving := fun c hc hchain => ?_
      wake := fun c hc hparent => ?_ }
  · rcases (hmem c).1 hc with hc | rfl
    · exact hlate c (h.pool c hc)
    · exact ⟨hb, hself⟩
  · by_cases heq : c = b
    · exact .inl ((hmem c).2 (.inr heq))
    · have hl' : ¬ Early s.pushes c := fun he => hl (by
        rw [Early] at he ⊢
        dsimp only
        rwa [pushes_of_ne ht hb hc heq])
      exact (h.late c hc hl').imp_left fun hc => (hmem c).2 (.inl hc)
  · by_cases heq : c = b
    · subst heq
      cases (pushes_self c .inserted).symm.trans hsend
    · exact hlate msg (h.sending c hc msg ((pushes_of_ne ht hb hc heq _).symm.trans hsend))
  · obtain ⟨hon, hout⟩ := h.waking c hd
    refine ⟨hon, fun hc => ?_⟩
    rcases (hmem c).1 hc with hc | rfl
    · exact hout hc
    · rw [hon.chain] at hnone
      cases hnone
  · rcases (hmem c).1 hc with hc | rfl
    · exact h.leaving c hc hchain
    · have hchain' : s.chain (hash c) = some c := hchain
      rw [hnone] at hchain'
      cases hchain'
  · rcases (hmem c).1 hc with hcp | rfl
    · have hne : c ≠ b := fun heq => hnot (heq ▸ hcp)
      have hsame := pushes_of_ne (s := s) ht hb (h.pool c hcp).1 hne .inserted
      cases h.wake c hcp hparent with
      | announced p hp ha => exact .announced p hp ha
      | waking p hp hw => exact .waking p hp hw
      | busy hbusy => exact .busy hbusy
      | removing v hr => exact .removing v hr
      | starting cs hs hmem => exact .starting cs hs hmem
      | sent hs => exact .sent hs
      | inserted hi => exact .inserted (hsame.trans hi)
      | sending hs => exact .sending (hsame.trans hs)
    · exact .inserted (pushes_self c _)

/-- A block whose parent is in the pool waits for the report about the parent; any other one
is sent itself. -/
lemma lookup (ht : PushedTrees stored l) (h : PipelineOk stored l s) {b : B} (hb : b ∈ l)
    (hpc : s.pushes (hash b) = .inserted) :
    PipelineOk stored l (s.setPush b (.sending ((s.pool.findUnlinkedAncestor b).getD b))) := by
  have hlate : ¬ Early s.pushes b := by simp [Early, hpc]
  refine h.move ht hb (by simp [hlate]) ?_ h.sent (List.Subset.refl _) ?_
  · rintro msg hmsg
    obtain rfl := PushPc.sending.inj hmsg
    cases hf : s.pool.findUnlinkedAncestor b with
    | none => exact ⟨hb, hlate⟩
    | some z => exact h.pool z (BlockPool.findUnlinkedAncestor_mem hf).1
  · intro hmem hparent
    cases hf : s.pool.findUnlinkedAncestor b with
    | none => exact .sending (pushes_self b _)
    | some z =>
        obtain ⟨-, p, hp, hpb⟩ := BlockPool.findUnlinkedAncestor_mem hf
        obtain ⟨c, hc⟩ := Option.ne_none_iff_exists'.1 hparent
        have hpl := (h.pool p hp).1
        have hchain : s.chain (hash p) = some p := by
          rw [hpb, hc]
          rcases h.chain _ _ hc with hst | ⟨hcl, hch⟩
          · have hfresh := ht.fresh p hpl
            rw [hpb, hst] at hfresh
            cases hfresh
          · rw [ht.distinct c hcl p hpl (hch.trans hpb.symm)]
        exact .announced p hpb (h.leaving p hp hchain)

lemma send (ht : PushedTrees stored l) (h : PipelineOk stored l s) {b msg : B} (hb : b ∈ l)
    (hpc : s.pushes (hash b) = .sending msg) :
    PipelineOk stored l
      { s.setPush b .returned with newBlockCh := s.newBlockCh ++ [msg] } := by
  have hlate : ¬ Early s.pushes b := by simp [Early, hpc]
  have hmsg := h.sending b hb msg hpc
  refine h.move ht hb (by simp [hlate]) (by simp) ?_ (List.subset_append_left _ _) ?_
  · intro x hx
    rcases List.mem_append.1 hx with hx | hx
    · exact h.sent x hx
    · rwa [List.mem_singleton.1 hx]
  · intro hmem hparent
    cases h.wake b hmem hparent with
    | announced p hp ha => exact .announced p hp ha
    | waking p hp hw => exact .waking p hp hw
    | busy hbusy => exact .busy hbusy
    | removing v hr => exact .removing v hr
    | starting cs hs hmem => exact .starting cs hs hmem
    | sent hs => exact .sent (List.mem_append_left _ hs)
    | inserted hi =>
        rw [hpc] at hi
        cases hi
    | sending hs =>
        rw [hpc] at hs
        obtain rfl := PushPc.sending.inj hs
        exact .sent (List.mem_append_right _ (List.mem_singleton.2 rfl))

/-! ## Steps of the distributor -/

/-- A task starts. -/
lemma spawn (ht : PushedTrees stored l) (h : PipelineOk stored l s) {b : B}
    (hb : Startable l s.pushes s.chain b) : PipelineOk stored l (s.spawn b) := by
  have hbusy : ∀ c, s.Busy c → (s.spawn b).Busy c := by
    rintro c (⟨pc, hc⟩ | hc)
    · exact .inl ⟨pc, List.mem_cons_of_mem _ hc⟩
    · exact .inr hc
  have hann : ∀ c, s.Announced c → (s.spawn b).Announced c :=
    fun c hc => hc.imp_left (List.mem_cons_of_mem _)
  refine
    { h with
      tasks := fun c pc hc => ?_
      finished := fun c v hc => ?_
      leaving := fun c hc hchain => hann c (h.leaving c hc hchain)
      work := fun c hc hwork => ?_
      wake := fun c hc hparent => ?_ }
  · rcases List.mem_cons.1 hc with heq | hc
    · obtain ⟨rfl, -⟩ := Task.mk.inj heq
      exact hb
    · exact h.tasks c pc hc
  · rcases List.mem_cons.1 hc with heq | hc
    · cases (Task.mk.inj heq).2
    · exact h.finished c v hc
  · by_cases heq : hash c = hash b
    · rw [ht.distinct c hc b hb.mem heq]
      exact .inl ⟨_, List.mem_cons_self⟩
    · exact hbusy c (h.work c hc ((Function.update_of_ne heq _ _).symm.trans hwork))
  · cases h.wake c hc hparent with
    | announced p hp ha => exact .announced p hp (hann p ha)
    | waking p hp hw => exact .waking p hp hw
    | busy hb => exact .busy (hbusy c hb)
    | removing v hr => exact .removing v hr
    | starting cs hs hmem => exact .starting cs hs hmem
    | sent hs => exact .sent hs
    | inserted hi => exact .inserted hi
    | sending hs => exact .sending hs

/-- A message may be dropped if its block is being worked on or has no parent on the chain. -/
lemma dropMessage (h : PipelineOk stored l s) {b : B} {rest : List B}
    (hch : s.newBlockCh = b :: rest) (hbusy : s.chain (parentHash b) ≠ none → s.Busy b) :
    PipelineOk stored l { s with newBlockCh := rest } := by
  refine
    { h with
      sent := fun c hc => h.sent c (by rw [hch]; exact List.mem_cons_of_mem _ hc)
      wake := fun c hc hparent => ?_ }
  cases h.wake c hc hparent with
  | announced p hp ha => exact .announced p hp ha
  | waking p hp hw => exact .waking p hp hw
  | busy hb => exact .busy hb
  | removing v hr => exact .removing v hr
  | starting cs hs hmem => exact .starting cs hs hmem
  | sent hs =>
      rw [hch] at hs
      rcases List.mem_cons.1 hs with rfl | hs
      · exact .busy (hbusy hparent)
      · exact .sent hs
  | inserted hi => exact .inserted hi
  | sending hs => exact .sending hs

lemma receiveNew (ht : PushedTrees stored l) (h : PipelineOk stored l s) {b : B} {rest : List B}
    (hch : s.newBlockCh = b :: rest) :
    PipelineOk stored l ({ s with newBlockCh := rest }.handleNew b) := by
  obtain ⟨hb, hlate⟩ := h.sent b (by rw [hch]; exact List.mem_cons_self)
  unfold handleNew
  dsimp only
  split_ifs with hwork hparent
  · exact h.dropMessage hch fun _ => h.work b hb hwork
  · exact h.dropMessage hch fun hne => absurd (by simpa using hparent) hne
  · have hspawn := h.spawn ht ⟨hb, hlate, by simpa using hparent⟩
    exact hspawn.dropMessage hch fun _ => .inl ⟨_, List.mem_cons_self⟩

lemma receiveResult (h : PipelineOk stored l s) {b : B} {v : Bool}
    {rest : List (B × Bool)} (hpc : s.distributor = .idle)
    (hch : s.finishWorkCh = (b, v) :: rest) :
    PipelineOk stored l { s with
      finishWorkCh := rest
      work := Function.update s.work (hash b) false
      distributor := .removing b v } := by
  have hon := h.results b v (by rw [hch]; exact List.mem_cons_self)
  have hann : ∀ c, s.Announced c → Announced { s with
      finishWorkCh := rest
      work := Function.update s.work (hash b) false
      distributor := .removing b v } c := by
    rintro c (hc | hc | hc)
    · exact .inl hc
    · rw [hch] at hc
      rcases List.mem_cons.1 hc with heq | hc
      · obtain ⟨rfl, rfl⟩ := Prod.mk.inj heq
        exact .inr (.inr rfl)
      · exact .inr (.inl hc)
    · rw [hpc] at hc
      cases hc
  refine
    { h with
      results := fun c w hc => h.results c w (by rw [hch]; exact List.mem_cons_of_mem _ hc)
      removing := fun c w hd => ?_
      waking := fun c hd => by cases hd
      starting := fun cs hd => by cases hd
      leaving := fun c hc hchain => hann c (h.leaving c hc hchain)
      work := fun c hc hwork => ?_
      wake := fun c hc hparent => ?_ }
  · obtain ⟨rfl, -⟩ := DistributorPc.removing.inj hd
    exact hon
  · by_cases heq : hash c = hash b
    · rw [heq] at hwork
      cases (Function.update_self (hash b) false s.work).symm.trans hwork
    · rcases h.work c hc ((Function.update_of_ne heq _ _).symm.trans hwork) with hbusy | ⟨w, hw⟩
      · exact .inl hbusy
      · rw [hch] at hw
        rcases List.mem_cons.1 hw with heq' | hw
        · exact absurd (by rw [(Prod.mk.inj heq').1]) heq
        · exact .inr ⟨w, hw⟩
  · cases h.wake c hc hparent with
    | announced p hp ha => exact .announced p hp (hann p ha)
    | waking p hp hw => rw [hpc] at hw; cases hw
    | busy hb =>
        rcases hb with hb | ⟨w, hw⟩
        · exact .busy (.inl hb)
        · rw [hch] at hw
          rcases List.mem_cons.1 hw with heq | hw
          · obtain ⟨rfl, -⟩ := Prod.mk.inj heq
            exact .removing v rfl
          · exact .busy (.inr ⟨w, hw⟩)
    | removing v hr => rw [hpc] at hr; cases hr
    | starting cs hs hmem => rw [hpc] at hs; cases hs
    | sent hs => exact .sent hs
    | inserted hi => exact .inserted hi
    | sending hs => exact .sending hs

/-- The block of a report leaves the pool; if it was put on the chain, its children there are
looked for next. -/
lemma remove (ht : PushedTrees stored l) (h : PipelineOk stored l s) {b : B} {v : Bool}
    (hpc : s.distributor = .removing b v) :
    PipelineOk stored l { s with
      pool := s.pool.remove b
      distributor := if v then .waking b else .idle } := by
  have hon := h.removing b v hpc
  have hmem : ∀ c, c ∈ (s.pool.remove b).blocks ↔ c ∈ s.pool.blocks ∧ hash c ≠ hash b := by
    simp
  have hne : ∀ c, c ∈ (s.pool.remove b).blocks → c ≠ b :=
    fun c hc heq => ((hmem c).1 hc).2 (by rw [heq])
  refine
    { h with
      pool := fun c hc => h.pool c ((hmem c).1 hc).1
      late := fun c hc hl => ?_
      removing := fun c w hd => by cases v <;> cases hd
      waking := fun c hd => ?_
      starting := fun cs hd => by cases v <;> cases hd
      leaving := fun c hc hchain => ?_
      wake := fun c hc hparent => ?_ }
  · rcases h.late c hc hl with hc' | hc'
    · by_cases heq : hash c = hash b
      · rw [ht.distinct c hc b hon.mem heq]
        exact .inr hon.chain
      · exact .inl ((hmem c).2 ⟨hc', heq⟩)
    · exact .inr hc'
  · cases v with
    | false => cases hd
    | true =>
        obtain rfl := DistributorPc.waking.inj hd
        exact ⟨hon, fun hb => hne _ hb rfl⟩
  · rcases h.leaving c ((hmem c).1 hc).1 hchain with ha | ha | ha
    · exact .inl ha
    · exact .inr (.inl ha)
    · rw [hpc] at ha
      exact absurd (DistributorPc.removing.inj ha).1.symm (hne c hc)
  · cases h.wake c ((hmem c).1 hc).1 hparent with
    | announced p hp ha =>
        rcases ha with ha | ha | ha
        · exact .announced p hp (.inl ha)
        · exact .announced p hp (.inr (.inl ha))
        · rw [hpc] at ha
          obtain ⟨rfl, rfl⟩ := DistributorPc.removing.inj ha
          exact .waking _ hp rfl
    | waking p hp hw => rw [hpc] at hw; cases hw
    | busy hb => exact .busy hb
    | removing w hr =>
        rw [hpc] at hr
        exact absurd (DistributorPc.removing.inj hr).1.symm (hne c hc)
    | starting cs hs hmem => rw [hpc] at hs; cases hs
    | sent hs => exact .sent hs
    | inserted hi => exact .inserted hi
    | sending hs => exact .sending hs

lemma findChildren (ht : PushedTrees stored l) (h : PipelineOk stored l s) {b : B}
    (hpc : s.distributor = .waking b) :
    PipelineOk stored l { s with distributor := .starting (s.pool.findChildren b) } := by
  obtain ⟨hon, hout⟩ := h.waking b hpc
  have hchild : ∀ c, c ∈ s.pool.findChildren b ↔
      c ∈ s.pool.blocks ∧ parentHash c ≠ genesisParentHash ∧ parentHash c = hash b := by
    intro c
    refine BlockPool.mem_findChildren fun x hx heq => hout ?_
    rwa [← ht.distinct x (h.pool x hx).1 b hon.mem heq]
  have hann : ∀ c, s.Announced c →
      Announced { s with distributor := .starting (s.pool.findChildren b) } c := by
    rintro c (hc | hc | hc)
    · exact .inl hc
    · exact .inr (.inl hc)
    · rw [hpc] at hc
      cases hc
  refine
    { h with
      removing := fun c w hd => by cases hd
      waking := fun c hd => by cases hd
      starting := fun cs hd c hc => ?_
      leaving := fun c hc hchain => hann c (h.leaving c hc hchain)
      wake := fun c hc hparent => ?_ }
  · obtain rfl := DistributorPc.starting.inj hd
    obtain ⟨hcp, -, hcb⟩ := (hchild c).1 hc
    obtain ⟨hcl, hlate⟩ := h.pool c hcp
    exact ⟨hcl, hlate, by rw [hcb, hon.chain]; simp⟩
  · cases h.wake c hc hparent with
    | announced p hp ha => exact .announced p hp (hann p ha)
    | waking p hp hw =>
        rw [hpc] at hw
        obtain rfl := DistributorPc.waking.inj hw
        exact .starting _ rfl ((hchild c).2 ⟨hc, ht.not_root c (h.pool c hc).1, hp.symm⟩)
    | busy hb => exact .busy hb
    | removing w hr => rw [hpc] at hr; cases hr
    | starting cs hs hmem => rw [hpc] at hs; cases hs
    | sent hs => exact .sent hs
    | inserted hi => exact .inserted hi
    | sending hs => exact .sending hs

/-- The distributor goes on to the next child, or back to its channels. -/
lemma nextChild (h : PipelineOk stored l s) {cs : List B} (hpc : s.distributor = .starting cs)
    {pc : DistributorPc B} (hnext : pc = .idle ∨ ∃ rest, pc = .starting rest ∧ rest ⊆ cs)
    (hbusy : ∀ c ∈ cs, s.Busy c ∨ ∃ rest, pc = .starting rest ∧ c ∈ rest) :
    PipelineOk stored l { s with distributor := pc } := by
  have hann : ∀ c, s.Announced c → Announced { s with distributor := pc } c := by
    rintro c (hc | hc | hc)
    · exact .inl hc
    · exact .inr (.inl hc)
    · rw [hpc] at hc
      cases hc
  refine
    { h with
      removing := fun c w hd => ?_
      waking := fun c hd => ?_
      starting := fun rest hd c hc => ?_
      leaving := fun c hc hchain => hann c (h.leaving c hc hchain)
      wake := fun c hc hparent => ?_ }
  · rcases hnext with rfl | ⟨rest, rfl, -⟩ <;> cases hd
  · rcases hnext with rfl | ⟨rest, rfl, -⟩ <;> cases hd
  · rcases hnext with rfl | ⟨rest', rfl, hsub⟩
    · cases hd
    · obtain rfl := DistributorPc.starting.inj hd
      exact h.starting cs hpc c (hsub hc)
  · cases h.wake c hc hparent with
    | announced p hp ha => exact .announced p hp (hann p ha)
    | waking p hp hw => rw [hpc] at hw; cases hw
    | busy hb => exact .busy hb
    | removing w hr => rw [hpc] at hr; cases hr
    | starting cs' hs hmem =>
        rw [hpc] at hs
        obtain rfl := DistributorPc.starting.inj hs
        rcases hbusy c hmem with hb | ⟨rest, hrest, hmem'⟩
        · exact .busy hb
        · exact .starting rest hrest hmem'
    | sent hs => exact .sent hs
    | inserted hi => exact .inserted hi
    | sending hs => exact .sending hs

lemma startChild (ht : PushedTrees stored l) (h : PipelineOk stored l s) {b : B} {rest : List B}
    (hpc : s.distributor = .starting (b :: rest)) :
    PipelineOk stored l { s.spawn b with distributor := .starting rest } := by
  have hspawn := h.spawn ht (h.starting _ hpc b List.mem_cons_self)
  refine hspawn.nextChild hpc (.inr ⟨rest, rfl, List.subset_cons_self _ _⟩) fun c hc => ?_
  rcases List.mem_cons.1 hc with rfl | hc
  · exact .inl (.inl ⟨_, List.mem_cons_self⟩)
  · exact .inr ⟨rest, rfl, hc⟩

/-! ## Steps of a task -/

omit [HashableBlock B] in
/-- The entry that replaces a task, and the other tasks. -/
lemma busy_replaced {b : B} {pc pc' : TaskPc} {l₁ l₂ : List (Task B)}
    (htasks : s.tasks = l₁ ++ ⟨b, pc⟩ :: l₂) {c : B} (hc : s.Busy c) :
    Busy { s with tasks := l₁ ++ ⟨b, pc'⟩ :: l₂ } c := by
  rcases hc with ⟨q, hq⟩ | hc
  · rw [htasks, List.mem_append, List.mem_cons] at hq
    rcases hq with hq | heq | hq
    · exact .inl ⟨q, List.mem_append_left _ hq⟩
    · obtain ⟨rfl, -⟩ := Task.mk.inj heq
      exact .inl ⟨pc', List.mem_append_right _ List.mem_cons_self⟩
    · exact .inl ⟨q, List.mem_append_right _ (List.mem_cons_of_mem _ hq)⟩
  · exact .inr hc

omit [HashableBlock B] in
/-- A task that is not about to report a block it has put on the chain is replaced: every
announcement stays. -/
lemma announced_replaced {b : B} {pc pc' : TaskPc} {l₁ l₂ : List (Task B)}
    (htasks : s.tasks = l₁ ++ ⟨b, pc⟩ :: l₂) (hpc : pc ≠ .finished true) {c : B}
    (hc : s.Announced c) : Announced { s with tasks := l₁ ++ ⟨b, pc'⟩ :: l₂ } c := by
  rcases hc with hc | hc
  · rw [htasks, List.mem_append, List.mem_cons] at hc
    rcases hc with hc | heq | hc
    · exact .inl (List.mem_append_left _ hc)
    · exact absurd (Task.mk.inj heq).2.symm hpc
    · exact .inl (List.mem_append_right _ (List.mem_cons_of_mem _ hc))
  · exact .inr hc

omit [HashableBlock B] in
/-- The other tasks after one was replaced. -/
lemma mem_of_replaced {b : B} {pc pc' q : TaskPc} {l₁ l₂ : List (Task B)} {c : B}
    (htasks : s.tasks = l₁ ++ ⟨b, pc⟩ :: l₂) (hc : ⟨c, q⟩ ∈ l₁ ++ ⟨b, pc'⟩ :: l₂) :
    (c = b ∧ q = pc') ∨ ⟨c, q⟩ ∈ s.tasks := by
  rw [List.mem_append, List.mem_cons] at hc
  rw [htasks]
  rcases hc with hc | heq | hc
  · exact .inr (List.mem_append_left _ hc)
  · exact .inl (Task.mk.inj heq)
  · exact .inr (List.mem_append_right _ (List.mem_cons_of_mem _ hc))

lemma checkTask (ht : PushedTrees stored l) (h : PipelineOk stored l s) {b : B}
    {l₁ l₂ : List (Task B)} (htasks : s.tasks = l₁ ++ ⟨b, .started⟩ :: l₂) :
    PipelineOk stored l { s with tasks := l₁ ++ ⟨b, s.checkTask b⟩ :: l₂ } := by
  have hb := h.tasks b .started (by rw [htasks]; simp)
  refine
    { h with
      tasks := fun c pc hc => ?_
      finished := fun c v hc => ?_
      leaving := fun c hc hchain => announced_replaced htasks (by simp) (h.leaving c hc hchain)
      work := fun c hc hwork => busy_replaced htasks (h.work c hc hwork)
      wake := fun c hc hparent => ?_ }
  · rcases mem_of_replaced htasks hc with ⟨rfl, -⟩ | hc
    · exact hb
    · exact h.tasks c pc hc
  · rcases mem_of_replaced htasks hc with ⟨rfl, hv⟩ | hc
    · -- the task ends here only because the block is on the chain
      unfold Pipeline.checkTask at hv
      split_ifs at hv with hsome hnone
      · obtain ⟨x, hx⟩ := Option.isSome_iff_exists.1 hsome
        rcases h.chain _ _ hx with hst | ⟨hxl, hxc⟩
        · rw [ht.fresh c hb.mem] at hst
          cases hst
        · rw [hx, ht.distinct x hxl c hb.mem hxc]
      · exact absurd (by simpa using hnone) hb.parent
    · exact h.finished c v hc
  · cases h.wake c hc hparent with
    | announced p hp ha => exact .announced p hp (announced_replaced htasks (by simp) ha)
    | waking p hp hw => exact .waking p hp hw
    | busy hb => exact .busy (busy_replaced htasks hb)
    | removing w hr => exact .removing w hr
    | starting cs hs hmem => exact .starting cs hs hmem
    | sent hs => exact .sent hs
    | inserted hi => exact .inserted hi
    | sending hs => exact .sending hs

/-- A block is put on the chain: from now on its report will wake its children. -/
lemma putBlock (ht : PushedTrees stored l) (h : PipelineOk stored l s) {b : B}
    {l₁ l₂ : List (Task B)} (htasks : s.tasks = l₁ ++ ⟨b, .executing⟩ :: l₂) :
    PipelineOk stored l { s with
      chain := Function.update s.chain (hash b) (some b)
      tasks := l₁ ++ ⟨b, .finished true⟩ :: l₂ } := by
  have hb := h.tasks b .executing (by rw [htasks]; simp)
  have hgrow : ∀ k, s.chain k ≠ none → Function.update s.chain (hash b) (some b) k ≠ none := by
    intro k hk
    by_cases heq : k = hash b
    · rw [heq, Function.update_self]
      simp
    · rwa [Function.update_of_ne heq]
  have hkeep : ∀ c ∈ l, s.chain (hash c) = some c →
      Function.update s.chain (hash b) (some b) (hash c) = some c := by
    intro c hc hchain
    by_cases heq : hash c = hash b
    · rw [heq, Function.update_self, ht.distinct c hc b hb.mem heq]
    · rwa [Function.update_of_ne heq]
  have hstartable : ∀ c, Startable l s.pushes s.chain c →
      Startable l s.pushes (Function.update s.chain (hash b) (some b)) c :=
    fun c hc => ⟨hc.mem, hc.late, hgrow _ hc.parent⟩
  have hon : ∀ c, OnChain l s.chain c →
      OnChain l (Function.update s.chain (hash b) (some b)) c :=
    fun c hc => ⟨hc.mem, hkeep c hc.mem hc.chain⟩
  have hself : (⟨b, .finished true⟩ : Task B) ∈ l₁ ++ ⟨b, .finished true⟩ :: l₂ := by simp
  refine
    { h with
      stays := fun k c hk => ?_
      chain := fun k c hk => ?_
      early := fun c hc he => ?_
      late := fun c hc hl => (h.late c hc hl).imp_right (hkeep c hc)
      tasks := fun c pc hc => ?_
      finished := fun c v hc => ?_
      results := fun c v hc => hon c (h.results c v hc)
      removing := fun c v hd => hon c (h.removing c v hd)
      waking := fun c hd => ⟨hon c (h.waking c hd).1, (h.waking c hd).2⟩
      starting := fun cs hd c hc => hstartable c (h.starting cs hd c hc)
      leaving := fun c hc hchain => ?_
      work := fun c hc hwork => busy_replaced htasks (h.work c hc hwork)
      wake := fun c hc hparent => ?_ }
  · have hne : k ≠ hash b := by
      rintro rfl
      rw [ht.fresh b hb.mem] at hk
      cases hk
    dsimp only
    rw [Function.update_of_ne hne]
    exact h.stays k c hk
  · by_cases heq : k = hash b
    · subst heq
      have hk' : Function.update s.chain (hash b) (some b) (hash b) = some c := hk
      rw [Function.update_self, Option.some_inj] at hk'
      exact .inr (hk' ▸ ⟨hb.mem, rfl⟩)
    · exact h.chain k c ((Function.update_of_ne heq _ _).symm.trans hk)
  · have hne : hash c ≠ hash b := by
      intro heq
      exact hb.late (ht.distinct c hc b hb.mem heq ▸ he)
    dsimp only
    rw [Function.update_of_ne hne]
    exact h.early c hc he
  · rcases mem_of_replaced htasks hc with ⟨rfl, -⟩ | hc
    · exact hstartable c hb
    · exact hstartable c (h.tasks c pc hc)
  · rcases mem_of_replaced htasks hc with ⟨rfl, -⟩ | hc
    · exact Function.update_self _ _ _
    · exact hkeep c (h.tasks c _ hc).mem (h.finished c v hc)
  · by_cases heq : hash c = hash b
    · rw [ht.distinct c (h.pool c hc).1 b hb.mem heq]
      exact .inl hself
    · exact announced_replaced htasks (by simp)
        (h.leaving c hc ((Function.update_of_ne heq _ _).symm.trans hchain))
  · by_cases heq : parentHash c = hash b
    · exact .announced b heq.symm (.inl hself)
    · have hparent' : s.chain (parentHash c) ≠ none := by
        dsimp only at hparent
        rwa [Function.update_of_ne heq] at hparent
      cases h.wake c hc hparent' with
      | announced p hp ha => exact .announced p hp (announced_replaced htasks (by simp) ha)
      | waking p hp hw => exact .waking p hp hw
      | busy hb => exact .busy (busy_replaced htasks hb)
      | removing w hr => exact .removing w hr
      | starting cs hs hmem => exact .starting cs hs hmem
      | sent hs => exact .sent hs
      | inserted hi => exact .inserted hi
      | sending hs => exact .sending hs

lemma report (h : PipelineOk stored l s) {b : B} {v : Bool} {l₁ l₂ : List (Task B)}
    (htasks : s.tasks = l₁ ++ ⟨b, .finished v⟩ :: l₂) :
    PipelineOk stored l { s with
      tasks := l₁ ++ l₂
      finishWorkCh := s.finishWorkCh ++ [(b, v)] } := by
  have hmem : (⟨b, .finished v⟩ : Task B) ∈ s.tasks := by rw [htasks]; simp
  have hsub : ∀ t, t ∈ l₁ ++ l₂ → t ∈ s.tasks := by
    intro t ht
    rw [htasks]
    simp only [List.mem_append, List.mem_cons] at ht ⊢
    tauto
  have hcases : ∀ t, t ∈ s.tasks → t = ⟨b, .finished v⟩ ∨ t ∈ l₁ ++ l₂ := by
    intro t ht
    rw [htasks] at ht
    simp only [List.mem_append, List.mem_cons] at ht ⊢
    tauto
  have hlast : (b, v) ∈ s.finishWorkCh ++ [(b, v)] := by simp
  have hbusy : ∀ c, s.Busy c → Busy { s with
      tasks := l₁ ++ l₂
      finishWorkCh := s.finishWorkCh ++ [(b, v)] } c := by
    rintro c (⟨pc, hc⟩ | ⟨w, hw⟩)
    · rcases hcases _ hc with heq | hc
      · obtain ⟨rfl, -⟩ := Task.mk.inj heq
        exact .inr ⟨v, hlast⟩
      · exact .inl ⟨pc, hc⟩
    · exact .inr ⟨w, List.mem_append_left _ hw⟩
  have hann : ∀ c, s.Announced c → Announced { s with
      tasks := l₁ ++ l₂
      finishWorkCh := s.finishWorkCh ++ [(b, v)] } c := by
    rintro c (hc | hc | hc)
    · rcases hcases _ hc with heq | hc
      · obtain ⟨rfl, hv⟩ := Task.mk.inj heq
        obtain rfl := TaskPc.finished.inj hv
        exact .inr (.inl hlast)
      · exact .inl hc
    · exact .inr (.inl (List.mem_append_left _ hc))
    · exact .inr (.inr hc)
  refine
    { h with
      tasks := fun c pc hc => h.tasks c pc (hsub _ hc)
      finished := fun c w hc => h.finished c w (hsub _ hc)
      results := fun c w hc => ?_
      leaving := fun c hc hchain => hann c (h.leaving c hc hchain)
      work := fun c hc hwork => hbusy c (h.work c hc hwork)
      wake := fun c hc hparent => ?_ }
  · rcases List.mem_append.1 hc with hc | hc
    · exact h.results c w hc
    · obtain ⟨rfl, -⟩ := Prod.mk.inj (List.mem_singleton.1 hc)
      exact ⟨(h.tasks c _ hmem).mem, h.finished c v hmem⟩
  · cases h.wake c hc hparent with
    | announced p hp ha => exact .announced p hp (hann p ha)
    | waking p hp hw => exact .waking p hp hw
    | busy hb => exact .busy (hbusy c hb)
    | removing w hr => exact .removing w hr
    | starting cs hs hmem => exact .starting cs hs hmem
    | sent hs => exact .sent hs
    | inserted hi => exact .inserted hi
    | sending hs => exact .sending hs

/-! ## Runs -/

/-- Every step keeps what holds in every state. -/
lemma step (ht : PushedTrees stored l) (h : PipelineOk stored l s) {s' : Pipeline B}
    (hstep : PipelineStep l s s') : PipelineOk stored l s' := by
  cases hstep with
  | check b hb hpc => exact h.check ht hb hpc
  | insert b hb hpc => exact h.insert ht hb hpc
  | lookup b hb hpc => exact h.lookup ht hb hpc
  | send b msg hb hpc hroom => exact h.send ht hb hpc
  | receiveNew b rest hpc hch => exact h.receiveNew ht hch
  | receiveResult b v rest hpc hch => exact h.receiveResult hpc hch
  | remove b v hpc => exact h.remove ht hpc
  | findChildren b hpc => exact h.findChildren ht hpc
  | startChild b rest hpc => exact h.startChild ht hpc
  | startEnd hpc => exact h.nextChild hpc (.inl rfl) (by simp)
  | checkTask b l₁ l₂ htasks => exact h.checkTask ht htasks
  | putBlock b l₁ l₂ htasks => exact h.putBlock ht htasks
  | report b v l₁ l₂ htasks hroom => exact h.report htasks

/-- Every run keeps what holds in every state. -/
lemma run (ht : PushedTrees stored l)
    (hrun : Relation.ReflTransGen (PipelineStep l) (Pipeline.start stored) s) :
    PipelineOk stored l s := by
  induction hrun with
  | refl => exact PipelineOk.start ht
  | tail _ hstep ih => exact ih.step ht hstep

end PipelineOk

/-- Nothing is outstanding: every push has returned, no task is running, the channels are
empty and the distributor waits. -/
structure Quiet (l : List B) (s : Pipeline B) : Prop where
  pushes : ∀ b ∈ l, s.pushes (hash b) = .returned
  newBlockCh : s.newBlockCh = []
  finishWorkCh : s.finishWorkCh = []
  tasks : s.tasks = []
  distributor : s.distributor = .idle

namespace Quiet

variable {l : List B} {s : Pipeline B}

lemma not_announced (hq : Quiet l s) (b : B) : ¬ s.Announced b := by
  simp [Announced, hq.tasks, hq.finishWorkCh, hq.distributor]

/-- Nothing would ever wake a block that still waits. -/
lemma not_pending (hq : Quiet l s) {b : B} (hb : b ∈ l) : ¬ s.Pending b := by
  intro hpend
  cases hpend with
  | announced p hp ha => exact hq.not_announced p ha
  | waking p hp hw => simp [hq.distributor] at hw
  | busy h => simp [Busy, hq.tasks, hq.finishWorkCh] at h
  | removing v h => simp [hq.distributor] at h
  | starting cs h hmem => simp [hq.distributor] at h
  | sent h => simp [hq.newBlockCh] at h
  | inserted h => simp [hq.pushes b hb] at h
  | sending h => simp [hq.pushes b hb] at h

end Quiet

/-- **No valid block is lost in the pipeline.**  For blocks that form trees on stored blocks,
in every order of their pushes and every interleaving of pushes, tasks and the distributor:
when nothing is outstanding any more, every pushed block is on the chain and none is left in
the pool. -/
theorem pushed_blocks_reach_chain {stored : Hash → Option B} {l : List B}
    (ht : PushedTrees stored l) {s : Pipeline B}
    (hrun : Relation.ReflTransGen (PipelineStep l) (Pipeline.start stored) s)
    (hq : Quiet l s) :
    (∀ b ∈ l, s.chain (hash b) = some b) ∧ s.pool.blocks = [] := by
  have h := PipelineOk.run ht hrun
  have hlate : ∀ b ∈ l, ¬ Early s.pushes b := fun b hb => by simp [Early, hq.pushes b hb]
  -- by induction on the height: the parent is on the chain, so the block cannot be waiting
  have hchain : ∀ n, ∀ b ∈ l, height b = n → s.chain (hash b) = some b := by
    intro n
    induction n using Nat.strong_induction_on with
    | _ n ih =>
        intro b hb hn
        have hparent : s.chain (parentHash b) ≠ none := by
          rcases ht.rooted b hb with ⟨p, hp⟩ | ⟨p, hp, hpb, hheight⟩
          · rw [h.stays _ _ hp]
            simp
          · rw [← hpb, ih (height p) (by omega) p hp rfl]
            simp
        rcases h.late b hb (hlate b hb) with hpool | hc
        · exact absurd (h.wake b hpool hparent) (hq.not_pending hb)
        · exact hc
  refine ⟨fun b hb => hchain _ b hb rfl, List.eq_nil_iff_forall_not_mem.2 fun b hb => ?_⟩
  exact hq.not_announced b (h.leaving b hb (hchain _ b (h.pool b hb).1 rfl))

/-- One block on a stored block goes all the way: it is pushed, sent, executed, reported and
removed from the pool. -/
lemma BareBlock.run_push :
    ∃ s : Pipeline BareBlock, Relation.ReflTransGen (PipelineStep [⟨[1], [0], 2, 3⟩])
      (Pipeline.start (BlockChain.setup ⟨[0], [], 1, 0⟩ 8).blocks) s ∧
      Quiet [⟨[1], [0], 2, 3⟩] s := by
  let b : BareBlock := ⟨[1], [0], 2, 3⟩
  have hmem : b ∈ [b] := List.mem_singleton.2 rfl
  have hsent := (((Relation.ReflTransGen.single
    (PipelineStep.check (Pipeline.start (BlockChain.setup ⟨[0], [], 1, 0⟩ 8).blocks) b hmem
      rfl)).tail (.insert _ b hmem rfl)).tail (.lookup _ b hmem rfl)).tail
    (.send _ b b hmem rfl (by decide))
  have hput := ((hsent.tail (.receiveNew _ b [] rfl rfl)).tail (.checkTask _ b [] [] rfl)).tail
    (.putBlock _ b [] [] rfl)
  have hdone := (((hput.tail (.report _ b true [] [] rfl (by decide))).tail
    (.receiveResult _ b true [] rfl rfl)).tail (.remove _ b true rfl)).tail
    (.findChildren _ b rfl)
  refine ⟨_, hdone.tail (.startEnd _ rfl), ?_, rfl, rfl, rfl, rfl⟩
  intro c hc
  rw [List.mem_singleton.1 hc]
  rfl

/-- The stored genesis block and one block on it. -/
theorem pushed_block_reaches_chain :
    ∃ s : Pipeline BareBlock, s.chain [1] = some ⟨[1], [0], 2, 3⟩ ∧ s.pool.blocks = [] := by
  obtain ⟨s, hrun, hq⟩ := BareBlock.run_push
  have ht : PushedTrees (BlockChain.setup (⟨[0], [], 1, 0⟩ : BareBlock) 8).blocks
      [⟨[1], [0], 2, 3⟩] := by
    refine ⟨?_, ?_, ?_, ?_⟩ <;> simp only [List.mem_singleton, forall_eq]
    · exact fun _ => trivial
    · decide
    · exact .inl ⟨⟨[0], [], 1, 0⟩, by decide⟩
    · decide
  obtain ⟨hchain, hpool⟩ := pushed_blocks_reach_chain ht hrun hq
  exact ⟨s, hchain _ (List.mem_singleton.2 rfl), hpool⟩

end GoMedibloc
