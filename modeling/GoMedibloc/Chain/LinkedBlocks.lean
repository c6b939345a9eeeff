import GoMedibloc.Chain.BlockPool
import GoMedibloc.Framework.ObjectHeap

/-!
# The entries of the block pool and their links

The entries of the block pool are objects that point to each other: an entry knows the entry of
its parent and, by their hashes, those of its children.  An entry that leaves the pool is disposed:
it cuts its links, from both ends, and drops its block.

`LinksOk heap pooled` says that the links mirror the parent hashes of the pooled entries, whatever
is pooled, and that all other entries are disposed.  Linking a new entry establishes it for one
entry more (`LinksOk.link`), disposing one for one entry less (`LinksOk.dispose`).  Both rest on
`Relinked`, which says once what linking or unlinking some entries with a parent changes.

An operation whose result is `none` has dereferenced a nil pointer or written to a nil map.
-/

namespace GoMedibloc

variable {B : Type} [HashableBlock B]

/-! ## Entries -/

/-- `linkedBlock`, as an object; a nil pointer or map is `none`. -/
structure LinkedNode (B : Type) where
  block : Option B
  parentLinkedBlock : Option ℕ
  childLinkedBlocks : Option (AList fun _ : Hash => ℕ)

/-- The child under a hash. -/
def LinkedNode.childAt (n : LinkedNode B) (k : Hash) : Option ℕ :=
  n.childLinkedBlocks.bind (·.lookup k)

/-- `newLinkedBlock`. -/
def newLinkedBlock (b : B) : LinkedNode B := ⟨some b, none, some ∅⟩

/-- What is left of an entry that was disposed. -/
def disposedBlock : LinkedNode B := ⟨none, none, none⟩

/-- The entries a process has made, with the pointers to them. -/
abbrev LinkedHeap (B : Type) := ObjectHeap (LinkedNode B)

/-- `linkParent`. -/
def linkParent (heap : LinkedHeap B) (lb plb : ℕ) : Option (LinkedHeap B) := do
  let b ← (heap.cell lb).block
  let children ← (heap.cell plb).childLinkedBlocks
  let heap := heap.modify plb fun n =>
    { n with childLinkedBlocks := some (children.insert (hash b) lb) }
  return heap.modify lb fun n => { n with parentLinkedBlock := some plb }

/-- `unlinkParent`; deleting from a nil map does nothing. -/
def unlinkParent (heap : LinkedHeap B) (lb plb : ℕ) : Option (LinkedHeap B) := do
  let b ← (heap.cell lb).block
  let heap := heap.modify plb fun n =>
    { n with childLinkedBlocks := n.childLinkedBlocks.map (·.erase (hash b)) }
  return heap.modify lb fun n => { n with parentLinkedBlock := none }

/-- The pointers in the map of children. -/
def LinkedNode.children (n : LinkedNode B) : List ℕ :=
  (n.childLinkedBlocks.getD ∅).entries.map Sigma.snd

/-- The first branch of `dispose`. -/
def unlinkFromParent (heap : LinkedHeap B) (lb : ℕ) : Option (LinkedHeap B) :=
  match (heap.cell lb).parentLinkedBlock with
  | some plb => unlinkParent heap lb plb
  | none => some heap

/-- `dispose`.  The loop over the children deletes the entries of the map it runs over, each when
it is visited. -/
def dispose (heap : LinkedHeap B) (lb : ℕ) : Option (LinkedHeap B) := do
  let heap ← unlinkFromParent heap lb
  let heap ← (heap.cell lb).children.foldlM (fun heap clb => unlinkParent heap clb lb) heap
  return heap.modify lb fun n => { n with childLinkedBlocks := none, block := none }

/-- The first branch of `Push`. -/
def linkToParent (heap : LinkedHeap B) (lb : ℕ) (plb : Option ℕ) : Option (LinkedHeap B) :=
  match plb with
  | some plb => linkParent heap lb plb
  | none => some heap

/-! ## What linking and unlinking change -/

/-- The hash of an entry's block. -/
def LinkedNode.key (n : LinkedNode B) : Option Hash := n.block.map hash

/-- The entries `cs` were linked to the parent `plb`, or unlinked from it, and nothing else was
changed. -/
structure Relinked (on : Bool) (plb : ℕ) (cs : List ℕ) (heap heap' : LinkedHeap B) : Prop where
  next : heap'.next = heap.next
  block : ∀ r, (heap'.cell r).block = (heap.cell r).block
  live : ∀ r, (heap'.cell r).childLinkedBlocks.isSome = (heap.cell r).childLinkedBlocks.isSome
  parent : ∀ r, (heap'.cell r).parentLinkedBlock =
    if r ∈ cs then (if on then some plb else none) else (heap.cell r).parentLinkedBlock
  child : ∀ r k c, (heap'.cell r).childAt k = some c ↔
    (on ∧ r = plb ∧ c ∈ cs ∧ (heap.cell c).key = some k) ∨
    ((heap.cell r).childAt k = some c ∧ ¬ (r = plb ∧ ∃ c' ∈ cs, (heap.cell c').key = some k))

section Linking

variable {heap heap₁ heap₂ : LinkedHeap B} {lb plb : ℕ} {b : B} {on : Bool} {cs : List ℕ}

lemma Relinked.key (h : Relinked on plb cs heap heap₁) (r : ℕ) :
    (heap₁.cell r).key = (heap.cell r).key := by
  rw [LinkedNode.key, LinkedNode.key, h.block]

lemma Relinked.nil (on : Bool) (plb : ℕ) (heap : LinkedHeap B) : Relinked on plb [] heap heap :=
  ⟨rfl, fun _ => rfl, fun _ => rfl, fun _ => by simp, fun _ _ _ => by simp⟩

/-- One entry and then others, if their blocks have different hashes. -/
lemma Relinked.cons {c : ℕ} (h₁ : Relinked on plb [c] heap heap₁)
    (h₂ : Relinked on plb cs heap₁ heap₂)
    (hinj : ∀ c' ∈ cs, (heap.cell c').key = (heap.cell c).key → c' = c) :
    Relinked on plb (c :: cs) heap heap₂ := by
  refine ⟨h₂.next.trans h₁.next, fun r => (h₂.block r).trans (h₁.block r),
    fun r => (h₂.live r).trans (h₁.live r), fun r => ?_, fun r k x => ?_⟩
  · rw [h₂.parent, h₁.parent]
    by_cases hr : r ∈ cs
    · simp [hr]
    · simp [hr]
  · rw [h₂.child, h₁.child]
    simp only [h₁.key, List.mem_singleton, exists_eq_left]
    simp only [List.mem_cons, exists_eq_or_imp]
    constructor
    · rintro (⟨hon, hr, hx, hk⟩ | ⟨⟨hon, hr, rfl, hk⟩ | ⟨hold, hno⟩, hno'⟩)
      · exact .inl ⟨hon, hr, .inr hx, hk⟩
      · exact .inl ⟨hon, hr, .inl rfl, hk⟩
      · refine .inr ⟨hold, fun hmem => ?_⟩
        rcases hmem.2 with hk | hex
        · exact hno ⟨hmem.1, hk⟩
        · exact hno' ⟨hmem.1, hex⟩
    · rintro (⟨hon, hr, hx, hk⟩ | ⟨hold, hno⟩)
      · by_cases hmem : x ∈ cs
        · exact .inl ⟨hon, hr, hmem, hk⟩
        · obtain rfl : x = c := hx.resolve_right hmem
          refine .inr ⟨.inl ⟨hon, hr, rfl, hk⟩, fun hex => ?_⟩
          obtain ⟨c', hc', hk'⟩ := hex.2
          exact hmem (hinj c' hc' (hk'.trans hk.symm) ▸ hc')
      · exact .inr ⟨.inr ⟨hold, fun h => hno ⟨h.1, .inl h.2⟩⟩, fun h => hno ⟨h.1, .inr h.2⟩⟩

/-- Setting the children of `plb` and then the parent of `lb` relinks `lb`, if the new map of
children differs from the old one at the hash of `lb` only. -/
lemma relinked_setLinks (hb : (heap.cell lb).block = some b)
    (f : Option (AList fun _ : Hash => ℕ) → Option (AList fun _ : Hash => ℕ))
    (hlive : (f (heap.cell plb).childLinkedBlocks).isSome =
      (heap.cell plb).childLinkedBlocks.isSome)
    (hchild : ∀ k c, (f (heap.cell plb).childLinkedBlocks).bind (·.lookup k) = some c ↔
      (on ∧ c = lb ∧ hash b = k) ∨ ((heap.cell plb).childAt k = some c ∧ hash b ≠ k)) :
    Relinked on plb [lb] heap
      ((ObjectHeap.modify heap plb fun n =>
        { n with childLinkedBlocks := f n.childLinkedBlocks }).modify lb fun n =>
        { n with parentLinkedBlock := if on then some plb else none }) := by
  have hcell : ∀ r, ((ObjectHeap.modify heap plb fun n =>
        { n with childLinkedBlocks := f n.childLinkedBlocks }).modify lb fun n =>
        { n with parentLinkedBlock := if on then some plb else none }).cell r =
      ⟨(heap.cell r).block,
        if r = lb then (if on then some plb else none) else (heap.cell r).parentLinkedBlock,
        if r = plb then f (heap.cell plb).childLinkedBlocks
        else (heap.cell r).childLinkedBlocks⟩ := by
    intro r
    simp only [ObjectHeap.modify, Function.update_apply]
    by_cases hlb : r = lb <;> by_cases hplb : r = plb
    · simp [← hlb, ← hplb]
    · have hne : lb ≠ plb := fun h => hplb (hlb.trans h)
      simp [hlb, hne]
    · have hne : plb ≠ lb := fun h => hlb (hplb.trans h)
      simp [hplb, hne]
    · simp [hlb, hplb]
  have hkey : (heap.cell lb).key = some (hash b) := by rw [LinkedNode.key, hb]; rfl
  refine ⟨rfl, fun r => by rw [hcell], fun r => ?_, fun r => ?_, fun r k c => ?_⟩
  · rw [hcell]
    dsimp only
    split_ifs with h
    · rw [h, hlive]
    · rfl
  · rw [hcell]
    simp
  · rw [hcell]
    simp only [LinkedNode.childAt, List.mem_singleton, exists_eq_left, hkey, Option.some_inj]
    by_cases h : r = plb
    · rw [if_pos h, hchild, h, LinkedNode.childAt]
      refine or_congr ?_ (by simp)
      constructor
      · rintro ⟨hon, rfl, rfl⟩
        exact ⟨hon, rfl, rfl, hkey⟩
      · rintro ⟨hon, -, rfl, hk⟩
        exact ⟨hon, rfl, Option.some_inj.1 (hkey.symm.trans hk)⟩
    · simp [h]

lemma linkParent_spec (plb : ℕ) (hb : (heap.cell lb).block = some b)
    (hlive : (heap.cell plb).childLinkedBlocks.isSome) :
    ∃ heap', linkParent heap lb plb = some heap' ∧ Relinked true plb [lb] heap heap' := by
  obtain ⟨children, hchildren⟩ := Option.isSome_iff_exists.1 hlive
  refine ⟨_, ?_, relinked_setLinks hb (fun _ => some (children.insert (hash b) lb)) ?_ ?_⟩
  · rw [linkParent, hb, hchildren]
    rfl
  · rw [hchildren]
    rfl
  · intro k c
    rw [Option.bind_some, LinkedNode.childAt, hchildren, Option.bind_some]
    by_cases hk : k = hash b
    · subst hk
      simp [eq_comm]
    · rw [AList.lookup_insert_ne hk]
      simp [Ne.symm hk]

lemma unlinkParent_spec (plb : ℕ) (hb : (heap.cell lb).block = some b) :
    ∃ heap', unlinkParent heap lb plb = some heap' ∧ Relinked false plb [lb] heap heap' := by
  refine ⟨_, ?_, relinked_setLinks hb (Option.map (·.erase (hash b))) ?_ ?_⟩
  · rw [unlinkParent, hb]
    rfl
  · exact Option.isSome_map
  · intro k c
    rw [LinkedNode.childAt]
    cases (heap.cell plb).childLinkedBlocks with
    | none => simp
    | some children =>
        by_cases hk : k = hash b
        · subst hk
          simp
        · simp [AList.lookup_erase_ne hk, Ne.symm hk]

/-- Entries that are relinked one after another. -/
lemma relinkAll (heap : LinkedHeap B) (plb : ℕ) (cs : List ℕ)
    (step : LinkedHeap B → ℕ → Option (LinkedHeap B))
    (hblock : ∀ c ∈ cs, ((heap.cell c).block).isSome)
    (hlive : (heap.cell plb).childLinkedBlocks.isSome)
    (hstep : ∀ heap c, ((heap.cell c).block).isSome → (heap.cell plb).childLinkedBlocks.isSome →
      ∃ heap', step heap c = some heap' ∧ Relinked on plb [c] heap heap')
    (hinj : ∀ c ∈ cs, ∀ c' ∈ cs, (heap.cell c').key = (heap.cell c).key → c' = c) :
    ∃ heap', cs.foldlM step heap = some heap' ∧ Relinked on plb cs heap heap' := by
  induction cs generalizing heap with
  | nil => exact ⟨heap, rfl, .nil on plb heap⟩
  | cons c cs ih =>
      obtain ⟨heap₁, hfirst, h₁⟩ := hstep heap c (hblock c (by simp)) hlive
      obtain ⟨heap₂, hrest, h₂⟩ := ih heap₁
        (fun c' hc' => by rw [h₁.block]; exact hblock c' (by simp [hc']))
        (by rw [h₁.live]; exact hlive)
        (fun x hx y hy hkey => hinj x (by simp [hx]) y (by simp [hy])
          (by rwa [h₁.key, h₁.key] at hkey))
      refine ⟨heap₂, ?_, h₁.cons h₂ fun c' hc' => hinj c (by simp) c' (by simp [hc'])⟩
      rw [List.foldlM_cons, hfirst]
      exact hrest

end Linking

/-! ## The links mirror the parent hashes -/

/-- The links of the entries that `pooled` points to mirror the parent hashes of their blocks, and
all other entries that were ever made are disposed. -/
structure LinksOk (heap : LinkedHeap B) (pooled : Hash → Option ℕ) : Prop where
  allocated : ∀ {h r}, pooled h = some r → r < heap.next
  block : ∀ {h r}, pooled h = some r → ∃ b, (heap.cell r).block = some b ∧ hash b = h
  live : ∀ {h r}, pooled h = some r → (heap.cell r).childLinkedBlocks.isSome
  parent : ∀ {h r b}, pooled h = some r → (heap.cell r).block = some b →
    (heap.cell r).parentLinkedBlock = pooled (parentHash b)
  child : ∀ {h r k c}, pooled h = some r → ((heap.cell r).childAt k = some c ↔
    pooled k = some c ∧ (heap.cell c).block.map parentHash = some h)
  disposed : ∀ {r}, r < heap.next → (∀ h, pooled h ≠ some r) → heap.cell r = disposedBlock

namespace LinksOk

variable {heap heap' : LinkedHeap B} {pooled : Hash → Option ℕ} {h : Hash} {r lb : ℕ} {b : B}

lemma key (hok : LinksOk heap pooled) (hr : pooled h = some r) :
    (heap.cell r).key = some h := by
  obtain ⟨b, hb, rfl⟩ := hok.block hr
  rw [LinkedNode.key, hb]
  rfl

/-- An entry is pooled under the hash of its block only. -/
lemma hash_unique {h' : Hash} (hok : LinksOk heap pooled) (hr : pooled h = some r)
    (hr' : pooled h' = some r) : h = h' :=
  Option.some_inj.1 ((hok.key hr).symm.trans (hok.key hr'))

lemma blocks_isSome (hok : LinksOk heap pooled) (hr : pooled h = some r) :
    (heap.cell r).block.isSome := by
  obtain ⟨b, hb, -⟩ := hok.block hr
  rw [hb]
  rfl

omit [HashableBlock B] in
lemma eq_disposedBlock {n : LinkedNode B} (hblock : n.block = none)
    (hparent : n.parentLinkedBlock = none) (hchildren : ¬ n.childLinkedBlocks.isSome) :
    n = disposedBlock := by
  obtain ⟨block, parent, children⟩ := n
  simp only at hblock hparent hchildren
  rw [hblock, hparent, Option.not_isSome_iff_eq_none.1 hchildren]
  rfl

/-- A new entry, linked to the pooled parent of its block. -/
structure Appended (heap : LinkedHeap B) (b : B) (above : Option ℕ) (heap₁ : LinkedHeap B) :
    Prop where
  next : heap₁.next = heap.next + 1
  new_block : (heap₁.cell heap.next).block = some b
  new_live : (heap₁.cell heap.next).childLinkedBlocks.isSome
  new_parent : (heap₁.cell heap.next).parentLinkedBlock = above
  new_child : ∀ k, (heap₁.cell heap.next).childAt k = none
  block : ∀ r < heap.next, (heap₁.cell r).block = (heap.cell r).block
  live : ∀ r < heap.next,
    (heap₁.cell r).childLinkedBlocks.isSome = (heap.cell r).childLinkedBlocks.isSome
  parent : ∀ r < heap.next, (heap₁.cell r).parentLinkedBlock = (heap.cell r).parentLinkedBlock
  child : ∀ r < heap.next, ∀ k c, (heap₁.cell r).childAt k = some c ↔
    (above = some r ∧ c = heap.next ∧ k = hash b) ∨
    ((heap.cell r).childAt k = some c ∧ ¬ (above = some r ∧ k = hash b))

lemma appended_alloc (heap : LinkedHeap B) (b : B) :
    Appended heap b none (heap.alloc (newLinkedBlock b)) := by
  have hnew : (heap.alloc (newLinkedBlock b)).cell heap.next = newLinkedBlock b :=
    Function.update_self _ _ _
  have hold : ∀ r < heap.next, (heap.alloc (newLinkedBlock b)).cell r = heap.cell r :=
    fun r hr => Function.update_of_ne hr.ne _ _
  refine ⟨rfl, by rw [hnew]; rfl, by rw [hnew]; rfl, by rw [hnew]; rfl, fun k => by rw [hnew]; rfl,
    fun r hr => by rw [hold r hr], fun r hr => by rw [hold r hr], fun r hr => by rw [hold r hr],
    fun r hr k c => by rw [hold r hr]; simp⟩

lemma appended_linkParent (hok : LinksOk heap pooled) {plb : ℕ} (hplb : pooled h = some plb) :
    ∃ heap₁, linkParent (heap.alloc (newLinkedBlock b)) heap.next plb = some heap₁ ∧
      Appended heap b (some plb) heap₁ := by
  have h₀ := appended_alloc heap b
  have hlt := hok.allocated hplb
  obtain ⟨heap₁, hlink, h₁⟩ := linkParent_spec plb h₀.new_block
    (by rw [h₀.live plb hlt]; exact hok.live hplb)
  refine ⟨heap₁, hlink, h₁.next.trans h₀.next, (h₁.block _).trans h₀.new_block,
    by rw [h₁.live]; exact h₀.new_live, by rw [h₁.parent]; simp, fun k => ?_,
    fun r hr => (h₁.block r).trans (h₀.block r hr), fun r hr => (h₁.live r).trans (h₀.live r hr),
    fun r hr => ?_, fun r hr k c => ?_⟩
  · rw [Option.eq_none_iff_forall_ne_some]
    intro c hc
    rcases (h₁.child _ _ _).1 hc with ⟨-, heq, -⟩ | ⟨hold, -⟩
    · exact hlt.ne' heq
    · rw [h₀.new_child] at hold
      cases hold
  · rw [h₁.parent, if_neg (by simpa using hr.ne), h₀.parent r hr]
  · have hkey : ((heap.alloc (newLinkedBlock b)).cell heap.next).key = some (hash b) := by
      rw [LinkedNode.key, h₀.new_block]
      rfl
    rw [h₁.child, h₀.child r hr]
    simp only [List.mem_singleton, exists_eq_left, hkey, Option.some_inj, true_and]
    constructor
    · rintro (⟨rfl, rfl, hk⟩ | ⟨hold, hno⟩)
      · exact .inl ⟨rfl, rfl, (Option.some_inj.1 (hkey.symm.trans hk)).symm⟩
      · exact .inr ⟨by simpa using hold, fun h => hno ⟨h.1.symm, h.2.symm⟩⟩
    · rintro (⟨rfl, rfl, rfl⟩ | ⟨hold, hno⟩)
      · exact .inl ⟨rfl, rfl, hkey⟩
      · exact .inr ⟨by simpa using hold, fun h => hno ⟨h.1.symm, h.2.symm⟩⟩

lemma appended_linkToParent (hok : LinksOk heap pooled) (h : Hash) (b : B) :
    ∃ heap₁, linkToParent (heap.alloc (newLinkedBlock b)) heap.next (pooled h) =
      some heap₁ ∧ Appended heap b (pooled h) heap₁ := by
  cases hp : pooled h with
  | none => exact ⟨_, rfl, appended_alloc heap b⟩
  | some plb => exact hok.appended_linkParent hp

/-- **Linking a new entry.**  A new entry that is linked to the pooled parent of its block and from
its pooled children joins the pooled ones. -/
lemma link (hok : LinksOk heap pooled) (hnew : pooled (hash b) = none)
    (hself : parentHash b ≠ hash b) {cs : List ℕ}
    (hcs : ∀ c, c ∈ cs ↔ (∃ k, pooled k = some c) ∧
      (heap.cell c).block.map parentHash = some (hash b))
    {heap₁ heap₂ : LinkedHeap B} (h₁ : Appended heap b (pooled (parentHash b)) heap₁)
    (h₂ : Relinked true heap.next cs heap₁ heap₂) :
    LinksOk heap₂ (Function.update pooled (hash b) (some heap.next)) := by
  have hlb : heap.next ∉ cs := fun hmem =>
    let ⟨⟨_, hk⟩, _⟩ := (hcs _).1 hmem
    (hok.allocated hk).ne rfl
  -- the pooled entries are the new one and the old ones
  have hcases : ∀ {h r}, Function.update pooled (hash b) (some heap.next) h = some r →
      (h = hash b ∧ r = heap.next) ∨ (h ≠ hash b ∧ pooled h = some r ∧ r < heap.next) := by
    intro h r hr
    by_cases hh : h = hash b
    · subst hh
      rw [Function.update_self, Option.some_inj] at hr
      exact .inl ⟨rfl, hr.symm⟩
    · rw [Function.update_of_ne hh] at hr
      exact .inr ⟨hh, hr, hok.allocated hr⟩
  have hold : ∀ {r}, r < heap.next → (heap₂.cell r).block = (heap.cell r).block :=
    fun hr => (h₂.block _).trans (h₁.block _ hr)
  have hnewblock : (heap₂.cell heap.next).block = some b := (h₂.block _).trans h₁.new_block
  refine ⟨?_, ?_, ?_, ?_, ?_, ?_⟩
  · intro h r hr
    rw [h₂.next, h₁.next]
    rcases hcases hr with ⟨-, rfl⟩ | ⟨-, -, hlt⟩ <;> omega
  · intro h r hr
    rcases hcases hr with ⟨rfl, rfl⟩ | ⟨-, hr, hlt⟩
    · exact ⟨b, hnewblock, rfl⟩
    · rw [hold hlt]
      exact hok.block hr
  · intro h r hr
    rw [h₂.live]
    rcases hcases hr with ⟨rfl, rfl⟩ | ⟨-, hr, hlt⟩
    · exact h₁.new_live
    · rw [h₁.live r hlt]
      exact hok.live hr
  · intro h r x hr hx
    rcases hcases hr with ⟨rfl, rfl⟩ | ⟨-, hr, hlt⟩
    · obtain rfl : b = x := Option.some_inj.1 (hnewblock.symm.trans hx)
      rw [h₂.parent, if_neg hlb, h₁.new_parent, Function.update_of_ne hself]
    · rw [hold hlt] at hx
      rw [h₂.parent]
      by_cases hparent : parentHash x = hash b
      · have hmem : r ∈ cs := (hcs r).2 ⟨⟨h, hr⟩, by rw [hx, ← hparent]; rfl⟩
        rw [if_pos hmem, hparent, Function.update_self]
        rfl
      · have hnot : r ∉ cs := fun hmem => hparent
          (Option.some_inj.1 ((by rw [hx]; rfl : some (parentHash x) =
            (heap.cell r).block.map parentHash).trans ((hcs r).1 hmem).2))
        rw [if_neg hnot, h₁.parent r hlt, Function.update_of_ne hparent]
        exact hok.parent hr hx
  · intro h r k c hr
    have hkey : ∀ {k c}, pooled k = some c → (heap₁.cell c).key = some k := fun hc => by
      rw [LinkedNode.key, h₁.block _ (hok.allocated hc)]
      exact hok.key hc
    -- the entry under `k` is the new one or an old one
    have hunder : Function.update pooled (hash b) (some heap.next) k = some c ∧
          (heap₂.cell c).block.map parentHash = some h ↔
        (k = hash b ∧ c = heap.next ∧ parentHash b = h) ∨
        (pooled k = some c ∧ (heap.cell c).block.map parentHash = some h) := by
      constructor
      · rintro ⟨hc, hparent⟩
        rcases hcases hc with ⟨rfl, rfl⟩ | ⟨-, hc, hlt⟩
        · rw [hnewblock] at hparent
          exact .inl ⟨rfl, rfl, Option.some_inj.1 hparent⟩
        · rw [hold hlt] at hparent
          exact .inr ⟨hc, hparent⟩
      · rintro (⟨rfl, rfl, rfl⟩ | ⟨hc, hparent⟩)
        · exact ⟨Function.update_self _ _ _, by rw [hnewblock]; rfl⟩
        · have hk : k ≠ hash b := fun heq => by simp [heq, hnew] at hc
          exact ⟨by rwa [Function.update_of_ne hk], by rwa [hold (hok.allocated hc)]⟩
    rw [hunder, h₂.child]
    rcases hcases hr with ⟨rfl, rfl⟩ | ⟨-, hr, hlt⟩
    · constructor
      · rintro (⟨-, -, hmem, hk⟩ | ⟨hc, -⟩)
        · obtain ⟨⟨k', hk'⟩, hparent⟩ := (hcs c).1 hmem
          obtain rfl : k' = k := Option.some_inj.1 ((hkey hk').symm.trans hk)
          exact .inr ⟨hk', hparent⟩
        · rw [h₁.new_child] at hc
          cases hc
      · rintro (⟨-, -, hparent⟩ | ⟨hc, hparent⟩)
        · exact absurd hparent hself
        · exact .inl ⟨rfl, rfl, (hcs c).2 ⟨⟨k, hc⟩, hparent⟩, hkey hc⟩
    · have habove : pooled (parentHash b) = some r ↔ parentHash b = h :=
        ⟨fun hp => hok.hash_unique hp hr, fun heq => heq ▸ hr⟩
      rw [h₁.child r hlt, habove]
      constructor
      · rintro (⟨-, heq, -⟩ | ⟨⟨hparent, hc, hk⟩ | ⟨hc, -⟩, -⟩)
        · exact absurd heq hlt.ne
        · exact .inl ⟨hk, hc, hparent⟩
        · exact .inr ((hok.child hr).1 hc)
      · rintro (⟨hk, hc, hparent⟩ | hc)
        · exact .inr ⟨.inl ⟨hparent, hc, hk⟩, fun hex => hlt.ne hex.1⟩
        · refine .inr ⟨.inr ⟨(hok.child hr).2 hc, fun hex => ?_⟩, fun hex => hlt.ne hex.1⟩
          rw [hex.2, hnew] at hc
          cases hc.1
  · intro r hr hnone
    rw [h₂.next, h₁.next] at hr
    have hlt : r < heap.next := by
      have hne : r ≠ heap.next := fun heq => hnone (hash b) (heq ▸ Function.update_self _ _ _)
      omega
    have hnone' : ∀ h, pooled h ≠ some r := by
      intro h hr
      have hne : h ≠ hash b := fun heq => by simp [heq, hnew] at hr
      exact hnone h (by rwa [Function.update_of_ne hne])
    have hcell := hok.disposed hlt hnone'
    have hmem : r ∉ cs := fun hmem => let ⟨⟨k, hk⟩, _⟩ := (hcs r).1 hmem; hnone' k hk
    refine eq_disposedBlock ?_ ?_ ?_
    · rw [hold hlt, hcell]
      rfl
    · rw [h₂.parent, if_neg hmem, h₁.parent r hlt, hcell]
      rfl
    · rw [h₂.live, h₁.live r hlt, hcell]
      exact Bool.false_ne_true

omit [HashableBlock B] in
lemma mem_children {n : LinkedNode B} {c : ℕ} : c ∈ n.children ↔ ∃ k, n.childAt k = some c := by
  unfold LinkedNode.children LinkedNode.childAt
  cases n.childLinkedBlocks with
  | none => simp
  | some children =>
      simp only [Option.getD_some, Option.bind_some, List.mem_map]
      constructor
      · rintro ⟨e, he, rfl⟩
        exact ⟨e.1, AList.mem_lookup_iff.2 he⟩
      · rintro ⟨k, hk⟩
        exact ⟨⟨k, c⟩, AList.mem_lookup_iff.1 hk, rfl⟩

/-- The first half of `dispose`: the entry is no longer a child of its parent. -/
lemma cut_parent (hok : LinksOk heap pooled) (hr : pooled h = some r)
    (hb : (heap.cell r).block = some b) :
    ∃ heap₁, unlinkFromParent heap r = some heap₁ ∧
      heap₁.next = heap.next ∧ (∀ x, (heap₁.cell x).block = (heap.cell x).block) ∧
      (∀ x, (heap₁.cell x).childLinkedBlocks.isSome = (heap.cell x).childLinkedBlocks.isSome) ∧
      (∀ x, (heap₁.cell x).parentLinkedBlock =
        if x = r then none else (heap.cell x).parentLinkedBlock) ∧
      ∀ x k c, (heap₁.cell x).childAt k = some c ↔
        (heap.cell x).childAt k = some c ∧ ¬ (pooled (parentHash b) = some x ∧ k = h) := by
  have hparent := hok.parent hr hb
  have hkey := hok.key hr
  cases hp : pooled (parentHash b) with
  | none =>
      rw [hp] at hparent
      refine ⟨heap, by rw [unlinkFromParent, hparent], rfl, fun x => rfl, fun x => rfl, fun x => ?_, fun x k c => ?_⟩
      · split_ifs with hx
        · rw [hx, hparent]
        · rfl
      · simp
  | some plb =>
      rw [hp] at hparent
      obtain ⟨heap₁, hunlink, h₁⟩ := unlinkParent_spec plb hb
      refine ⟨heap₁, by rw [unlinkFromParent, hparent]; exact hunlink, h₁.next, h₁.block, h₁.live, fun x => ?_,
        fun x k c => ?_⟩
      · rw [h₁.parent]
        simp
      · rw [h₁.child]
        simp only [List.mem_singleton, exists_eq_left, hkey, Option.some_inj, Bool.false_eq_true,
          false_and, false_or]
        rw [@eq_comm _ x, @eq_comm _ h]

/-- **Disposing an entry.**  An entry that is disposed leaves the links of the others as they
have to be without it. -/
lemma dispose (hok : LinksOk heap pooled) (hr : pooled h = some r)
    (hself : ∀ b, (heap.cell r).block = some b → parentHash b ≠ hash b) :
    ∃ heap', GoMedibloc.dispose heap r = some heap' ∧
      LinksOk heap' (Function.update pooled h none) ∧
      ∀ x ≠ r, (heap'.cell x).block = (heap.cell x).block := by
  obtain ⟨b, hb, rfl⟩ := hok.block hr
  obtain ⟨heap₁, hcut, hnext₁, hblock₁, hlive₁, hparent₁, hchild₁⟩ := hok.cut_parent hr hb
  have hkey₁ : ∀ x, (heap₁.cell x).key = (heap.cell x).key := fun x => by
    rw [LinkedNode.key, LinkedNode.key, hblock₁]
  -- the children of the entry are the pooled entries with its hash as their parent hash
  have hcs : ∀ c, c ∈ (heap₁.cell r).children ↔
      (∃ k, pooled k = some c) ∧ (heap.cell c).block.map parentHash = some (hash b) := by
    intro c
    have hnot : ¬ pooled (parentHash b) = some r := fun hp => hself b hb (hok.hash_unique hp hr)
    simp only [mem_children, hchild₁, hok.child hr, hnot, false_and, not_false_iff, and_true,
      exists_and_right]
  have hnotself : r ∉ (heap₁.cell r).children := fun hmem => by
    have hparent := ((hcs r).1 hmem).2
    rw [hb] at hparent
    exact hself b hb (Option.some_inj.1 hparent)
  obtain ⟨heap₂, hall, h₂⟩ := relinkAll heap₁ r (heap₁.cell r).children
    (fun heap clb => unlinkParent heap clb r)
    (fun c hc => by
      obtain ⟨⟨k, hk⟩, -⟩ := (hcs c).1 hc
      rw [hblock₁]
      exact hok.blocks_isSome hk)
    (by rw [hlive₁]; exact hok.live hr)
    (fun heap c hc _ => let ⟨_, hc⟩ := Option.isSome_iff_exists.1 hc; unlinkParent_spec r hc)
    (fun c hc c' hc' heq => by
      obtain ⟨⟨k, hk⟩, -⟩ := (hcs c).1 hc
      obtain ⟨⟨k', hk'⟩, -⟩ := (hcs c').1 hc'
      rw [hkey₁, hkey₁, hok.key hk, hok.key hk', Option.some_inj] at heq
      exact Option.some_inj.1 (hk'.symm.trans (heq ▸ hk)))
  obtain ⟨heap₃, hheap₃⟩ : ∃ heap₃ : LinkedHeap B, heap₃ = heap₂.modify r fun n =>
    { n with childLinkedBlocks := none, block := none } := ⟨_, rfl⟩
  have hself₃ : heap₃.cell r =
      { heap₂.cell r with childLinkedBlocks := none, block := none } := by
    rw [hheap₃]
    exact ObjectHeap.cell_modify_self _ _
  have hother₃ : ∀ {x}, x ≠ r → heap₃.cell x = heap₂.cell x := fun hx => by
    rw [hheap₃]
    exact Function.update_of_ne hx _ _
  have hblock₃ : ∀ {x}, x ≠ r → (heap₃.cell x).block = (heap.cell x).block := fun hx => by
    rw [hother₃ hx, h₂.block, hblock₁]
  have hnext₃ : heap₃.next = heap.next := by rw [hheap₃, ObjectHeap.next_modify, h₂.next, hnext₁]
  -- the entries that stay pooled are the others
  have hcases : ∀ {h' x}, Function.update pooled (hash b) none h' = some x →
      h' ≠ hash b ∧ pooled h' = some x ∧ x ≠ r := by
    intro h' x hx
    by_cases hh : h' = hash b
    · rw [hh, Function.update_self] at hx
      cases hx
    · rw [Function.update_of_ne hh] at hx
      exact ⟨hh, hx, fun heq => hh (hok.hash_unique (heq ▸ hx) hr)⟩
  refine ⟨heap₃, ?_, ⟨?_, ?_, ?_, ?_, ?_, ?_⟩, fun x hx => hblock₃ hx⟩
  · rw [GoMedibloc.dispose, hcut, Option.bind_eq_bind, Option.bind_some, hall, hheap₃]
    rfl
  · intro h' x hx
    rw [hnext₃]
    exact hok.allocated (hcases hx).2.1
  · intro h' x hx
    obtain ⟨-, hx, hne⟩ := hcases hx
    rw [hblock₃ hne]
    exact hok.block hx
  · intro h' x hx
    obtain ⟨-, hx, hne⟩ := hcases hx
    rw [hother₃ hne, h₂.live, hlive₁]
    exact hok.live hx
  · intro h' x y hx hy
    obtain ⟨-, hx, hne⟩ := hcases hx
    rw [hblock₃ hne] at hy
    rw [hother₃ hne, h₂.parent, hparent₁, if_neg hne]
    have hmem : x ∈ (heap₁.cell r).children ↔ parentHash y = hash b := by
      rw [hcs, hy]
      simp only [Option.map_some, Option.some_inj, and_iff_right_iff_imp]
      exact fun _ => ⟨h', hx⟩
    by_cases hparent : parentHash y = hash b
    · rw [if_pos (hmem.2 hparent), hparent, Function.update_self]
      rfl
    · rw [if_neg (fun h => hparent (hmem.1 h)), Function.update_of_ne hparent]
      exact hok.parent hx hy
  · intro h' x k c hx
    obtain ⟨-, hx, hne⟩ := hcases hx
    rw [hother₃ hne, h₂.child, hchild₁, hok.child hx]
    constructor
    · rintro (⟨hfalse, -⟩ | ⟨⟨⟨hc, hparent⟩, hno⟩, -⟩)
      · cases hfalse
      · have hk : k ≠ hash b := by
          rintro rfl
          obtain rfl : r = c := Option.some_inj.1 (hr.symm.trans hc)
          rw [hb, Option.map_some, Option.some_inj] at hparent
          exact hno ⟨hparent ▸ hx, rfl⟩
        have hc' : Function.update pooled (hash b) none k = some c := by
          rwa [Function.update_of_ne hk]
        exact ⟨hc', by rwa [hblock₃ (hcases hc').2.2]⟩
    · rintro ⟨hc, hparent⟩
      obtain ⟨hk, hc, hcne⟩ := hcases hc
      rw [hblock₃ hcne] at hparent
      exact .inr ⟨⟨⟨hc, hparent⟩, fun hex => hk hex.2⟩, fun hex => hne hex.1⟩
  · intro x hx hnone
    rw [hnext₃] at hx
    by_cases hxr : x = r
    · subst hxr
      rw [hself₃]
      refine eq_disposedBlock rfl ?_ Bool.false_ne_true
      rw [h₂.parent, if_neg hnotself, hparent₁, if_pos rfl]
    · have hnone' : ∀ h', pooled h' ≠ some x := by
        intro h' hx
        have hh : h' ≠ hash b := fun heq =>
          hxr (Option.some_inj.1 ((heq ▸ hx).symm.trans hr))
        exact hnone h' (by rwa [Function.update_of_ne hh])
      have hcell := hok.disposed hx hnone'
      have hmem : x ∉ (heap₁.cell r).children := fun hmem =>
        let ⟨⟨k, hk⟩, _⟩ := (hcs x).1 hmem
        hnone' k hk
      refine eq_disposedBlock ?_ ?_ ?_
      · rw [hblock₃ hxr, hcell]
        rfl
      · rw [hother₃ hxr, h₂.parent, if_neg hmem, hparent₁, if_neg hxr, hcell]
        rfl
      · rw [hother₃ hxr, h₂.live, hlive₁, hcell]
        exact Bool.false_ne_true

end LinksOk

end GoMedibloc
