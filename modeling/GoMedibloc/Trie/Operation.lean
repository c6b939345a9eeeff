import GoMedibloc.Trie.Cache

/-!
# On the way of an operation

`Reached` packages a state that an operation reaches, with the references still owed to
each hash, and `Pending` one in which an object has been assigned to and not been saved yet.
The rules below run the steps of an operation forward on them.

`Clean t` is what `Flush` needs: every object that it would write carries the hash of what
it holds.  Assigning to an object breaks it and saving the object restores it.

`Holds L k u t` is the meaning of a trie: it holds the nodes of the tree `u`.
-/

namespace GoMedibloc

namespace Trie

open Prog

variable {C : NodeCodec} {L : NodePtr → Prop} {M M' : Set Hash} {t t' t'' : Trie}

/-! ## Objects that carry their hash -/

/-- The object carries the hash of the node it holds. -/
def CarriesHash (C : NodeCodec) (t : Trie) (p : NodePtr) : Prop :=
  Right C t (C.hash (t.node p)) p

/-- Every cached object that the storage does not have yet, but for `n`, carries its hash. -/
def CleanBut (C : NodeCodec) (n : NodePtr) (t : Trie) : Prop :=
  ∀ x temp, t.tempNodes x = some temp → temp.saved = false → temp.node ≠ n →
    CarriesHash C t temp.node

/-- Every cached object that the storage does not have yet carries its hash. -/
def Clean (C : NodeCodec) (t : Trie) : Prop :=
  ∀ x temp, t.tempNodes x = some temp → temp.saved = false → CarriesHash C t temp.node

lemma Clean.but (h : Clean C t) (n : NodePtr) : CleanBut C n t :=
  fun x temp he hs _ => h x temp he hs

lemma CarriesHash.of_eq {p : NodePtr} (h : CarriesHash C t p) (hheap : t'.heap p = t.heap p)
    (hnode : t'.node p = t.node p) : CarriesHash C t' p := by
  constructor
  · rfl
  · rw [hheap, hnode, h.hash]

lemma CleanBut.deprecated {n : NodePtr} (h : CleanBut C n t) (x : Hash) :
    CleanBut C n (deprecated x t) := by
  intro y temp' he' hs hn
  obtain ⟨temp, he, hp, hsaved, -⟩ := entry_of_deprecated he'
  rw [← hp] at hn ⊢
  exact (h y temp he (hsaved.trans hs) hn).of_eq rfl rfl

lemma Clean.deprecated (h : Clean C t) (x : Hash) : Clean C (deprecated x t) := by
  intro y temp' he' hs
  obtain ⟨temp, he, hp, hsaved, -⟩ := entry_of_deprecated he'
  rw [← hp]
  exact (h y temp he (hsaved.trans hs)).of_eq rfl rfl

lemma CleanBut.savedNode {n : NodePtr} (h : CleanBut C n t) : Clean C (savedNode C n t) := by
  intro x temp' he' hs
  have hself : CarriesHash C (Trie.savedNode C n t) n := by
    rw [CarriesHash, node_savedNode]
    exact right_savedNode_self n t
  rcases entry_of_savedNode he' with ⟨temp, he, hp, hsaved, -⟩ | ⟨-, rfl, -⟩
  · rw [← hp]
    by_cases hn : temp.node = n
    · rw [hn]
      exact hself
    · exact (h x temp he (hsaved.trans hs) hn).of_eq (heap_savedNode_of_ne hn t)
        (node_savedNode n _ t)
  · exact hself

lemma Clean.savedNode (h : Clean C t) (n : NodePtr) : Clean C (savedNode C n t) :=
  (h.but n).savedNode

lemma Clean.allocates {n : Node} (h : Clean C t) (hs : Sound t) (ha : Allocates n t t') :
    Clean C t' := by
  intro x temp he hsaved
  rw [ha.tempNodes] at he
  have hlt := hs.allocated x temp he
  exact (h x temp he hsaved).of_eq (ha.heap _ hlt.ne) (ha.node_of_lt hs hlt)

lemma Clean.loads (h : Clean C t) (hs : Sound t) (hl : Loads C t t') : Clean C t' := by
  intro x temp he hsaved
  rcases hl.new_entry x temp he with he | ⟨-, htrue, -⟩
  · have hlt := hs.allocated x temp he
    exact (h x temp he hsaved).of_eq (hl.heap _ hlt) (hl.node hs hlt)
  · rw [hsaved] at htrue
    cases htrue

lemma Clean.setObj (h : Clean C t) (n : NodePtr) (o : NodeObj) : CleanBut C n (t.setObj n o) := by
  intro x temp he hs hn
  exact (h x temp he hs).of_eq (by simp [Trie.setObj, hn]) (by simp [Trie.setObj, node, hn])

/-! ## Steps -/

/-- A state that an operation reaches from `t`: in order, evolved but for `M`, with every
hash kept for the references that `c` counts, and clean if `t` was. -/
structure Reached (C : NodeCodec) (L : NodePtr → Prop) (c : Hash → ℕ) (M : Set Hash)
    (t t' : Trie) : Prop where
  good : Good C L t'
  evolves : Evolves C L M t t'
  kept : ∀ x, Kept t' x (c x)
  clean : Clean C t → Clean C t'

/-- A state on the way in which the object `n` has been assigned to and not been saved. -/
structure Pending (C : NodeCodec) (L : NodePtr → Prop) (c : Hash → ℕ) (M : Set Hash)
    (n : NodePtr) (t t' : Trie) : Prop where
  good : Good C L t'
  evolves : Evolves C L M t t'
  kept : ∀ x, Kept t' x (c x)
  clean : Clean C t → CleanBut C n t'

variable {c d : Hash → ℕ}

lemma Good.reached (hg : Good C L t) (hk : ∀ x, Kept t x (c x)) : Reached C L c ∅ t t :=
  ⟨hg, Evolves.refl L t, hk, id⟩

lemma Reached.mono (h : Reached C L c M t t') (hM : M ⊆ M') : Reached C L c M' t t' :=
  ⟨h.good, h.evolves.mono hM, h.kept, h.clean⟩

lemma Reached.trans (h : Reached C L c M t t') (h' : Reached C L d M' t' t'') :
    Reached C L d (M ∪ M') t t'' :=
  ⟨h'.good, h.evolves.trans h.good h'.evolves, h'.kept, fun hc => h'.clean (h.clean hc)⟩

lemma Reached.congr (h : Reached C L c M t t') (hc : ∀ x, d x = c x) : Reached C L d M t t' :=
  ⟨h.good, h.evolves, fun x => by rw [hc]; exact h.kept x, h.clean⟩

/-- References may be forgotten. -/
lemma Reached.fewer (h : Reached C L c M t t') (hc : ∀ x, d x ≤ c x) : Reached C L d M t t' :=
  ⟨h.good, h.evolves, fun x => (h.kept x).mono (hc x), h.clean⟩

/-- A step that changes no node on the way. -/
lemma Reached.step (h : Reached C L c M t t') (hg : Good C L t'') (he : Evolves C L ∅ t' t'')
    (hk : ∀ x, Kept t'' x (d x)) (hc : Clean C t' → Clean C t'') : Reached C L d M t t'' :=
  ⟨hg, (h.evolves.trans h.good he).mono (by simp), hk, fun h0 => hc (h.clean h0)⟩

/-- Reading nodes on the way. -/
lemma Reached.loads (h : Reached C L c M t t') (hg : Good C L t'') (hl : Loads C t' t'') :
    Reached C L c M t t'' :=
  h.step hg (hl.evolves h.good) (fun x => hl.kept (h.kept x)) fun hc => hc.loads h.good.toSound hl

lemma Reached.deprecated (h : Reached C L c M t t') {y : Hash}
    (hc : ∀ x, c x = d x + one y x) :
    Reached C L d M t (deprecated y t') :=
  h.step (h.good.deprecated y) (evolves_deprecated y)
    (fun x => Kept.deprecated h.good (by rw [← hc]; exact h.kept x)) fun hc => hc.deprecated y

lemma Reached.savedNode (h : Reached C L c M t t') {n : NodePtr} (hn : n < t'.nextPtr) (hL : L n)
    (hc : ∀ x, d x = c x + one (C.hash (t'.node n)) x) :
    Reached C L d M t (savedNode C n t') := by
  refine h.step (h.good.savedNode hn hL) (evolves_savedNode n) (fun x => ?_) fun hc =>
    hc.savedNode n
  rw [hc]
  exact (h.kept x).savedNode h.good

lemma Reached.allocated {n : Node} (h : Reached C L c M t t') (ha : Allocates n t' t'') :
    Reached C L c M t t'' :=
  h.step (ha.good h.good) (ha.evolves h.good) (fun x => ha.kept.2 (h.kept x)) fun hc =>
    hc.allocates h.good.toSound ha

lemma Pending.deprecated {n : NodePtr} (h : Pending C L c M n t t') {y : Hash}
    (hc : ∀ x, c x = d x + one y x) : Pending C L d M n t (deprecated y t') where
  good := h.good.deprecated y
  evolves := (h.evolves.trans h.good (evolves_deprecated y)).mono (by simp)
  kept := fun x => Kept.deprecated h.good (by rw [← hc]; exact h.kept x)
  clean := fun h0 => (h.clean h0).deprecated y

lemma Pending.savedNode {n : NodePtr} (h : Pending C L c M n t t') (hn : n < t'.nextPtr)
    (hL : L n) (hc : ∀ x, d x = c x + one (C.hash (t'.node n)) x) :
    Reached C L d M t (savedNode C n t') where
  good := h.good.savedNode hn hL
  evolves := (h.evolves.trans h.good (evolves_savedNode n)).mono (by simp)
  kept := fun x => by
    rw [hc]
    exact (h.kept x).savedNode h.good
  clean := fun h0 => (h.clean h0).savedNode

/-- Saving an object that was just allocated. -/
lemma Allocates.saved {n : Node} (ha : Allocates n t' t'') (h : Reached C L c M t t')
    (hf : Fresh C t' (C.hash n)) (hc : ∀ x, d x = c x + one (C.hash n) x) :
    Reached C L d M t (savedNode C t'.nextPtr t'') ∧
      Fresh C (savedNode C t'.nextPtr t'') (C.hash n) := by
  have hlt : t'.nextPtr < t''.nextPtr := by
    rw [ha.nextPtr]
    exact Nat.lt_succ_self _
  have hfresh : Fresh C t'' (C.hash n) := (ha.evolves h.good).fresh h.good (by simp) hf
  refine ⟨(h.allocated ha).savedNode hlt (h.good.live_new _ le_rfl) (by rwa [ha.node]), ?_⟩
  have := (hfresh.freshOrOwn t'.nextPtr)
  rw [← ha.node] at this ⊢
  exact this.savedNode

/-- Building a node and saving it. -/
lemma Reached.saveNew (h : Reached C L c M t t') {n : Node} (hf : Fresh C t' (C.hash n))
    (hc : ∀ x, d x = c x + one (C.hash n) x) :
    Returns (saveNew C n) t' fun x t'' =>
      x = C.hash n ∧ Reached C L d M t t'' ∧ Fresh C t'' (C.hash n) := by
  obtain ⟨t1, ht1, ha, -⟩ := newNode_allocates n 0 t'
  refine ⟨C.hash n, Trie.savedNode C t'.nextPtr t1, ?_, rfl, ha.saved h hf hc⟩
  rw [Trie.saveNew, bind_of_ok ht1, saveNode_apply, ha.node]

/-- Building the root node of a tree and saving it. -/
lemma Reached.saveTree (h : Reached C L c M t t') {u : PatriciaTree} (hu : u ≠ .nil)
    (hf : Fresh C t' (C.treeHash u)) (hc : ∀ x, d x = c x + one (C.treeHash u) x) :
    Returns (Trie.saveNew C (C.treeNode u)) t' fun x t'' =>
      x = C.treeHash u ∧ Reached C L d M t t'' ∧ Fresh C t'' (C.treeHash u) := by
  rw [NodeCodec.treeHash_eq hu] at *
  exact h.saveNew hf hc

/-! ## Assigning to the fields of an object -/

@[simp] lemma modifyNode_apply (n : NodePtr) (f : NodeBody → NodeBody) (t : Trie) :
    modifyNode n f t = (.ok (), t.setObj n ⟨f (t.heap n).body, (t.heap n).hash⟩) := rfl

/-- Assigning to a right object changes its node only. -/
lemma evolves_setObj {y : Hash} {n : NodePtr} (hr : Right C t y n) (o : NodeObj) :
    Evolves C L {y} t (t.setObj n o) where
  ptr_le := le_rfl
  prepared := rfl
  rootHash := rfl
  storage := fun _ h => h
  storage_eq := fun _ => rfl
  obj := by
    intro p _ _ _ hM
    have hp : p ≠ n := by
      rintro rfl
      exact hM hr.node
    simp [setObj, node, hp]
  entry := fun _ _ temp' he => .inl ⟨temp', he, rfl⟩

lemma Good.setObj (hg : Good C L t) {n : NodePtr} {o : NodeObj}
    (ho : ∀ s next, o.body = .ext s next → t.arrays.Fits s) : Good C L (t.setObj n o) :=
  { hg with
    fits := by
      intro p s next hp hb
      by_cases hpn : p = n
      · subst hpn
        simp only [Trie.setObj, Function.update_self] at hb
        exact ho s next hb
      · simp only [Trie.setObj, Function.update_of_ne hpn] at hb
        exact hg.fits p s next hp hb }

/-- The hash of a node that is changed, if it is changed at all. -/
def changed (y z : Hash) : Set Hash := {x | x = y ∧ y ≠ z}

/-- Assigning fields to a right object on the way.  When the node stays the same so do the
fields, and nothing has happened. -/
lemma Reached.assign (h : Reached C L c M t t') {n : NodePtr} {y z : Hash} {b : NodeBody}
    (hr : Right C t' y n) (hb : C.hash (b.toNode t'.arrays) = z)
    (hfits : ∀ s next, b = .ext s next → t'.arrays.Fits s)
    (hsame : y = z → b = (t'.heap n).body) (hf : FreshOrOwn C t' z n) :
    Pending C L c (M ∪ changed y z) n t (t'.setObj n ⟨b, (t'.heap n).hash⟩) ∧
      FreshOrOwn C (t'.setObj n ⟨b, (t'.heap n).hash⟩) z n ∧
      C.hash ((t'.setObj n ⟨b, (t'.heap n).hash⟩).node n) = z := by
  have hnode : (t'.setObj n ⟨b, (t'.heap n).hash⟩).node n = b.toNode t'.arrays := by
    simp [node, setObj]
  by_cases hyz : y = z
  · have hid : t'.setObj n ⟨b, (t'.heap n).hash⟩ = t' := by
      rw [hsame hyz, Trie.setObj]
      exact congrArg (fun heap => { t' with heap := heap }) (Function.update_eq_self n t'.heap)
    rw [hid] at hnode ⊢
    refine ⟨⟨h.good, h.evolves.mono Set.subset_union_left, h.kept, fun h0 => ?_⟩, hf,
      by rw [hnode, hb]⟩
    exact (h.clean h0).but n
  · have he : Evolves C L {y} t' (t'.setObj n ⟨b, (t'.heap n).hash⟩) := evolves_setObj hr _
    refine ⟨⟨h.good.setObj hfits, ?_, h.kept, fun h0 => (h.clean h0).setObj n _⟩, ?_,
      by rw [hnode, hb]⟩
    · refine (h.evolves.trans h.good he).mono (Set.union_subset_union_right M ?_)
      rintro x rfl
      exact ⟨rfl, hyz⟩
    · exact he.freshOrOwn h.good (fun hz => hyz hz.symm) hf

/-- Assigning fields to a right object, deprecating its old hash and saving it. -/
lemma Reached.resave (h : Reached C L c M t t') {n : NodePtr} {y z : Hash} {b : NodeBody}
    (hn : n < t'.nextPtr) (hL : L n) (hr : Right C t' y n) (hb : C.hash (b.toNode t'.arrays) = z)
    (hfits : ∀ s next, b = .ext s next → t'.arrays.Fits s)
    (hsame : y = z → b = (t'.heap n).body) (hf : FreshOrOwn C t' z n) {e : Hash → ℕ}
    (hc : ∀ x, c x = e x + one y x)
    (hc' : ∀ x, d x = e x + one z x) :
    Returns (do deprecateNode y; saveNode C n) (t'.setObj n ⟨b, (t'.heap n).hash⟩) fun x t'' =>
      x = z ∧ Reached C L d (M ∪ changed y z) t t'' ∧ Fresh C t'' z := by
  obtain ⟨h1, hf1, hz1⟩ := h.assign hr hb hfits hsame hf
  have h2 := h1.deprecated hc
  have hf2 := (evolves_deprecated (L := L) y).freshOrOwn h1.good (by simp) hf1
  have hz2 : C.hash ((Trie.deprecated y (t'.setObj n ⟨b, (t'.heap n).hash⟩)).node n) = z := hz1
  refine ⟨_, _, by rw [bind_of_ok (deprecateNode_apply y _), saveNode_apply], hz2,
    h2.savedNode hn hL (by rw [hz2]; exact hc'), ?_⟩
  rw [← hz2] at hf2 ⊢
  exact hf2.savedNode

/-- The fields of an object that holds a branch. -/
lemma body_of_node_branch {p : NodePtr} {slots : Fin 17 → Hash} (h : t.node p = .branch slots) :
    (t.heap p).body = .branch slots := by
  unfold Trie.node at h
  cases hb : (t.heap p).body with
  | branch slots' => simpa [hb, NodeBody.toNode] using h
  | ext s next => simp [hb, NodeBody.toNode] at h
  | val value => simp [hb, NodeBody.toNode] at h

/-- The fields of an object that holds an extension. -/
lemma body_of_node_ext {p : NodePtr} {path : Route} {next : Hash} (h : t.node p = .ext path next) :
    ∃ s, (t.heap p).body = .ext s next ∧ t.arrays.read s = path := by
  unfold Trie.node at h
  cases hb : (t.heap p).body with
  | branch slots' => simp [hb, NodeBody.toNode] at h
  | ext s next' =>
      rw [hb] at h
      simp only [NodeBody.toNode, Node.ext.injEq] at h
      exact ⟨s, by rw [h.2], h.1⟩
  | val value => simp [hb, NodeBody.toNode] at h

/-- A hash that is not among the changed ones keeps a right entry. -/
lemma Reached.fresh (h : Reached C L c M t t') (hg : Good C L t) {x : Hash}
    (hx : t.prepared = true → x ∉ M) (hf : Fresh C t x) : Fresh C t' x := by
  by_cases hp : t.prepared = true
  · exact h.evolves.fresh hg (hx hp) hf
  · intro temp he
    rw [h.good.idle (h.evolves.prepared.trans (by simpa using hp))] at he
    cases he

lemma Reached.freshOrOwn (h : Reached C L c M t t') (hg : Good C L t) {x : Hash} {n : NodePtr}
    (hx : t.prepared = true → x ∉ M) (hf : FreshOrOwn C t x n) : FreshOrOwn C t' x n := by
  by_cases hp : t.prepared = true
  · exact h.evolves.freshOrOwn hg (hx hp) hf
  · intro temp he
    rw [h.good.idle (h.evolves.prepared.trans (by simpa using hp))] at he
    cases he

/-- Setting a slot of a branch on the way and saving it. -/
lemma Reached.resaveBranch (h : Reached C L c M t t') {n : NodePtr} {slots : Fin 17 → Hash}
    {j : Fin 17} {w y z : Hash} (hn : n < t'.nextPtr) (hL : L n) (hr : Right C t' y n)
    (hnode : t'.node n = .branch slots) (hz : C.hash (.branch (Function.update slots j w)) = z)
    (hf : FreshOrOwn C t' z n) {e : Hash → ℕ} (hc : ∀ x, c x = e x + one y x)
    (hc' : ∀ x, d x = e x + one z x) :
    Returns (do modifyNode n (NodeBody.setSlot j w); deprecateNode y; saveNode C n) t'
      fun x t'' => x = z ∧ Reached C L d (M ∪ changed y z) t t'' ∧ Fresh C t'' z := by
  have hbody := body_of_node_branch hnode
  refine h.resave (b := (t'.heap n).body.setSlot j w) hn hL hr ?_ ?_ ?_ hf hc hc'
  · rw [hbody]
    exact hz
  · simp [hbody, NodeBody.setSlot]
  · intro hyz
    have hslots : slots = Function.update slots j w := by
      have := hr.node
      rw [hnode, hyz, ← hz] at this
      exact Node.branch.inj (C.hash_injective this)
    rw [hbody, NodeBody.setSlot, ← hslots]

/-- Setting the child of an extension on the way and saving it. -/
lemma Reached.resaveExt (h : Reached C L c M t t') {n : NodePtr} {path : Route} {next w y z : Hash}
    (hn : n < t'.nextPtr) (hL : L n) (hr : Right C t' y n) (hnode : t'.node n = .ext path next)
    (hz : C.hash (.ext path w) = z) (hf : FreshOrOwn C t' z n) {e : Hash → ℕ}
    (hc : ∀ x, c x = e x + one y x) (hc' : ∀ x, d x = e x + one z x) :
    Returns (do modifyNode n (NodeBody.setNext w); deprecateNode y; saveNode C n) t'
      fun x t'' => x = z ∧ Reached C L d (M ∪ changed y z) t t'' ∧ Fresh C t'' z := by
  obtain ⟨s, hbody, hread⟩ := body_of_node_ext hnode
  refine h.resave (b := (t'.heap n).body.setNext w) hn hL hr ?_ ?_ ?_ hf hc hc'
  · rw [hbody]
    simp only [NodeBody.setNext, NodeBody.toNode, hread]
    exact hz
  · intro s' next' hb
    rw [hbody] at hb
    cases hb
    exact h.good.fits n s next hn hbody
  · intro hyz
    have hnext : next = w := by
      have := hr.node
      rw [hnode, hyz, ← hz] at this
      exact (Node.ext.inj (C.hash_injective this)).2
    rw [hbody, NodeBody.setNext, hnext]

/-! ## Trees held by a trie -/

/-- The trie holds the nodes of a tree: none of them is cached wrongly, and each is kept for
its occurrences in the tree beside the `k` references from elsewhere. -/
structure Holds (C : NodeCodec) (L : NodePtr → Prop) (k : Hash → ℕ) (u : PatriciaTree)
    (t : Trie) : Prop where
  good : Good C L t
  fresh : ∀ x, 0 < C.occ x u → Fresh C t x
  kept : ∀ x, Kept t x (k x + C.occ x u)

variable {k : Hash → ℕ} {u : PatriciaTree}

lemma Holds.loads (h : Holds C L k u t) (hg : Good C L t') (hl : Loads C t t') :
    Holds C L k u t' where
  good := hg
  fresh := fun x hx => (hl.evolves h.good).fresh h.good (by simp) (h.fresh x hx)
  kept := fun x => hl.kept (h.kept x)

/-- The root of a tree that the trie holds can be fetched. -/
lemma Holds.fetch (h : Holds C L k u t) (hu : u ≠ .nil) :
    Returns (fetchNode C (C.treeHash u)) t (Fetched C L u t) := by
  have hpos : 0 < C.occ (C.treeHash u) u := NodeCodec.occ_self_pos hu
  exact fetchNode_returns h.good hu (h.fresh _ hpos) ((h.kept _).mono (j := 0 + 1) (by omega))

/-- The state after fetching the root. -/
lemma Holds.reached (h : Holds C L k u t) {n : NodePtr} (hn : Fetched C L u t n t') :
    Reached C L (fun x => k x + C.occ x u) ∅ t t' :=
  (h.good.reached h.kept).loads hn.good hn.loads

/-- The trie holds the subtrees of a tree it holds; the rest of the tree counts as
references from elsewhere. -/
lemma Holds.sub (h : Holds C L k u t) {w : PatriciaTree} {k' : Hash → ℕ}
    (hk : ∀ x, k' x + C.occ x w = k x + C.occ x u) (hle : ∀ x, C.occ x w ≤ C.occ x u) :
    Holds C L k' w t where
  good := h.good
  fresh := fun x hx => h.fresh x (hx.trans_le (hle x))
  kept := fun x => by rw [hk]; exact h.kept x

end Trie

end GoMedibloc
