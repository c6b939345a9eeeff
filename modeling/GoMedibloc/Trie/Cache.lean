import GoMedibloc.Trie.Basic
import GoMedibloc.Trie.Merkle

/-!
# What the primitive steps of a trie do

The operations of a trie are sequences of a few steps on the heap, the cache and the
storage: fetching a node, allocating one, assigning to the fields of an object, saving it,
deprecating a hash.  This file says once what each of them does, for prepared and
unprepared tries together, in terms of

* `Right t h p`: the object `p` holds the node with hash `h` and carries `h`;
* `Fresh t h`: if `h` is cached then its entry holds a right object;
* `Kept t h k`: the node with hash `h` survives `k` references, being in the storage or
  cached with at least `k` counted references;
* `Good L t`: the storage is intact, cached pointers are allocated and *live* (`L`), saved
  entries are stored and every path lies inside its array;
* `Evolves L M t t'`: live objects keep their contents and cached hashes their objects,
  except for the nodes whose hashes are in `M`.  Those are the nodes an operation changes
  in place.

`Evolves` composes (`Evolves.trans`).
-/

namespace GoMedibloc

namespace Trie

open Prog

variable (C : NodeCodec)

/-- The object holds the node with the given hash and carries that hash. -/
structure Right (t : Trie) (h : Hash) (p : NodePtr) : Prop where
  node : C.hash (t.node p) = h
  hash : (t.heap p).hash = h

/-- If the hash is cached then its entry holds a right object. -/
def Fresh (t : Trie) (h : Hash) : Prop :=
  ∀ temp, t.tempNodes h = some temp → Right C t h temp.node

/-- If the hash is cached then its entry holds a right object or the given one. -/
def FreshOrOwn (t : Trie) (h : Hash) (n : NodePtr) : Prop :=
  ∀ temp, t.tempNodes h = some temp → temp.node = n ∨ Right C t h temp.node

/-- The node with the given hash survives the given number of references. -/
def Kept (t : Trie) (h : Hash) (k : ℕ) : Prop :=
  k = 0 ∨ (t.storage h).isSome ∨ ∃ temp, t.tempNodes h = some temp ∧ (k : ℤ) ≤ temp.refCount

/-- The storage holds under the hash of a node nothing but that node. -/
def IntactStorage (s : Storage) : Prop :=
  ∀ n b, s (C.hash n) = some b → b = C.marshal n

/-- Cached pointers are allocated, and every path lies inside its array. -/
structure Sound (t : Trie) : Prop where
  allocated : ∀ h temp, t.tempNodes h = some temp → temp.node < t.nextPtr
  fits : ∀ p s next, p < t.nextPtr → (t.heap p).body = .ext s next → t.arrays.Fits s

/-- A trie whose bookkeeping is in order.  `L` are the live pointers: those the operation
at hand may still reach. -/
structure Good (L : NodePtr → Prop) (t : Trie) : Prop extends Sound t where
  intact : IntactStorage C t.storage
  no_empty_key : t.storage [] = none
  no_empty_entry : t.tempNodes [] = none
  idle : t.prepared = false → ∀ h, t.tempNodes h = none
  live : ∀ h temp, t.tempNodes h = some temp → L temp.node
  live_new : ∀ p, t.nextPtr ≤ p → L p
  saved : ∀ h temp, t.tempNodes h = some temp → temp.saved = true → (t.storage h).isSome
  refs : ∀ h temp, t.tempNodes h = some temp → 0 ≤ temp.refCount

/-- Live objects keep their contents and cached hashes their objects, except for the nodes
whose hashes are in `M`. -/
structure Evolves (L : NodePtr → Prop) (M : Set Hash) (t t' : Trie) : Prop where
  ptr_le : t.nextPtr ≤ t'.nextPtr
  prepared : t'.prepared = t.prepared
  rootHash : t'.rootHash = t.rootHash
  storage : ∀ h, (t.storage h).isSome → (t'.storage h).isSome
  storage_eq : t.prepared = true → t'.storage = t.storage
  obj : ∀ p, L p → p < t.nextPtr → Right C t (C.hash (t.node p)) p → C.hash (t.node p) ∉ M →
    t'.heap p = t.heap p ∧ t'.node p = t.node p
  entry : ∀ h, h ∉ M → ∀ temp', t'.tempNodes h = some temp' →
    (∃ temp, t.tempNodes h = some temp ∧ temp.node = temp'.node) ∨ Right C t' h temp'.node

variable {C} {L : NodePtr → Prop} {M M' : Set Hash} {t t' t'' : Trie}

/-! ## Composition -/

lemma Evolves.refl (L : NodePtr → Prop) (t : Trie) : Evolves C L ∅ t t where
  ptr_le := le_rfl
  prepared := rfl
  rootHash := rfl
  storage := fun _ h => h
  storage_eq := fun _ => rfl
  obj := fun _ _ _ _ _ => ⟨rfl, rfl⟩
  entry := fun _ _ temp' h => .inl ⟨temp', h, rfl⟩

lemma Evolves.mono (h : Evolves C L M t t') (hM : M ⊆ M') : Evolves C L M' t t' :=
  { h with
    obj := fun p hL hp hr hn => h.obj p hL hp hr fun hm => hn (hM hm)
    entry := fun x hn => h.entry x fun hm => hn (hM hm) }

/-- A right live object stays right when its node is not changed. -/
lemma Evolves.right (h : Evolves C L M t t') {x : Hash} {p : NodePtr} (hL : L p)
    (hp : p < t.nextPtr) (hr : Right C t x p) (hx : x ∉ M) :
    Right C t' x p ∧ t'.heap p = t.heap p ∧ t'.node p = t.node p := by
  have hself : Right C t (C.hash (t.node p)) p := by rw [hr.node]; exact hr
  obtain ⟨hheap, hnode⟩ := h.obj p hL hp hself (by rw [hr.node]; exact hx)
  exact ⟨⟨by rw [hnode, hr.node], by rw [hheap, hr.hash]⟩, hheap, hnode⟩

lemma Evolves.trans (h : Evolves C L M t t') (hg : Good C L t') (h' : Evolves C L M' t' t'') :
    Evolves C L (M ∪ M') t t'' where
  ptr_le := h.ptr_le.trans h'.ptr_le
  prepared := h'.prepared.trans h.prepared
  rootHash := h'.rootHash.trans h.rootHash
  storage := fun x hx => h'.storage x (h.storage x hx)
  storage_eq := fun hp => (h'.storage_eq (h.prepared.trans hp)).trans (h.storage_eq hp)
  obj := by
    intro p hL hp hr hn
    obtain ⟨hr', hheap, hnode⟩ := h.right hL hp hr fun hm => hn (.inl hm)
    obtain ⟨-, hheap', hnode'⟩ := h'.right hL (hp.trans_le h.ptr_le) hr' fun hm => hn (.inr hm)
    exact ⟨hheap'.trans hheap, hnode'.trans hnode⟩
  entry := by
    intro x hn temp'' hx
    rcases h'.entry x (fun hm => hn (.inr hm)) temp'' hx with ⟨temp', hx', hp'⟩ | hr
    · rcases h.entry x (fun hm => hn (.inl hm)) temp' hx' with ⟨temp, hx0, hp⟩ | hr
      · exact .inl ⟨temp, hx0, hp.trans hp'⟩
      · right
        rw [← hp']
        exact (h'.right (hg.live x temp' hx') (hg.allocated x temp' hx') hr
          fun hm => hn (.inr hm)).1
    · exact .inr hr

lemma Evolves.freshOrOwn (h : Evolves C L M t t') (hg : Good C L t) {x : Hash} {n : NodePtr}
    (hx : x ∉ M) (hf : FreshOrOwn C t x n) : FreshOrOwn C t' x n := by
  intro temp' he'
  rcases h.entry x hx temp' he' with ⟨temp, he, hp⟩ | hr
  · rcases hf temp he with hn | hr
    · exact .inl (hp.symm.trans hn)
    · right
      rw [← hp]
      exact (h.right (hg.live x temp he) (hg.allocated x temp he) hr hx).1
  · exact .inr hr

lemma Evolves.fresh (h : Evolves C L M t t') (hg : Good C L t) {x : Hash} (hx : x ∉ M)
    (hf : Fresh C t x) : Fresh C t' x := by
  intro temp' he'
  rcases h.entry x hx temp' he' with ⟨temp, he, hp⟩ | hr
  · rw [← hp]
    exact (h.right (hg.live x temp he) (hg.allocated x temp he) (hf temp he) hx).1
  · exact hr

lemma Fresh.freshOrOwn {x : Hash} (h : Fresh C t x) (n : NodePtr) : FreshOrOwn C t x n :=
  fun temp he => .inr (h temp he)

lemma Kept.mono {h : Hash} {j k : ℕ} (hk : Kept t h k) (hjk : j ≤ k) : Kept t h j := by
  rcases hk with rfl | hs | ⟨temp, he, hle⟩
  · exact .inl (Nat.le_zero.1 hjk)
  · exact .inr (.inl hs)
  · exact .inr (.inr ⟨temp, he, by omega⟩)

/-! ## Deprecating a hash -/

@[simp] lemma deprecateNode_apply (x : Hash) (t : Trie) :
    deprecateNode x t = (.ok (), deprecated x t) := rfl

@[simp] lemma node_deprecated (x : Hash) (t : Trie) (p : NodePtr) :
    (deprecated x t).node p = t.node p := rfl

/-- An entry that is left was there before, with the same object. -/
lemma entry_of_deprecated {x y : Hash} {temp' : TempNode}
    (h : (deprecated x t).tempNodes y = some temp') :
    ∃ temp, t.tempNodes y = some temp ∧ temp.node = temp'.node ∧ temp.saved = temp'.saved ∧
      temp'.refCount ≤ temp.refCount ∧ (0 ≤ temp.refCount → 0 ≤ temp'.refCount) := by
  simp only [deprecated] at h
  split_ifs at h
  · by_cases hy : y = x
    · subst hy
      rw [Function.update_self] at h
      obtain ⟨temp, he, hd⟩ := Option.bind_eq_some_iff.1 h
      unfold deref at hd
      split_ifs at hd
      · cases hd; exact ⟨_, he, rfl, rfl, le_rfl, id⟩
      · cases hd; exact ⟨_, he, rfl, rfl, by simp, fun _ => by simp only; omega⟩
    · rw [Function.update_of_ne hy] at h
      exact ⟨temp', h, rfl, rfl, le_rfl, id⟩
  · exact ⟨temp', h, rfl, rfl, le_rfl, id⟩

lemma evolves_deprecated (x : Hash) : Evolves C L ∅ t (deprecated x t) where
  ptr_le := le_rfl
  prepared := rfl
  rootHash := rfl
  storage := fun _ h => h
  storage_eq := fun _ => rfl
  obj := fun _ _ _ _ _ => ⟨rfl, rfl⟩
  entry := by
    intro y _ temp' he'
    obtain ⟨temp, he, hp, -⟩ := entry_of_deprecated he'
    exact .inl ⟨temp, he, hp⟩

lemma Good.deprecated (hg : Good C L t) (x : Hash) : Good C L (deprecated x t) where
  intact := hg.intact
  no_empty_key := hg.no_empty_key
  no_empty_entry := by
    by_contra hne
    obtain ⟨temp', he'⟩ := Option.ne_none_iff_exists'.1 hne
    obtain ⟨temp, he, -⟩ := entry_of_deprecated he'
    rw [hg.no_empty_entry] at he
    cases he
  idle := by
    intro hp h
    have hp' : t.prepared = false := hp
    simp [Trie.deprecated, hp', hg.idle hp' h]
  allocated := by
    intro y temp' he'
    obtain ⟨temp, he, hp, -⟩ := entry_of_deprecated he'
    rw [← hp]
    exact hg.allocated y temp he
  live := by
    intro y temp' he'
    obtain ⟨temp, he, hp, -⟩ := entry_of_deprecated he'
    rw [← hp]
    exact hg.live y temp he
  live_new := hg.live_new
  saved := by
    intro y temp' he' hs
    obtain ⟨temp, he, -, hsaved, -⟩ := entry_of_deprecated he'
    exact hg.saved y temp he (hsaved.trans hs)
  refs := by
    intro y temp' he'
    obtain ⟨temp, he, -, -, -, hnonneg⟩ := entry_of_deprecated he'
    exact hnonneg (hg.refs y temp he)
  fits := hg.fits

/-- Deprecating a hash uses up one of its references. -/
lemma Kept.deprecated (hg : Good C L t) {x y : Hash} {k : ℕ}
    (h : Kept t y (k + one x y)) : Kept (deprecated x t) y k := by
  by_cases hxy : x = y
  · subst hxy
    rw [one_self] at h
    rcases h with h0 | hs | ⟨temp, he, hle⟩
    · omega
    · exact .inr (.inl hs)
    · by_cases hprep : t.prepared = true
      · by_cases hsaved : temp.saved = true
        · exact .inr (.inl (hg.saved x temp he hsaved))
        · by_cases hlast : temp.refCount - 1 < 1
          · exact .inl (by omega)
          · refine .inr (.inr ⟨{ temp with refCount := temp.refCount - 1 }, ?_, ?_⟩)
            · simp [Trie.deprecated, hprep, he, deref, hsaved, hlast]
            · simp only
              omega
      · rw [hg.idle (by simpa using hprep) x] at he
        cases he
  · rw [one_of_ne hxy, Nat.add_zero] at h
    rcases h with h0 | hs | ⟨temp, he, hle⟩
    · exact .inl h0
    · exact .inr (.inl hs)
    · refine .inr (.inr ⟨temp, ?_, hle⟩)
      simp only [Trie.deprecated]
      split_ifs
      · rw [Function.update_of_ne (Ne.symm hxy), he]
      · exact he

/-! ## Saving an object -/

/-- The state after `saveNode`. -/
def savedNode (C : NodeCodec) (n : NodePtr) (t : Trie) : Trie :=
  let x := C.hash (t.node n)
  { t.setObj n ⟨(t.heap n).body, x⟩ with
    tempNodes :=
      if t.prepared then
        Function.update t.tempNodes x <| some <|
          match t.tempNodes x with
          | some temp => { temp with refCount := temp.refCount + 1 }
          | none => ⟨n, 1, (t.storage x).isSome⟩
      else t.tempNodes
    storage :=
      if t.prepared then t.storage
      else Function.update t.storage x (some (C.marshal (t.node n))) }

@[simp] lemma saveNode_apply (n : NodePtr) (t : Trie) :
    saveNode C n t = (.ok (C.hash (t.node n)), savedNode C n t) := by
  have hnode : (t.setObj n ⟨(t.heap n).body, C.hash (t.node n)⟩).node n = t.node n := by
    simp [node, setObj]
  unfold saveNode savedNode
  simp only [read_bind, setHash]
  by_cases hp : t.prepared = true
  · simp only [hp, if_true]
    rcases t.tempNodes (C.hash (t.node n)) with _ | temp <;> rfl
  · simp only [hp, Bool.false_eq_true, if_false, update_bind, hnode]
    rfl

lemma heap_savedNode_self (n : NodePtr) (t : Trie) :
    (savedNode C n t).heap n = ⟨(t.heap n).body, C.hash (t.node n)⟩ := by
  simp [savedNode, setObj]

lemma heap_savedNode_of_ne {n p : NodePtr} (h : p ≠ n) (t : Trie) :
    (savedNode C n t).heap p = t.heap p := by
  simp [savedNode, setObj, h]

lemma body_savedNode (n p : NodePtr) (t : Trie) :
    ((savedNode C n t).heap p).body = (t.heap p).body := by
  by_cases h : p = n
  · rw [h, heap_savedNode_self]
  · rw [heap_savedNode_of_ne h]

@[simp] lemma node_savedNode (n p : NodePtr) (t : Trie) : (savedNode C n t).node p = t.node p := by
  simp only [node, body_savedNode]
  rfl

lemma right_savedNode_self (n : NodePtr) (t : Trie) :
    Right C (savedNode C n t) (C.hash (t.node n)) n :=
  ⟨by rw [node_savedNode], by rw [heap_savedNode_self]⟩

/-- Saving an object makes no right object wrong. -/
lemma Right.savedNode {x : Hash} {p : NodePtr} (h : Right C t x p) (n : NodePtr) :
    Right C (savedNode C n t) x p ∧ (savedNode C n t).heap p = t.heap p := by
  have hheap : (Trie.savedNode C n t).heap p = t.heap p := by
    by_cases hp : p = n
    · subst hp
      rw [heap_savedNode_self, h.node, ← h.hash]
    · exact heap_savedNode_of_ne hp t
  exact ⟨⟨by rw [node_savedNode, h.node], by rw [hheap, h.hash]⟩, hheap⟩

/-- The entry under the saved hash counts one reference more; the others stay. -/
lemma entry_of_savedNode {n : NodePtr} {x : Hash} {temp' : TempNode}
    (h : (savedNode C n t).tempNodes x = some temp') :
    (∃ temp, t.tempNodes x = some temp ∧ temp.node = temp'.node ∧ temp.saved = temp'.saved ∧
      temp.refCount ≤ temp'.refCount) ∨ (x = C.hash (t.node n) ∧ temp' = ⟨n, 1, (t.storage x).isSome⟩ ∧ t.prepared = true ∧
        t.tempNodes x = none) := by
  simp only [savedNode] at h
  split_ifs at h with hp
  · by_cases hx : x = C.hash (t.node n)
    · rw [hx, Function.update_self] at h
      cases he : t.tempNodes (C.hash (t.node n)) with
      | none =>
          rw [he] at h
          cases h
          exact .inr ⟨hx, by rw [hx], hp, by rw [hx, he]⟩
      | some temp =>
          rw [he] at h
          cases h
          exact .inl ⟨temp, by rw [hx, he], rfl, rfl, by simp⟩
    · rw [Function.update_of_ne hx] at h
      exact .inl ⟨temp', h, rfl, rfl, le_rfl⟩
  · exact .inl ⟨temp', h, rfl, rfl, le_rfl⟩

lemma evolves_savedNode (n : NodePtr) : Evolves C L ∅ t (savedNode C n t) where
  ptr_le := le_rfl
  prepared := rfl
  rootHash := rfl
  storage := by
    intro x hx
    simp only [savedNode]
    split_ifs
    · exact hx
    · by_cases hxn : x = C.hash (t.node n)
      · simp [hxn]
      · rwa [Function.update_of_ne hxn]
  storage_eq := fun hp => by simp [savedNode, hp]
  obj := fun p _ _ hr _ => ⟨(hr.savedNode n).2, node_savedNode n p t⟩
  entry := by
    intro x _ temp' he'
    rcases entry_of_savedNode he' with ⟨temp, he, hp, -⟩ | ⟨rfl, rfl, -⟩
    · exact .inl ⟨temp, he, hp⟩
    · exact .inr (right_savedNode_self n t)

lemma Good.savedNode (hg : Good C L t) {n : NodePtr} (hn : n < t.nextPtr) (hL : L n) :
    Good C L (savedNode C n t) where
  intact := by
    intro m b hb
    simp only [Trie.savedNode] at hb
    split_ifs at hb
    · exact hg.intact m b hb
    · by_cases hm : C.hash m = C.hash (t.node n)
      · rw [hm, Function.update_self] at hb
        rw [C.hash_injective hm]
        exact (Option.some.inj hb).symm
      · rw [Function.update_of_ne hm] at hb
        exact hg.intact m b hb
  no_empty_key := by
    simp only [Trie.savedNode]
    split_ifs
    · exact hg.no_empty_key
    · rw [Function.update_of_ne (C.hash_ne_nil _).symm]
      exact hg.no_empty_key
  no_empty_entry := by
    by_contra hne
    obtain ⟨temp', he'⟩ := Option.ne_none_iff_exists'.1 hne
    rcases entry_of_savedNode he' with ⟨temp, he, -⟩ | ⟨hx, -⟩
    · rw [hg.no_empty_entry] at he
      cases he
    · exact C.hash_ne_nil _ hx.symm
  idle := by
    intro hp h
    have hp' : t.prepared = false := hp
    simp [Trie.savedNode, hp', hg.idle hp' h]
  allocated := by
    intro x temp' he'
    rcases entry_of_savedNode he' with ⟨temp, he, hp, -⟩ | ⟨-, rfl, -⟩
    · rw [← hp]
      exact hg.allocated x temp he
    · exact hn
  live := by
    intro x temp' he'
    rcases entry_of_savedNode he' with ⟨temp, he, hp, -⟩ | ⟨-, rfl, -⟩
    · rw [← hp]
      exact hg.live x temp he
    · exact hL
  live_new := hg.live_new
  saved := by
    intro x temp' he' hs
    have hstored : (t.storage x).isSome := by
      rcases entry_of_savedNode he' with ⟨temp, he, -, hsaved, -⟩ | ⟨-, rfl, -⟩
      · exact hg.saved x temp he (hsaved.trans hs)
      · exact hs
    exact (evolves_savedNode (L := L) n).storage x hstored
  refs := by
    intro x temp' he'
    rcases entry_of_savedNode he' with ⟨temp, he, -, -, hle⟩ | ⟨-, rfl, -⟩
    · exact (hg.refs x temp he).trans hle
    · exact zero_le_one
  fits := by
    intro p s next hp hb
    rw [body_savedNode] at hb
    exact hg.fits p s next hp hb

/-- Saving an object adds a reference to its hash. -/
lemma Kept.savedNode (hg : Good C L t) {n : NodePtr} {x : Hash} {k : ℕ} (h : Kept t x k) :
    Kept (savedNode C n t) x (k + one (C.hash (t.node n)) x) := by
  by_cases hp : t.prepared = true
  · by_cases hx : C.hash (t.node n) = x
    · rw [hx, one_self]
      by_cases hs : (t.storage x).isSome
      · exact .inr (.inl (by simpa [Trie.savedNode, hp] using hs))
      · refine .inr (.inr ?_)
        cases he : t.tempNodes x with
        | none =>
            have hk : k = 0 := by
              rcases h with h0 | hs' | ⟨temp, he', -⟩
              · exact h0
              · exact absurd hs' hs
              · rw [he] at he'
                cases he'
            refine ⟨⟨n, 1, (t.storage x).isSome⟩, ?_, by simp [hk]⟩
            simp [Trie.savedNode, hp, hx, he]
        | some temp =>
            refine ⟨{ temp with refCount := temp.refCount + 1 }, ?_, ?_⟩
            · simp [Trie.savedNode, hp, hx, he]
            · rcases h with h0 | hs' | ⟨temp', he', hle⟩
              · have := hg.refs x temp he
                push_cast
                omega
              · exact absurd hs' hs
              · rw [he] at he'
                cases he'
                push_cast
                omega
    · rw [one_of_ne hx, Nat.add_zero]
      rcases h with h0 | hs | ⟨temp, he, hle⟩
      · exact .inl h0
      · exact .inr (.inl (by simpa [Trie.savedNode, hp] using hs))
      · refine .inr (.inr ⟨temp, ?_, hle⟩)
        simp [Trie.savedNode, hp, Ne.symm hx, he]
  · rcases h with h0 | hs | ⟨temp, he, -⟩
    · by_cases hx : C.hash (t.node n) = x
      · exact .inr (.inl (by simp [Trie.savedNode, hp, hx]))
      · exact .inl (by rw [h0, one_of_ne hx])
    · exact .inr (.inl ((evolves_savedNode (L := L) n).storage x hs))
    · rw [hg.idle (by simpa using hp) x] at he
      cases he

/-- After saving, the entry under the saved hash is right. -/
lemma FreshOrOwn.savedNode {n : NodePtr} (h : FreshOrOwn C t (C.hash (t.node n)) n) :
    Fresh C (savedNode C n t) (C.hash (t.node n)) := by
  intro temp' he'
  rcases entry_of_savedNode he' with ⟨temp, he, hp, -⟩ | ⟨-, rfl, -⟩
  · rw [← hp]
    rcases h temp he with hn | hr
    · rw [hn]
      exact right_savedNode_self n t
    · exact (hr.savedNode n).1
  · exact right_savedNode_self n t

/-! ## Allocating an object -/

/-- A new object holds the node `n`; nothing else has changed. -/
structure Allocates (n : Node) (t t' : Trie) : Prop where
  nextPtr : t'.nextPtr = t.nextPtr + 1
  heap : ∀ p, p ≠ t.nextPtr → t'.heap p = t.heap p
  node : t'.node t.nextPtr = n
  fits : ∀ s next, (t'.heap t.nextPtr).body = .ext s next → t'.arrays.Fits s
  cells : ∀ a, a < t.arrays.next → t'.arrays.cells a = t.arrays.cells a
  next_le : t.arrays.next ≤ t'.arrays.next
  tempNodes : t'.tempNodes = t.tempNodes
  storage : t'.storage = t.storage
  prepared : t'.prepared = t.prepared
  rootHash : t'.rootHash = t.rootHash

/-- Paths that lie inside arrays that stay as they are read the same. -/
lemma toNode_eq_of_cells {A A' : Arrays (Fin 16)} {b : NodeBody}
    (hfits : ∀ s next, b = .ext s next → A.Fits s)
    (hcells : ∀ a, a < A.next → A'.cells a = A.cells a) : b.toNode A' = b.toNode A := by
  cases b with
  | branch slots => rfl
  | ext s next =>
      simp only [NodeBody.toNode, Arrays.read, hcells _ (hfits s next rfl).array_lt]
  | val value => rfl

lemma fits_of_cells {A A' : Arrays (Fin 16)} {s : Slice} (h : A.Fits s)
    (hcells : ∀ a, a < A.next → A'.cells a = A.cells a) (hle : A.next ≤ A'.next) : A'.Fits s :=
  ⟨h.array_lt.trans_le hle, by rw [hcells _ h.array_lt]; exact h.stop_le⟩

lemma Allocates.node_of_lt {n : Node} (h : Allocates n t t') (hg : Sound t) {p : NodePtr}
    (hp : p < t.nextPtr) : t'.node p = t.node p := by
  simp only [Trie.node, h.heap p hp.ne]
  exact toNode_eq_of_cells (fun s next hb => hg.fits p s next hp hb) h.cells

lemma Allocates.evolves {n : Node} (h : Allocates n t t') (hg : Good C L t) :
    Evolves C L ∅ t t' where
  ptr_le := by rw [h.nextPtr]; exact Nat.le_succ _
  prepared := h.prepared
  rootHash := h.rootHash
  storage := fun x hx => by rwa [h.storage]
  storage_eq := fun _ => h.storage
  obj := fun p _ hp _ _ => ⟨h.heap p hp.ne, h.node_of_lt hg.toSound hp⟩
  entry := fun x _ temp' he' => .inl ⟨temp', by rwa [← h.tempNodes], rfl⟩

lemma Allocates.sound {n : Node} (h : Allocates n t t') (hs : Sound t) : Sound t' where
  allocated := by
    intro x temp he
    rw [h.tempNodes] at he
    rw [h.nextPtr]
    exact Nat.lt_succ_of_lt (hs.allocated x temp he)
  fits := by
    intro p s next hp hb
    by_cases hpn : p = t.nextPtr
    · subst hpn
      exact h.fits s next hb
    · rw [h.heap p hpn] at hb
      rw [h.nextPtr] at hp
      have hlt : p < t.nextPtr := Nat.lt_of_le_of_ne (Nat.le_of_lt_succ hp) hpn
      exact fits_of_cells (hs.fits p s next hlt hb) h.cells h.next_le

lemma Allocates.good {n : Node} (h : Allocates n t t') (hg : Good C L t) : Good C L t' where
  toSound := h.sound hg.toSound
  intact := by rw [h.storage]; exact hg.intact
  no_empty_key := by rw [h.storage]; exact hg.no_empty_key
  no_empty_entry := by rw [h.tempNodes]; exact hg.no_empty_entry
  idle := by rw [h.prepared, h.tempNodes]; exact hg.idle
  live := by rw [h.tempNodes]; exact hg.live
  live_new := fun p hp => hg.live_new p ((Nat.le_succ _).trans (by rwa [h.nextPtr] at hp))
  saved := by rw [h.tempNodes, h.storage]; exact hg.saved
  refs := by rw [h.tempNodes]; exact hg.refs

lemma Allocates.kept {n : Node} (h : Allocates n t t') {x : Hash} {k : ℕ} :
    Kept t' x k ↔ Kept t x k := by
  simp only [Kept, h.storage, h.tempNodes]

/-- `newObj` on fields that fit. -/
lemma newObj_allocates (b : NodeBody) (hfits : ∀ s next, b = .ext s next → t.arrays.Fits s) :
    ∃ t', newObj b t = (.ok t.nextPtr, t') ∧ Allocates (b.toNode t.arrays) t t' := by
  refine ⟨_, rfl, ?_⟩
  exact
    { nextPtr := rfl
      heap := fun p hp => by simp [hp]
      node := by simp [Trie.node]
      fits := fun s next hb => hfits s next (by simpa using hb)
      cells := fun _ _ => rfl
      next_le := le_rfl
      tempNodes := rfl
      storage := rfl
      prepared := rfl
      rootHash := rfl }

/-- The path of a new extension has an array of its own. -/
def OwnsPath (t t' : Trie) (p : NodePtr) : Prop :=
  ∀ s next, (t'.heap p).body = .ext s next → t.arrays.next ≤ s.array

lemma newNode_allocates (n : Node) (spare : ℕ) (t : Trie) :
    ∃ t', newNode n spare t = (.ok t.nextPtr, t') ∧ Allocates n t t' ∧ OwnsPath t t' t.nextPtr := by
  cases n with
  | branch slots =>
      obtain ⟨t', ht', ha⟩ := newObj_allocates (t := t) (.branch slots) (by simp)
      refine ⟨t', ht', ha, ?_⟩
      cases ht'
      intro s next hb
      simp at hb
  | val value =>
      obtain ⟨t', ht', ha⟩ := newObj_allocates (t := t) (.val value) (by simp)
      refine ⟨t', ht', ha, ?_⟩
      cases ht'
      intro s next hb
      simp at hb
  | ext path next =>
      refine ⟨_, rfl, ?_, ?_⟩
      · exact
          { nextPtr := rfl
            heap := fun p hp => by simp [hp]
            node := by
              simp only [Trie.node, Function.update_self, NodeBody.toNode]
              exact congrArg (Node.ext · next) (Arrays.read_alloc_self path _)
            fits := by
              intro s next' hb
              simp only [Function.update_self, NodeBody.ext.injEq] at hb
              rw [← hb.1]
              exact Arrays.fits_alloc_self _ _
            cells := fun a ha => Arrays.cells_alloc_of_lt ha _ _
            next_le := Nat.le_succ _
            tempNodes := rfl
            storage := rfl
            prepared := rfl
            rootHash := rfl }
      · intro s next' hb
        simp only [Function.update_self, NodeBody.ext.injEq] at hb
        exact hb.1 ▸ le_rfl

/-! ## Reading nodes -/

/-- Nothing but reading has happened: new objects and saved entries for them at most. -/
structure Loads (C : NodeCodec) (t t' : Trie) : Prop where
  ptr_le : t.nextPtr ≤ t'.nextPtr
  prepared : t'.prepared = t.prepared
  rootHash : t'.rootHash = t.rootHash
  storage : t'.storage = t.storage
  heap : ∀ p, p < t.nextPtr → t'.heap p = t.heap p
  cells : ∀ a, a < t.arrays.next → t'.arrays.cells a = t.arrays.cells a
  next_le : t.arrays.next ≤ t'.arrays.next
  old_entry : ∀ x temp, t.tempNodes x = some temp → t'.tempNodes x = some temp
  new_entry : ∀ x temp, t'.tempNodes x = some temp → t.tempNodes x = some temp ∨
    (t.nextPtr ≤ temp.node ∧ temp.saved = true ∧ Right C t' x temp.node)
  new_path : ∀ p s next, t.nextPtr ≤ p → p < t'.nextPtr → (t'.heap p).body = .ext s next →
    t.arrays.next ≤ s.array
  own_path : ∀ p q s s' next next', t.nextPtr ≤ p → p < t'.nextPtr → q < t'.nextPtr → p ≠ q →
    (t'.heap p).body = .ext s next → (t'.heap q).body = .ext s' next' → s.array ≠ s'.array

lemma Loads.refl (C : NodeCodec) (t : Trie) : Loads C t t where
  ptr_le := le_rfl
  prepared := rfl
  rootHash := rfl
  storage := rfl
  heap := fun _ _ => rfl
  cells := fun _ _ => rfl
  next_le := le_rfl
  old_entry := fun _ _ h => h
  new_entry := fun _ _ h => .inl h
  new_path := fun _ _ _ hle hlt => absurd hle (Nat.not_le.2 hlt)
  own_path := fun _ _ _ _ _ _ hle hlt => absurd hle (Nat.not_le.2 hlt)

lemma Loads.node (h : Loads C t t') (hg : Sound t) {p : NodePtr} (hp : p < t.nextPtr) :
    t'.node p = t.node p := by
  simp only [Trie.node, h.heap p hp]
  exact toNode_eq_of_cells (fun s next hb => hg.fits p s next hp hb) h.cells

lemma Loads.trans (h : Loads C t t') (hg : Sound t') (h' : Loads C t' t'') :
    Loads C t t'' where
  ptr_le := h.ptr_le.trans h'.ptr_le
  prepared := h'.prepared.trans h.prepared
  rootHash := h'.rootHash.trans h.rootHash
  storage := h'.storage.trans h.storage
  heap := fun p hp => (h'.heap p (hp.trans_le h.ptr_le)).trans (h.heap p hp)
  cells := fun a ha => (h'.cells a (ha.trans_le h.next_le)).trans (h.cells a ha)
  next_le := h.next_le.trans h'.next_le
  old_entry := fun x temp he => h'.old_entry x temp (h.old_entry x temp he)
  new_entry := by
    intro x temp he
    rcases h'.new_entry x temp he with he | ⟨hle, hsaved, hr⟩
    · rcases h.new_entry x temp he with he0 | ⟨hle, hsaved, hr⟩
      · exact .inl he0
      · have hlt := hg.allocated x temp he
        exact .inr ⟨hle, hsaved, by rw [h'.node hg hlt, hr.node], by rw [h'.heap _ hlt, hr.hash]⟩
    · exact .inr ⟨h.ptr_le.trans hle, hsaved, hr⟩
  new_path := by
    intro p s next hle hlt hb
    by_cases hp : p < t'.nextPtr
    · rw [h'.heap p hp] at hb
      exact h.new_path p s next hle hp hb
    · exact h.next_le.trans (h'.new_path p s next (Nat.not_lt.1 hp) hlt hb)
  own_path := by
    intro p q s s' next next' hle hlt hq hne hb hb'
    by_cases hp : p < t'.nextPtr
    · by_cases hq' : q < t'.nextPtr
      · rw [h'.heap p hp] at hb
        rw [h'.heap q hq'] at hb'
        exact h.own_path p q s s' next next' hle hp hq' hne hb hb'
      · exact (h'.own_path q p s' s next' next (Nat.not_lt.1 hq') hq hlt hne.symm hb' hb).symm
    · exact h'.own_path p q s s' next next' (Nat.not_lt.1 hp) hlt hq hne hb hb'

lemma Loads.evolves (h : Loads C t t') (hg : Good C L t) : Evolves C L ∅ t t' where
  ptr_le := h.ptr_le
  prepared := h.prepared
  rootHash := h.rootHash
  storage := fun x hx => by rwa [h.storage]
  storage_eq := fun _ => h.storage
  obj := fun p _ hp _ _ => ⟨h.heap p hp, h.node hg.toSound hp⟩
  entry := by
    intro x _ temp he
    rcases h.new_entry x temp he with he | ⟨-, -, hr⟩
    · exact .inl ⟨temp, he, rfl⟩
    · exact .inr hr

lemma Loads.kept (h : Loads C t t') {x : Hash} {k : ℕ} (hk : Kept t x k) : Kept t' x k := by
  rcases hk with h0 | hs | ⟨temp, he, hle⟩
  · exact .inl h0
  · exact .inr (.inl (by rwa [h.storage]))
  · exact .inr (.inr ⟨temp, h.old_entry x temp he, hle⟩)

/-- What `fetchNode` on the hash of a tree returns: an object that holds its root node. -/
structure Fetched (C : NodeCodec) (L : NodePtr → Prop) (u : PatriciaTree) (t : Trie)
    (p : NodePtr) (t' : Trie) : Prop where
  loads : Loads C t t'
  good : Good C L t'
  lt : p < t'.nextPtr
  live : L p
  right : Right C t' (C.treeHash u) p
  node : t'.node p = C.treeNode u
  entry : t.prepared = true → ∃ temp, t'.tempNodes (C.treeHash u) = some temp ∧ temp.node = p
  loaded : t.tempNodes (C.treeHash u) = none → t.nextPtr ≤ p

/-- The state after a node was loaded from the storage into a new object. -/
lemma loadNode_spec {x : Hash} {n : Node} (hx : t.storage x = some (C.marshal n)) :
    ∃ t', loadNode C x t = (.ok t.nextPtr, t') ∧ Allocates n t t' ∧ OwnsPath t t' t.nextPtr ∧
      (t'.heap t.nextPtr).hash = x := by
  obtain ⟨t1, ht1, ha, ho⟩ := newNode_allocates n (C.spare n.path.length) t
  refine ⟨t1.setObj t.nextPtr ⟨(t1.heap t.nextPtr).body, x⟩, ?_, ?_, ?_, by simp [setObj]⟩
  · simp only [loadNode, read_bind, hx, C.unmarshal_marshal]
    rw [bind_of_ok ht1]
    rfl
  · exact
      { nextPtr := ha.nextPtr
        heap := fun p hp => by simp [setObj, hp, ha.heap p hp]
        node := by simpa [Trie.node, setObj] using ha.node
        fits := fun s next hb => ha.fits s next (by simpa [setObj] using hb)
        cells := ha.cells
        next_le := ha.next_le
        tempNodes := ha.tempNodes
        storage := ha.storage
        prepared := ha.prepared
        rootHash := ha.rootHash }
  · intro s next hb
    exact ho s next (by simpa [setObj] using hb)

/-- Entering a loaded object into the cache of a prepared trie. -/
lemma Allocates.loads {n : Node} {x : Hash} (ha : Allocates n t t') (hg : Sound t)
    (ho : OwnsPath t t' t.nextPtr) (hx : C.hash n = x) (hh : (t'.heap t.nextPtr).hash = x)
    (htemp : t''.tempNodes = t'.tempNodes ∨
      (t.prepared = true ∧ t.tempNodes x = none ∧
        t''.tempNodes = Function.update t'.tempNodes x (some ⟨t.nextPtr, 0, true⟩)))
    (hrest : t'' = { t' with tempNodes := t''.tempNodes }) : Loads C t t'' := by
  have hheap : t''.heap = t'.heap := by rw [hrest]
  have harrays : t''.arrays = t'.arrays := by rw [hrest]
  have hnext : t''.nextPtr = t.nextPtr + 1 := by rw [hrest]; exact ha.nextPtr
  have hlast : ∀ p, t.nextPtr ≤ p → p < t''.nextPtr → p = t.nextPtr := fun p hle hlt =>
    Nat.le_antisymm (Nat.le_of_lt_succ (by rwa [hnext] at hlt)) hle
  exact
    { ptr_le := by rw [hnext]; exact Nat.le_succ _
      prepared := by rw [hrest]; exact ha.prepared
      rootHash := by rw [hrest]; exact ha.rootHash
      storage := by rw [hrest]; exact ha.storage
      heap := fun p hp => by rw [hheap]; exact ha.heap p hp.ne
      cells := by rw [harrays]; exact ha.cells
      next_le := by rw [harrays]; exact ha.next_le
      old_entry := by
        intro y temp he
        rcases htemp with htemp | ⟨-, hnone, htemp⟩
        · rw [htemp, ha.tempNodes, he]
        · have hyx : y ≠ x := by
            rintro rfl
            rw [hnone] at he
            cases he
          rw [htemp, Function.update_of_ne hyx, ha.tempNodes, he]
      new_entry := by
        intro y temp he
        rcases htemp with htemp | ⟨-, -, htemp⟩
        · rw [htemp, ha.tempNodes] at he
          exact .inl he
        · by_cases hyx : y = x
          · subst hyx
            rw [htemp, Function.update_self] at he
            cases he
            refine .inr ⟨le_rfl, rfl, ?_, by rw [hheap, hh]⟩
            rw [Trie.node, hheap, harrays]
            exact (congrArg C.hash ha.node).trans hx
          · rw [htemp, Function.update_of_ne hyx, ha.tempNodes] at he
            exact .inl he
      new_path := by
        intro p s next hle hlt hb
        rw [hlast p hle hlt, hheap] at hb
        exact ho s next hb
      own_path := by
        intro p q s s' next next' hle hlt hq hne hb hb'
        have hp := hlast p hle hlt
        subst hp
        rw [hheap] at hb hb'
        rw [hnext] at hq
        have hq' : q < t.nextPtr := Nat.lt_of_le_of_ne (Nat.le_of_lt_succ hq) hne.symm
        rw [ha.heap q hne.symm] at hb'
        have := ho s next hb
        have := (hg.fits q s' next' hq' hb').array_lt
        omega }

/-- Entering an allocated live object into the cache of a prepared trie. -/
lemma Good.cached (hg : Good C L t) {x : Hash} {temp : TempNode} (hx : x ≠ [])
    (hp : t.prepared = true) (hlt : temp.node < t.nextPtr) (hL : L temp.node)
    (hs : temp.saved = true → (t.storage x).isSome) (hr : 0 ≤ temp.refCount) :
    Good C L { t with tempNodes := Function.update t.tempNodes x (some temp) } := by
  have hentry : ∀ y temp', Function.update t.tempNodes x (some temp) y = some temp' →
      t.tempNodes y = some temp' ∨ y = x ∧ temp' = temp := by
    intro y temp' hy
    by_cases hyx : y = x
    · rw [hyx, Function.update_self] at hy
      exact .inr ⟨hyx, (Option.some.inj hy).symm⟩
    · rw [Function.update_of_ne hyx] at hy
      exact .inl hy
  exact
    { hg with
      no_empty_entry := (Function.update_of_ne hx.symm _ _).trans hg.no_empty_entry
      idle := fun hne => absurd (hp.symm.trans hne) (by simp)
      allocated := by
        intro y temp' hy
        rcases hentry y temp' hy with he | ⟨-, rfl⟩
        · exact hg.allocated y temp' he
        · exact hlt
      live := by
        intro y temp' hy
        rcases hentry y temp' hy with he | ⟨-, rfl⟩
        · exact hg.live y temp' he
        · exact hL
      saved := by
        intro y temp' hy
        rcases hentry y temp' hy with he | ⟨rfl, rfl⟩
        · exact hg.saved y temp' he
        · exact hs
      refs := by
        intro y temp' hy
        rcases hentry y temp' hy with he | ⟨-, rfl⟩
        · exact hg.refs y temp' he
        · exact hr }

/-- Fetching the root of a tree whose hash is cached right, or stored. -/
lemma fetchNode_returns (hg : Good C L t) {u : PatriciaTree} (hu : u ≠ .nil)
    (hf : Fresh C t (C.treeHash u)) {k : ℕ} (hk : Kept t (C.treeHash u) (k + 1)) :
    Returns (fetchNode C (C.treeHash u)) t (Fetched C L u t) := by
  cases he : t.tempNodes (C.treeHash u) with
  | some temp =>
      have hp : t.prepared = true := by
        by_contra hne
        rw [hg.idle (by simpa using hne)] at he
        cases he
      have hr := hf temp he
      refine ⟨temp.node, t, by simp [fetchNode, hp, he], ?_⟩
      refine ⟨Loads.refl C t, hg, hg.allocated _ _ he, hg.live _ _ he, hr, ?_,
        fun _ => ⟨temp, he, rfl⟩, fun h => by rw [he] at h; cases h⟩
      exact C.hash_injective (hr.node.trans (NodeCodec.treeHash_eq hu))
  | none =>
      obtain ⟨b, hb⟩ : ∃ b, t.storage (C.treeHash u) = some b := by
        rcases hk with h0 | hs | ⟨temp, he', -⟩
        · omega
        · exact Option.isSome_iff_exists.1 hs
        · rw [he] at he'
          cases he'
      have hbm : b = C.marshal (C.treeNode u) :=
        hg.intact _ b (by rw [← NodeCodec.treeHash_eq hu, hb])
      obtain ⟨t1, ht1, ha, ho, hh⟩ := loadNode_spec (hb.trans (congrArg some hbm))
      have hx : C.hash (C.treeNode u) = C.treeHash u := (NodeCodec.treeHash_eq hu).symm
      have hg1 := ha.good hg
      by_cases hp : t.prepared = true
      · let temp : TempNode := ⟨t.nextPtr, 0, true⟩
        let t2 : Trie := { t1 with
          tempNodes := Function.update t1.tempNodes (C.treeHash u) (some temp) }
        have hl : Loads C t t2 := ha.loads hg.toSound ho hx hh (.inr ⟨hp, he, rfl⟩) rfl
        have hlt : t.nextPtr < t1.nextPtr := by
          rw [ha.nextPtr]
          exact Nat.lt_succ_self _
        have hne : C.treeHash u ≠ [] := fun h => hu (NodeCodec.treeHash_eq_nil_iff.1 h)
        have hg2 : Good C L t2 :=
          hg1.cached hne (ha.prepared.trans hp) hlt (hg.live_new _ le_rfl)
            (fun _ => by rw [ha.storage, hb]; rfl) le_rfl
        refine ⟨t.nextPtr, t2, ?_, ?_⟩
        · simp only [fetchNode, read_bind, hp, if_true, he]
          rw [bind_of_ok ht1]
          rfl
        · refine ⟨hl, hg2, hlt, hg.live_new _ le_rfl, ⟨?_, hh⟩, ha.node,
            fun _ => ⟨temp, ?_, rfl⟩, fun _ => le_rfl⟩
          · exact (congrArg C.hash ha.node).trans hx
          · simp [t2]
      · refine ⟨t.nextPtr, t1, by simp [fetchNode, hp, ht1], ?_⟩
        refine ⟨ha.loads hg.toSound ho hx hh (.inl rfl) rfl, hg1, ?_, hg.live_new _ le_rfl, ⟨?_, hh⟩,
          ha.node, fun h => absurd h hp, fun _ => le_rfl⟩
        · rw [ha.nextPtr]
          exact Nat.lt_succ_self _
        · rw [ha.node, hx]

/-- Nothing is found under the empty hash. -/
lemma fetchNode_nil (hg : Good C L t) : fetchNode C [] t = (.error .notFound, t) := by
  have hload : loadNode C [] t = (.error .notFound, t) := by
    simp [loadNode, hg.no_empty_key]
  unfold fetchNode
  rw [read_bind]
  split_ifs
  · rw [hg.no_empty_entry]
    exact bind_of_error hload
  · exact hload

end Trie

end GoMedibloc
