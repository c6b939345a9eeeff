import GoMedibloc.Framework.TreeOrder
import GoMedibloc.Trie.Canonical

/-!
# Iterators

The program of `common/trie/iterator.go`.  An iterator walks down to the part of the trie
under a prefix and then from entry to entry with an explicit stack: a state on it is a node
that is not finished, the position to go on from and the route to the node.

The routes are Go slices.  A state on the stack holds the slice that `Next` goes on appending
to, so the cells behind its end are overwritten again and again; no state looks there
(`Slice.Before`).  The nibble 16 that `Next` appends for the value of a branch is dropped when
the route is turned into a key, because it has no partner.

The stack stands for the entries that are still to come (`Remaining`), in the order of
`Tree.entries`, and `Next` takes the first one (`next_yields`).
-/

namespace GoMedibloc

open Prog Radix Trie

/-- `RouteToKey`; a last nibble without a partner is dropped. -/
def routeToKey : List (Fin 17) → Bytes
  | a :: b :: route => UInt8.ofNat (16 * a + b) :: routeToKey route
  | _ => []

/-- The errors of an iterator. -/
inductive IteratorErr where
  | trie (e : TrieErr)
  /-- "empty branch node". -/
  | emptyBranchNode
  deriving DecidableEq, Repr

/-- `IteratorState`.  Position 0 of a branch is the source's -1, the value in slot 16, and
position `i + 1` is the source's `i`. -/
structure IteratorState where
  node : NodePtr
  pos : Fin 17
  route : Slice

/-- `Iterator`, with the backing arrays of its routes. -/
structure Iterator where
  /-- The top of the stack comes first. -/
  stack : List IteratorState
  value : Bytes
  key : Slice
  root : Trie
  arrays : Arrays (Fin 17)

/-- A program on an iterator. -/
abbrev IteratorM := Prog Iterator IteratorErr

/-- `validElementsInBranchNode`; position `p` of a branch is slot `p - 1` modulo 17. -/
def validElementsInBranchNode (offset : Fin 17) (n : Node) : List (Fin 17) :=
  (List.finRange 17).filter fun p => offset ≤ p && n.slot (p - 1) ≠ []

variable (C : NodeCodec)

namespace Trie

/-- The loop of `getSubTrieWithMaxCommonPrefix`. -/
def subTrieLoop : ℕ → Hash → Route → Route → TrieM (Hash × Route)
  | _, curRootHash, [], route => pure (curRootHash, route)
  | 0, _, _ :: _, _ => Prog.fail .outOfFuel
  | fuel + 1, curRootHash, i :: rest, route => do
      let n ← fetchNode C curRootHash
      let t ← Prog.read
      match t.node n with
      | .branch slots => subTrieLoop fuel (slots i.castSucc) rest (route ++ [i])
      | .ext path next =>
          let matchLen := commonLen path (i :: rest)
          if matchLen ≠ path.length ∧ matchLen ≠ (i :: rest).length then Prog.fail .notFound
          else subTrieLoop fuel next ((i :: rest).drop matchLen) (route ++ path)
      | .val _ => Prog.fail .notFound

/-- `Trie.getSubTrieWithMaxCommonPrefix`. -/
def getSubTrieWithMaxCommonPrefix (start : Bytes) : TrieM (Hash × Route) := do
  let t ← Prog.read
  subTrieLoop C (keyToRoute start).length t.rootHash (keyToRoute start) []

/-- An iterator with an empty stack. -/
def emptyIterator (t : Trie) : Iterator := ⟨[], [], ⟨0, 0, 0⟩, t, ⟨fun _ => [], 1⟩⟩

/-- An iterator at a node. -/
def iteratorAt (n : NodePtr) (route : Route) (t : Trie) : Iterator :=
  let (s, arrays) := Arrays.alloc ⟨fun _ => [], 0⟩ (route.map Fin.castSucc)
    (List.replicate (C.spare route.length) 0)
  ⟨[⟨n, (validElementsInBranchNode 0 (t.node n)).headD 0, s⟩], [], ⟨0, 0, 0⟩, t, arrays⟩

/-- `Trie.Iterator`.  The root hash comes back `nil` with any error, and the source looks at
the hash first. -/
def iterator (start : Bytes) : TrieM Iterator := do
  let found ← Prog.attempt (getSubTrieWithMaxCommonPrefix C start)
  match found with
  | .error _ => Prog.asks emptyIterator
  | .ok (rootHash, route) =>
      if rootHash = [] then Prog.asks emptyIterator
      else do
        let n ← fetchNode C rootHash
        Prog.asks (iteratorAt C n route)

end Trie

namespace Iterator

/-- `it.root.fetchNode`. -/
def fetch (h : Hash) : IteratorM NodePtr := fun it =>
  let (res, t) := fetchNode C h it.root
  (res.mapError .trie, { it with root := t })

/-- `append(route, l...)`. -/
def append (route : Slice) (l : List (Fin 17)) : IteratorM Slice := fun it =>
  let (s, arrays) := it.arrays.append route l
    (List.replicate (C.spare (route.len + l.length)) 0)
  (.ok s, { it with arrays := arrays })

/-- The loop of `Next`. -/
def nextLoop : ℕ → NodePtr → Fin 17 → Slice → IteratorM Bool
  | 0, _, _, _ => Prog.fail (.trie .outOfFuel)
  | fuel + 1, node, pos, route => do
      let it ← Prog.read
      match it.root.node node with
      | .branch slots =>
          match validElementsInBranchNode pos (.branch slots) with
          | [] => Prog.fail .emptyBranchNode
          | p :: rest => do
              -- The branch is pushed again if it has a second position.
              Prog.update fun it => { it with
                stack := (rest.head?.toList.map fun q => ⟨node, q, route⟩) ++ it.stack }
              let route ← append C route [p - 1]
              let node ← fetch C (slots (p - 1))
              nextLoop fuel node 0 route
      | .ext path next => do
          let route ← append C route (path.map Fin.castSucc)
          let node ← fetch C next
          nextLoop fuel node 0 route
      | .val value => do
          Prog.update fun it => { it with value := value, key := route }
          pure true

/-- `Iterator.Next`. -/
def next (fuel : ℕ) : IteratorM Bool := do
  let it ← Prog.read
  match it.stack with
  | [] => pure false
  | st :: stack => do
      Prog.update fun it => { it with stack := stack }
      nextLoop C fuel st.node st.pos st.route

/-- `Iterator.Key`. -/
def getKey (it : Iterator) : Bytes := routeToKey (it.arrays.read it.key)

/-- The loop over an iterator as `Keys` and the tests write it: call `Next` until it returns
false, and take `see` of the iterator after each call that returned true. -/
def forEachNext {α : Type} (see : Iterator → α) (fuel : ℕ) : ℕ → IteratorM (List α)
  | 0 => Prog.fail (.trie .outOfFuel)
  | steps + 1 => do
      let exist ← next C fuel
      if exist then do
        let a ← Prog.asks see
        let rest ← forEachNext see fuel steps
        pure (a :: rest)
      else pure []

end Iterator

namespace Trie

/-- Open an iterator and run the loop over it. -/
def iterate {α : Type} (see : Iterator → α) (fuel : ℕ) (start : Bytes) (t : Trie) :
    Except IteratorErr (List α) :=
  match (iterator C start t).1 with
  | .error e => .error (.trie e)
  | .ok it => (Iterator.forEachNext C see fuel fuel it).1

/-- `Trie.Keys`. -/
def keys (fuel : ℕ) (start : Bytes) (t : Trie) : Except IteratorErr (List Bytes) :=
  iterate C Iterator.getKey fuel start t

end Trie

variable {C} {u w : PatriciaTree} {t t' : Trie} {n : NodePtr} {it : Iterator} {s : Slice}
  {ρ r : Route} {v : Bytes} {es fs : List (Route × Bytes)} {a : Fin 17}

/-! ## Keys and routes -/

lemma routeToKey_keyToRoute (k : Bytes) {tail : List (Fin 17)} (h : tail.length ≤ 1) :
    routeToKey ((keyToRoute k).map Fin.castSucc ++ tail) = k := by
  induction k with
  | nil =>
      match tail, h with
      | [], _ => rfl
      | [_], _ => rfl
  | cons b k ih =>
      have hb : UInt8.ofNat (16 * (b.toNat / 16) + b.toNat % 16) = b := by
        rw [Nat.div_add_mod, UInt8.ofNat_toNat]
      simp only [keyToRoute_cons, byteToRoute, List.cons_append, List.nil_append, List.map_cons,
        routeToKey, Fin.val_castSucc, hb, ih]

/-- The order of the routes is the order of the keys. -/
lemma lt_of_keyToRoute_lt {k l : Bytes} (h : keyToRoute k < keyToRoute l) : k < l := by
  induction k generalizing l with
  | nil =>
      cases l with
      | nil => exact absurd h (List.not_lt_nil _)
      | cons b l => exact List.nil_lt_cons _ _
  | cons a k ih =>
      cases l with
      | nil => exact absurd h (List.not_lt_nil _)
      | cons b l =>
          simp only [keyToRoute_cons, byteToRoute, List.cons_append, List.nil_append,
            List.cons_lt_cons_iff, Fin.mk_lt_mk, Fin.mk.injEq] at h
          refine List.cons_lt_cons_iff.2 ?_
          rw [UInt8.lt_iff_toNat_lt, ← UInt8.toNat_inj]
          rcases h with h | ⟨h, h' | ⟨h', hkl⟩⟩
          · left; omega
          · left; omega
          · exact .inr ⟨by omega, ih hkl⟩

/-! ## Reading parts of a tree -/

/-- The pointer is to an object that holds the root of a part of the tree. -/
structure Trie.Points (C : NodeCodec) (u : PatriciaTree) (t : Trie) (n : NodePtr)
    (w : PatriciaTree) : Prop where
  part : PartOf C w u
  lt : n < t.nextPtr
  node : t.node n = C.treeNode w

lemma Trie.Points.loads (h : Points C u t n w) (hs : Stores C u t) (hl : Loads C t t') :
    Points C u t' n w :=
  ⟨h.part, h.lt.trans_le hl.ptr_le, (hl.node hs.holds.good.toSound h.lt).trans h.node⟩

lemma Trie.Stores.fetchPart (hs : Stores C u t) (h : PartOf C w u) :
    ∃ n t', fetchNode C (C.treeHash w) t = (.ok n, t') ∧ Stores C u t' ∧ Loads C t t' ∧
      Points C u t' n w := by
  have hsub : Holds C t.Live (fun x => C.occ x u - C.occ x w) w t :=
    hs.holds.sub (fun x => by have := h.occ_le x; omega) h.occ_le
  obtain ⟨n, t', hrun, hn⟩ := hsub.fetch h.ne_nil
  exact ⟨n, t', hrun, (hs.loads hn.good hn.loads).stores, hn.loads, h, hn.lt, hn.node⟩

/-- The tree under a prefix: its entries, with the path in front, are those that start with
the prefix. -/
def Under (w : PatriciaTree) (r q : Route) (w' : PatriciaTree) : Prop :=
  ∀ s v, (Tree.ext q w').get s = some v ↔ w.get s = some v ∧ r <+: s

lemma Under.ext {q : Route} {w' : PatriciaTree} (h : Under w r q w') (p : Route) :
    Under (.ext p w) (p ++ r) (p ++ q) w' := by
  intro s v
  by_cases hp : p <+: s
  · obtain ⟨s, rfl⟩ := hp
    rw [Tree.get_ext_append_append, Tree.get_ext_append, List.prefix_append_right_inj, h]
  · rw [Tree.get_ext_not_prefixed fun h => hp ((List.prefix_append p q).trans h)]
    simp only [reduceCtorEq, false_iff, not_and]
    exact fun _ h => hp ((List.prefix_append p r).trans h)

lemma Under.refl (w : PatriciaTree) : Under w [] [] w := by
  intro s v
  rw [Tree.get_ext_nil_path]
  exact ⟨fun h => ⟨h, List.nil_prefix⟩, And.left⟩

lemma Under.of_not {i : Fin 16} (h : ∀ s v, w.get s = some v → ¬ i :: r <+: s) :
    Under w (i :: r) [] .nil := by
  intro s v
  simp only [Tree.get_ext_nil_path, Tree.get_nil, reduceCtorEq, false_iff, not_and]
  exact h s v

/-- The walk to a prefix ends at the tree under it; with an error only where nothing is. -/
lemma subTrieLoop_finds {fuel : ℕ} (hs : Stores C u t) (hw : w ≠ .nil → PartOf C w u)
    (hfuel : r.length ≤ fuel) :
    ∃ t' w' q, Stores C u t' ∧ (w' ≠ .nil → PartOf C w' u) ∧ Under w r q w' ∧
      (subTrieLoop C fuel (C.treeHash w) r ρ t = (.ok (C.treeHash w', ρ ++ q), t') ∨
        w' = .nil ∧ subTrieLoop C fuel (C.treeHash w) r ρ t = (.error .notFound, t')) := by
  induction fuel generalizing w r ρ t with
  | zero =>
      obtain rfl := List.length_eq_zero_iff.1 (Nat.le_zero.1 hfuel)
      exact ⟨t, w, [], hs, hw, .refl w, .inl (by simp [subTrieLoop])⟩
  | succ fuel ih =>
      cases r with
      | nil => exact ⟨t, w, [], hs, hw, .refl w, .inl (by simp [subTrieLoop])⟩
      | cons i r =>
      by_cases hnil : w = .nil
      · subst hnil
        refine ⟨t, .nil, [], hs, hw, .of_not (by simp), .inr ⟨rfl, ?_⟩⟩
        exact bind_of_error (fetchNode_nil hs.holds.good)
      have hpart := hw hnil
      obtain ⟨n, t₁, hrun, hs₁, -, hn⟩ := hs.fetchPart hpart
      rw [subTrieLoop, bind_of_ok hrun, read_bind, hn.node]
      cases w with
      | nil => exact absurd rfl hnil
      | leaf v =>
          refine ⟨t₁, .nil, [], hs₁, by simp, .of_not fun s x hx hpre => ?_, .inr ⟨rfl, rfl⟩⟩
          obtain ⟨s, rfl⟩ := hpre
          cases hx
      | ext p w =>
          have hp : 0 < p.length := List.length_pos_of_ne_nil hpart.wf.1
          simp only [NodeCodec.treeNode]
          generalize hir : i :: r = r₀ at *
          by_cases hpre : p <+: r₀
          · -- The extension is on the way to the prefix.
            obtain ⟨r', rfl⟩ := hpre
            have hc : commonLen p (p ++ r') = p.length :=
              commonLen_eq_length_iff.2 (List.prefix_append p r')
            rw [List.length_append] at hfuel
            obtain ⟨t₂, w', q, hs₂, hw', hu, hend⟩ := ih (r := r') (ρ := ρ ++ p) hs₁
              (fun _ => hpart.next) (by omega)
            refine ⟨t₂, w', p ++ q, hs₂, hw', hu.ext p, ?_⟩
            simpa only [hc, ne_eq, not_true_eq_false, false_and, if_false, List.drop_left,
              List.append_assoc] using hend
          · obtain ⟨c, b, p', rfl, rfl | ⟨d, r', rfl, hbd⟩⟩ := exists_fork hpre
            · -- The prefix ends inside the extension.
              have hc : commonLen (r₀ ++ b :: p') r₀ = r₀.length := by
                simpa using commonLen_append r₀ (b :: p') []
              refine ⟨t₁, w, r₀ ++ b :: p', hs₁, fun _ => hpart.next, fun s v => ?_, .inl ?_⟩
              · refine ⟨fun h => ⟨h, ?_⟩, And.left⟩
                exact (List.prefix_append _ _).trans (Tree.prefix_of_get_ext h)
              · simp [hc, subTrieLoop]
            · -- The prefix leaves the extension.
              have hc : commonLen (c ++ b :: p') (c ++ d :: r') = c.length := by
                simp [commonLen_cons_ne hbd]
              refine ⟨t₁, .nil, [], hs₁, by simp, ?_, .inr ⟨rfl, by simp [hc]⟩⟩
              rw [← hir]
              refine .of_not fun s v h hr => ?_
              rw [hir] at hr
              rcases List.prefix_or_prefix_of_prefix (Tree.prefix_of_get_ext h) hr with h' | h' <;>
                simp [hbd, hbd.symm] at h'
      | branch x kids =>
          obtain ⟨t₂, w', q, hs₂, hw', hu, hend⟩ := ih (ρ := ρ ++ [i]) hs₁ hpart.kid
            (Nat.le_of_succ_le_succ hfuel)
          refine ⟨t₂, w', i :: q, hs₂, hw', fun s y => ?_, ?_⟩
          · cases s with
            | nil => simp
            | cons j s =>
                by_cases hij : i = j
                · subst hij
                  simpa using hu.ext [i] (i :: s) y
                · simp [hij]
          · simpa only [NodeCodec.treeNode, branchSlots_castSucc, List.append_assoc,
              List.singleton_append] using hend

/-! ## What is still to come -/

/-- The slice reads as the route. -/
def Spells (A : Arrays (Fin 17)) (s : Slice) (ρ : Route) : Prop :=
  A.Fits s ∧ A.read s = ρ.map Fin.castSucc

/-- The entries that a state on the stack stands for. -/
def Frame (C : NodeCodec) (u : PatriciaTree) (t : Trie) (A : Arrays (Fin 17)) (st : IteratorState)
    (es : List (Route × Bytes)) : Prop :=
  ∃ w ρ, Points C u t st.node w ∧ Spells A st.route ρ ∧ es = Tree.under ρ (w.entriesFrom st.pos) ∧
    es ≠ []

/-- The entries that a stack stands for.  The routes below do not reach behind those above. -/
def Pending (C : NodeCodec) (u : PatriciaTree) (t : Trie) (A : Arrays (Fin 17)) :
    List IteratorState → List (Route × Bytes) → Prop
  | [], es => es = []
  | st :: stack, es => ∃ es₁ es₂, es = es₁ ++ es₂ ∧ Frame C u t A st es₁ ∧
      (∀ st' ∈ stack, st'.route.Before st.route) ∧ Pending C u t A stack es₂

lemma Pending.fits {A : Arrays (Fin 17)} {stack : List IteratorState}
    (h : Pending C u t A stack es) : ∀ st ∈ stack, A.Fits st.route := by
  induction stack generalizing es with
  | nil => simp
  | cons st stack ih =>
      obtain ⟨es₁, es₂, -, ⟨w, ρ, -, hr, -⟩, -, hrest⟩ := h
      exact List.forall_mem_cons.2 ⟨hr.1, ih hrest⟩

/-- Reading nodes, and appending where no state looks, leaves the stack what it was. -/
lemma Pending.mono {A A' : Arrays (Fin 17)} {stack : List IteratorState}
    (h : Pending C u t A stack es) (hs : Stores C u t) (hl : Loads C t t')
    (hA : ∀ st ∈ stack, A'.Fits st.route ∧ A'.read st.route = A.read st.route) :
    Pending C u t' A' stack es := by
  induction stack generalizing es with
  | nil => exact h
  | cons st stack ih =>
      obtain ⟨es₁, es₂, hes, ⟨w, ρ, hw, hr, hframe⟩, hbefore, hrest⟩ := h
      obtain ⟨hfits, hread⟩ := hA st (by simp)
      exact ⟨es₁, es₂, hes, ⟨w, ρ, hw.loads hs hl, ⟨hfits, hread.trans hr.2⟩, hframe⟩, hbefore,
        ih hrest fun st' hst' => hA st' (by simp [hst'])⟩

namespace Iterator

/-- The entries that an iterator has not shown yet. -/
def Remaining (C : NodeCodec) (u : PatriciaTree) (it : Iterator) (es : List (Route × Bytes)) :
    Prop :=
  Stores C u it.root ∧ Pending C u it.root it.arrays it.stack es

/-- The iterator shows an entry; the route may end in a nibble without a partner. -/
def Shown (it : Iterator) (r : Route) (v : Bytes) : Prop :=
  it.value = v ∧ ∃ tail : List (Fin 17), tail.length ≤ 1 ∧
    it.arrays.read it.key = r.map Fin.castSucc ++ tail

lemma Shown.getKey {k : Bytes} (h : Shown it (keyToRoute k) v) : it.getKey = k := by
  obtain ⟨-, tail, htail, hread⟩ := h
  rw [Iterator.getKey, hread, routeToKey_keyToRoute k htail]

/-- One step down: append to the route and fetch the node. -/
lemma descend (h : Remaining C u it es) (hw : PartOf C w u) (hfits : it.arrays.Fits s)
    (hclear : ∀ st ∈ it.stack, st.route.Before s) (l : List (Fin 17)) :
    ∃ s' n it', (∀ f : Slice → NodePtr → IteratorM Bool,
        (append C s l >>= fun s' => fetch C (C.treeHash w) >>= f s') it = f s' n it') ∧
      Remaining C u it' es ∧ Points C u it'.root n w ∧ it'.arrays.Fits s' ∧
      it'.arrays.read s' = it.arrays.read s ++ l ∧ ∀ st ∈ it'.stack, st.route.Before s' := by
  obtain ⟨n, t', hrun, hs', hl, hn⟩ := h.1.fetchPart hw
  have hkeep : ∀ st ∈ it.stack, _ := fun st hst =>
    Arrays.append_keeps hfits (h.2.fits st hst) (hclear st hst) l
      (List.replicate (C.spare (s.len + l.length)) 0)
  refine ⟨_, n, { it with root := t', arrays := (it.arrays.append s l _).2 }, fun f => ?_,
    ⟨hs', h.2.mono h.1 hl fun st hst => ⟨(hkeep st hst).1, (hkeep st hst).2.1⟩⟩, hn,
    Arrays.fits_append_self hfits l _, Arrays.read_append_self hfits l _,
    fun st hst => (hkeep st hst).2.2⟩
  have happend : append C s l it = (.ok (it.arrays.append s l _).1,
    { it with arrays := (it.arrays.append s l _).2 }) := rfl
  rw [bind_of_ok happend, bind_of_ok]
  simp only [fetch, hrun]
  rfl

variable {x : Option Bytes} {kids : Fin 16 → PatriciaTree}

lemma succ_sub_one (i : Fin 16) : (i.succ - 1 : Fin 17) = i.castSucc := by
  revert i
  decide

lemma slot_succ (i : Fin 16) : (C.treeNode (.branch x kids)).slot (i.succ - 1) =
    C.treeHash (kids i) := by
  simp only [succ_sub_one, NodeCodec.treeNode, Node.slot, branchSlots_castSucc]

/-- An occupied slot is one with entries. -/
lemma slot_eq_nil_iff (h : (Tree.branch x kids).WF) (p : Fin 17) :
    (C.treeNode (.branch x kids)).slot (p - 1) = [] ↔
      Tree.entriesAt x (fun i => (kids i).entries) p = [] := by
  cases p using Fin.cases with
  | zero =>
      rw [show (0 - 1 : Fin 17) = 16 from rfl, NodeCodec.treeNode, Node.slot, branchSlots_value]
      cases x <;> simp [NodeCodec.valueHash, Tree.entriesAt]
  | succ i =>
      rw [slot_succ, NodeCodec.treeHash_eq_nil_iff, ← Tree.entries_eq_nil_iff (h.2 i)]
      simp [Tree.entriesAt, Tree.under]

/-- The entries of a branch from a position on are those at its valid elements. -/
lemma entriesFrom_branch (h : (Tree.branch x kids).WF) (a : Fin 17) :
    (Tree.branch x kids).entriesFrom a =
      (validElementsInBranchNode a (C.treeNode (.branch x kids))).flatMap
        (Tree.entriesAt x fun i => (kids i).entries) :=
  Tree.entriesFrom_eq_flatMap (fun p hp => (slot_eq_nil_iff h p).1 (by simpa using hp)) a

lemma entriesAt_ne_nil (h : (Tree.branch x kids).WF) {p : Fin 17}
    (hp : p ∈ validElementsInBranchNode a (C.treeNode (.branch x kids))) :
    Tree.entriesAt x (fun i => (kids i).entries) p ≠ [] := by
  simp only [validElementsInBranchNode, List.mem_filter, Bool.and_eq_true, decide_eq_true_eq] at hp
  exact fun he => hp.2.2 ((slot_eq_nil_iff h p).2 he)

/-- A branch is pushed again with its second position, if it has one. -/
lemma Remaining.push {p : Fin 17} {rest : List (Fin 17)} (h : Remaining C u it fs)
    (hn : Points C u it.root n (.branch x kids)) (hr : Spells it.arrays s ρ)
    (hclear : ∀ st ∈ it.stack, st.route.Before s)
    (hvalid : validElementsInBranchNode a (C.treeNode (.branch x kids)) = p :: rest) :
    let stack := (rest.head?.toList.map fun q => IteratorState.mk n q s) ++ it.stack
    Remaining C u { it with stack := stack }
      (Tree.under ρ (rest.flatMap (Tree.entriesAt x fun i => (kids i).entries)) ++ fs) ∧
      ∀ st ∈ stack, st.route.Before s := by
  cases rest with
  | nil => exact ⟨h, hclear⟩
  | cons q rest =>
      have hwf := hn.part.wf
      have hlater : validElementsInBranchNode q (C.treeNode (.branch x kids)) = q :: rest :=
        Tree.filter_from_later (show _ = [p] ++ q :: rest from hvalid)
      have hfrom := entriesFrom_branch (C := C) hwf q
      have hq := entriesAt_ne_nil (C := C) (a := q) (p := q) hwf (by simp [hlater])
      rw [hlater] at hfrom
      refine ⟨⟨h.1, _, fs, rfl, ⟨_, ρ, hn, hr, by rw [hfrom], ?_⟩, hclear, h.2⟩, ?_⟩
      · simp [Tree.under, hq]
      · exact List.forall_mem_cons.2 ⟨fun _ => le_rfl, hclear⟩

/-- The loop of `Next` stops at the first entry of the tree it stands at and leaves the others
on the stack. -/
lemma nextLoop_yields {fuel : ℕ} (h : Remaining C u it fs) (hn : Points C u it.root n w)
    (hr : Spells it.arrays s ρ) (hclear : ∀ st ∈ it.stack, st.route.Before s)
    (hes : w.entriesFrom a = (r, v) :: es) (hfuel : r.length + 2 ≤ fuel) :
    ∃ it', nextLoop C fuel n a s it = (.ok true, it') ∧ Shown it' (ρ ++ r) v ∧
      Remaining C u it' (Tree.under ρ es ++ fs) := by
  induction fuel generalizing w n a s ρ r es fs it with
  | zero => omega
  | succ fuel ih =>
  rw [nextLoop, read_bind, hn.node]
  cases w with
  | nil => exact absurd rfl hn.part.ne_nil
  | leaf x =>
      obtain ⟨⟨rfl, rfl⟩, rfl⟩ : ([] = r ∧ x = v) ∧ [] = es := by
        simpa [Tree.entriesFrom, Tree.entries] using hes
      exact ⟨_, rfl, ⟨rfl, [], by simp, by simpa using hr.2⟩, h⟩
  | ext p w =>
      obtain ⟨⟨r', v'⟩, es', hw, hhead, rfl⟩ := List.map_eq_cons_iff.1 hes
      obtain ⟨rfl, rfl⟩ := Prod.mk.inj hhead
      have hp : 0 < p.length := List.length_pos_of_ne_nil hn.part.wf.1
      rw [List.length_append] at hfuel
      obtain ⟨s', n', it₁, hrun, h₁, hn₁, hfits, hread, hclear₁⟩ :=
        descend h hn.part.next hr.1 hclear (p.map Fin.castSucc)
      obtain ⟨it₂, hloop, hshown, hrem⟩ := ih (a := 0) (ρ := ρ ++ p) h₁ hn₁
        ⟨hfits, by rw [hread, hr.2, List.map_append]⟩ hclear₁
        (by rw [Tree.entriesFrom_zero]; exact hw) (by omega)
      rw [List.append_assoc] at hshown
      rw [← Tree.under_under] at hrem
      exact ⟨it₂, (hrun _).trans hloop, hshown, hrem⟩
  | branch x kids =>
      have hwf := hn.part.wf
      rw [entriesFrom_branch (C := C) hwf] at hes
      cases hvalid : validElementsInBranchNode a (C.treeNode (.branch x kids)) with
      | nil => simp [hvalid] at hes
      | cons p rest =>
          -- The first valid element has the first entry; the others stay on the stack.
          obtain ⟨h₁, hclear₁⟩ := h.push hn hr hclear hvalid
          have hp := entriesAt_ne_nil (C := C) (a := a) (p := p) hwf (by simp [hvalid])
          obtain ⟨e, es₀, he⟩ := List.exists_cons_of_ne_nil hp
          rw [hvalid, List.flatMap_cons, he, List.cons_append] at hes
          obtain ⟨rfl, rfl⟩ := List.cons.inj hes
          rw [Tree.under_append, List.append_assoc]
          rw [NodeCodec.treeNode] at hvalid ⊢
          simp only [hvalid]
          rw [update_bind]
          cases p using Fin.cases with
          | zero =>
              obtain ⟨y, rfl⟩ := Option.ne_none_iff_exists'.1 fun hx : x = none => hp (by
                rw [hx]
                rfl)
              obtain ⟨⟨rfl, rfl⟩, rfl⟩ : ([] = r ∧ y = v) ∧ [] = es₀ := by
                simpa [Tree.entriesAt] using he
              obtain ⟨s', n', it₁, hrun, h₁, hn₁, -, hread, hclear₁⟩ :=
                descend h₁ hn.part.value hr.1 hclear₁ [16]
              obtain ⟨fuel, rfl⟩ := Nat.exists_eq_succ_of_ne_zero (n := fuel) (by omega)
              have hval : nextLoop C (fuel + 1) n' 0 s' it₁ =
                  (.ok true, { it₁ with value := y, key := s' }) := by
                rw [nextLoop, read_bind, hn₁.node]
                rfl
              rw [show (0 - 1 : Fin 17) = 16 from rfl, branchSlots_value]
              refine ⟨_, (hrun _).trans hval, ⟨rfl, [16], by simp, ?_⟩, h₁⟩
              rw [hread, hr.2, List.append_nil]
          | succ i =>
              obtain ⟨⟨r', v'⟩, es', hkid, hhead, rfl⟩ := List.map_eq_cons_iff.1 he
              obtain ⟨rfl, rfl⟩ := Prod.mk.inj hhead
              have hi : kids i ≠ .nil := fun hnil => by simp [hnil, Tree.entries] at hkid
              obtain ⟨s', n', it₁, hrun, h₁, hn₁, hfits, hread, hclear₁⟩ :=
                descend h₁ (hn.part.kid hi) hr.1 hclear₁ [i.castSucc]
              obtain ⟨it₂, hloop, hshown, hrem⟩ := ih (a := 0) (ρ := ρ ++ [i]) h₁ hn₁
                ⟨hfits, by rw [hread, hr.2, List.map_append]; rfl⟩ hclear₁
                (by rw [Tree.entriesFrom_zero]; exact hkid) (Nat.le_of_succ_le_succ hfuel)
              rw [List.append_assoc] at hshown
              rw [← Tree.under_under] at hrem
              rw [succ_sub_one, branchSlots_castSucc]
              exact ⟨it₂, (hrun _).trans hloop, hshown, hrem⟩

/-- **One call.**  `Next` shows the first of the remaining entries and leaves the others; with
none left it returns false. -/
lemma next_yields {fuel : ℕ} (h : Remaining C u it ((r, v) :: es)) (hfuel : r.length + 2 ≤ fuel) :
    ∃ it', next C fuel it = (.ok true, it') ∧ Shown it' r v ∧ Remaining C u it' es := by
  obtain ⟨hs, hp⟩ := h
  rw [next, read_bind]
  cases hstack : it.stack with
  | nil =>
      rw [hstack] at hp
      cases hp
  | cons st stack =>
      rw [hstack] at hp
      obtain ⟨es₁, es₂, hes, ⟨w, ρ, hw, hr, rfl, hne⟩, hclear, hrest⟩ := hp
      obtain ⟨⟨r', v'⟩, es', hfrom⟩ : ∃ e es', w.entriesFrom st.pos = e :: es' :=
        List.exists_cons_of_ne_nil fun hnil => hne (by rw [hnil]; rfl)
      rw [hfrom] at hes
      obtain ⟨hhead, rfl⟩ := List.cons.inj hes
      obtain ⟨rfl, rfl⟩ := Prod.mk.inj hhead
      rw [List.length_append] at hfuel
      have h' : Remaining C u { it with stack := stack } es₂ := ⟨hs, hrest⟩
      exact nextLoop_yields h' hw hr hclear hfrom (by omega)

lemma next_done (h : Remaining C u it []) (fuel : ℕ) : next C fuel it = (.ok false, it) := by
  rw [next, read_bind]
  cases hstack : it.stack with
  | nil => rfl
  | cons st stack =>
      have hp := h.2
      rw [hstack] at hp
      obtain ⟨es₁, es₂, hes, ⟨w, ρ, -, -, -, hne⟩, -⟩ := hp
      exact absurd (List.append_eq_nil_iff.1 hes.symm).1 hne

/-- **A whole run.**  The loop sees every remaining entry in its order and ends with false. -/
lemma forEachNext_eq {α : Type} {see : Iterator → α} {g : Bytes × Bytes → α}
    (hsee : ∀ it k v, Shown it (keyToRoute k) v → see it = g (k, v)) {kvs : List (Bytes × Bytes)}
    (h : Remaining C u it (kvs.map (Prod.map keyToRoute id))) {fuel steps : ℕ}
    (hfuel : ∀ kv ∈ kvs, (keyToRoute kv.1).length + 2 ≤ fuel) (hsteps : kvs.length < steps) :
    (forEachNext C see fuel steps it).1 = .ok (kvs.map g) := by
  induction kvs generalizing it steps with
  | nil =>
      obtain ⟨steps, rfl⟩ := Nat.exists_eq_succ_of_ne_zero (Nat.ne_zero_of_lt hsteps)
      rw [forEachNext, bind_of_ok (next_done h fuel)]
      rfl
  | cons kv kvs ih =>
      obtain ⟨steps, rfl⟩ := Nat.exists_eq_succ_of_ne_zero (Nat.ne_zero_of_lt hsteps)
      obtain ⟨it', hnext, hshown, h'⟩ := next_yields h (hfuel kv (by simp))
      have hrest := ih h' (fun kv' hkv' => hfuel kv' (by simp [hkv'])) (Nat.lt_of_succ_lt_succ hsteps)
      rw [forEachNext, bind_of_ok hnext, if_pos rfl,
        bind_of_ok (show Prog.asks see it' = (.ok (see it'), it') from rfl),
        bind_of_ok (Prod.ext hrest rfl), List.map_cons, hsee it' _ _ hshown]
      rfl

end Iterator

/-! ## From the prefix to the entries -/

/-- The walk over a tree starts at its first valid element. -/
lemma entriesFrom_first (h : w.WF) :
    w.entriesFrom ((validElementsInBranchNode 0 (C.treeNode w)).headD 0) = w.entries := by
  rw [← Tree.entriesFrom_zero]
  cases w with
  | nil => rfl
  | leaf v => rfl
  | ext p w => rfl
  | branch x kids =>
      cases hvalid : validElementsInBranchNode 0 (C.treeNode (.branch x kids)) with
      | nil => rfl
      | cons p rest =>
          have hlater : validElementsInBranchNode p (C.treeNode (.branch x kids)) = p :: rest :=
            Tree.filter_from_later (show _ = [] ++ p :: rest from hvalid)
          rw [List.headD_cons, Iterator.entriesFrom_branch (C := C) h,
            Iterator.entriesFrom_branch (C := C) h, hlater, hvalid]

/-- Opening an iterator leaves it with the entries under the prefix. -/
lemma iterator_opens (hs : Stores C u t) (start : Bytes) :
    ∃ it q w', (iterator C start t).1 = .ok it ∧ Under u (keyToRoute start) q w' ∧
      Iterator.Remaining C u it (Tree.ext q w').entries := by
  obtain ⟨t', w', q, hs', hw', hu, hend⟩ := subTrieLoop_finds (w := u) (ρ := []) hs
    (fun hne => ⟨hne, hs.wf, fun _ => le_rfl⟩) (le_refl (keyToRoute start).length)
  rw [← hs.root] at hend
  have hempty : w' = .nil →
      Iterator.Remaining C u (emptyIterator t') (Tree.ext q w').entries := by
    rintro rfl
    exact ⟨hs', rfl⟩
  unfold iterator
  rcases hend with hget | ⟨hnil, hget⟩
  · have hfound : (Prog.attempt (getSubTrieWithMaxCommonPrefix C start) : TrieM _) t =
        (.ok (.ok (C.treeHash w', q)), t') := by
      rw [Prog.attempt, getSubTrieWithMaxCommonPrefix, read_bind, hget, List.nil_append]
    rw [bind_of_ok hfound]
    by_cases hne : w' = .nil
    · exact ⟨_, q, w', by simp [hne, Prog.asks], hu, hempty hne⟩
    · obtain ⟨n, t₂, hrun, hs₂, -, hn⟩ := hs'.fetchPart (hw' hne)
      refine ⟨iteratorAt C n q t₂, q, w', ?_, hu, hs₂, _, [], (List.append_nil _).symm,
        ⟨w', q, hn, ⟨Arrays.fits_alloc_self _ _, Arrays.read_alloc_self _ _⟩, ?_, ?_⟩, by simp, rfl⟩
      · dsimp only
        rw [if_neg fun h => hne (NodeCodec.treeHash_eq_nil_iff.1 h), bind_of_ok hrun]
        rfl
      · dsimp only [iteratorAt]
        rw [hn.node, entriesFrom_first hn.part.wf]
        rfl
      · simp [Tree.entries, Tree.under, Tree.entries_eq_nil_iff hn.part.wf, hne]
  · have hfound : (Prog.attempt (getSubTrieWithMaxCommonPrefix C start) : TrieM _) t =
        (.ok (.error .notFound), t') := by
      rw [Prog.attempt, getSubTrieWithMaxCommonPrefix, read_bind, hget]
    rw [bind_of_ok hfound]
    exact ⟨_, q, w', rfl, hu, hempty hnil⟩

/-- **Iteration is exact and ordered.**  After any `Put`s, `Get`s and `Delete`s of present keys
on an unprepared trie, the loop over an iterator sees exactly the stored entries whose keys
start with the prefix, in strictly increasing order of their keys, and ends without an error;
`Keys` returns their keys. -/
theorem iteration_exact_and_ordered (C : NodeCodec) {s : Storage} (hs : NodeStorage C s)
    {ops : List TrieOp} (hops : DeletesPresent ops fun _ => none) (start : Bytes) :
    let t := runOps C ops (ofRoot [] s)
    ∃ kvs : List (Bytes × Bytes),
      (∀ k v, (k, v) ∈ kvs ↔ (Trie.get C k t).1 = .ok v ∧ start <+: k) ∧
      (kvs.Pairwise fun a b => a.1 < b.1) ∧
      ∃ N, ∀ fuel, N ≤ fuel →
        iterate C (fun it => (it.getKey, it.value)) fuel start t = .ok kvs ∧
        keys C fuel start t = .ok (kvs.map Prod.fst) := by
  intro t
  obtain ⟨u, hu, -⟩ := hs.stores_empty.runOps rfl hops
  obtain ⟨it, q, w', hit, hunder, hrem⟩ := iterator_opens hu start
  have hmem : ∀ {r v}, (r, v) ∈ (Tree.ext q w').entries ↔
      u.get r = some v ∧ keyToRoute start <+: r := Tree.mem_entries.trans (hunder _ _)
  -- Every route with a value is the route of a key, so the entries are those of keys.
  have hrange : (Tree.ext q w').entries ∈ Set.range (List.map (Prod.map keyToRoute id)) := by
    rw [Set.range_list_map]
    rintro ⟨r, v⟩ h
    obtain ⟨k, rfl⟩ := hu.keys r v (hmem.1 h).1
    exact ⟨(k, v), rfl⟩
  obtain ⟨kvs, hkvs⟩ := hrange
  refine ⟨kvs, fun k v => ?_, ?_, (kvs.map fun kv => (keyToRoute kv.1).length + 2).sum +
    kvs.length + 1, fun fuel hfuel => ?_⟩
  · have hinj := keyToRoute_injective.prodMap (Function.injective_id (α := Bytes))
    rw [← List.mem_map_of_injective hinj, hkvs, Prod.map_apply, id, hmem, keyToRoute_prefix_iff,
      hu.shows k]
    simp only [treeContents]
    cases u.get (keyToRoute k) <;> simp [lookupResult]
  · have hsorted := Tree.sorted_entries (Tree.ext q w')
    rw [← hkvs, List.pairwise_map] at hsorted
    exact hsorted.imp fun h => lt_of_keyToRoute_lt h
  · rw [← hkvs] at hrem
    have hlen : ∀ kv ∈ kvs, (keyToRoute kv.1).length + 2 ≤ fuel := fun kv hkv => by
      have := List.le_sum_of_mem (List.mem_map_of_mem
        (f := fun kv : Bytes × Bytes => (keyToRoute kv.1).length + 2) hkv)
      omega
    have hsteps : kvs.length < fuel := by omega
    simp only [keys, iterate, show (iterator C start t).1 = .ok it from hit]
    refine ⟨?_, Iterator.forEachNext_eq (fun it k v h => h.getKey) hrem hlen hsteps⟩
    rw [Iterator.forEachNext_eq (g := id) (fun it k v h => ?_) hrem hlen hsteps, List.map_id]
    rw [h.getKey, h.1]
    rfl

/-- The keys under a prefix that ends inside an extension. -/
theorem keys_under_prefix :
    let ops : List TrieOp := [.put [0x10, 0x21] [1], .put [0x10, 0x2f] [2], .put [0x20] [3]]
    let t := runOps .plain ops (ofRoot [] fun _ => none)
    NodeStorage .plain (fun _ => none) ∧ DeletesPresent ops (fun _ => none) ∧
      ∃ (kvs : List (Bytes × Bytes)) (N : ℕ), ([0x10, 0x2f], [2]) ∈ kvs ∧
        keys .plain N [0x10] t = .ok (kvs.map Prod.fst) := by
  intro ops t
  have hs := nodeStorage_empty .plain
  have hops : DeletesPresent ops (fun _ => none) := by
    simp [ops, DeletesPresent]
  obtain ⟨kvs, hmem, -, N, hrun⟩ := iteration_exact_and_ordered .plain hs hops [0x10]
  exact ⟨hs, hops, kvs, N, (hmem _ _).2 ⟨by decide +kernel, by decide⟩, (hrun N le_rfl).2⟩

end GoMedibloc
