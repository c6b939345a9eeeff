import GoMedibloc.Trie.FiniteMap

/-!
# The root hash is canonical

The root of a trie is a function of its contents, and an injective one: two unprepared tries
that start empty and go through any operations, each `Delete` of a key that is present, have
the same root exactly when they have the same contents (`root_eq_iff`).

The reason is a normal form.  `NormalForm` states it on the nodes as they lie in the storage:
no extension leads to an extension, every branch has two occupied slots, and the last slot
of a branch leads to a value.  An abstract tree in normal form is determined by its contents
(`Tree.eq_of_get_eq`), and every operation keeps it.
-/

namespace GoMedibloc

open Prog Radix Trie

/-- The node that the storage holds under a hash. -/
def nodeAt (C : NodeCodec) (s : Storage) (x : Hash) : Option Node := (s x).bind C.unmarshal

/-- The hash lies at or below a root. -/
inductive Below (C : NodeCodec) (s : Storage) (root : Hash) : Hash → Prop
  | root (h : root ≠ []) : Below C s root root
  | slot {x : Hash} {slots : Fin 17 → Hash} (h : Below C s root x)
      (hx : nodeAt C s x = some (.branch slots)) (i : Fin 17) (hi : slots i ≠ []) :
      Below C s root (slots i)
  | next {x y : Hash} {path : Route} (h : Below C s root x)
      (hx : nodeAt C s x = some (.ext path y)) : Below C s root y

/-- The stored nodes below a root are in normal form. -/
structure NormalForm (C : NodeCodec) (s : Storage) (root : Hash) : Prop where
  stored : ∀ x, Below C s root x → ∃ n, nodeAt C s x = some n
  ext : ∀ x path next, Below C s root x → nodeAt C s x = some (.ext path next) →
    path ≠ [] ∧ ∀ path' next', nodeAt C s next ≠ some (.ext path' next')
  branch : ∀ x slots, Below C s root x → nodeAt C s x = some (.branch slots) →
    2 ≤ (occupiedSlots (.branch slots)).length
  value : ∀ x slots, Below C s root x → nodeAt C s x = some (.branch slots) → slots 16 ≠ [] →
    ∃ v, nodeAt C s (slots 16) = some (.val v)

variable {C : NodeCodec} {u w : PatriciaTree} {t : Trie}

/-! ## The stored nodes of a tree -/

/-- A tree that is part of another one, with its nodes counted. -/
structure PartOf (C : NodeCodec) (w u : PatriciaTree) : Prop where
  ne_nil : w ≠ .nil
  wf : w.WF
  occ_le : ∀ x, C.occ x w ≤ C.occ x u

lemma PartOf.next {p : Route} (h : PartOf C (.ext p w) u) : PartOf C w u where
  ne_nil := Tree.isSolid_ne_nil h.wf.2.1
  wf := h.wf.2.2
  occ_le := fun x => (NodeCodec.occ_ext_le x p w).trans (h.occ_le x)

lemma PartOf.kid {v : Option Bytes} {kids : Fin 16 → PatriciaTree}
    (h : PartOf C (.branch v kids) u) {i : Fin 16} (hi : kids i ≠ .nil) : PartOf C (kids i) u where
  ne_nil := hi
  wf := h.wf.2 i
  occ_le := fun x => (NodeCodec.occ_kid_le x v kids i).trans (h.occ_le x)

lemma PartOf.value {v : Bytes} {kids : Fin 16 → PatriciaTree}
    (h : PartOf C (.branch (some v) kids) u) : PartOf C (.leaf v) u where
  ne_nil := by simp
  wf := trivial
  occ_le := fun x => (NodeCodec.occ_value_le x v kids).trans (h.occ_le x)

/-- An unprepared trie has all nodes of its tree in the storage. -/
lemma Trie.Stores.nodeAt (hs : Stores C u t) (hp : t.prepared = false) (h : PartOf C w u) :
    nodeAt C t.storage (C.treeHash w) = some (C.treeNode w) := by
  have hpos := (NodeCodec.occ_self_pos (C := C) h.ne_nil).trans_le (h.occ_le _)
  have hstored : (t.storage (C.treeHash w)).isSome := by
    rcases hs.holds.kept (C.treeHash w) with h0 | hsome | ⟨temp, he, -⟩
    · omega
    · exact hsome
    · rw [hs.holds.good.idle hp] at he
      cases he
  obtain ⟨b, hb⟩ := Option.isSome_iff_exists.1 hstored
  have hmarshal : b = C.marshal (C.treeNode w) := by
    refine hs.holds.good.intact _ b ?_
    rwa [← NodeCodec.treeHash_eq h.ne_nil]
  rw [GoMedibloc.nodeAt, hb, Option.bind_some, hmarshal, C.unmarshal_marshal]

/-- The hashes below the root of a tree are those of its parts. -/
lemma Trie.Stores.partOf_of_below (hs : Stores C u t) (hp : t.prepared = false) {x : Hash}
    (hx : Below C t.storage t.rootHash x) : ∃ w, PartOf C w u ∧ x = C.treeHash w := by
  induction hx with
  | root h =>
      rw [hs.root] at h ⊢
      exact ⟨u, ⟨fun hnil => h (NodeCodec.treeHash_eq_nil_iff.2 hnil), hs.wf, fun _ => le_rfl⟩, rfl⟩
  | slot h hx i hi ih =>
      obtain ⟨w, hw, rfl⟩ := ih
      rw [hs.nodeAt hp hw] at hx
      cases w with
      | nil => exact absurd rfl hw.ne_nil
      | leaf v => cases hx
      | ext p w => cases hx
      | branch v kids =>
          cases hx
          rcases slot_cases i with ⟨j, rfl⟩ | rfl
          · rw [branchSlots_castSucc] at hi ⊢
            exact ⟨kids j, hw.kid fun hnil => hi (NodeCodec.treeHash_eq_nil_iff.2 hnil), rfl⟩
          · rw [branchSlots_value] at hi ⊢
            cases v with
            | none => exact absurd rfl hi
            | some v => exact ⟨.leaf v, hw.value, rfl⟩
  | next h hx ih =>
      obtain ⟨w, hw, rfl⟩ := ih
      rw [hs.nodeAt hp hw] at hx
      cases w with
      | nil => exact absurd rfl hw.ne_nil
      | leaf v => cases hx
      | branch v kids => cases hx
      | ext p w =>
          cases hx
          exact ⟨w, hw.next, rfl⟩

/-- The stored nodes of a tree in normal form are in normal form. -/
lemma Trie.Stores.normalForm (hs : Stores C u t) (hp : t.prepared = false) :
    NormalForm C t.storage t.rootHash where
  stored := by
    intro x hx
    obtain ⟨w, hw, rfl⟩ := hs.partOf_of_below hp hx
    exact ⟨_, hs.nodeAt hp hw⟩
  ext := by
    intro x path next hx hnode
    obtain ⟨w, hw, rfl⟩ := hs.partOf_of_below hp hx
    rw [hs.nodeAt hp hw] at hnode
    cases w with
    | nil => exact absurd rfl hw.ne_nil
    | leaf v => cases hnode
    | branch v kids => cases hnode
    | ext p w =>
        cases hnode
        refine ⟨hw.wf.1, fun path' next' hext => ?_⟩
        have hsolid := hw.wf.2.1
        rw [hs.nodeAt hp hw.next] at hext
        cases w <;> cases hext
        cases hsolid
  branch := by
    intro x slots hx hnode
    obtain ⟨w, hw, rfl⟩ := hs.partOf_of_below hp hx
    rw [hs.nodeAt hp hw] at hnode
    cases w with
    | nil => exact absurd rfl hw.ne_nil
    | leaf v => cases hnode
    | ext p w => cases hnode
    | branch v kids =>
        cases hnode
        have hlen := length_occupiedSlots (C := C) v kids
        simp only [NodeCodec.treeNode] at hlen
        rw [hlen]
        exact hw.wf.1
  value := by
    intro x slots hx hnode h16
    obtain ⟨w, hw, rfl⟩ := hs.partOf_of_below hp hx
    rw [hs.nodeAt hp hw] at hnode
    cases w with
    | nil => exact absurd rfl hw.ne_nil
    | leaf v => cases hnode
    | ext p w => cases hnode
    | branch v kids =>
        cases hnode
        rw [branchSlots_value] at h16 ⊢
        cases v with
        | none => exact absurd rfl h16
        | some v => exact ⟨v, hs.nodeAt hp hw.value⟩

/-! ## Runs -/

/-- Every `Delete` of the run is of a key that is present at that moment. -/
def DeletesPresent : List TrieOp → Contents → Prop
  | [], _ => True
  | op :: ops, m => (∀ key, op = .delete key → m key ≠ none) ∧ DeletesPresent ops (op.apply m)

/-- The trie after a run. -/
def runOps (C : NodeCodec) (ops : List TrieOp) (t : Trie) : Trie :=
  ops.foldl (fun t op => (op.run C t).2) t

/-- A present key swallows nothing. -/
lemma not_swallowing_of_present {m : Contents} {op : TrieOp}
    (h : ∀ key, op = .delete key → m key ≠ none) : ¬ op.Swallowing m := by
  cases op with
  | put key value => exact id
  | get key => exact id
  | delete key =>
      rintro ⟨p, hpre, hne, -, hmax⟩
      exact h key rfl (hmax key hpre hne.symm)

/-- A run keeps an unprepared trie at the root of a tree in normal form. -/
lemma Trie.Stores.runOps (hs : Stores C u t) (hp : t.prepared = false) {ops : List TrieOp}
    (hops : DeletesPresent ops (treeContents u)) :
    ∃ u', Stores C u' (runOps C ops t) ∧ (runOps C ops t).prepared = false := by
  induction ops generalizing u t with
  | nil => exact ⟨u, hs, hp⟩
  | cons op ops ih =>
      obtain ⟨u', -, hb, hm, -⟩ := TrieOp.run_unprepared hs hp op (not_swallowing_of_present hops.1)
      exact ih hb.stores (hb.prepared.trans hp) (by rw [hm]; exact hops.2)

/-- Tries show the same contents exactly when their trees are the same. -/
lemma Trie.Stores.get_eq_iff {t' : Trie} (hs : Stores C u t) (hs' : Stores C w t') :
    (∀ key, (Trie.get C key t).1 = (Trie.get C key t').1) ↔ t.rootHash = t'.rootHash := by
  rw [hs.root, hs'.root]
  constructor
  · intro h
    rw [eq_of_treeContents_eq hs.wf hs'.wf hs.keys hs'.keys]
    funext key
    have hkey := h key
    rw [hs.shows key, hs'.shows key] at hkey
    cases ha : treeContents u key <;> cases hb : treeContents w key <;>
      simp [ha, hb, lookupResult] at hkey ⊢
    exact hkey
  · intro h key
    rw [hs.shows key, hs'.shows key, NodeCodec.treeHash_injective h]

/-- **The root hash is canonical.**  Two unprepared tries that start empty and whose `Delete`s
are of present keys have the same root exactly when they have the same contents.  Each has its
nodes in normal form, and an empty one has no root. -/
theorem root_eq_iff (C : NodeCodec) {s s' : Storage} (hs : NodeStorage C s)
    (hs' : NodeStorage C s') {ops ops' : List TrieOp} (hops : DeletesPresent ops fun _ => none)
    (hops' : DeletesPresent ops' fun _ => none) :
    let t := runOps C ops (ofRoot [] s)
    let t' := runOps C ops' (ofRoot [] s')
    ((∀ key, (Trie.get C key t).1 = (Trie.get C key t').1) ↔ t.rootHash = t'.rootHash) ∧
      NormalForm C t.storage t.rootHash ∧
      ((∀ key, (Trie.get C key t).1 = .error .notFound) → t.rootHash = []) := by
  intro t t'
  obtain ⟨u, hu, hp⟩ := hs.stores_empty.runOps rfl hops
  obtain ⟨w, hw, -⟩ := hs'.stores_empty.runOps rfl hops'
  refine ⟨hu.get_eq_iff hw, hu.normalForm hp, fun hempty => ?_⟩
  have hnil := hs.stores_empty
  refine (hu.get_eq_iff hnil).1 fun key => ?_
  rw [hnil.shows key]
  exact hempty key

/-- Entries put in two orders, with one more put and deleted on the way, give one root; then
every key has the same value. -/
theorem get_eq_of_two_orders :
    let ops : List TrieOp := [.put [0x10] [1], .put [0x11] [2], .put [] [3]]
    let ops' : List TrieOp := [.put [] [3], .put [0x11] [2], .put [0x1f] [4], .put [0x10] [1],
      .delete [0x1f]]
    NodeStorage .plain (fun _ => none) ∧ DeletesPresent ops (fun _ => none) ∧
      DeletesPresent ops' (fun _ => none) ∧
      ∀ key, (Trie.get .plain key (runOps .plain ops (ofRoot [] fun _ => none))).1 =
        (Trie.get .plain key (runOps .plain ops' (ofRoot [] fun _ => none))).1 := by
  intro ops ops'
  have hops : DeletesPresent ops (fun _ => none) := by
    simp [ops, DeletesPresent]
  have hops' : DeletesPresent ops' (fun _ => none) := by
    simp [ops', DeletesPresent, TrieOp.apply]
  have hs := nodeStorage_empty .plain
  exact ⟨hs, hops, hops', (root_eq_iff .plain hs hs hops hops').1.2 (by decide +kernel)⟩

end GoMedibloc
