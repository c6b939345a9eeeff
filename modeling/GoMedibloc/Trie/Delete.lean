import GoMedibloc.Trie.Collapse

/-!
# Delete

`delete` on the hash of a tree removes the value in which the walk along the route ends and
returns the hash of the tree that is left (`delete_returns`); when the walk ends in no value
it fails with `ErrNotFound` and has done nothing but load nodes (`delete_fails`).

In a prepared trie the first statement has conditions on the cache as it is before the
operation (`CanCut`).  Two are those of putting a value, about the nodes that are saved and
about those whose objects change.  Two more come from how `delete` restores the normal form.

* A branch that is left with one child is given up without being saved again: `Unshared`
  says that no other entry holds its object.
* Merging two extensions appends to the path of the upper one, in place when there is room:
  `Apart` says that no live path is overwritten.
-/

namespace GoMedibloc

open Prog Radix

namespace Trie

variable {C : NodeCodec} {L : NodePtr → Prop} {M : Set Hash} {t t' t'' : Trie}
  {c d k : Hash → ℕ} {u u' : PatriciaTree} {r : Route}

/-! ## The nodes of a deletion -/

/-- What changes when a branch collapses is not larger than the branch. -/
lemma size_le_of_collapseChanged {old w : PatriciaTree} {v : Option Bytes}
    {kids : Fin 16 → PatriciaTree} (h : w ∈ collapseChanged old v kids)
    (hold : (Tree.branch v kids).size ≤ old.size) : w.size ≤ old.size := by
  rcases List.mem_cons.1 h with rfl | h
  · exact le_rfl
  · split at h
    · next j _ _ =>
        have hw : w = kids j := by
          cases hk : kids j <;> simp [prependChanged, hk] at h
          exact h
        rw [hw]
        exact (Tree.size_kid_lt _ kids j).le.trans hold
    · simp at h

/-- Every node whose object is changed is not larger than the tree. -/
lemma size_le_of_cutChanged {w : PatriciaTree} (h : w ∈ cutChanged u r) : w.size ≤ u.size := by
  induction u generalizing r with
  | nil => simp [cutChanged] at h
  | leaf v => simp [cutChanged] at h
  | ext p u ih =>
      by_cases hp : p <+: r
      · simp only [cutChanged, hp, if_true, List.mem_append] at h
        rcases h with h | h
        · exact (ih h).trans (Tree.size_ext_lt p u).le
        · split at h
          · simp at h
          · simp at h
          · next q w' hcut =>
              rw [List.mem_singleton.1 h]
              exact (Tree.size_cut_le hcut).trans (Tree.size_ext_lt p u).le
          · rw [List.mem_singleton.1 h]
      · simp [cutChanged, hp] at h
  | branch v kids ih =>
      cases r with
      | nil =>
          have hsize : (Tree.branch none kids).size ≤ (Tree.branch v kids).size := by
            simp [Tree.size]
          exact size_le_of_collapseChanged h hsize
      | cons i r =>
          simp only [cutChanged, List.mem_append] at h
          rcases h with h | h
          · exact (ih i h).trans (Tree.size_kid_lt v kids i).le
          · split at h
            · simp at h
            · next u hcut =>
                exact size_le_of_collapseChanged h (Tree.size_update_le v (Tree.size_cut_le hcut))

/-- No object of a larger tree is changed. -/
lemma notMem_cutChanged {w : PatriciaTree} (h : u.size < w.size) :
    C.treeHash w ∉ hashes C (cutChanged u r) := by
  rintro ⟨old, hold, heq⟩
  have := size_le_of_cutChanged hold
  rw [← NodeCodec.treeHash_injective heq] at this
  omega

/-- Removing the last value of a subtree saves, changes and merges nothing. -/
lemma cut_nil_trivial (hwf : u.WF) (hcut : u.cut r = some .nil) :
    cutSaves u r = [] ∧ cutChanged u r = [] ∧ cutMerge u r = none := by
  rcases eq_of_cut_eq_nil hwf hcut with ⟨v, rfl⟩ | ⟨p, v, r', rfl, rfl⟩
  · simp [cutSaves, cutChanged, cutMerge]
  · simp [cutSaves, cutChanged, cutMerge, Tree.cut]

/-- A branch saves its place as what is left of it. -/
lemma node_of_mem_collapseSaves {old : PatriciaTree} {v : Option Bytes}
    {kids : Fin 16 → PatriciaTree} {s : Save} (h : s ∈ collapseSaves old v kids) :
    s.node = Tree.collapse v kids := by
  rcases hl : Tree.occupied kids with _ | ⟨j, _ | ⟨j', l⟩⟩
  · simp [collapseSaves, hl] at h
  · cases v <;> simp only [collapseSaves, hl, List.mem_singleton] at h <;>
      simp [h, Tree.collapse, hl, Save.new]
  · simp only [collapseSaves, hl, List.mem_singleton] at h
    simp [h, Tree.collapse, hl]

/-- A branch that collapses to an extension was left with one child. -/
lemma eq_of_collapse_eq_ext {v : Option Bytes} {kids : Fin 16 → PatriciaTree} {q : Route}
    {w : PatriciaTree} (h : Tree.collapse v kids = .ext q w) :
    v = none ∧ ∃ j, Tree.occupied kids = [j] ∧ Tree.prepend [j] (kids j) = .ext q w := by
  rcases hl : Tree.occupied kids with _ | ⟨j, _ | ⟨j', l⟩⟩
  · cases v <;> simp [Tree.collapse, hl] at h
  · cases v with
    | none => exact ⟨rfl, j, rfl, by simpa [Tree.collapse, hl] using h⟩
    | some a => simp [Tree.collapse, hl] at h
  · simp [Tree.collapse, hl] at h

/-- What a branch that collapses to an extension saves and changes. -/
lemma collapse_ext_trivial {v v' : Option Bytes} {kids kids' : Fin 16 → PatriciaTree} {q : Route}
    {w : PatriciaTree} (h : Tree.collapse v' kids' = .ext q w) :
    (∀ s ∈ collapseSaves (.branch v kids) v' kids', s.into = none) ∧
      ∀ u ∈ collapseChanged (.branch v kids) v' kids', ∀ p, u ≠ .ext (p ++ q) w := by
  obtain ⟨rfl, j, hl, hpre⟩ := eq_of_collapse_eq_ext h
  constructor
  · intro s hs
    simp only [collapseSaves, hl, List.mem_singleton] at hs
    rw [hs]
    rfl
  · intro u hu p heq
    simp only [collapseChanged, hl, List.mem_cons] at hu
    rcases hu with rfl | hu
    · cases heq
    · cases hk : kids' j <;> simp only [hk, prependChanged, List.not_mem_nil] at hu
      rw [List.mem_singleton.1 hu] at heq
      rw [hk] at hpre
      cases hpre
      have := congrArg List.length (Tree.ext.inj heq).1
      simp at this
      omega

/-- When the branch below an extension collapses to an extension, nothing further down was
merged, and no node that is changed is the merged extension. -/
lemma cut_ext_trivial {v : Option Bytes} {kids : Fin 16 → PatriciaTree} {q : Route}
    {w : PatriciaTree} (hwf : (Tree.branch v kids).WF)
    (hcut : (Tree.branch v kids).cut r = some (.ext q w)) :
    cutMerge (.branch v kids) r = none ∧ (∀ s ∈ cutSaves (.branch v kids) r, s.into = none) ∧
      ∀ u ∈ cutChanged (.branch v kids) r, ∀ p, u ≠ .ext (p ++ q) w := by
  cases r with
  | nil =>
      simp only [Tree.cut, Option.map_eq_some_iff] at hcut
      obtain ⟨a, rfl, hcut⟩ := hcut
      exact ⟨rfl, collapse_ext_trivial hcut⟩
  | cons i r =>
      simp only [Tree.cut, Option.map_eq_some_iff] at hcut
      obtain ⟨u, hu, hcut⟩ := hcut
      have hi : kids i ≠ .nil := by
        intro hnil
        rw [hnil] at hu
        cases hu
      -- Otherwise two slots would be left.
      have hnil : u = .nil := by
        by_contra hne
        have htwo : 2 ≤ slotCount v (Function.update kids i u) := by
          rw [slotCount_update hi hne]
          exact hwf.1
        rw [collapse_of_two_le htwo] at hcut
        cases hcut
      subst hnil
      obtain ⟨hs, hc, hm⟩ := cut_nil_trivial (hwf.2 i) hu
      simp only [cutMerge, cutSaves, cutChanged, hs, hc, hm, hu, List.nil_append]
      exact ⟨trivial, collapse_ext_trivial hcut⟩

/-! ## What a deletion needs and achieves -/

/-- What a deletion needs of the state: the tree is held, and the conditions on the cache of
a prepared trie hold. -/
structure CanCut (C : NodeCodec) (L : NodePtr → Prop) (k : Hash → ℕ) (u : PatriciaTree)
    (r : Route) (t : Trie) : Prop where
  holds : Holds C L k u t
  saves : ∀ s ∈ cutSaves u r, SaveOk C t s
  keeps : t.prepared = true → ∀ s ∈ cutSaves u r, s.into ≠ none →
    C.treeHash s.node ∉ hashes C (cutChanged u r)
  apart : Apart C L t (cutMerge u r)
  unshared : Unshared C t (cutCollapse u r)

/-- What a deletion that leaves the tree `u'` achieves. -/
structure Removed (C : NodeCodec) (L : NodePtr → Prop) (k : Hash → ℕ) (u : PatriciaTree)
    (r : Route) (u' : PatriciaTree) (t : Trie) (x : Hash) (t' : Trie) : Prop where
  hash : x = C.treeHash u'
  reached : Reached C L (fun y => k y + C.occ y u') (hashes C (cutChanged u r)) t t'
  root : Fresh C t' (C.treeHash u')
  into : ∀ s ∈ cutSaves u r, s.into ≠ none → Fresh C t' (C.treeHash s.node)
  unwritten : cutMerge u r = none → Unwritten t t'

lemma Unshared.loads {o : Option PatriciaTree} (h : Unshared C t o) (hsound : Sound t)
    (hl : Loads C t t') : Unshared C t' o := by
  intro u ho temp he x temp' he' hs hnode
  rcases hl.new_entry x temp' he' with he' | ⟨-, hsaved, -⟩
  · rcases hl.new_entry _ temp he with he | ⟨hle, -, -⟩
    · exact h u ho temp he x temp' he' hs hnode
    · have hlt := hsound.allocated x temp' he'
      rw [hnode] at hlt
      exact absurd hlt (Nat.not_lt.2 hle)
  · rw [hs] at hsaved
    cases hsaved

/-- Removing the last value. -/
lemma Emptied.removed {x : Hash} (h : Emptied C L k t x t') (hwf : u.WF)
    (hcut : u.cut r = some .nil) : Removed C L k u r .nil t x t' := by
  obtain ⟨hs, hc, -⟩ := cut_nil_trivial hwf hcut
  obtain ⟨rfl, hr, hd⟩ := h
  refine ⟨rfl, ?_, fun temp he => ?_, by simp [hs], fun _ => hd.unwritten⟩
  · rw [hc, hashes_nil]
    exact hr.congr fun y => by simp [NodeCodec.occ]
  · rw [NodeCodec.treeHash, hr.good.no_empty_entry] at he
    cases he

/-! ## Deleting below a branch -/

lemma keeps_unwritten_collapseBranch (t : Trie) (n : NodePtr) :
    Keeps (Unwritten t) (collapseBranch C n) := by
  refine (keeps_read _).bind fun t₁ => (keeps_unwritten_fetchNode t _).bind fun p =>
    (keeps_read _).bind fun t₂ => ?_
  split
  · exact keeps_unwritten_saveNew t _
  · exact (keeps_unwritten_deprecateNode t _).bind fun _ => keeps_unwritten_newPath t p _ _
  · split_ifs
    · exact keeps_pure _ _
    · exact keeps_unwritten_saveNew t _

lemma keeps_unwritten_deleteBranch (t : Trie) (y : Hash) (n : NodePtr) (i : Fin 17) (w : Hash) :
    Keeps (Unwritten t) (deleteBranch C y n i w) := by
  refine (keeps_unwritten_modifyNode t n fun b s next hb => ?_).bind fun _ =>
    (keeps_read _).bind fun t₁ => (keeps_unwritten_deprecateNode t y).bind fun _ => ?_
  · cases b with
    | branch slots => cases hb
    | ext s' next' =>
        cases hb
        exact ⟨next, rfl⟩
    | val value => cases hb
  · split_ifs
    · exact keeps_unwritten_collapseBranch t n
    · exact keeps_unwritten_saveNode t n

section Branch

variable {v v' : Option Bytes} {kids kids' : Fin 16 → PatriciaTree} {n : NodePtr} {i : Fin 17}
  {w : Hash} {t₁ t₂ : Trie}

/-- A slot of the branch has been emptied. -/
lemma deleteBranch_emptied (hh : Holds C L k (.branch v kids) t)
    (hn : Fetched C L (.branch v kids) t n t₁)
    (hun : slotCount v' kids' < 2 → Unshared C t (some (.branch v kids)))
    (h : Reached C L (fun x => k x + one (C.treeHash (.branch v kids)) x + slotOcc C v' kids' x)
      ∅ t₁ t₂) (hd : Drops t₁ t₂)
    (hset : (C.treeNode (.branch v kids)).setSlot i w = C.treeNode (.branch v' kids'))
    (hpos : 1 ≤ slotCount v' kids') (hsub : ∀ x, slotOcc C v' kids' x ≤ slotOcc C v kids x)
    (hsaves : ∀ s ∈ collapseSaves (.branch v kids) v' kids', SaveOk C t s) :
    Returns (deleteBranch C (C.treeHash (.branch v kids)) n i w) t₂ fun x t₃ =>
      (x = C.treeHash (Tree.collapse v' kids') ∧
        Reached C L (fun x => k x + C.occ x (Tree.collapse v' kids'))
          (hashes C (collapseChanged (.branch v kids) v' kids')) t₁ t₃ ∧
        Fresh C t₃ (C.treeHash (Tree.collapse v' kids'))) ∧ Unwritten t₁ t₃ := by
  refine Returns.and_keeps ?_ (keeps_unwritten_deleteBranch t₁ _ n i w) hd.unwritten
  by_cases htwo : 2 ≤ slotCount v' kids'
  · obtain ⟨hr2, -, hnode2⟩ := h.evolves.right hn.live hn.lt hn.right (by simp)
    rw [collapse_of_two_le htwo, collapseChanged_of_two_le _ htwo, hashes_singleton]
    rw [collapseSaves_of_two_le _ htwo] at hsaves
    have hown := (hsaves _ (List.mem_singleton_self _)).freshOrOwn hh.good hn
    have h' := h.deleteBranch (hn.lt.trans_le h.evolves.ptr_le) hn.live hr2
      (hnode2.trans hn.node) hset htwo (h.freshOrOwn hn.good (by simp) hown) fun x => rfl
    rwa [Set.empty_union] at h'
  · exact deleteBranch_collapse hh hn (hun (by omega)) h hd hset (by omega) hsub hsaves

/-- Deleting the value of a branch. -/
lemma delete_branch_nil {a : Bytes} (hwf : (Tree.branch (some a) kids).WF)
    (h : CanCut C L k (.branch (some a) kids) [] t) (fuel : ℕ) :
    Returns (delete C (fuel + 2) (C.treeHash (.branch (some a) kids)) []) t
      (Removed C L k (.branch (some a) kids) [] (Tree.collapse none kids) t) := by
  refine Returns.bind (h.holds.fetch (by simp)) ?_
  intro n t₁ hn
  have h1 := h.holds.reached hn
  have hsub : Holds C L (fun x => k x + one (C.treeHash (.branch (some a) kids)) x +
      slotOcc C none kids x) (.leaf a) t₁ :=
    (h.holds.loads hn.good hn.loads).sub
      (fun x => by rw [occ_branch_eq_slotOcc, slotOcc, slotOcc]; simp; omega)
      fun x => NodeCodec.occ_value_le x a kids
  rw [returns_read_bind, hn.node]
  simp only [NodeCodec.treeNode, branchSlots_value]
  refine Returns.bind (delete_leaf hsub fuel []) ?_
  rintro _ t₂ ⟨rfl, h2, hd2⟩
  have hcount := slotCount_none a kids
  have htwo : 2 ≤ slotCount (some a) kids := hwf.1
  have hset : (C.treeNode (.branch (some a) kids)).setSlot 16 [] =
      C.treeNode (.branch none kids) := by
    simp only [NodeCodec.treeNode, Node.setSlot, update_branchSlots_value]
    rfl
  refine (deleteBranch_emptied h.holds hn (fun hlt => ?_) h2 hd2 hset
    (by omega) (fun x => by simp [slotOcc]) fun s hs => h.saves s hs).mono ?_
  · simpa [cutCollapse, hlt] using h.unshared
  · rintro x t₃ ⟨⟨hx, h3, hf3⟩, hu3⟩
    refine ⟨hx, (h1.trans h3).mono (by simp [cutChanged]), hf3, fun s hs _ => ?_,
      fun _ => hn.loads.unwritten.trans hu3⟩
    rw [node_of_mem_collapseSaves hs]
    exact hf3

/-- The references from the slots beside one child. -/
lemma slotOcc_eq_besideKid (x : Hash) (i : Fin 16) :
    slotOcc C v kids x = besideKid C v kids i x + C.occ x (kids i) := by
  have h := occ_branch_eq_besideKid (C := C) x v kids i
  rw [occ_branch_eq_slotOcc] at h
  omega

lemma slotOcc_update (x : Hash) (i : Fin 16) (u : PatriciaTree) :
    slotOcc C v (Function.update kids i u) x = besideKid C v kids i x + C.occ x u := by
  have h := occ_branch_update (C := C) x v kids i u
  rw [occ_branch_eq_slotOcc] at h
  omega

lemma setSlot_kid (i : Fin 16) (u : PatriciaTree) :
    (C.treeNode (.branch v kids)).setSlot i.castSucc (C.treeHash u) =
      C.treeNode (.branch v (Function.update kids i u)) := by
  simp only [NodeCodec.treeNode, Node.setSlot, update_branchSlots_castSucc,
    NodeCodec.treeHash_update]

/-- The trie holds the child of a branch it holds. -/
lemma Holds.kid (hh : Holds C L k (.branch v kids) t) (hn : Fetched C L (.branch v kids) t n t₁)
    (i : Fin 16) : Holds C L (fun x => k x + one (C.treeHash (.branch v kids)) x +
      besideKid C v kids i x) (kids i) t₁ :=
  (hh.loads hn.good hn.loads).sub
    (fun x => by rw [occ_branch_eq_besideKid x v kids i]; omega)
    fun x => NodeCodec.occ_kid_le x v kids i

/-- Deleting the last value below a slot of a branch. -/
lemma delete_branch_emptied {i : Fin 16} (hwf : (Tree.branch v kids).WF)
    (hcut : (kids i).cut r = some .nil) (h : CanCut C L k (.branch v kids) (i :: r) t) {fuel : ℕ}
    (hfuel : r.length + 2 ≤ fuel) :
    Returns (delete C (fuel + 1) (C.treeHash (.branch v kids)) (i :: r)) t
      (Removed C L k (.branch v kids) (i :: r)
        (Tree.collapse v (Function.update kids i .nil)) t) := by
  obtain ⟨hs, hc, hm⟩ := cut_nil_trivial (hwf.2 i) hcut
  have hi : kids i ≠ .nil := by
    intro hnil
    rw [hnil] at hcut
    cases hcut
  refine Returns.bind (h.holds.fetch (by simp)) ?_
  intro n t₁ hn
  have h1 := h.holds.reached hn
  rw [returns_read_bind, hn.node]
  simp only [NodeCodec.treeNode, branchSlots_castSucc]
  refine Returns.bind (delete_emptied (hwf.2 i) hcut (h.holds.kid hn i) hfuel) ?_
  rintro _ t₂ ⟨rfl, h2, hd2⟩
  have hcount := slotCount_update_nil (v := v) hi
  have htwo : 2 ≤ slotCount v kids := hwf.1
  have hsaves : cutSaves (.branch v kids) (i :: r) =
      collapseSaves (.branch v kids) v (Function.update kids i .nil) := by
    simp [cutSaves, hs, hcut]
  have h2' : Reached C L (fun x => k x + one (C.treeHash (.branch v kids)) x +
      slotOcc C v (Function.update kids i .nil) x) ∅ t₁ t₂ :=
    h2.congr fun x => by rw [slotOcc_update, NodeCodec.occ]; omega
  refine (deleteBranch_emptied h.holds hn (fun hlt => ?_) h2' hd2 (setSlot_kid i .nil)
    (by omega) (fun x => ?_) fun s hs => h.saves s (by rwa [hsaves])).mono ?_
  · simpa [cutCollapse, hcut, hlt] using h.unshared
  · rw [slotOcc_update, slotOcc_eq_besideKid x i, NodeCodec.occ]
    omega
  · rintro x t₃ ⟨⟨hx, h3, hf3⟩, hu3⟩
    refine ⟨hx, (h1.trans h3).mono (by simp [cutChanged, hc, hcut]), hf3, fun s hs _ => ?_,
      fun _ => hn.loads.unwritten.trans hu3⟩
    rw [hsaves] at hs
    rw [node_of_mem_collapseSaves hs]
    exact hf3

/-- Deleting below a slot of a branch that stays occupied, given the recursive call. -/
lemma delete_branch_cons {i : Fin 16} (hwf : (Tree.branch v kids).WF)
    (hcut : (kids i).cut r = some u') (hne : u' ≠ .nil)
    (h : CanCut C L k (.branch v kids) (i :: r) t) {fuel : ℕ}
    (ih : ∀ {k t}, CanCut C L k (kids i) r t →
      Returns (delete C fuel (C.treeHash (kids i)) r) t (Removed C L k (kids i) r u' t)) :
    Returns (delete C (fuel + 1) (C.treeHash (.branch v kids)) (i :: r)) t
      (Removed C L k (.branch v kids) (i :: r)
        (Tree.collapse v (Function.update kids i u')) t) := by
  have hi : kids i ≠ .nil := by
    intro hnil
    rw [hnil] at hcut
    cases hcut
  have htwo : 2 ≤ slotCount v (Function.update kids i u') := by
    rw [slotCount_update hi hne]
    exact hwf.1
  have hsaves : cutSaves (.branch v kids) (i :: r) = cutSaves (kids i) r ++
      [⟨.branch v (Function.update kids i u'), some (.branch v kids)⟩] := by
    simp [cutSaves, hcut, collapseSaves_of_two_le _ htwo]
  have hchanged : hashes C (cutChanged (.branch v kids) (i :: r)) =
      hashes C (cutChanged (kids i) r) ∪ {C.treeHash (.branch v kids)} := by
    simp only [cutChanged, hcut, collapseChanged_of_two_le _ htwo, hashes_append,
      hashes_singleton]
  have hcollapse : cutCollapse (.branch v kids) (i :: r) = cutCollapse (kids i) r := by
    simp only [cutCollapse, hcut]
    cases u' <;> simp at hne ⊢
  rw [collapse_of_two_le htwo]
  refine Returns.bind (h.holds.fetch (by simp)) ?_
  intro n t₁ hn
  have h1 := h.holds.reached hn
  have hsub : CanCut C L (fun x => k x + one (C.treeHash (.branch v kids)) x +
      besideKid C v kids i x) (kids i) r t₁ :=
    { holds := h.holds.kid hn i
      saves := fun s hs => (h.saves s (by simp [hsaves, hs])).loads h.holds.good hn.loads
      keeps := by
        intro hp s hs ho hm
        refine h.keeps (hn.loads.prepared.symm.trans hp) s (by simp [hsaves, hs]) ho ?_
        rw [hchanged]
        exact .inl hm
      apart := Apart.loads (o := cutMerge (kids i) r) h.apart h.holds.good.toSound
        hn.good.toSound hn.loads
      unshared := by
        rw [← hcollapse]
        exact h.unshared.loads h.holds.good.toSound hn.loads }
  have hown : FreshOrOwn C t₁ (C.treeHash (.branch v (Function.update kids i u'))) n :=
    (h.saves ⟨_, some (.branch v kids)⟩ (by simp [hsaves])).freshOrOwn h.holds.good hn
  rw [returns_read_bind, hn.node]
  simp only [NodeCodec.treeNode, branchSlots_castSucc]
  refine Returns.bind (ih hsub) ?_
  rintro _ t₂ ⟨rfl, h2, hf2, hinto2, hu2⟩
  obtain ⟨hr2, -, hnode2⟩ := h2.evolves.right hn.live hn.lt hn.right
    (notMem_cutChanged (Tree.size_kid_lt v kids i))
  have hown2 := h2.freshOrOwn hn.good (fun hp hm => ?_) hown
  · refine (((h2.good.reached h2.kept).deleteBranch (k := k)
      (hn.lt.trans_le h2.evolves.ptr_le) hn.live hr2 (hnode2.trans hn.node) (setSlot_kid i u')
      htwo hown2 fun x => ?_).and_keeps
      ((keeps_unwritten_deleteBranch t₁ _ n _ _).imp (cutMerge (kids i) r = none)) hu2).mono ?_
    · rw [slotOcc_update]
      omega
    · rintro x t₃ ⟨⟨hx, h3, hf3⟩, hu3⟩
      rw [Set.empty_union] at h3
      refine ⟨hx, ?_, hf3, fun s hs ho => ?_, fun hm => hn.loads.unwritten.trans (hu3 hm)⟩
      · rw [hchanged]
        exact (h1.trans (h2.trans h3)).mono (by simp)
      · rw [hsaves] at hs
        rcases List.mem_append.1 hs with hs' | hs'
        · refine h3.fresh h2.good (fun hp hm => ?_) (hinto2 s hs' ho)
          refine h.keeps ?_ s (by rwa [hsaves]) ho ?_
          · rw [← hn.loads.prepared, ← h2.evolves.prepared, hp]
          · rw [hchanged]
            exact .inr hm
        · rw [List.mem_singleton.1 hs']
          exact hf3
  · refine h.keeps (hn.loads.prepared.symm.trans hp) ⟨_, some (.branch v kids)⟩
      (by rw [hsaves]; exact List.mem_append_right _ (List.mem_singleton_self _)) (by simp) ?_
    rw [hchanged]
    exact .inl hm

end Branch

/-! ## Deleting below an extension -/

section Ext

variable {p : Route} {n : NodePtr} {t₁ t₂ : Trie}

/-- The trie holds the child of an extension it holds. -/
lemma Holds.next (hh : Holds C L k (.ext p u) t) (hn : Fetched C L (.ext p u) t n t₁) :
    Holds C L (fun x => k x + one (C.treeHash (.ext p u)) x) u t₁ :=
  (hh.loads hn.good hn.loads).sub (fun x => by rw [NodeCodec.occ_ext]; omega)
    fun x => NodeCodec.occ_ext_le x p u

lemma keeps_unwritten_deleteExt (t : Trie) (y : Hash) (n : NodePtr) :
    Keeps (Unwritten t) (do
      modifyNode n (NodeBody.setNext y)
      deprecateNode (C.treeHash (.ext p u))
      saveNode C n) := by
  refine (keeps_unwritten_modifyNode t n fun b s next hb => ?_).bind fun _ =>
    (keeps_unwritten_deprecateNode t _).bind fun _ => keeps_unwritten_saveNode t n
  cases b with
  | branch slots => cases hb
  | ext s' next' =>
      cases hb
      exact ⟨next', rfl⟩
  | val value => cases hb

/-- The child of the extension is a value or a branch after the deletion. -/
lemma deleteExt_resave (hn : Fetched C L (.ext p u) t n t₁)
    (h : Reached C L (fun x => k x + one (C.treeHash (.ext p u)) x + C.occ x u') M t₁ t₂)
    (hM : C.treeHash (.ext p u) ∉ M) (hsolid : u'.isSolid = true)
    (hf : Fresh C t₂ (C.treeHash u')) (hown : FreshOrOwn C t₂ (C.treeHash (.ext p u')) n) :
    Returns (deleteExt C (C.treeHash (.ext p u)) n (C.treeHash u')) t₂ fun x t₃ =>
      (x = C.treeHash (.ext p u') ∧
        Reached C L (fun x => k x + C.occ x (.ext p u')) {C.treeHash (.ext p u)} t₂ t₃ ∧
        Fresh C t₃ (C.treeHash (.ext p u'))) ∧ Unwritten t₂ t₃ := by
  have hne : u' ≠ .nil := Tree.isSolid_ne_nil hsolid
  have hkept : Kept t₂ (C.treeHash u') (k (C.treeHash u') + 1) := by
    have hpos := NodeCodec.occ_self_pos (C := C) hne
    exact (h.kept (C.treeHash u')).mono (by omega)
  have hnil : C.treeHash u' ≠ [] := fun heq => hne (NodeCodec.treeHash_eq_nil_iff.1 heq)
  unfold deleteExt
  rw [if_neg hnil]
  refine Returns.bind (fetchNode_returns h.good hne hf hkept) ?_
  intro m t₃ hm
  have h3 := (h.good.reached h.kept).loads hm.good hm.loads
  obtain ⟨hr2, -, hnode2⟩ := h.evolves.right hn.live hn.lt hn.right hM
  have hlt := hn.lt.trans_le h.evolves.ptr_le
  obtain ⟨hr3, -, hnode3⟩ := h3.evolves.right hn.live hlt hr2 (by simp)
  have hres := h3.resaveExt (w := C.treeHash u') (z := C.treeHash (.ext p u'))
    (e := fun x => k x + C.occ x u') (d := fun x => k x + C.occ x (.ext p u'))
    (hlt.trans_le h3.evolves.ptr_le) hn.live hr3 (hnode3.trans (hnode2.trans hn.node)) rfl
    (h3.freshOrOwn h.good (by simp) hown) (fun x => by omega)
    fun x => by rw [NodeCodec.occ_ext]; omega
  have hres' := (hres.and_keeps (keeps_unwritten_deleteExt t₂ _ n) hm.loads.unwritten).mono
    (R := fun x t₃ => (x = C.treeHash (.ext p u') ∧
        Reached C L (fun x => k x + C.occ x (.ext p u')) {C.treeHash (.ext p u)} t₂ t₃ ∧
        Fresh C t₃ (C.treeHash (.ext p u'))) ∧ Unwritten t₂ t₃) (by
      rintro x t₄ ⟨⟨hx, h4, hf4⟩, hu4⟩
      refine ⟨⟨hx, h4.mono ?_, hf4⟩, hu4⟩
      rintro y (hy | ⟨rfl, -⟩)
      · exact absurd hy (Set.notMem_empty y)
      · exact rfl)
  rw [returns_read_bind, hm.node]
  cases u' with
  | nil => exact absurd rfl hne
  | ext q w => cases hsolid
  | leaf a => exact hres'
  | branch a kids => exact hres'

/-- The child of the extension is an extension after the deletion: the two are merged. -/
lemma deleteExt_merge {q : Route} {w : PatriciaTree} (hp : p ≠ [])
    (hn : Fetched C L (.ext p u) t n t₁)
    (h : Reached C L (fun x => k x + one (C.treeHash (.ext p u)) x + C.occ x (.ext q w)) M t₁ t₂)
    (hM : C.treeHash (.ext p u) ∉ M) (hu : Unwritten t₁ t₂)
    (hsafe : ∀ s next, (t₁.heap n).body = .ext s next → SafeAppend L t₁ s q)
    (hf : Fresh C t₂ (C.treeHash (.ext q w))) (hsave : Fresh C t₂ (C.treeHash (.ext (p ++ q) w))) :
    Returns (deleteExt C (C.treeHash (.ext p u)) n (C.treeHash (.ext q w))) t₂ fun x t₃ =>
      x = C.treeHash (.ext (p ++ q) w) ∧
        Reached C L (fun x => k x + C.occ x (.ext (p ++ q) w)) {C.treeHash (.ext q w)} t₂ t₃ ∧
        Fresh C t₃ (C.treeHash (.ext (p ++ q) w)) := by
  have hkept : Kept t₂ (C.treeHash (.ext q w)) (k (C.treeHash (.ext q w)) + 1) := by
    have hpos := NodeCodec.occ_self_pos (C := C) (t := .ext q w) (by simp)
    exact (h.kept (C.treeHash (.ext q w))).mono (by omega)
  unfold deleteExt
  rw [if_neg (by simp)]
  refine Returns.bind (fetchNode_returns h.good (by simp) hf hkept) ?_
  intro m t₃ hm
  rw [returns_read_bind, hm.node]
  simp only [NodeCodec.treeNode]
  -- The object of the parent, and with it its path, is as it was fetched.
  obtain ⟨s, hbody, hread⟩ := body_of_node_ext hn.node
  have hlt := hn.lt.trans_le h.evolves.ptr_le
  obtain ⟨hr2, hheap2, hnode2⟩ := h.evolves.right hn.live hn.lt hn.right hM
  obtain ⟨-, hheap3, hnode3⟩ := (hm.loads.evolves h.good).right hn.live hlt hr2 (by simp)
  have hbody3 : (t₃.heap n).body = .ext s (C.treeHash u) := by rw [hheap3, hheap2, hbody]
  have hread3 : t₃.arrays.read s = p := by
    have := hnode3.trans (hnode2.trans hn.node)
    simp only [Trie.node, hbody3, NodeBody.toNode, NodeCodec.treeNode, Node.ext.injEq] at this
    exact this.1
  have hfits1 := hn.good.fits n s _ hn.lt hbody
  have hfits3 := hm.good.fits n s _ (hlt.trans_le hm.loads.ptr_le) hbody3
  have hsafe3 : SafeAppend L t₃ s q :=
    (hsafe s _ hbody).unwritten hfits1 (hu.trans hm.loads.unwritten)
  have h3 : Reached C L (fun x => k x + C.occ x (.ext q w)) ∅ t₃ t₃ :=
    hm.good.reached fun x => (hm.loads.kept (h.kept x)).mono (by omega)
  obtain ⟨s', A, hs', h4, hfits', hread'⟩ := h3.appendSlice hfits3 hsafe3
    (C.spare ((t₃.node n).path.length + q.length))
  rw [hbody3, NodeBody.path, returns_bind_of_ok hs', returns_bind_of_ok (modifyNode_apply _ _ _)]
  set t₄ : Trie := { t₃ with arrays := A }
  obtain ⟨hr4, -, hnode4⟩ := h4.evolves.right hm.live hm.lt hm.right (by simp)
  obtain ⟨s'', hbody4, -⟩ := body_of_node_ext (hnode4.trans hm.node)
  have hne : C.treeHash (.ext q w) ≠ C.treeHash (.ext (p ++ q) w) := by
    intro heq
    have := congrArg List.length (Tree.ext.inj (NodeCodec.treeHash_injective heq)).1
    exact hp (List.length_eq_zero_iff.1 (by simpa using this))
  rw [hbody4, NodeBody.setPath]
  refine (h4.resave (z := C.treeHash (.ext (p ++ q) w)) (e := fun x => k x + C.occ x w)
    (d := fun x => k x + C.occ x (.ext (p ++ q) w)) hm.lt hm.live hr4 ?_
    (fun s'' next hb => by cases hb; exact hfits') (fun heq => absurd heq hne)
    ((h4.fresh hm.good (by simp) ?_).freshOrOwn m) (fun x => ?_) fun x => ?_).mono ?_
  · simp only [NodeBody.toNode, t₄, hread', hread3]
    rfl
  · exact (hm.loads.evolves h.good).fresh h.good (by simp) hsave
  · rw [NodeCodec.occ_ext]
    omega
  · rw [NodeCodec.occ_ext]
    omega
  · rintro x t₅ ⟨hx, h5, hf5⟩
    have h23 : Reached C L (fun x => k x + C.occ x (.ext q w)) ∅ t₂ t₃ :=
      ((h.good.reached h.kept).loads hm.good hm.loads).fewer fun x => by omega
    refine ⟨hx, (h23.trans h5).mono ?_, hf5⟩
    rintro y (hy | hy | ⟨rfl, -⟩)
    · exact absurd hy (Set.notMem_empty y)
    · exact absurd hy (Set.notMem_empty y)
    · exact rfl

/-- The recursive call below an extension meets its conditions. -/
lemma CanCut.next (h : CanCut C L k (.ext p u) (p ++ r) t) (hn : Fetched C L (.ext p u) t n t₁)
    (hs : ∀ s ∈ cutSaves u r, s ∈ cutSaves (.ext p u) (p ++ r))
    (hc : hashes C (cutChanged u r) ⊆ hashes C (cutChanged (.ext p u) (p ++ r)))
    (ha : Apart C L t (cutMerge u r)) :
    CanCut C L (fun x => k x + one (C.treeHash (.ext p u)) x) u r t₁ where
  holds := h.holds.next hn
  saves := fun s hmem => (h.saves s (hs s hmem)).loads h.holds.good hn.loads
  keeps := fun hprep s hmem ho hm =>
    h.keeps (hn.loads.prepared.symm.trans hprep) s (hs s hmem) ho (hc hm)
  apart := ha.loads h.holds.good.toSound hn.good.toSound hn.loads
  unshared := by
    have := h.unshared.loads h.holds.good.toSound hn.loads
    simpa [cutCollapse] using this

/-- Deleting below an extension that is merged, given the recursive call. -/
lemma delete_ext_merge {v : Option Bytes} {kids : Fin 16 → PatriciaTree} {q : Route}
    {w : PatriciaTree} (hp : p ≠ []) (hwf : (Tree.branch v kids).WF)
    (hcut : (Tree.branch v kids).cut r = some (.ext q w))
    (h : CanCut C L k (.ext p (.branch v kids)) (p ++ r) t) {fuel : ℕ}
    (ih : ∀ {k t}, CanCut C L k (.branch v kids) r t →
      Returns (delete C fuel (C.treeHash (.branch v kids)) r) t
        (Removed C L k (.branch v kids) r (.ext q w) t)) :
    Returns (delete C (fuel + 1) (C.treeHash (.ext p (.branch v kids))) (p ++ r)) t
      (Removed C L k (.ext p (.branch v kids)) (p ++ r) (.ext (p ++ q) w) t) := by
  have hcommon : commonLen p (p ++ r) = p.length :=
    commonLen_eq_length_iff.2 (List.prefix_append p r)
  obtain ⟨hmerge, hnone, hapart⟩ := cut_ext_trivial hwf hcut
  have hsaves : cutSaves (.ext p (.branch v kids)) (p ++ r) =
      cutSaves (.branch v kids) r ++ [.new (.ext (p ++ q) w)] := by
    simp [cutSaves, hcut]
  have hchanged : hashes C (cutChanged (.ext p (.branch v kids)) (p ++ r)) =
      hashes C (cutChanged (.branch v kids) r) ∪ {C.treeHash (.ext q w)} := by
    simp [cutChanged, hcut, hashes_append]
  have hmerge' : cutMerge (.ext p (.branch v kids)) (p ++ r) =
      some (.ext p (.branch v kids), q) := by
    simp [cutMerge, hcut]
  refine Returns.bind (h.holds.fetch (by simp)) ?_
  intro n t₁ hn
  have h1 := h.holds.reached hn
  rw [returns_read_bind, hn.node]
  simp only [NodeCodec.treeNode, hcommon, ne_eq, not_true_eq_false, if_false, List.drop_left]
  have hcan := h.next hn (fun s hs => by simp [hsaves, hs])
    (by rw [hchanged]; exact Set.subset_union_left) (by rw [hmerge]; intro _ _ ho; cases ho)
  refine Returns.bind (ih hcan) ?_
  rintro _ t₂ ⟨rfl, h2, hf2, -, hu2⟩
  have hsave1 := ((h.saves (.new (.ext (p ++ q) w)) (by simp [hsaves])).loads h.holds.good
    hn.loads).fresh
  have hsave2 : Fresh C t₂ (C.treeHash (.ext (p ++ q) w)) := by
    refine h2.fresh hn.good (fun _ hm => ?_) hsave1
    obtain ⟨old, hold, heq⟩ := hm
    exact hapart old hold p (NodeCodec.treeHash_injective heq).symm
  refine (deleteExt_merge hp hn h2 (notMem_cutChanged (Tree.size_ext_lt p _)) (hu2 hmerge)
    (fun s next hb => ?_) hf2 hsave2).mono ?_
  · have := h.apart
    rw [hmerge'] at this
    exact this.safeAppend h.holds.good hn hb
  · rintro x t₃ ⟨hx, h3, hf3⟩
    refine ⟨hx, ?_, hf3, fun s hs ho => ?_, fun hm => ?_⟩
    · rw [hchanged]
      exact (h1.trans (h2.trans h3)).mono (by simp)
    · rw [hsaves] at hs
      rcases List.mem_append.1 hs with hs | hs
      · exact absurd (hnone s hs) ho
      · rw [List.mem_singleton.1 hs] at ho
        exact absurd rfl ho
    · rw [hmerge'] at hm
      cases hm

/-- Deleting below an extension that stays, given the recursive call. -/
lemma delete_ext_resave (hsolid : u'.isSolid = true) (hcut : u.cut r = some u')
    (h : CanCut C L k (.ext p u) (p ++ r) t) {fuel : ℕ}
    (ih : ∀ {k t}, CanCut C L k u r t →
      Returns (delete C fuel (C.treeHash u) r) t (Removed C L k u r u' t)) :
    Returns (delete C (fuel + 1) (C.treeHash (.ext p u)) (p ++ r)) t
      (Removed C L k (.ext p u) (p ++ r) (.ext p u') t) := by
  have hcommon : commonLen p (p ++ r) = p.length :=
    commonLen_eq_length_iff.2 (List.prefix_append p r)
  have hsaves : cutSaves (.ext p u) (p ++ r) =
      cutSaves u r ++ [⟨.ext p u', some (.ext p u)⟩] := by
    cases u' <;> simp [cutSaves, hcut, Tree.isSolid] at hsolid ⊢
  have hchanged : hashes C (cutChanged (.ext p u) (p ++ r)) =
      hashes C (cutChanged u r) ∪ {C.treeHash (.ext p u)} := by
    cases u' <;> simp [cutChanged, hcut, hashes_append, Tree.isSolid] at hsolid ⊢
  have hmerge : cutMerge (.ext p u) (p ++ r) = cutMerge u r := by
    cases u' <;> simp [cutMerge, hcut, Tree.isSolid] at hsolid ⊢
  refine Returns.bind (h.holds.fetch (by simp)) ?_
  intro n t₁ hn
  have h1 := h.holds.reached hn
  rw [returns_read_bind, hn.node]
  simp only [NodeCodec.treeNode, hcommon, ne_eq, not_true_eq_false, if_false, List.drop_left]
  have hcan := h.next hn (fun s hs => by simp [hsaves, hs])
    (by rw [hchanged]; exact Set.subset_union_left) (by rw [← hmerge]; exact h.apart)
  refine Returns.bind (ih hcan) ?_
  rintro _ t₂ ⟨rfl, h2, hf2, hinto2, hu2⟩
  have hown : FreshOrOwn C t₁ (C.treeHash (.ext p u')) n :=
    (h.saves ⟨_, some (.ext p u)⟩ (by simp [hsaves])).freshOrOwn h.holds.good hn
  have hown2 : FreshOrOwn C t₂ (C.treeHash (.ext p u')) n := by
    refine h2.freshOrOwn hn.good (fun hprep hm => ?_) hown
    refine h.keeps (hn.loads.prepared.symm.trans hprep) ⟨_, some (.ext p u)⟩
      (by rw [hsaves]; exact List.mem_append_right _ (List.mem_singleton_self _)) (by simp) ?_
    rw [hchanged]
    exact .inl hm
  refine (deleteExt_resave hn h2 (notMem_cutChanged (Tree.size_ext_lt p u)) hsolid hf2
    hown2).mono ?_
  rintro x t₃ ⟨⟨hx, h3, hf3⟩, hu3⟩
  refine ⟨hx, ?_, hf3, fun s hs ho => ?_, fun hm => ?_⟩
  · rw [hchanged]
    exact (h1.trans (h2.trans h3)).mono (by simp)
  · rw [hsaves] at hs
    rcases List.mem_append.1 hs with hs' | hs'
    · refine h3.fresh h2.good (fun hprep hm => ?_) (hinto2 s hs' ho)
      refine h.keeps ?_ s (by rwa [hsaves]) ho ?_
      · rw [← hn.loads.prepared, ← h2.evolves.prepared, hprep]
      · rw [hchanged]
        exact .inr hm
    · rw [List.mem_singleton.1 hs']
      exact hf3
  · rw [hmerge] at hm
    exact hn.loads.unwritten.trans ((hu2 hm).trans hu3)

end Ext

/-! ## Deleting -/

/-- **Deleting a value.**  On the hash of a well-formed tree that the trie holds, `delete`
returns the hash of the tree that is left. -/
theorem delete_returns {u u' : PatriciaTree} (hwf : u.WF) {r : Route} (hcut : u.cut r = some u')
    {fuel : ℕ} (hfuel : r.length + 2 ≤ fuel) (h : CanCut C L k u r t) :
    Returns (delete C fuel (C.treeHash u) r) t (Removed C L k u r u' t) := by
  induction u generalizing fuel r k t u' with
  | nil => cases hcut
  | leaf v =>
      cases hcut
      exact (delete_emptied hwf rfl h.holds hfuel).mono fun x t' he => he.removed hwf rfl
  | ext p u ih =>
      by_cases hnil : u' = .nil
      · subst hnil
        exact (delete_emptied hwf hcut h.holds hfuel).mono fun x t' he => he.removed hwf hcut
      · by_cases hp : p <+: r
        · obtain ⟨r, rfl⟩ := hp
          obtain ⟨fuel, rfl⟩ := Nat.exists_eq_add_of_le' (show 1 ≤ fuel by omega)
          have hlen : 0 < p.length := List.length_pos_of_ne_nil hwf.1
          rw [List.length_append] at hfuel
          simp only [Tree.cut, List.prefix_append, if_true, List.drop_left,
            Option.map_eq_some_iff] at hcut
          obtain ⟨w, hw, rfl⟩ := hcut
          have ih' : ∀ {k t}, CanCut C L k u r t →
              Returns (delete C fuel (C.treeHash u) r) t (Removed C L k u r w t) :=
            fun h' => ih hwf.2.2 hw (by omega) h'
          cases w with
          | nil => exact absurd rfl hnil
          | leaf a => exact delete_ext_resave rfl hw h ih'
          | branch a kids => exact delete_ext_resave rfl hw h ih'
          | ext q w =>
              cases u with
              | nil => cases hw
              | leaf a => cases hw
              | ext q' u => cases hwf.2.1
              | branch a kids => exact delete_ext_merge hwf.1 hwf.2.2 hw h ih'
        · simp [Tree.cut, hp] at hcut
  | branch v kids ih =>
      cases r with
      | nil =>
          obtain ⟨fuel, rfl⟩ := Nat.exists_eq_add_of_le' (show 2 ≤ fuel by omega)
          simp only [Tree.cut, Option.map_eq_some_iff] at hcut
          obtain ⟨a, rfl, rfl⟩ := hcut
          exact delete_branch_nil hwf h fuel
      | cons i r =>
          obtain ⟨fuel, rfl⟩ := Nat.exists_eq_add_of_le' (show 1 ≤ fuel by omega)
          rw [List.length_cons] at hfuel
          simp only [Tree.cut, Option.map_eq_some_iff] at hcut
          obtain ⟨w, hw, rfl⟩ := hcut
          by_cases hnil : w = .nil
          · subst hnil
            exact delete_branch_emptied hwf hw h (by omega)
          · exact delete_branch_cons hwf hw hnil h fun h' => ih i (hwf.2 i) hw (by omega) h'

/-- What a failed deletion leaves behind. -/
def Untouched (C : NodeCodec) (L : NodePtr → Prop) (t t' : Trie) : Prop :=
  Loads C t t' ∧ Good C L t'

/-- A walk into an empty slot. -/
lemma delete_nil (hg : Good C L t) (fuel : ℕ) (r : Route) :
    Fails (delete C (fuel + 1) [] r) t .notFound (Untouched C L t) :=
  Fails.bind ⟨t, fetchNode_nil hg, Loads.refl C t, hg⟩

/-- **Deleting nothing.**  When the walk along the route ends in no value, `delete` fails and
has only read nodes. -/
theorem delete_fails {u : PatriciaTree} (hwf : u.WF) {r : Route} (hcut : u.cut r = none)
    {fuel : ℕ} (hfuel : r.length + 2 ≤ fuel) (h : Holds C L k u t) :
    Fails (delete C fuel (C.treeHash u) r) t .notFound (Untouched C L t) := by
  induction u generalizing fuel r k t with
  | nil =>
      obtain ⟨fuel, rfl⟩ := Nat.exists_eq_add_of_le' (show 1 ≤ fuel by omega)
      exact delete_nil h.good fuel r
  | leaf v => cases hcut
  | ext p u ih =>
      obtain ⟨fuel, rfl⟩ := Nat.exists_eq_add_of_le' (show 1 ≤ fuel by omega)
      refine (h.fetch (by simp)).bind_fails ?_
      intro n t₁ hn
      rw [fails_read_bind, hn.node]
      simp only [NodeCodec.treeNode]
      by_cases hp : p <+: r
      · obtain ⟨r, rfl⟩ := hp
        have hcommon : commonLen p (p ++ r) = p.length :=
          commonLen_eq_length_iff.2 (List.prefix_append p r)
        have hlen : 0 < p.length := List.length_pos_of_ne_nil hwf.1
        rw [List.length_append] at hfuel
        simp only [Tree.cut, List.prefix_append, if_true, List.drop_left,
          Option.map_eq_none_iff] at hcut
        simp only [hcommon, ne_eq, not_true_eq_false, if_false, List.drop_left]
        refine Fails.bind ((ih hwf.2.2 hcut (by omega) (h.next hn)).mono ?_)
        rintro t₂ ⟨hl, hg⟩
        exact ⟨hn.loads.trans hn.good.toSound hl, hg⟩
      · rw [if_pos (fun heq => hp (commonLen_eq_length_iff.1 heq))]
        exact ⟨_, rfl, hn.loads, hn.good⟩
  | branch v kids ih =>
      obtain ⟨fuel, rfl⟩ := Nat.exists_eq_add_of_le' (show 1 ≤ fuel by omega)
      refine (h.fetch (by simp)).bind_fails ?_
      intro n t₁ hn
      rw [fails_read_bind, hn.node]
      simp only [NodeCodec.treeNode]
      have hmono : ∀ t₂, Untouched C L t₁ t₂ → Untouched C L t t₂ := by
        rintro t₂ ⟨hl, hg⟩
        exact ⟨hn.loads.trans hn.good.toSound hl, hg⟩
      cases r with
      | nil =>
          obtain ⟨fuel, rfl⟩ := Nat.exists_eq_add_of_le' (show 1 ≤ fuel by omega)
          simp only [Tree.cut, Option.map_eq_none_iff] at hcut
          subst hcut
          simp only [branchSlots_value, NodeCodec.valueHash]
          exact Fails.bind ((delete_nil hn.good fuel []).mono hmono)
      | cons i r =>
          rw [List.length_cons] at hfuel
          simp only [Tree.cut, Option.map_eq_none_iff] at hcut
          simp only [branchSlots_castSucc]
          exact Fails.bind ((ih i (hwf.2 i) hcut (by omega) (h.kid hn i)).mono hmono)

/-! ## The tree that is left -/

/-- The nodes of what is left of a branch. -/
lemma saved_of_occ_collapse (old : PatriciaTree) {v : Option Bytes} {kids : Fin 16 → PatriciaTree}
    {x : Hash} (hx : 0 < C.occ x (Tree.collapse v kids)) :
    0 < slotOcc C v kids x ∨ ∃ s ∈ collapseSaves old v kids, x = C.treeHash s.node := by
  by_cases htwo : 2 ≤ slotCount v kids
  · rw [collapse_of_two_le htwo, occ_branch_eq_slotOcc] at hx
    by_cases hroot : one (C.treeHash (.branch v kids)) x ≠ 0
    · refine .inr ⟨⟨.branch v kids, some old⟩, ?_, (eq_of_one_ne_zero hroot).symm⟩
      rw [collapseSaves_of_two_le _ htwo]
      exact List.mem_singleton_self _
    · exact .inl (by omega)
  · by_cases hone : slotCount v kids = 1
    · rcases slotCount_eq_one hone with ⟨a, rfl, hl⟩ | ⟨rfl, j, hl⟩
      · left
        rw [slotOcc_value hl]
        simpa [Tree.collapse, hl] using hx
      · rw [slotOcc_kid hl]
        simp only [Tree.collapse, hl] at hx
        by_cases hroot : x = C.treeHash (Tree.prepend [j] (kids j))
        · exact .inr ⟨.new (Tree.prepend [j] (kids j)), by simp [collapseSaves, hl], hroot⟩
        · left
          have hroot' : one (C.treeHash (Tree.prepend [j] (kids j))) x = 0 := by
            by_contra hne
            exact hroot (eq_of_one_ne_zero hne).symm
          cases hk : kids j <;> rw [hk] at hx hroot' <;>
            simp only [Tree.prepend, NodeCodec.occ_ext] at hx hroot' ⊢ <;> omega
    · have hzero : slotCount v kids = 0 := by omega
      obtain ⟨hl, hv⟩ : Tree.occupied kids = [] ∧ v = none := by
        unfold slotCount at hzero
        cases v with
        | none => exact ⟨List.length_eq_zero_iff.1 (by omega), rfl⟩
        | some a => simp at hzero
      subst hv
      simp [Tree.collapse, hl, NodeCodec.occ] at hx

/-- Every node of the tree that is left is a node of the old one or is saved. -/
lemma saved_of_occ_cut {x : Hash} (hcut : u.cut r = some u') (hx : 0 < C.occ x u') :
    0 < C.occ x u ∨ ∃ s ∈ cutSaves u r, x = C.treeHash s.node := by
  induction u generalizing r u' with
  | nil => cases hcut
  | leaf v =>
      cases hcut
      simp [NodeCodec.occ] at hx
  | ext p u ih =>
      by_cases hp : p <+: r
      · simp only [Tree.cut, hp, if_true, Option.map_eq_some_iff] at hcut
        obtain ⟨w, hw, rfl⟩ := hcut
        have hin : 0 < C.occ x w →
            0 < C.occ x (.ext p u) ∨ ∃ s ∈ cutSaves (.ext p u) r, x = C.treeHash s.node := by
          intro hpos
          rcases ih hw hpos with h | ⟨s, hs, h⟩
          · exact .inl (h.trans_le (NodeCodec.occ_ext_le x p u))
          · refine .inr ⟨s, ?_, h⟩
            simp only [cutSaves, hp, if_true]
            exact List.mem_append_left _ hs
        by_cases hroot : x = C.treeHash (Tree.prepend p w)
        · right
          cases w with
          | nil => simp [Tree.prepend, NodeCodec.occ] at hx
          | leaf a =>
              exact ⟨⟨.ext p (.leaf a), some (.ext p u)⟩, by simp [cutSaves, hp, hw], hroot⟩
          | ext q w => exact ⟨.new (.ext (p ++ q) w), by simp [cutSaves, hp, hw], hroot⟩
          | branch a kids =>
              exact ⟨⟨.ext p (.branch a kids), some (.ext p u)⟩, by simp [cutSaves, hp, hw], hroot⟩
        · have hroot' : one (C.treeHash (Tree.prepend p w)) x = 0 := by
            by_contra hne
            exact hroot (eq_of_one_ne_zero hne).symm
          refine hin ?_
          cases w <;> simp only [Tree.prepend, NodeCodec.occ_ext] at hx hroot' ⊢ <;> omega
      · simp [Tree.cut, hp] at hcut
  | branch v kids ih =>
      cases r with
      | nil =>
          simp only [Tree.cut, Option.map_eq_some_iff] at hcut
          obtain ⟨a, rfl, rfl⟩ := hcut
          rcases saved_of_occ_collapse (.branch (some a) kids) hx with h | h
          · left
            simp only [slotOcc, Option.elim_none, NodeCodec.occ_branch] at h ⊢
            omega
          · exact .inr h
      | cons i r =>
          simp only [Tree.cut, Option.map_eq_some_iff] at hcut
          obtain ⟨w, hw, rfl⟩ := hcut
          have hsaves : cutSaves (.branch v kids) (i :: r) = cutSaves (kids i) r ++
              collapseSaves (.branch v kids) v (Function.update kids i w) := by
            simp [cutSaves, hw]
          rw [hsaves]
          rcases saved_of_occ_collapse (.branch v kids) hx with h | ⟨s, hs, h⟩
          · rw [slotOcc_update] at h
            by_cases hkid : 0 < C.occ x w
            · rcases ih i hw hkid with h | ⟨s, hs, h⟩
              · exact .inl (h.trans_le (NodeCodec.occ_kid_le x v kids i))
              · exact .inr ⟨s, List.mem_append_left _ hs, h⟩
            · left
              rw [occ_branch_eq_besideKid x v kids i]
              omega
          · exact .inr ⟨s, List.mem_append_right _ hs, h⟩

/-- A node that is written into an old object is part of the tree that is left. -/
lemma occ_pos_of_into_cut {s : Save} (hwf : u.WF) (hcut : u.cut r = some u')
    (hs : s ∈ cutSaves u r) (ho : s.into ≠ none) : 0 < C.occ (C.treeHash s.node) u' := by
  induction u generalizing r u' with
  | nil => cases hcut
  | leaf v => simp [cutSaves] at hs
  | ext p u ih =>
      by_cases hp : p <+: r
      · simp only [Tree.cut, hp, if_true, Option.map_eq_some_iff] at hcut
        obtain ⟨w, hw, rfl⟩ := hcut
        simp only [cutSaves, hp, if_true, hw] at hs
        cases w with
        | nil =>
            rw [(cut_nil_trivial hwf.2.2 hw).1] at hs
            simp at hs
        | ext q w =>
            cases u with
            | nil => cases hw
            | leaf a => cases hw
            | ext q' u => cases hwf.2.1
            | branch a kids =>
                rcases List.mem_append.1 hs with hs | hs
                · exact absurd ((cut_ext_trivial hwf.2.2 hw).2.1 s hs) ho
                · rw [List.mem_singleton.1 hs] at ho
                  exact absurd rfl ho
        | leaf a =>
            rcases List.mem_append.1 hs with hs | hs
            · exact (ih hwf.2.2 hw hs).trans_le (NodeCodec.occ_ext_le _ p _)
            · rw [List.mem_singleton.1 hs]
              exact NodeCodec.occ_self_pos (by simp)
        | branch a kids =>
            rcases List.mem_append.1 hs with hs | hs
            · exact (ih hwf.2.2 hw hs).trans_le (NodeCodec.occ_ext_le _ p _)
            · rw [List.mem_singleton.1 hs]
              exact NodeCodec.occ_self_pos (by simp)
      · simp [Tree.cut, hp] at hcut
  | branch v kids ih =>
      have htwo : 2 ≤ slotCount v kids := hwf.1
      cases r with
      | nil =>
          simp only [Tree.cut, Option.map_eq_some_iff] at hcut
          obtain ⟨a, rfl, rfl⟩ := hcut
          have hcount := slotCount_none a kids
          rw [node_of_mem_collapseSaves hs]
          exact NodeCodec.occ_self_pos (collapse_ne_nil (by omega))
      | cons i r =>
          simp only [Tree.cut, Option.map_eq_some_iff] at hcut
          obtain ⟨w, hw, rfl⟩ := hcut
          have hi : kids i ≠ .nil := by
            intro hnil
            rw [hnil] at hw
            cases hw
          simp only [cutSaves, hw] at hs
          rcases List.mem_append.1 hs with hkid | hroot
          · by_cases hnil : w = .nil
            · subst hnil
              rw [(cut_nil_trivial (hwf.2 i) hw).1] at hkid
              simp at hkid
            · have hstay := slotCount_update (v := v) hi hnil
              rw [collapse_of_two_le (by omega), occ_branch_update]
              have := ih i (hwf.2 i) hw hkid
              omega
          · rw [node_of_mem_collapseSaves hroot]
            refine NodeCodec.occ_self_pos (collapse_ne_nil ?_)
            by_cases hnil : w = .nil
            · subst hnil
              have := slotCount_update_nil (v := v) hi
              omega
            · rw [slotCount_update hi hnil]
              omega

/-- When no changed node occurs in the tree that is left, the nodes written into old objects
are not changed again. -/
lemma notMem_of_into_cut {s : Save} (hwf : u.WF) (hcut : u.cut r = some u')
    (hkeeps : ∀ w ∈ cutChanged u r, C.occ (C.treeHash w) u' = 0) (hs : s ∈ cutSaves u r)
    (ho : s.into ≠ none) : C.treeHash s.node ∉ hashes C (cutChanged u r) := by
  rintro ⟨w, hw, heq⟩
  have hpos := occ_pos_of_into_cut (C := C) hwf hcut hs ho
  rw [heq, hkeeps w hw] at hpos
  exact absurd hpos (Nat.lt_irrefl 0)

/-- After a deletion the trie holds the tree that is left. -/
lemma Removed.holds {x : Hash} (hr : Removed C L k u r u' t x t') (h : CanCut C L k u r t)
    (hcut : u.cut r = some u')
    (hkeeps : t.prepared = true → ∀ w ∈ cutChanged u r, C.occ (C.treeHash w) u' = 0) :
    Holds C L k u' t' where
  good := hr.reached.good
  kept := hr.reached.kept
  fresh := by
    intro y hy
    have hstay : Fresh C t y → Fresh C t' y := by
      refine hr.reached.fresh h.holds.good fun hp hm => ?_
      obtain ⟨w, hw, rfl⟩ := hm
      rw [hkeeps hp w hw] at hy
      exact absurd hy (Nat.lt_irrefl 0)
    rcases saved_of_occ_cut hcut hy with hold | ⟨⟨w, into⟩, hs, rfl⟩
    · exact hstay (h.holds.fresh y hold)
    · cases into with
      | none => exact hstay (h.saves _ hs).fresh
      | some old => exact hr.into _ hs (by simp)

end Trie

end GoMedibloc
