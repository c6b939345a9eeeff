import GoMedibloc.Trie.Paths
import GoMedibloc.Trie.Update

/-!
# Collapsing a branch

When `delete` has removed a child of a branch it restores the normal form: a branch that is
left with one occupied slot is given up, and what is in the slot takes its place.  The object
of the branch, from which the child was removed, is not saved again.  `Unshared` says that no
other entry of the cache holds it; then nothing that `Flush` would write is wrong.

The module also has the vocabulary of a deletion: `cutSaves` lists the nodes that it saves,
`cutChanged` those whose objects it changes, `cutMerge` the extension to whose path it
appends and `cutCollapse` the branch that it gives up.
-/

namespace GoMedibloc

open Prog Radix

/-! ## What a deletion does to the nodes -/

/-- The number of occupied slots of a branch. -/
def slotCount (v : Option Bytes) (kids : Fin 16 → PatriciaTree) : ℕ :=
  (Tree.occupied kids).length + v.toList.length

/-- The nodes that are saved when a branch is left with the given slots. -/
def collapseSaves (old : PatriciaTree) (v : Option Bytes) (kids : Fin 16 → PatriciaTree) :
    List Save :=
  match Tree.occupied kids, v with
  | [], _ => []
  | [j], none => [.new (Tree.prepend [j] (kids j))]
  | _, _ => [⟨.branch v kids, some old⟩]

/-- The node whose object changes when a path is put in front of a tree. -/
def prependChanged : PatriciaTree → List PatriciaTree
  | .ext q u => [.ext q u]
  | _ => []

/-- The nodes whose objects change when a branch is left with the given slots. -/
def collapseChanged (old : PatriciaTree) (v : Option Bytes) (kids : Fin 16 → PatriciaTree) :
    List PatriciaTree :=
  old :: match Tree.occupied kids, v with
    | [j], none => prependChanged (kids j)
    | _, _ => []

/-- The nodes that a deletion saves, in the order of the program. -/
def cutSaves : PatriciaTree → Route → List Save
  | .ext p t, r =>
      if p <+: r then
        cutSaves t (r.drop p.length) ++
          match t.cut (r.drop p.length) with
          | none | some .nil => []
          | some (.ext q u) => [.new (.ext (p ++ q) u)]
          | some t' => [⟨.ext p t', some (.ext p t)⟩]
      else []
  | .branch v kids, [] => collapseSaves (.branch v kids) none kids
  | .branch v kids, i :: r =>
      cutSaves (kids i) r ++
        match (kids i).cut r with
        | none => []
        | some t' => collapseSaves (.branch v kids) v (Function.update kids i t')
  | _, _ => []

/-- The nodes whose objects a deletion changes. -/
def cutChanged : PatriciaTree → Route → List PatriciaTree
  | .ext p t, r =>
      if p <+: r then
        cutChanged t (r.drop p.length) ++
          match t.cut (r.drop p.length) with
          | none | some .nil => []
          | some (.ext q u) => [.ext q u]
          | some _ => [.ext p t]
      else []
  | .branch v kids, [] => collapseChanged (.branch v kids) none kids
  | .branch v kids, i :: r =>
      cutChanged (kids i) r ++
        match (kids i).cut r with
        | none => []
        | some t' => collapseChanged (.branch v kids) v (Function.update kids i t')
  | _, _ => []

/-- The extension to whose path a deletion appends, and what it appends. -/
def cutMerge : PatriciaTree → Route → Option (PatriciaTree × Route)
  | .ext p t, r =>
      if p <+: r then
        match t.cut (r.drop p.length) with
        | some (.ext q _) => some (.ext p t, q)
        | _ => cutMerge t (r.drop p.length)
      else none
  | .branch _ kids, i :: r => cutMerge (kids i) r
  | _, _ => none

/-- The branch that a deletion leaves with one child. -/
def cutCollapse : PatriciaTree → Route → Option PatriciaTree
  | .ext p t, r => cutCollapse t (r.drop p.length)
  | .branch v kids, [] => if slotCount none kids < 2 then some (.branch v kids) else none
  | .branch v kids, i :: r =>
      match (kids i).cut r with
      | some .nil =>
          if slotCount v (Function.update kids i .nil) < 2 then some (.branch v kids) else none
      | _ => cutCollapse (kids i) r
  | _, _ => none

namespace Trie

variable (C : NodeCodec)

/-- The hashes of a list of nodes. -/
def hashes (l : List PatriciaTree) : Set Hash := {x | ∃ u ∈ l, x = C.treeHash u}

/-- The object of the branch is held by no entry that will be written but its own, and that
one has no other reference. -/
def Unshared (t : Trie) (o : Option PatriciaTree) : Prop :=
  ∀ u, o = some u → ∀ temp, t.tempNodes (C.treeHash u) = some temp →
    ∀ x temp', t.tempNodes x = some temp' → temp'.saved = false → temp'.node = temp.node →
      x = C.treeHash u ∧ temp'.refCount ≤ 1

variable {C} {L : NodePtr → Prop} {M : Set Hash} {t t' t'' : Trie} {c d k : Hash → ℕ}

lemma hashes_append (l l' : List PatriciaTree) :
    hashes C (l ++ l') = hashes C l ∪ hashes C l' := by
  ext x
  constructor
  · rintro ⟨u, hu, rfl⟩
    rcases List.mem_append.1 hu with hu | hu
    · exact .inl ⟨u, hu, rfl⟩
    · exact .inr ⟨u, hu, rfl⟩
  · rintro (⟨u, hu, rfl⟩ | ⟨u, hu, rfl⟩)
    · exact ⟨u, List.mem_append_left _ hu, rfl⟩
    · exact ⟨u, List.mem_append_right _ hu, rfl⟩

@[simp] lemma hashes_singleton (u : PatriciaTree) : hashes C [u] = {C.treeHash u} := by
  ext x
  simp [hashes]

@[simp] lemma hashes_nil : hashes C [] = ∅ := by
  ext x
  simp [hashes]

/-! ## The slots of a branch -/

/-- The occupied slots of the node of a branch: those of the children, then the value's. -/
lemma occupiedSlots_treeNode (v : Option Bytes) (kids : Fin 16 → PatriciaTree) :
    occupiedSlots (C.treeNode (.branch v kids)) =
      (Tree.occupied kids).map Fin.castSucc ++ v.toList.map fun _ => 16 := by
  have hkid : ∀ i : Fin 16, decide ((C.treeNode (.branch v kids)).slot i.castSucc ≠ []) =
      !(kids i).isNil := by
    intro i
    simp only [NodeCodec.treeNode, Node.slot, branchSlots_castSucc]
    cases h : (kids i).isNil with
    | true => simp [Tree.isNil_iff.1 h]
    | false =>
        have : kids i ≠ .nil := fun hn => by simp [hn, Tree.isNil] at h
        simpa using this
  have hvalue : (C.treeNode (.branch v kids)).slot 16 = C.valueHash v := by
    simp only [NodeCodec.treeNode, Node.slot, branchSlots_value]
  have hrange : List.finRange 17 = (List.finRange 16).map Fin.castSucc ++ [Fin.last 16] :=
    List.finRange_succ_last
  rw [occupiedSlots, hrange, List.filter_append, List.filter_map]
  congr 1
  · congr 1
    unfold Tree.occupied
    congr 1
    funext i
    exact hkid i
  · cases v with
    | none => simp [hvalue, NodeCodec.valueHash]
    | some w => simp [hvalue, NodeCodec.valueHash]

lemma length_occupiedSlots (v : Option Bytes) (kids : Fin 16 → PatriciaTree) :
    (occupiedSlots (C.treeNode (.branch v kids))).length = slotCount v kids := by
  simp [occupiedSlots_treeNode, slotCount]

/-- A branch with two occupied slots stays a branch. -/
lemma collapse_of_two_le {v : Option Bytes} {kids : Fin 16 → PatriciaTree}
    (h : 2 ≤ slotCount v kids) : Tree.collapse v kids = .branch v kids := by
  unfold slotCount at h
  rcases hl : Tree.occupied kids with _ | ⟨i, _ | ⟨j, l⟩⟩
  · cases v <;> simp [hl] at h
  · cases v <;> simp [hl] at h
    simp [Tree.collapse, hl]
  · simp [Tree.collapse, hl]

lemma collapseSaves_of_two_le (old : PatriciaTree) {v : Option Bytes}
    {kids : Fin 16 → PatriciaTree} (h : 2 ≤ slotCount v kids) :
    collapseSaves old v kids = [⟨.branch v kids, some old⟩] := by
  unfold slotCount at h
  rcases hl : Tree.occupied kids with _ | ⟨i, _ | ⟨j, l⟩⟩
  · cases v <;> simp [hl] at h
  · cases v <;> simp [hl] at h
    simp [collapseSaves, hl]
  · simp [collapseSaves, hl]

lemma collapseChanged_of_two_le (old : PatriciaTree) {v : Option Bytes}
    {kids : Fin 16 → PatriciaTree} (h : 2 ≤ slotCount v kids) :
    collapseChanged old v kids = [old] := by
  unfold slotCount at h
  rcases hl : Tree.occupied kids with _ | ⟨i, _ | ⟨j, l⟩⟩
  · cases v <;> simp [hl] at h
  · cases v <;> simp [hl] at h
    simp [collapseChanged, hl]
  · simp [collapseChanged, hl]

/-- A branch with one occupied slot holds a value or one child. -/
lemma slotCount_eq_one {v : Option Bytes} {kids : Fin 16 → PatriciaTree}
    (h : slotCount v kids = 1) :
    (∃ w, v = some w ∧ Tree.occupied kids = []) ∨ (v = none ∧ ∃ j, Tree.occupied kids = [j]) := by
  unfold slotCount at h
  cases v with
  | none =>
      right
      refine ⟨rfl, List.length_eq_one_iff.1 ?_⟩
      simpa using h
  | some w =>
      left
      refine ⟨w, rfl, List.length_eq_zero_iff.1 ?_⟩
      simpa using h

/-- Setting a slot to another child keeps the number of slots. -/
lemma slotCount_update {v : Option Bytes} {kids : Fin 16 → PatriciaTree} {i : Fin 16}
    {u : PatriciaTree} (hi : kids i ≠ .nil) (hu : u ≠ .nil) :
    slotCount v (Function.update kids i u) = slotCount v kids := by
  have hocc : Tree.occupied (Function.update kids i u) = Tree.occupied kids := by
    unfold Tree.occupied
    congr 1
    funext j
    by_cases hj : j = i
    · subst hj
      simp only [Function.update_self]
      rw [Bool.eq_false_iff.2 (fun h => hu (Tree.isNil_iff.1 h)),
        Bool.eq_false_iff.2 (fun h => hi (Tree.isNil_iff.1 h))]
    · rw [Function.update_of_ne hj]
  rw [slotCount, slotCount, hocc]

/-- Emptying a slot leaves one slot less. -/
lemma slotCount_update_nil {v : Option Bytes} {kids : Fin 16 → PatriciaTree} {i : Fin 16}
    (hi : kids i ≠ .nil) : slotCount v (Function.update kids i .nil) + 1 = slotCount v kids := by
  have hmem : i ∈ Tree.occupied kids := Tree.mem_occupied.2 hi
  have hnodup : (Tree.occupied kids).Nodup := (List.nodup_finRange 16).filter _
  have hocc : Tree.occupied (Function.update kids i .nil) = (Tree.occupied kids).erase i := by
    rw [hnodup.erase_eq_filter, Tree.occupied, Tree.occupied, List.filter_filter]
    congr 1
    funext j
    by_cases hj : j = i
    · subst hj
      simp [Tree.isNil]
    · simp [hj]
  have hpos : 0 < (Tree.occupied kids).length := List.length_pos_of_mem hmem
  rw [slotCount, slotCount, hocc, List.length_erase_of_mem hmem]
  omega

lemma slotCount_none (w : Bytes) (kids : Fin 16 → PatriciaTree) :
    slotCount none kids + 1 = slotCount (some w) kids := by
  simp [slotCount]

/-- A branch with an occupied slot does not collapse to nothing. -/
lemma collapse_ne_nil {v : Option Bytes} {kids : Fin 16 → PatriciaTree}
    (h : 1 ≤ slotCount v kids) : Tree.collapse v kids ≠ .nil := by
  by_cases h2 : 2 ≤ slotCount v kids
  · rw [collapse_of_two_le h2]
    simp
  · rcases slotCount_eq_one (show slotCount v kids = 1 by omega) with ⟨w, rfl, hl⟩ | ⟨rfl, j, hl⟩
    · simp [Tree.collapse, hl]
    · have hj : kids j ≠ .nil := Tree.mem_occupied.1 (by simp [hl])
      simp only [Tree.collapse, hl]
      cases hk : kids j <;> simp [Tree.prepend, hk] at hj ⊢

/-! ## Removing the last value of a subtree -/

/-- Nothing but reading nodes and dropping references has happened. -/
structure Drops (t t' : Trie) : Prop where
  ptr_le : t.nextPtr ≤ t'.nextPtr
  heap : ∀ p, p < t.nextPtr → t'.heap p = t.heap p
  entry : ∀ x temp', t'.tempNodes x = some temp' →
    (∃ temp, t.tempNodes x = some temp ∧ temp.node = temp'.node ∧ temp.saved = temp'.saved ∧
      temp'.refCount ≤ temp.refCount) ∨ (t.nextPtr ≤ temp'.node ∧ temp'.saved = true)
  unwritten : Unwritten t t'

lemma Loads.drops (h : Loads C t t') : Drops t t' where
  ptr_le := h.ptr_le
  heap := h.heap
  entry := by
    intro x temp he
    rcases h.new_entry x temp he with he | ⟨hle, hs, -⟩
    · exact .inl ⟨temp, he, rfl, rfl, le_rfl⟩
    · exact .inr ⟨hle, hs⟩
  unwritten := h.unwritten

lemma Drops.deprecated (h : Drops t t') (y : Hash) : Drops t (deprecated y t') where
  ptr_le := h.ptr_le
  heap := h.heap
  entry := by
    intro x temp'' he''
    obtain ⟨temp', he', hp', hs', hr', -⟩ := entry_of_deprecated he''
    rcases h.entry x temp' he' with ⟨temp, he, hp, hs, hr⟩ | ⟨hle, hs⟩
    · exact .inl ⟨temp, he, hp.trans hp', hs.trans hs', hr'.trans hr⟩
    · exact .inr ⟨hp' ▸ hle, hs'.symm.trans hs⟩
  unwritten := h.unwritten.of_eq rfl (fun _ => rfl) rfl

lemma Drops.trans (h : Drops t t') (h' : Drops t' t'') : Drops t t'' where
  ptr_le := h.ptr_le.trans h'.ptr_le
  heap := fun p hp => (h'.heap p (hp.trans_le h.ptr_le)).trans (h.heap p hp)
  entry := by
    intro x temp'' he''
    rcases h'.entry x temp'' he'' with ⟨temp', he', hp', hs', hr'⟩ | ⟨hle, hs⟩
    · rcases h.entry x temp' he' with ⟨temp, he, hp, hs, hr⟩ | ⟨hle, hs⟩
      · exact .inl ⟨temp, he, hp.trans hp', hs.trans hs', hr'.trans hr⟩
      · exact .inr ⟨hp' ▸ hle, hs'.symm.trans hs⟩
    · exact .inr ⟨h.ptr_le.trans hle, hs⟩
  unwritten := h.unwritten.trans h'.unwritten

/-- What removing the last value of a subtree achieves. -/
def Emptied (C : NodeCodec) (L : NodePtr → Prop) (k : Hash → ℕ) (t : Trie) (x : Hash)
    (t' : Trie) : Prop :=
  x = [] ∧ Reached C L k ∅ t t' ∧ Drops t t'

/-- The walk ends in a value, whatever is left of the route. -/
lemma delete_leaf {v : Bytes} (h : Holds C L k (.leaf v) t) (fuel : ℕ) (r : Route) :
    Returns (delete C (fuel + 1) (C.treeHash (.leaf v)) r) t (Emptied C L k t) := by
  refine Returns.bind (h.fetch (by simp)) ?_
  intro n t₁ hn
  rw [returns_read_bind, hn.node]
  simp only [NodeCodec.treeNode]
  rw [returns_bind_of_ok (deprecateNode_apply _ _)]
  exact returns_pure ⟨rfl, (h.reached hn).deprecated fun x => rfl, hn.loads.drops.deprecated _⟩

lemma delete_ext_leaf {p : Route} {v : Bytes} (h : Holds C L k (.ext p (.leaf v)) t) (fuel : ℕ)
    (r : Route) :
    Returns (delete C (fuel + 2) (C.treeHash (.ext p (.leaf v))) (p ++ r)) t
      (Emptied C L k t) := by
  refine Returns.bind (h.fetch (by simp)) ?_
  intro n t₁ hn
  have hcommon : commonLen p (p ++ r) = p.length :=
    commonLen_eq_length_iff.2 (List.prefix_append p r)
  have hsub : Holds C L (fun x => k x + one (C.treeHash (.ext p (.leaf v))) x) (.leaf v) t₁ :=
    (h.loads hn.good hn.loads).sub (fun x => by rw [NodeCodec.occ_ext]; omega)
      fun x => NodeCodec.occ_ext_le x p _
  rw [returns_read_bind, hn.node]
  simp only [NodeCodec.treeNode, hcommon, ne_eq, not_true_eq_false, if_false, List.drop_left]
  refine Returns.bind (delete_leaf hsub fuel r) ?_
  rintro _ t₂ ⟨rfl, h2, hd2⟩
  simp only [deleteExt, if_true]
  rw [returns_bind_of_ok (deprecateNode_apply _ _)]
  refine returns_pure ⟨rfl, ?_, (hn.loads.drops.trans hd2).deprecated _⟩
  exact (((h.reached hn).trans h2).deprecated fun x => rfl).mono (by simp)

/-- A subtree that a deletion empties is one value. -/
lemma eq_of_cut_eq_nil {u : PatriciaTree} (hwf : u.WF) {r : Route} (h : u.cut r = some .nil) :
    (∃ v, u = .leaf v) ∨ ∃ p v r', u = .ext p (.leaf v) ∧ r = p ++ r' := by
  have hbranch : ∀ {v : Option Bytes} {kids : Fin 16 → PatriciaTree} {r : Route},
      (Tree.branch v kids).WF → (Tree.branch v kids).cut r ≠ some .nil := by
    -- Two slots were occupied, so one is left.
    intro v kids r hwf hcut
    have htwo : 2 ≤ slotCount v kids := hwf.1
    cases r with
    | nil =>
        simp only [Tree.cut, Option.map_eq_some_iff] at hcut
        obtain ⟨w, rfl, hcut⟩ := hcut
        have := slotCount_none w kids
        exact collapse_ne_nil (by omega) hcut
    | cons i r =>
        simp only [Tree.cut, Option.map_eq_some_iff] at hcut
        obtain ⟨u, hu, hcut⟩ := hcut
        have hi : kids i ≠ .nil := by
          intro hnil
          rw [hnil] at hu
          cases hu
        refine collapse_ne_nil ?_ hcut
        by_cases hnil : u = .nil
        · have := slotCount_update_nil (v := v) hi
          rw [hnil]
          omega
        · rw [slotCount_update hi hnil]
          omega
  cases u with
  | nil => cases h
  | leaf v => exact .inl ⟨v, rfl⟩
  | branch v kids => exact absurd h (hbranch hwf)
  | ext p u =>
      right
      by_cases hp : p <+: r
      · obtain ⟨r, rfl⟩ := hp
        simp only [Tree.cut, List.prefix_append, if_true, List.drop_left,
          Option.map_eq_some_iff] at h
        obtain ⟨u', hu', hprep⟩ := h
        have hnil : u' = .nil := by
          cases u' <;> simp [Tree.prepend] at hprep ⊢
        subst hnil
        cases u with
        | leaf v => exact ⟨p, v, r, rfl, rfl⟩
        | nil => cases hu'
        | ext q u => simp [Tree.WF, Tree.isSolid] at hwf
        | branch v kids => exact absurd hu' (hbranch hwf.2.2)
      · simp [Tree.cut, hp] at h

/-- Removing the last value of a subtree. -/
lemma delete_emptied {u : PatriciaTree} (hwf : u.WF) {r : Route} (hcut : u.cut r = some .nil)
    (h : Holds C L k u t) {fuel : ℕ} (hfuel : r.length + 2 ≤ fuel) :
    Returns (delete C fuel (C.treeHash u) r) t (Emptied C L k t) := by
  obtain ⟨fuel, rfl⟩ := Nat.exists_eq_add_of_le' (show 2 ≤ fuel by omega)
  rcases eq_of_cut_eq_nil hwf hcut with ⟨v, rfl⟩ | ⟨p, v, r', rfl, rfl⟩
  · exact delete_leaf h (fuel + 1) r
  · exact delete_ext_leaf h fuel r'

/-- When no other entry holds the object of a branch, none is left that would write it. -/
lemma Unshared.node_ne {u : PatriciaTree} {n : NodePtr} {t₁ t₂ t₃ : Trie} (hg : Good C L t)
    (h : Unshared C t (some u)) (hn : Fetched C L u t n t₁) (hd : Drops t₁ t₂)
    (ht₃ : t₃.tempNodes = t₂.tempNodes) {x : Hash} {temp : TempNode}
    (he : (deprecated (C.treeHash u) t₃).tempNodes x = some temp) (hs : temp.saved = false)
    (hprep : t₃.prepared = t.prepared) : temp.node ≠ n := by
  rintro rfl
  -- The entry was there before the operation, with the same object.
  obtain ⟨temp₃, he₃, hp₃, hs₃, hr₃, -⟩ := entry_of_deprecated he
  rw [ht₃] at he₃
  have hold : ∃ temp₀, t.tempNodes x = some temp₀ ∧ temp₀.node = temp.node ∧
      temp₀.saved = false ∧ temp₃.refCount ≤ temp₀.refCount := by
    rcases hd.entry x temp₃ he₃ with ⟨temp₁, he₁, hp₁, hs₁, hr₁⟩ | ⟨-, hsaved⟩
    · rcases hn.loads.new_entry x temp₁ he₁ with he₀ | ⟨-, hsaved, -⟩
      · exact ⟨temp₁, he₀, hp₁.trans hp₃, hs₁.trans (hs₃.trans hs), hr₁⟩
      · rw [hs₁.trans (hs₃.trans hs)] at hsaved
        cases hsaved
    · rw [hs₃.trans hs] at hsaved
      cases hsaved
  obtain ⟨temp₀, he₀, hp₀, hs₀, hr₀⟩ := hold
  have hprep₀ : t.prepared = true := by
    by_contra hne
    rw [hg.idle (by simpa using hne)] at he₀
    cases he₀
  cases hu : t.tempNodes (C.treeHash u) with
  | none =>
      have := hn.loaded hu
      have := hg.allocated x temp₀ he₀
      rw [hp₀] at this
      exact absurd this (Nat.not_lt.2 ‹_›)
  | some tempU =>
      obtain ⟨temp₁, he₁, hp₁⟩ := hn.entry hprep₀
      rw [hn.loads.old_entry _ _ hu] at he₁
      cases he₁
      obtain ⟨rfl, hle⟩ := h u rfl tempU hu x temp₀ he₀ hs₀ (hp₀.trans hp₁.symm)
      -- Its only reference has just been dropped.
      have hgone : (deprecated (C.treeHash u) t₃).tempNodes (C.treeHash u) = none := by
        have hlast : temp₃.refCount - 1 < 1 := by omega
        simp [deprecated, hprep.trans hprep₀, ht₃, he₃, deref, hs₃.trans hs, hlast]
      rw [hgone] at he
      cases he

/-! ## Giving up a branch -/

/-- An object is assigned to and its hash deprecated, and no entry is left that would write
it. -/
lemma Reached.discard (h : Reached C L c M t t') {n : NodePtr} {y : Hash} {o : NodeObj}
    (hr : Right C t' y n) (ho : ∀ s next, o.body = .ext s next → t'.arrays.Fits s)
    (hc : ∀ x, c x = d x + one y x)
    (hne : ∀ x temp, (Trie.deprecated y (t'.setObj n o)).tempNodes x = some temp →
      temp.saved = false → temp.node ≠ n) :
    Reached C L d (M ∪ {y}) t (Trie.deprecated y (t'.setObj n o)) := by
  have h1 : Pending C L c (M ∪ {y}) n t (t'.setObj n o) :=
    ⟨h.good.setObj ho, h.evolves.trans h.good (evolves_setObj hr o), h.kept,
      fun h0 => (h.clean h0).setObj n o⟩
  have h2 := h1.deprecated hc
  exact ⟨h2.good, h2.evolves, h2.kept,
    fun h0 x temp he hs => h2.clean h0 x temp he hs (hne x temp he hs)⟩

/-- The references from the slots of a branch. -/
def slotOcc (C : NodeCodec) (v : Option Bytes) (kids : Fin 16 → PatriciaTree) (x : Hash) : ℕ :=
  v.elim 0 (fun w => C.occ x (.leaf w)) + ∑ i, C.occ x (kids i)

lemma occ_branch_eq_slotOcc (x : Hash) (v : Option Bytes) (kids : Fin 16 → PatriciaTree) :
    C.occ x (.branch v kids) = one (C.treeHash (.branch v kids)) x + slotOcc C v kids x := rfl

/-- A branch does not occur below itself. -/
lemma slotOcc_self (v : Option Bytes) (kids : Fin 16 → PatriciaTree) :
    slotOcc C v kids (C.treeHash (.branch v kids)) = 0 := by
  have hkids : ∑ i, C.occ (C.treeHash (.branch v kids)) (kids i) = 0 :=
    Finset.sum_eq_zero fun i _ =>
      NodeCodec.occ_eq_zero_of_size_lt (Tree.size_kid_lt v kids i)
  cases v with
  | none => rw [slotOcc, hkids, Option.elim_none]
  | some w =>
      rw [slotOcc, hkids, Option.elim_some,
        NodeCodec.occ_eq_zero_of_size_lt (Tree.size_value_lt w kids)]

lemma slotOcc_value {w : Bytes} {kids : Fin 16 → PatriciaTree} (h : Tree.occupied kids = [])
    (x : Hash) : slotOcc C (some w) kids x = C.occ x (.leaf w) := by
  have hkids : ∑ i, C.occ x (kids i) = 0 := by
    refine Finset.sum_eq_zero fun i _ => ?_
    have hnil : kids i = .nil := by
      by_contra hne
      have := Tree.mem_occupied.2 hne
      simp [h] at this
    rw [hnil, NodeCodec.occ]
  rw [slotOcc, hkids, Option.elim_some, Nat.add_zero]

lemma slotOcc_kid {j : Fin 16} {kids : Fin 16 → PatriciaTree} (h : Tree.occupied kids = [j])
    (x : Hash) : slotOcc C none kids x = C.occ x (kids j) := by
  rw [slotOcc, Option.elim_none, Nat.zero_add]
  refine Finset.sum_eq_single_of_mem j (Finset.mem_univ j) fun i _ hij => ?_
  have hnil : kids i = .nil := by
    by_contra hne
    have := Tree.mem_occupied.2 hne
    rw [h, List.mem_singleton] at this
    exact hij this
  rw [hnil, NodeCodec.occ]

variable {v : Option Bytes} {kids : Fin 16 → PatriciaTree} {n : NodePtr}

/-- Only the value of the branch is left. -/
lemma Reached.collapseValue {w : Bytes} (h : Reached C L (fun x => k x + C.occ x (.leaf w)) M t t')
    (hnode : t'.node n = C.treeNode (.branch (some w) kids)) (hocc : Tree.occupied kids = [])
    (hf : Fresh C t' (C.treeHash (.leaf w))) :
    Returns (collapseBranch C n) t' fun x t'' => x = C.treeHash (.leaf w) ∧
      Reached C L (fun x => k x + C.occ x (.leaf w)) M t t'' ∧
      Fresh C t'' (C.treeHash (.leaf w)) := by
  have hindex : (occupiedSlots (C.treeNode (.branch (some w) kids))).getLastD 0 = 16 := by
    rw [occupiedSlots_treeNode, hocc]
    rfl
  have hchild : (C.treeNode (.branch (some w) kids)).slot 16 = C.treeHash (.leaf w) := by
    simp only [NodeCodec.treeNode, Node.slot, branchSlots_value]
    rfl
  have hkept : Kept t' (C.treeHash (.leaf w)) (k (C.treeHash (.leaf w)) + 1) := by
    have hpos := NodeCodec.occ_self_pos (C := C) (t := .leaf w) (by simp)
    exact (h.kept (C.treeHash (.leaf w))).mono (by omega)
  unfold collapseBranch
  rw [returns_read_bind, hnode, hindex]
  dsimp only
  rw [hchild]
  refine Returns.bind (fetchNode_returns h.good (by simp) hf hkept) ?_
  intro p t₁ hp
  rw [returns_read_bind, hp.node]
  simp only [NodeCodec.treeNode, if_true]
  refine returns_pure ⟨hp.right.hash, h.loads hp.good hp.loads, ?_⟩
  exact (hp.loads.evolves h.good).fresh h.good (by simp) hf

/-- Only one child of the branch is left. -/
lemma Reached.collapseKid {j : Fin 16} (h : Reached C L (fun x => k x + C.occ x (kids j)) M t t')
    (hnode : t'.node n = C.treeNode (.branch none kids)) (hocc : Tree.occupied kids = [j])
    (hf : Fresh C t' (C.treeHash (kids j)))
    (hsave : Fresh C t' (C.treeHash (Tree.prepend [j] (kids j)))) :
    Returns (collapseBranch C n) t' fun x t'' => x = C.treeHash (Tree.prepend [j] (kids j)) ∧
      Reached C L (fun x => k x + C.occ x (Tree.prepend [j] (kids j)))
        (M ∪ hashes C (prependChanged (kids j))) t t'' ∧
      Fresh C t'' (C.treeHash (Tree.prepend [j] (kids j))) := by
  have hindex : (occupiedSlots (C.treeNode (.branch none kids))).getLastD 0 = j.castSucc := by
    rw [occupiedSlots_treeNode, hocc]
    rfl
  have hchild : (C.treeNode (.branch none kids)).slot j.castSucc = C.treeHash (kids j) := by
    simp only [NodeCodec.treeNode, Node.slot, branchSlots_castSucc]
  have hj : Fin.ofNat 16 (j.castSucc : ℕ) = j := Fin.ext (Nat.mod_eq_of_lt j.isLt)
  have hne : kids j ≠ .nil := Tree.mem_occupied.1 (by simp [hocc])
  have hkept : Kept t' (C.treeHash (kids j)) (k (C.treeHash (kids j)) + 1) := by
    have := NodeCodec.occ_self_pos (C := C) hne
    exact (h.kept (C.treeHash (kids j))).mono (by omega)
  unfold collapseBranch
  rw [returns_read_bind, hnode, hindex]
  dsimp only
  rw [hchild]
  refine Returns.bind (fetchNode_returns h.good hne hf hkept) ?_
  intro p t₁ hp
  have h1 := h.loads hp.good hp.loads
  have hsave1 := (hp.loads.evolves h.good).fresh h.good (by simp) hsave
  rw [returns_read_bind, hp.node, hj]
  generalize kids j = u at *
  cases u with
  | nil => exact absurd rfl hne
  | leaf w =>
      simp only [NodeCodec.treeNode, castSucc_ne_value, if_false, hp.right.hash]
      refine (h1.saveTree (u := .ext [j] (.leaf w))
        (d := fun x => k x + C.occ x (.ext [j] (.leaf w))) (by simp) hsave1 fun x => ?_).mono ?_
      · rw [NodeCodec.occ_ext]
        omega
      · rintro x t₂ ⟨hx, h2, hf2⟩
        exact ⟨hx, h2.mono (by simp), hf2⟩
  | branch w' kids' =>
      simp only [NodeCodec.treeNode]
      refine (h1.saveTree (u := .ext [j] (.branch w' kids'))
        (d := fun x => k x + C.occ x (.ext [j] (.branch w' kids'))) (by simp) hsave1
        fun x => ?_).mono ?_
      · rw [NodeCodec.occ_ext]
        omega
      · rintro x t₂ ⟨hx, h2, hf2⟩
        exact ⟨hx, h2.mono (by simp), hf2⟩
  | ext q u =>
      -- The object of the child gets a longer path.
      have hpre : Tree.prepend [j] (.ext q u) = .ext (j :: q) u := rfl
      rw [hpre] at hsave1 ⊢
      simp only [NodeCodec.treeNode, hp.right.hash]
      set y := C.treeHash (.ext q u) with hy
      set z := C.treeHash (.ext (j :: q) u) with hz
      have hyz : y ≠ z := by
        intro heq
        have := congrArg List.length (Tree.ext.inj (NodeCodec.treeHash_injective heq)).1
        simp at this
      have h2 := (h1.good.reached h1.kept).deprecated (y := y) (d := fun x => k x + C.occ x u)
        fun x => by rw [NodeCodec.occ_ext, ← hy]; omega
      rw [returns_bind_of_ok (deprecateNode_apply _ _)]
      obtain ⟨s, A, hs, h3, hfits, hread⟩ := h2.newSlice (j :: q) (C.spare (j :: q).length)
      rw [returns_bind_of_ok hs]
      set t₃ : Trie := { Trie.deprecated y t₁ with arrays := A }
      obtain ⟨hr3, -, hnode3⟩ := h3.evolves.right hp.live hp.lt hp.right (by simp)
      obtain ⟨s', hbody, -⟩ := body_of_node_ext (hnode3.trans hp.node)
      obtain ⟨h4, hf4, hz4⟩ := h3.assign (z := z) (b := .ext s (C.treeHash u)) hr3
        (by simp only [NodeBody.toNode, t₃, hread]; rfl)
        (fun s'' next hb => by cases hb; exact hfits) (fun heq => absurd heq hyz)
        ((h3.fresh h1.good (by simp) hsave1).freshOrOwn p)
      rw [returns_bind_of_ok (modifyNode_apply _ _ _), hbody, NodeBody.setPath]
      refine ⟨_, _, saveNode_apply _ _, hz4, ?_, ?_⟩
      · have h5 := h4.savedNode hp.lt hp.live
          (d := fun x => k x + C.occ x (.ext (j :: q) u)) fun x => by
            rw [hz4, NodeCodec.occ_ext, ← hz]
            omega
        refine (h1.trans h5).mono (Set.union_subset_union_right M ?_)
        rintro x (hx | ⟨rfl, -⟩)
        · exact absurd hx (Set.notMem_empty x)
        · exact ⟨_, List.mem_singleton_self _, rfl⟩
      · rw [← hz4] at hf4 ⊢
        exact hf4.savedNode

/-! ## The branch case of a deletion -/

variable {v' : Option Bytes} {kids' : Fin 16 → PatriciaTree} {i : Fin 17} {w : Hash}

/-- The branch after the assignment to one of its slots. -/
lemma node_setSlot (hnode : t.node n = C.treeNode (.branch v kids))
    (hset : (C.treeNode (.branch v kids)).setSlot i w = C.treeNode (.branch v' kids')) :
    (t.setObj n ⟨(t.heap n).body.setSlot i w, (t.heap n).hash⟩).node n =
      C.treeNode (.branch v' kids') := by
  have hbody := body_of_node_branch (show t.node n = .branch _ from hnode)
  rw [← hset]
  simp [Trie.node, Trie.setObj, hbody, NodeBody.setSlot, NodeBody.toNode, NodeCodec.treeNode,
    Node.setSlot]

/-- A branch that keeps two occupied slots is saved again. -/
lemma Reached.deleteBranch (h : Reached C L c M t t') (hn : n < t'.nextPtr) (hL : L n)
    (hr : Right C t' (C.treeHash (.branch v kids)) n)
    (hnode : t'.node n = C.treeNode (.branch v kids))
    (hset : (C.treeNode (.branch v kids)).setSlot i w = C.treeNode (.branch v' kids'))
    (htwo : 2 ≤ slotCount v' kids') (hf : FreshOrOwn C t' (C.treeHash (.branch v' kids')) n)
    (hc : ∀ x, c x = k x + one (C.treeHash (.branch v kids)) x + slotOcc C v' kids' x) :
    Returns (deleteBranch C (C.treeHash (.branch v kids)) n i w) t' fun x t'' =>
      x = C.treeHash (.branch v' kids') ∧
        Reached C L (fun x => k x + C.occ x (.branch v' kids'))
          (M ∪ {C.treeHash (.branch v kids)}) t t'' ∧
        Fresh C t'' (C.treeHash (.branch v' kids')) := by
  have hmany : ¬ (occupiedSlots (C.treeNode (.branch v' kids'))).length < 2 := by
    rw [length_occupiedSlots]
    omega
  unfold Trie.deleteBranch
  rw [returns_bind_of_ok (modifyNode_apply _ _ _), returns_read_bind, node_setSlot hnode hset,
    if_neg hmany]
  have hbody := body_of_node_branch (show t'.node n = .branch _ from hnode)
  have hset' : Function.update (branchSlots (fun i => C.treeHash (kids i)) (C.valueHash v)) i w =
      branchSlots (fun i => C.treeHash (kids' i)) (C.valueHash v') := Node.branch.inj hset
  refine (h.resave (b := (t'.heap n).body.setSlot i w) (z := C.treeHash (.branch v' kids'))
    (e := fun x => k x + slotOcc C v' kids' x)
    (d := fun x => k x + C.occ x (.branch v' kids')) hn hL hr ?_ ?_ ?_ hf ?_ ?_).mono ?_
  · rw [hbody, NodeBody.setSlot, hset']
    rfl
  · simp [hbody, NodeBody.setSlot]
  · intro heq
    cases NodeCodec.treeHash_injective heq
    rw [hbody, NodeBody.setSlot, hset']
  · intro x
    rw [hc]
    omega
  · intro x
    rw [occ_branch_eq_slotOcc]
    omega
  · rintro x t'' ⟨hx, h2, hf2⟩
    refine ⟨hx, h2.mono (Set.union_subset_union_right M ?_), hf2⟩
    rintro y ⟨rfl, -⟩
    exact rfl

/-- A branch that is left with one occupied slot is given up. -/
lemma deleteBranch_collapse {t₁ t₂ : Trie} (hh : Holds C L k (.branch v kids) t)
    (hn : Fetched C L (.branch v kids) t n t₁) (hun : Unshared C t (some (.branch v kids)))
    (h : Reached C L (fun x => k x + one (C.treeHash (.branch v kids)) x + slotOcc C v' kids' x)
      ∅ t₁ t₂) (hd : Drops t₁ t₂)
    (hset : (C.treeNode (.branch v kids)).setSlot i w = C.treeNode (.branch v' kids'))
    (hone : slotCount v' kids' = 1) (hsub : ∀ x, slotOcc C v' kids' x ≤ slotOcc C v kids x)
    (hsaves : ∀ s ∈ collapseSaves (.branch v kids) v' kids', SaveOk C t s) :
    Returns (Trie.deleteBranch C (C.treeHash (.branch v kids)) n i w) t₂ fun x t₃ =>
      x = C.treeHash (Tree.collapse v' kids') ∧
        Reached C L (fun x => k x + C.occ x (Tree.collapse v' kids'))
          (hashes C (collapseChanged (.branch v kids) v' kids')) t₁ t₃ ∧
        Fresh C t₃ (C.treeHash (Tree.collapse v' kids')) := by
  obtain ⟨hr2, -, hnode2⟩ := h.evolves.right hn.live hn.lt hn.right (by simp)
  have hnode := hnode2.trans hn.node
  have hfew : (occupiedSlots (C.treeNode (.branch v' kids'))).length < 2 := by
    rw [length_occupiedSlots]
    omega
  unfold Trie.deleteBranch
  rw [returns_bind_of_ok (modifyNode_apply _ _ _), returns_read_bind, node_setSlot hnode hset,
    returns_bind_of_ok (deprecateNode_apply _ _), if_pos hfew]
  have hnode3 := node_setSlot hnode hset
  set y := C.treeHash (.branch v kids) with hy
  set t₂' := t₂.setObj n ⟨(t₂.heap n).body.setSlot i w, (t₂.heap n).hash⟩
  have hbody := body_of_node_branch (show t₂.node n = .branch _ from hnode)
  have h3 : Reached C L (fun x => k x + slotOcc C v' kids' x) (∅ ∪ {y}) t₁
      (Trie.deprecated y t₂') := by
    refine h.discard hr2 (by simp [hbody, NodeBody.setSlot]) (fun x => by omega) ?_
    intro x temp he hs
    exact hun.node_ne hh.good hn hd rfl he hs (h.evolves.prepared.trans hn.loads.prepared)
  rw [Set.empty_union] at h3
  -- What is in the slot occurred below the branch, so its object is not the one changed.
  have hstay : ∀ x, x ≠ y → Fresh C t x → Fresh C (Trie.deprecated y t₂') x := by
    intro x hx hf
    exact h3.evolves.fresh hn.good (by simpa using hx)
      ((hn.loads.evolves hh.good).fresh hh.good (by simp) hf)
  have hold : ∀ x, 0 < slotOcc C v' kids' x → Fresh C (Trie.deprecated y t₂') x := by
    intro x hx
    have hpos := hx.trans_le (hsub x)
    refine hstay x ?_ (hh.fresh x ?_)
    · rintro rfl
      rw [hy, slotOcc_self] at hpos
      exact absurd hpos (Nat.lt_irrefl 0)
    · rw [occ_branch_eq_slotOcc]
      omega
  rcases slotCount_eq_one hone with ⟨a, rfl, hl⟩ | ⟨rfl, j, hl⟩
  · have hcollapse : Tree.collapse (some a) kids' = .leaf a := by simp [Tree.collapse, hl]
    have hchanged : collapseChanged (.branch v kids) (some a) kids' = [.branch v kids] := by
      simp [collapseChanged, hl]
    rw [hcollapse, hchanged, hashes_singleton, ← hy]
    refine (h3.congr fun x => by rw [slotOcc_value hl]).collapseValue hnode3 hl (hold _ ?_)
    rw [slotOcc_value hl]
    exact NodeCodec.occ_self_pos (by simp)
  · have hcollapse : Tree.collapse none kids' = Tree.prepend [j] (kids' j) := by
      simp [Tree.collapse, hl]
    have hchanged : collapseChanged (.branch v kids) none kids' =
        [.branch v kids] ++ prependChanged (kids' j) := by
      simp [collapseChanged, hl]
    have hj : kids' j ≠ .nil := Tree.mem_occupied.1 (by simp [hl])
    rw [hcollapse, hchanged, hashes_append, hashes_singleton, ← hy]
    refine (h3.congr fun x => by rw [slotOcc_kid hl]).collapseKid hnode3 hl (hold _ ?_)
      (hstay _ ?_ ?_)
    · rw [slotOcc_kid hl]
      exact NodeCodec.occ_self_pos hj
    · intro heq
      have := NodeCodec.treeHash_injective heq
      cases hk : kids' j <;> simp [Tree.prepend, hk] at this hj
    · exact (hsaves (.new _) (by simp [collapseSaves, hl])).fresh

end Trie

end GoMedibloc
