import GoMedibloc.Trie.Operation

/-!
# Put

`update` on the hash of a tree returns the hash of the tree with the new value inserted
(`update_returns`), in a prepared and in an unprepared trie alike.

In a prepared trie this has two conditions, both about the cache as it is before the
operation and about the trees before and after it.  `insertSaves` lists the nodes that an
insertion saves, each with the node whose object it writes it into, if it does not build a
new one.

* `SaveOk`: no node that is saved is cached with an object that no longer holds it, unless
  that object is the very one that becomes the node.
* `overwritten`: no node whose object is changed occurs in the tree after the insertion.
-/

namespace GoMedibloc

open Prog Radix

/-- A node that an operation saves, and the node into whose object it writes it. -/
structure Save where
  node : PatriciaTree
  into : Option PatriciaTree

/-- A node that is saved as a new object. -/
def Save.new (u : PatriciaTree) : Save := ⟨u, none⟩

/-- The saves of a value with an extension in front of it. -/
def leafSaves (r : Route) (v : Bytes) : List Save :=
  .new (.leaf v) :: if r = [] then [] else [.new (.ext r (.leaf v))]

/-- The nodes that putting a value saves, in the order of the program. -/
def insertSaves : PatriciaTree → Route → Bytes → List Save
  | .nil, r, v => leafSaves r v
  | .leaf _, [], v => [.new (.leaf v)]
  | .leaf w, i :: r, v => leafSaves r v ++ [.new ((Tree.leaf w).insert (i :: r) v)]
  | .ext p t, r, v =>
      if p <+: r then
        insertSaves t (r.drop p.length) v ++ [⟨(Tree.ext p t).insert r v, some (.ext p t)⟩]
      else
        let m := commonLen p r
        (if p.drop (m + 1) = [] then [] else [⟨.ext (p.drop (m + 1)) t, some (.ext p t)⟩]) ++
          (leafSaves (r.drop (m + 1)) v ++
            (.new (Tree.forkBranch p t r v) ::
              if p.take m = [] then [] else [.new (Tree.fork p t r v)]))
  | .branch w kids, [], v => [.new (.leaf v), ⟨.branch (some v) kids, some (.branch w kids)⟩]
  | .branch w kids, i :: r, v =>
      insertSaves (kids i) r v ++
        [⟨(Tree.branch w kids).insert (i :: r) v, some (.branch w kids)⟩]

namespace Trie

variable (C : NodeCodec)

/-- The hashes of the nodes whose objects the saves change. -/
def overwritten (saves : List Save) : Set Hash :=
  {x | ∃ s ∈ saves, ∃ old, s.into = some old ∧ x = C.treeHash old ∧
    C.treeHash old ≠ C.treeHash s.node}

/-- A node that is saved is not cached with an object that no longer holds it, unless that
is the object it is written into. -/
def SaveOk (t : Trie) (s : Save) : Prop :=
  ∀ temp, t.tempNodes (C.treeHash s.node) = some temp →
    Right C t (C.treeHash s.node) temp.node ∨
      ∃ old temp', s.into = some old ∧ t.tempNodes (C.treeHash old) = some temp' ∧
        temp'.node = temp.node

variable {C} {L : NodePtr → Prop} {M : Set Hash} {t t' t'' : Trie} {c d : Hash → ℕ}

lemma overwritten_append (s₁ s₂ : List Save) :
    overwritten C (s₁ ++ s₂) = overwritten C s₁ ∪ overwritten C s₂ := by
  ext x
  constructor
  · rintro ⟨s, hs, h⟩
    rcases List.mem_append.1 hs with hs | hs
    · exact .inl ⟨s, hs, h⟩
    · exact .inr ⟨s, hs, h⟩
  · rintro (⟨s, hs, h⟩ | ⟨s, hs, h⟩)
    · exact ⟨s, List.mem_append_left _ hs, h⟩
    · exact ⟨s, List.mem_append_right _ hs, h⟩

lemma overwritten_into (u old : PatriciaTree) :
    overwritten C [⟨u, some old⟩] = changed (C.treeHash old) (C.treeHash u) := by
  ext x
  simp [overwritten, changed]

@[simp] lemma overwritten_new (u : PatriciaTree) : overwritten C [Save.new u] = ∅ := by
  ext x
  simp [overwritten, Save.new]

@[simp] lemma overwritten_nil : overwritten C [] = ∅ := by
  ext x
  simp [overwritten]

lemma overwritten_cons (s : Save) (l : List Save) :
    overwritten C (s :: l) = overwritten C [s] ∪ overwritten C l :=
  overwritten_append [s] l

@[simp] lemma overwritten_new_cons (u : PatriciaTree) (l : List Save) :
    overwritten C (Save.new u :: l) = overwritten C l := by
  rw [overwritten_cons, overwritten_new, Set.empty_union]

@[simp] lemma overwritten_leafSaves (r : Route) (v : Bytes) :
    overwritten C (leafSaves r v) = ∅ := by
  ext x
  unfold leafSaves
  split_ifs <;> simp [overwritten, Save.new]

lemma into_leafSaves {r : Route} {v : Bytes} {s : Save} (hs : s ∈ leafSaves r v) :
    s.into = none := by
  unfold leafSaves at hs
  split_ifs at hs <;> simp [Save.new] at hs
  · rw [hs]
  · rcases hs with rfl | rfl <;> rfl

lemma SaveOk.fresh {u : PatriciaTree} (h : SaveOk C t (.new u)) : Fresh C t (C.treeHash u) := by
  intro temp he
  rcases h temp he with hr | ⟨old, -, ho, -⟩
  · exact hr
  · cases ho

lemma SaveOk.loads {s : Save} (h : SaveOk C t s) (hg : Good C L t) (hl : Loads C t t') :
    SaveOk C t' s := by
  intro temp he
  rcases hl.new_entry _ temp he with he0 | ⟨-, -, hr⟩
  · rcases h temp he0 with hr | ⟨old, temp', ho, he', hp⟩
    · exact .inl ((hl.evolves hg).right (hg.live _ _ he0) (hg.allocated _ _ he0) hr (by simp)).1
    · exact .inr ⟨old, temp', ho, hl.old_entry _ _ he', hp⟩
  · exact .inl hr

/-- After the old node was fetched, the object it will be written into is at hand. -/
lemma SaveOk.freshOrOwn {u old : PatriciaTree} (h : SaveOk C t ⟨u, some old⟩) (hg : Good C L t)
    {p : NodePtr} (hp : Fetched C L old t p t') : FreshOrOwn C t' (C.treeHash u) p := by
  intro temp he
  rcases hp.loads.new_entry _ temp he with he0 | ⟨-, -, hr⟩
  · rcases h temp he0 with hr | ⟨old', temp', ho, he', hnode⟩
    · exact .inr ((hp.loads.evolves hg).right (hg.live _ _ he0) (hg.allocated _ _ he0) hr
        (by simp)).1
    · cases ho
      have hprep : t.prepared = true := by
        by_contra hne
        rw [hg.idle (by simpa using hne)] at he0
        cases he0
      obtain ⟨temp'', he'', hp''⟩ := hp.entry hprep
      rw [hp.loads.old_entry _ _ he'] at he''
      cases he''
      exact .inl (hnode.symm.trans hp'')
  · exact .inr hr

/-- Splitting an extension changes no object but its own. -/
lemma overwritten_fork {p r : Route} (hp : ¬ p <+: r) (t : PatriciaTree) (v : Bytes) :
    overwritten C (insertSaves (.ext p t) r v) =
      if p.drop (commonLen p r + 1) = [] then ∅
      else changed (C.treeHash (.ext p t)) (C.treeHash (.ext (p.drop (commonLen p r + 1)) t)) := by
  simp only [insertSaves, hp, if_false, overwritten_append, overwritten_leafSaves,
    overwritten_new_cons]
  split_ifs <;> simp [overwritten_into]

/-- Every node whose object is changed is part of the old tree. -/
lemma size_le_of_overwritten {t : PatriciaTree} {r : Route} {v : Bytes} {x : Hash}
    (hx : x ∈ overwritten C (insertSaves t r v)) :
    ∃ old, x = C.treeHash old ∧ old.size ≤ t.size := by
  induction t generalizing r with
  | nil => simp [insertSaves] at hx
  | leaf w => cases r <;> simp [insertSaves, overwritten_append] at hx
  | ext p t ih =>
      by_cases hp : p <+: r
      · simp only [insertSaves, hp, if_true, overwritten_append, overwritten_into] at hx
        rcases hx with hx | ⟨rfl, -⟩
        · obtain ⟨old, hold, hsize⟩ := ih hx
          exact ⟨old, hold, hsize.trans (Tree.size_ext_lt p t).le⟩
        · exact ⟨_, rfl, le_rfl⟩
      · rw [overwritten_fork hp] at hx
        split_ifs at hx
        · exact absurd hx (Set.notMem_empty x)
        · exact ⟨_, hx.1, le_rfl⟩
  | branch w kids ih =>
      cases r with
      | nil =>
          simp only [insertSaves, overwritten_new_cons, overwritten_into] at hx
          exact ⟨_, hx.1, le_rfl⟩
      | cons i r =>
          simp only [insertSaves, overwritten_append, overwritten_into] at hx
          rcases hx with hx | ⟨rfl, -⟩
          · obtain ⟨old, hold, hsize⟩ := ih i hx
            exact ⟨old, hold, hsize.trans (Tree.size_kid_lt w kids i).le⟩
          · exact ⟨_, rfl, le_rfl⟩

/-- No object of a larger tree is changed. -/
lemma notMem_overwritten {t u : PatriciaTree} {r : Route} {v : Bytes} (h : t.size < u.size) :
    C.treeHash u ∉ overwritten C (insertSaves t r v) := by
  intro hx
  obtain ⟨old, hold, hsize⟩ := size_le_of_overwritten hx
  rw [NodeCodec.treeHash_injective hold] at h
  omega

/-! ## The nodes of the new tree -/

/-- The references to a branch and to the parts of it beside one child. -/
def besideKid (C : NodeCodec) (w : Option Bytes) (kids : Fin 16 → PatriciaTree) (i : Fin 16)
    (x : Hash) : ℕ :=
  w.elim 0 (fun w => C.occ x (.leaf w)) + (∑ j, C.occ x (kids j) - C.occ x (kids i))

lemma occ_branch_eq_besideKid (x : Hash) (w : Option Bytes) (kids : Fin 16 → PatriciaTree)
    (i : Fin 16) : C.occ x (.branch w kids) =
      one (C.treeHash (.branch w kids)) x + (besideKid C w kids i x + C.occ x (kids i)) := by
  have hle : C.occ x (kids i) ≤ ∑ j, C.occ x (kids j) :=
    Finset.single_le_sum (f := fun j => C.occ x (kids j)) (fun _ _ => Nat.zero_le _)
      (Finset.mem_univ i)
  rw [NodeCodec.occ_branch, besideKid]
  omega

lemma occ_branch_update (x : Hash) (w : Option Bytes) (kids : Fin 16 → PatriciaTree)
    (i : Fin 16) (u : PatriciaTree) : C.occ x (.branch w (Function.update kids i u)) =
      one (C.treeHash (.branch w (Function.update kids i u))) x +
        (besideKid C w kids i x + C.occ x u) := by
  have hle : C.occ x (kids i) ≤ ∑ j, C.occ x (kids j) :=
    Finset.single_le_sum (f := fun j => C.occ x (kids j)) (fun _ _ => Nat.zero_le _)
      (Finset.mem_univ i)
  have hsum := NodeCodec.sum_occ_update (C := C) x kids i u
  rw [NodeCodec.occ_branch, besideKid]
  omega

/-- The two sides of the branch that splits an extension do not meet. -/
lemma occ_splitBranch (x : Hash) {a : Fin 16} {rest : Route} (hne : ∀ b r', rest = b :: r' → a ≠ b)
    (w : PatriciaTree) (v : Bytes) : C.occ x (Tree.splitBranch a w rest v) =
      one (C.treeHash (Tree.splitBranch a w rest v)) x +
        (C.occ x w + C.occ x (Tree.extend rest.tail (.leaf v))) := by
  cases rest with
  | nil =>
      rw [Tree.splitBranch, NodeCodec.occ_branch, NodeCodec.sum_occ_single, Option.elim_some,
        List.tail_nil, Tree.extend_nil]
      omega
  | cons b r' =>
      have hsum := NodeCodec.sum_occ_update (C := C) x (Tree.single a w) b
        (Tree.extend r' (.leaf v))
      rw [NodeCodec.sum_occ_single, Tree.single_of_ne (hne b r' rfl).symm] at hsum
      rw [Tree.splitBranch, NodeCodec.occ_branch, Option.elim_none, List.tail_cons]
      simp only [NodeCodec.occ] at hsum ⊢
      omega

lemma splitBranch_ne_nil (a : Fin 16) (w : PatriciaTree) (rest : Route) (v : Bytes) :
    Tree.splitBranch a w rest v ≠ .nil := by
  cases rest <;> simp [Tree.splitBranch]

/-- How a value splits an extension `q ++ a :: l` after `q`. -/
lemma exists_split {p r : Route} (hp : ¬ p <+: r) (u : PatriciaTree) (v : Bytes) :
    ∃ q a l, p = q ++ a :: l ∧ commonLen p r = q.length ∧
      (∀ b r', r.drop q.length = b :: r' → a ≠ b) ∧
      (Tree.ext p u).insert r v =
        Tree.extend q (Tree.splitBranch a (Tree.extend l u) (r.drop q.length) v) ∧
      insertSaves (.ext p u) r v =
        (if l = [] then [] else [⟨.ext l u, some (.ext p u)⟩]) ++
          (leafSaves (r.drop q.length).tail v ++
            (.new (Tree.splitBranch a (Tree.extend l u) (r.drop q.length) v) ::
              if q = [] then [] else
                [.new (Tree.extend q
                  (Tree.splitBranch a (Tree.extend l u) (r.drop q.length) v))])) := by
  obtain ⟨q, a, l, rfl, hr⟩ := exists_fork hp
  have hm : commonLen (q ++ a :: l) r = q.length := by
    rcases hr with rfl | ⟨b, r', rfl, hab⟩
    · simpa using commonLen_append r (a :: l) []
    · simp [commonLen_cons_ne hab]
  have hbranch : Tree.forkBranch (q ++ a :: l) u r v =
      Tree.splitBranch a (Tree.extend l u) (r.drop q.length) v := by
    simp [Tree.forkBranch, hm]
  refine ⟨q, a, l, rfl, hm, ?_, ?_, ?_⟩
  · intro b r' hd
    rcases hr with rfl | ⟨b', r'', rfl, hab⟩
    · simp at hd
    · rw [List.drop_left] at hd
      cases hd
      exact hab
  · rw [Tree.insert_ext_not_prefixed hp, Tree.fork, hm, hbranch, List.take_left]
  · have hdrop : (q ++ a :: l).drop (q.length + 1) = l := by
      rw [← List.tail_drop, List.drop_left, List.tail_cons]
    simp only [insertSaves, hp, if_false, hm, hdrop, ← List.tail_drop, hbranch, List.take_left,
      Tree.fork]

lemma occ_le_extend (x : Hash) (q : Route) (u : PatriciaTree) :
    C.occ x u ≤ C.occ x (Tree.extend q u) := by
  cases q with
  | nil => exact le_rfl
  | cons i q =>
      rw [NodeCodec.occ_extend_cons]
      omega

/-- The nodes of an extension in front of a tree. -/
lemma occ_extend_pos {x : Hash} {q : Route} {u : PatriciaTree}
    (h : 0 < C.occ x (Tree.extend q u)) :
    (q ≠ [] ∧ x = C.treeHash (Tree.extend q u)) ∨ 0 < C.occ x u := by
  cases q with
  | nil => exact .inr h
  | cons i q =>
      rw [NodeCodec.occ_extend_cons] at h
      by_cases hx : 0 < C.occ x u
      · exact .inr hx
      · have hroot : one (C.treeHash (.ext (i :: q) u)) x ≠ 0 := by omega
        exact .inl ⟨by simp, (eq_of_one_ne_zero hroot).symm⟩

/-- The nodes of a value with an extension in front of it are saved. -/
lemma mem_leafSaves_of_occ {x : Hash} {r : Route} {v : Bytes}
    (h : 0 < C.occ x (Tree.extend r (.leaf v))) :
    ∃ s ∈ leafSaves r v, x = C.treeHash s.node := by
  rcases occ_extend_pos h with ⟨hr, rfl⟩ | h
  · refine ⟨.new (.ext r (.leaf v)), by simp [leafSaves, hr], ?_⟩
    rw [Tree.extend, if_neg hr]
    rfl
  · rw [NodeCodec.occ_leaf] at h
    exact ⟨.new (.leaf v), by simp [leafSaves], (eq_of_one_ne_zero h.ne').symm⟩

/-- Splitting an extension writes into no object but its own. -/
lemma eq_of_into_split {l q r : Route} {u w B B' : PatriciaTree} {v : Bytes} {s : Save}
    (hs : s ∈ (if l = [] then [] else [⟨.ext l u, some w⟩]) ++
      (leafSaves r v ++ (.new B :: if q = [] then [] else [.new B']))) (ho : s.into ≠ none) :
    l ≠ [] ∧ s = ⟨.ext l u, some w⟩ := by
  rcases List.mem_append.1 hs with hs | hs
  · split_ifs at hs with hl
    · simp at hs
    · exact ⟨hl, List.mem_singleton.1 hs⟩
  · rcases List.mem_append.1 hs with hs | hs
    · exact absurd (into_leafSaves hs) ho
    · rcases List.mem_cons.1 hs with rfl | hs
      · exact absurd rfl ho
      · split_ifs at hs
        · simp at hs
        · rw [List.mem_singleton.1 hs] at ho
          exact absurd rfl ho

/-- A node that is written into an old object is part of the new tree. -/
lemma occ_pos_of_into {u : PatriciaTree} {r : Route} {v : Bytes} {s : Save}
    (hs : s ∈ insertSaves u r v) (ho : s.into ≠ none) :
    0 < C.occ (C.treeHash s.node) (u.insert r v) := by
  induction u generalizing r with
  | nil => exact absurd (into_leafSaves hs) ho
  | leaf w =>
      cases r with
      | nil =>
          rw [List.mem_singleton.1 hs] at ho
          exact absurd rfl ho
      | cons i r =>
          rcases List.mem_append.1 hs with hs | hs
          · exact absurd (into_leafSaves hs) ho
          · rw [List.mem_singleton.1 hs] at ho
            exact absurd rfl ho
  | ext p u ih =>
      by_cases hp : p <+: r
      · simp only [insertSaves, hp, if_true] at hs
        rcases List.mem_append.1 hs with hs | hs
        · have := ih hs
          simp only [Tree.insert, hp, if_true, NodeCodec.occ_ext]
          omega
        · rw [List.mem_singleton.1 hs]
          exact NodeCodec.occ_self_pos (by simp [Tree.insert, hp])
      · obtain ⟨q, a, l, rfl, -, hne, hins, hsaves⟩ := exists_split hp u v
        rw [hsaves] at hs
        obtain ⟨hl, rfl⟩ := eq_of_into_split hs ho
        have hext : Tree.extend l u = .ext l u := if_neg hl
        have hself : 0 < C.occ (C.treeHash (.ext l u)) (.ext l u) :=
          NodeCodec.occ_self_pos (by simp)
        have hle := occ_le_extend (C := C) (C.treeHash (.ext l u)) q
          (Tree.splitBranch a (.ext l u) (r.drop q.length) v)
        rw [occ_splitBranch _ hne] at hle
        rw [hins, hext]
        dsimp only
        omega
  | branch w kids ih =>
      cases r with
      | nil =>
          simp only [insertSaves, List.mem_cons, List.not_mem_nil, or_false] at hs
          rcases hs with rfl | rfl
          · exact absurd rfl ho
          · exact NodeCodec.occ_self_pos (by simp)
      | cons i r =>
          rcases List.mem_append.1 hs with hs | hs
          · have := ih i hs
            rw [Tree.insert, occ_branch_update]
            omega
          · rw [List.mem_singleton.1 hs]
            exact NodeCodec.occ_self_pos (Tree.insert_ne_nil _ _ _)

/-- Every node of the new tree is a node of the old one or is saved. -/
lemma saved_of_occ_insert {u : PatriciaTree} {r : Route} {v : Bytes} {x : Hash}
    (hx : 0 < C.occ x (u.insert r v)) :
    0 < C.occ x u ∨ ∃ s ∈ insertSaves u r v, x = C.treeHash s.node := by
  induction u generalizing r with
  | nil => exact .inr (mem_leafSaves_of_occ hx)
  | leaf w =>
      cases r with
      | nil => exact .inr ⟨.new (.leaf v), by simp [insertSaves], (eq_of_one_ne_zero hx.ne').symm⟩
      | cons i r =>
          rw [Tree.insert, NodeCodec.occ_branch, NodeCodec.sum_occ_single, Option.elim_some] at hx
          by_cases hroot : one (C.treeHash ((Tree.leaf w).insert (i :: r) v)) x ≠ 0
          · exact .inr ⟨.new ((Tree.leaf w).insert (i :: r) v), by simp [insertSaves],
              (eq_of_one_ne_zero hroot).symm⟩
          · by_cases hleaf : 0 < C.occ x (Tree.extend r (.leaf v))
            · obtain ⟨s, hs, hxs⟩ := mem_leafSaves_of_occ hleaf
              exact .inr ⟨s, by simp [insertSaves, hs], hxs⟩
            · left
              rw [Tree.insert] at hroot
              omega
  | ext p u ih =>
      by_cases hp : p <+: r
      · simp only [Tree.insert, hp, if_true, NodeCodec.occ_ext] at hx
        simp only [insertSaves, hp, if_true]
        by_cases hroot : one (C.treeHash ((Tree.ext p u).insert r v)) x ≠ 0
        · exact .inr ⟨_, List.mem_append_right _ (List.mem_singleton_self _),
            (eq_of_one_ne_zero hroot).symm⟩
        · simp only [Tree.insert, hp, if_true] at hroot
          rcases ih (show 0 < C.occ x (u.insert (r.drop p.length) v) by omega) with h | ⟨s, hs, h⟩
          · exact .inl (h.trans_le (NodeCodec.occ_ext_le x p u))
          · exact .inr ⟨s, List.mem_append_left _ hs, h⟩
      · obtain ⟨q, a, l, rfl, -, hne, hins, hsaves⟩ := exists_split hp u v
        have hocc := occ_splitBranch (C := C) x hne (Tree.extend l u) v
        rw [hins] at hx
        rw [hsaves]
        set B := Tree.splitBranch a (Tree.extend l u) (r.drop q.length) v
        rcases occ_extend_pos hx with ⟨hq, hxq⟩ | hx
        · exact .inr ⟨.new (Tree.extend q B), by simp [hq], hxq⟩
        · by_cases hroot : one (C.treeHash B) x ≠ 0
          · exact .inr ⟨.new B, by simp, (eq_of_one_ne_zero hroot).symm⟩
          · by_cases hleaf : 0 < C.occ x (Tree.extend (r.drop q.length).tail (.leaf v))
            · obtain ⟨s, hs, hxs⟩ := mem_leafSaves_of_occ hleaf
              exact .inr ⟨s, List.mem_append_right _ (List.mem_append_left _ hs), hxs⟩
            · rcases occ_extend_pos (show 0 < C.occ x (Tree.extend l u) by omega) with
                ⟨hl, hxl⟩ | hu
              · refine .inr ⟨⟨.ext l u, some (.ext (q ++ a :: l) u)⟩, by simp [hl], ?_⟩
                rw [hxl, Tree.extend, if_neg hl]
              · exact .inl (hu.trans_le (NodeCodec.occ_ext_le x _ u))
  | branch w kids ih =>
      by_cases hroot : one (C.treeHash ((Tree.branch w kids).insert r v)) x ≠ 0
      · cases r with
        | nil =>
            exact .inr ⟨⟨.branch (some v) kids, some (.branch w kids)⟩, by simp [insertSaves],
              (eq_of_one_ne_zero hroot).symm⟩
        | cons i r =>
            exact .inr ⟨⟨(Tree.branch w kids).insert (i :: r) v, some (.branch w kids)⟩,
              by simp [insertSaves], (eq_of_one_ne_zero hroot).symm⟩
      · cases r with
        | nil =>
            rw [Tree.insert] at hx hroot
            rw [NodeCodec.occ_branch, Option.elim_some] at hx
            by_cases hleaf : C.occ x (.leaf v) ≠ 0
            · rw [NodeCodec.occ_leaf] at hleaf
              exact .inr ⟨.new (.leaf v), by simp [insertSaves], (eq_of_one_ne_zero hleaf).symm⟩
            · left
              rw [NodeCodec.occ_branch]
              omega
        | cons i r =>
            rw [Tree.insert] at hx hroot
            rw [occ_branch_update] at hx
            by_cases hkid : 0 < C.occ x ((kids i).insert r v)
            · rcases ih i hkid with h | ⟨s, hs, h⟩
              · exact .inl (h.trans_le (NodeCodec.occ_kid_le x w kids i))
              · exact .inr ⟨s, by simp [insertSaves, hs], h⟩
            · left
              rw [occ_branch_eq_besideKid x w kids i]
              omega

/-! ## The steps of an insertion -/

/-- An extension over a saved node. -/
lemma Reached.saveExt (h : Reached C L c M t t') {p : Route} {u : PatriciaTree}
    (hu : Fresh C t' (C.treeHash u)) (hf : p ≠ [] → Fresh C t' (C.treeHash (.ext p u)))
    (hc : ∀ x, d x + C.occ x u = c x + C.occ x (Tree.extend p u)) :
    Returns (saveExt C p (C.treeHash u)) t' fun x t'' =>
      x = C.treeHash (Tree.extend p u) ∧ Reached C L d M t t'' ∧
        Fresh C t'' (C.treeHash (Tree.extend p u)) := by
  cases p with
  | nil =>
      refine returns_pure ⟨rfl, h.congr fun x => ?_, hu⟩
      have := hc x
      rw [Tree.extend_nil] at this
      omega
  | cons i p =>
      refine h.saveNew (hf (by simp)) fun x => ?_
      have := hc x
      rw [NodeCodec.occ_extend_cons, NodeCodec.treeHash_eq (by simp)] at this
      simp only [NodeCodec.treeNode] at this
      omega

/-- What putting a value needs of the state: the tree is held, and the two conditions on the
cache of a prepared trie hold. -/
structure CanInsert (C : NodeCodec) (L : NodePtr → Prop) (k : Hash → ℕ) (u : PatriciaTree)
    (r : Route) (v : Bytes) (t : Trie) : Prop where
  holds : Holds C L k u t
  saves : ∀ s ∈ insertSaves u r v, SaveOk C t s
  keeps : t.prepared = true → ∀ x ∈ overwritten C (insertSaves u r v), C.occ x (u.insert r v) = 0

/-- What putting a value achieves: the state is reached with the references of the new tree,
and the objects that were written into hold their new nodes. -/
def Inserted (C : NodeCodec) (L : NodePtr → Prop) (k : Hash → ℕ) (u : PatriciaTree) (r : Route)
    (v : Bytes) (t : Trie) (x : Hash) (t' : Trie) : Prop :=
  x = C.treeHash (u.insert r v) ∧
    Reached C L (fun y => k y + C.occ y (u.insert r v)) (overwritten C (insertSaves u r v)) t t' ∧
    ∀ s ∈ insertSaves u r v, s.into ≠ none → Fresh C t' (C.treeHash s.node)

variable {k : Hash → ℕ} {u w : PatriciaTree} {r : Route} {v : Bytes} {y : Hash}

/-- A node that occurs in the new tree is not among the changed ones. -/
lemma CanInsert.notMem (h : CanInsert C L k u r v t) {x : Hash} (hx : C.occ x (u.insert r v) ≠ 0)
    (hp : t.prepared = true) : x ∉ overwritten C (insertSaves u r v) :=
  fun hm => hx (h.keeps hp x hm)

lemma CanInsert.leaf_fresh (h : ∀ s ∈ leafSaves r v, SaveOk C t s) :
    Fresh C t (C.treeHash (.leaf v)) := by
  exact (h (.new (.leaf v)) (by simp [leafSaves])).fresh

lemma CanInsert.ext_fresh (h : ∀ s ∈ leafSaves r v, SaveOk C t s) (hr : r ≠ []) :
    Fresh C t (C.treeHash (.ext r (.leaf v))) := by
  exact (h (.new (.ext r (.leaf v))) (by simp [leafSaves, hr])).fresh

/-- Putting a value into an empty tree. -/
lemma update_nil (h : CanInsert C L k .nil r v t) (fuel : ℕ) :
    Returns (update C (fuel + 1) [] r v) t (Inserted C L k .nil r v t) := by
  have h0 := h.holds.good.reached h.holds.kept
  have hsaves : ∀ s ∈ leafSaves r v, SaveOk C t s := h.saves
  have hM : overwritten C (insertSaves .nil r v) = ∅ := overwritten_leafSaves r v
  simp only [update, if_true]
  refine Returns.bind (h0.saveNew (d := fun y => k y + C.occ y (.leaf v))
    (CanInsert.leaf_fresh hsaves) fun y => rfl) ?_
  rintro _ t₁ ⟨rfl, h1, hf1⟩
  refine (h1.saveExt (u := .leaf v) (d := fun y => k y + C.occ y (Tree.extend r (.leaf v)))
    hf1 (fun hr => ?_) fun y => by omega).mono ?_
  · exact h1.fresh h.holds.good (by simp) (CanInsert.ext_fresh hsaves hr)
  · rintro x t₂ ⟨hx, h2, -⟩
    exact ⟨hx, h2.mono (Set.empty_subset _), fun s hs ho => absurd (into_leafSaves hs) ho⟩

/-- The branch that takes the place of a value. -/
lemma treeNode_value_branch (w : Bytes) (i : Fin 16) (u : PatriciaTree) :
    (Node.emptyBranch.setSlot 16 (C.treeHash (.leaf w))).setSlot i.castSucc (C.treeHash u) =
      C.treeNode (.branch (some w) (Tree.single i u)) := by
  simp only [emptyBranch_eq, Node.setSlot, update_branchSlots_value, update_branchSlots_castSucc,
    NodeCodec.treeNode, NodeCodec.treeHash_single]
  rfl

/-- Putting a value where there is one. -/
lemma update_leaf {w : Bytes} (h : CanInsert C L k (.leaf w) r v t) (fuel : ℕ) :
    Returns (update C (fuel + 1) (C.treeHash (.leaf w)) r v) t
      (Inserted C L k (.leaf w) r v t) := by
  have hne : C.treeHash (.leaf w) ≠ [] := by simp
  simp only [update, hne, if_false]
  refine Returns.bind (h.holds.fetch (by simp)) ?_
  intro n t₁ hn
  have hh := h.holds.loads hn.good hn.loads
  have h1 : Reached C L (fun y => k y + C.occ y (.leaf w)) ∅ t t₁ :=
    h.holds.reached hn
  rw [returns_read_bind, hn.node]
  simp only [NodeCodec.treeNode, updateVal]
  rw [returns_read_bind, hn.right.hash]
  cases r with
  | nil =>
      have hf : Fresh C t₁ (C.treeHash (.leaf v)) :=
        h1.fresh h.holds.good (by simp) (h.saves (.new (.leaf v)) (by simp [insertSaves])).fresh
      refine Returns.bind (h1.saveNew
        (d := fun y => k y + C.occ y (.leaf w) + C.occ y (.leaf v)) hf fun y => rfl) ?_
      rintro _ t₂ ⟨rfl, h2, hf2⟩
      have h3 := h2.deprecated (y := C.treeHash (.leaf w)) (d := fun y => k y + C.occ y (.leaf v))
        fun y => by simp only [NodeCodec.occ_leaf]; omega
      refine ⟨_, _, rfl, rfl, h3.mono (Set.empty_subset _), ?_⟩
      simp [insertSaves, Save.new]
  | cons i r =>
      have hsaves : ∀ s ∈ leafSaves r v, SaveOk C t₁ s := fun s hs =>
        (h.saves s (by simp [insertSaves, hs])).loads h.holds.good hn.loads
      have hfb : Fresh C t₁ (C.treeHash ((Tree.leaf w).insert (i :: r) v)) :=
        h1.fresh h.holds.good (by simp)
          (h.saves (.new ((Tree.leaf w).insert (i :: r) v)) (by simp [insertSaves])).fresh
      have h1' := hn.good.reached hh.kept
      refine Returns.bind (h1'.saveNew
        (d := fun y => k y + C.occ y (.leaf w) + C.occ y (.leaf v))
        (CanInsert.leaf_fresh hsaves) fun y => rfl) ?_
      rintro _ t₂ ⟨rfl, h2, hf2⟩
      refine Returns.bind (h2.saveExt (u := .leaf v)
        (d := fun y => k y + C.occ y (.leaf w) + C.occ y (Tree.extend r (.leaf v)))
        hf2 (fun hr => h2.fresh hn.good (by simp) (CanInsert.ext_fresh hsaves hr))
        fun y => by omega) ?_
      rintro _ t₃ ⟨rfl, h3, hf3⟩
      rw [treeNode_value_branch]
      have hins : (Tree.leaf w).insert (i :: r) v =
          .branch (some w) (Tree.single i (Tree.extend r (.leaf v))) := rfl
      rw [hins] at hfb
      refine (h3.saveTree (by simp)
        (d := fun y => k y + C.occ y ((Tree.leaf w).insert (i :: r) v))
        (h3.fresh hn.good (by simp) hfb) fun y => ?_).mono ?_
      · simp only [hins, NodeCodec.occ_branch, Option.elim_some, NodeCodec.sum_occ_single]
        omega
      · rintro x t₄ ⟨hx, h4, -⟩
        refine ⟨hx, (h1.trans h4).mono (by simp), fun s hs ho => ?_⟩
        rcases List.mem_append.1 hs with hs | hs
        · exact absurd (into_leafSaves hs) ho
        · rw [List.mem_singleton.1 hs] at ho
          exact absurd rfl ho

/-- Putting a value below a branch, given the recursive call. -/
lemma update_branch_cons {w : Option Bytes} {kids : Fin 16 → PatriciaTree} {i : Fin 16}
    (h : CanInsert C L k (.branch w kids) (i :: r) v t) {fuel : ℕ}
    (ih : ∀ {k t}, CanInsert C L k (kids i) r v t →
      Returns (update C fuel (C.treeHash (kids i)) r v) t (Inserted C L k (kids i) r v t)) :
    Returns (update C (fuel + 1) (C.treeHash (.branch w kids)) (i :: r) v) t
      (Inserted C L k (.branch w kids) (i :: r) v t) := by
  have hne : C.treeHash (.branch w kids) ≠ [] := by simp
  have hins : (Tree.branch w kids).insert (i :: r) v =
      .branch w (Function.update kids i ((kids i).insert r v)) := rfl
  have hover : overwritten C (insertSaves (.branch w kids) (i :: r) v) =
      overwritten C (insertSaves (kids i) r v) ∪
        changed (C.treeHash (.branch w kids))
          (C.treeHash ((Tree.branch w kids).insert (i :: r) v)) := by
    rw [insertSaves, overwritten_append, overwritten_into]
  have hself : C.occ (C.treeHash ((Tree.branch w kids).insert (i :: r) v))
      ((Tree.branch w kids).insert (i :: r) v) ≠ 0 := (NodeCodec.occ_self_pos (by simp [hins])).ne'
  simp only [update, hne, if_false]
  refine Returns.bind (h.holds.fetch (by simp)) ?_
  intro n t₁ hn
  have hown : FreshOrOwn C t₁ (C.treeHash ((Tree.branch w kids).insert (i :: r) v)) n :=
    (h.saves ⟨_, some (.branch w kids)⟩ (by simp [insertSaves])).freshOrOwn h.holds.good hn
  have hsub : CanInsert C L (fun x => k x + (one (C.treeHash (.branch w kids)) x +
      besideKid C w kids i x)) (kids i) r v t₁ :=
    { holds := (h.holds.loads hn.good hn.loads).sub
        (fun x => by rw [occ_branch_eq_besideKid x w kids i]; omega)
        fun x => NodeCodec.occ_kid_le x w kids i
      saves := fun s hs => (h.saves s (by simp [insertSaves, hs])).loads h.holds.good hn.loads
      keeps := by
        intro hp x hx
        have := h.keeps (hn.loads.prepared.symm.trans hp) x (by rw [hover]; exact .inl hx)
        rw [hins, occ_branch_update] at this
        omega }
  rw [returns_read_bind, hn.node]
  simp only [NodeCodec.treeNode, updateBranch]
  rw [returns_read_bind, hn.node, hn.right.hash]
  simp only [NodeCodec.treeNode, Node.slot, branchSlots_castSucc]
  refine Returns.bind (ih hsub) ?_
  rintro _ t₂ ⟨rfl, h2, hf2⟩
  -- The recursive call has left the object of the branch alone.
  have hkeep : C.treeHash (.branch w kids) ∉ overwritten C (insertSaves (kids i) r v) :=
    notMem_overwritten (Tree.size_kid_lt w kids i)
  obtain ⟨hr2, -, hnode2⟩ := h2.evolves.right hn.live hn.lt hn.right hkeep
  have hown2 := h2.freshOrOwn hn.good (fun hp hm => h.notMem hself
    (hn.loads.prepared.symm.trans hp) (by rw [hover]; exact .inl hm)) hown
  refine ((h2.good.reached h2.kept).resaveBranch (hn.lt.trans_le h2.evolves.ptr_le) hn.live hr2
    (hnode2.trans hn.node) ?_ hown2 (e := fun x => k x + besideKid C w kids i x +
      C.occ x ((kids i).insert r v))
    (d := fun x => k x + C.occ x ((Tree.branch w kids).insert (i :: r) v)) ?_ ?_).mono ?_
  · rw [update_branchSlots_castSucc, ← NodeCodec.treeHash_update]
    rfl
  · intro x
    dsimp only
    omega
  · intro x
    rw [hins, occ_branch_update]
    omega
  · rintro x t₃ ⟨hx, h3, hf3⟩
    rw [Set.empty_union] at h3
    refine ⟨hx, ?_, fun s hs ho => ?_⟩
    · have h1 : Reached C L (fun y => k y + C.occ y (.branch w kids)) ∅ t t₁ :=
        h.holds.reached hn
      rw [hover]
      exact (h1.trans (h2.trans h3)).mono (by simp)
    · have hpos := occ_pos_of_into (C := C) hs ho
      rcases List.mem_append.1 hs with hs | hs
      · refine h3.fresh h2.good (fun hp hm => h.notMem hpos.ne' ?_ ?_) (hf2 s hs ho)
        · rw [← hn.loads.prepared, ← h2.evolves.prepared, hp]
        · rw [hover]
          exact .inr hm
      · rw [List.mem_singleton.1 hs]
        exact hf3

/-- Putting a value into the value slot of a branch. -/
lemma update_branch_nil {w : Option Bytes} {kids : Fin 16 → PatriciaTree}
    (h : CanInsert C L k (.branch w kids) [] v t) (fuel : ℕ) :
    Returns (update C (fuel + 1) (C.treeHash (.branch w kids)) [] v) t
      (Inserted C L k (.branch w kids) [] v t) := by
  have hne : C.treeHash (.branch w kids) ≠ [] := by simp
  have hover : overwritten C (insertSaves (.branch w kids) [] v) =
      changed (C.treeHash (.branch w kids)) (C.treeHash (.branch (some v) kids)) := by
    rw [insertSaves, overwritten_new_cons, overwritten_into]
  simp only [update, hne, if_false]
  refine Returns.bind (h.holds.fetch (by simp)) ?_
  intro n t₁ hn
  have hkept := (h.holds.loads hn.good hn.loads).kept
  have hown : FreshOrOwn C t₁ (C.treeHash (.branch (some v) kids)) n :=
    (h.saves ⟨_, some (.branch w kids)⟩ (by simp [insertSaves])).freshOrOwn h.holds.good hn
  have hf : Fresh C t₁ (C.treeHash (.leaf v)) :=
    ((h.saves (.new (.leaf v)) (by simp [insertSaves])).loads h.holds.good hn.loads).fresh
  rw [returns_read_bind, hn.node]
  simp only [NodeCodec.treeNode, updateBranch]
  rw [returns_read_bind, hn.node, hn.right.hash]
  simp only [NodeCodec.treeNode, Node.slot, branchSlots_value]
  -- Once the old value is deprecated, the two branches of the program go the same way.
  suffices hmain : ∀ t₂, Reached C L (fun x => k x + one (C.treeHash (.branch w kids)) x +
      ∑ i, C.occ x (kids i)) ∅ t₁ t₂ →
      Returns (do
        let hash ← saveNew C (.val v)
        modifyNode n (NodeBody.setSlot 16 hash)
        deprecateNode (C.treeHash (.branch w kids))
        saveNode C n) t₂ (Inserted C L k (.branch w kids) [] v t) by
    have h1 := hn.good.reached hkept
    cases w with
    | none =>
        rw [if_neg (by simp [NodeCodec.valueHash])]
        refine hmain t₁ (h1.congr fun x => ?_)
        rw [NodeCodec.occ_branch, Option.elim_none]
        omega
    | some w =>
        rw [if_pos (by simp [NodeCodec.valueHash])]
        rw [returns_bind_of_ok (deprecateNode_apply _ _)]
        refine hmain _ (h1.deprecated fun x => ?_)
        rw [NodeCodec.occ_branch, Option.elim_some, NodeCodec.occ_leaf]
        simp only [NodeCodec.valueHash, NodeCodec.treeHash]
        omega
  intro t₂ h2
  refine Returns.bind (h2.saveNew (d := fun x => k x + one (C.treeHash (.branch w kids)) x +
    (C.occ x (.leaf v) + ∑ i, C.occ x (kids i)))
    (h2.fresh hn.good (by simp) hf) fun x => ?_) ?_
  · rw [NodeCodec.occ_leaf]
    simp only [NodeCodec.treeHash]
    omega
  rintro _ t₃ ⟨rfl, h3, hf3⟩
  obtain ⟨hr3, -, hnode3⟩ := h3.evolves.right hn.live hn.lt hn.right (by simp)
  refine (h3.resaveBranch (hn.lt.trans_le h3.evolves.ptr_le) hn.live hr3
    (hnode3.trans hn.node) ?_ (h3.freshOrOwn hn.good (by simp) hown)
    (e := fun x => k x + (C.occ x (.leaf v) + ∑ i, C.occ x (kids i)))
    (d := fun x => k x + C.occ x (.branch (some v) kids)) ?_ ?_).mono ?_
  · rw [update_branchSlots_value]
    rfl
  · intro x
    omega
  · intro x
    rw [NodeCodec.occ_branch, Option.elim_some]
    omega
  · rintro x t₄ ⟨hx, h4, hf4⟩
    refine ⟨hx, ?_, fun s hs ho => ?_⟩
    · have h1 : Reached C L (fun y => k y + C.occ y (.branch w kids)) ∅ t t₁ :=
        h.holds.reached hn
      rw [hover]
      exact (h1.trans h4).mono (by simp)
    · simp only [insertSaves, List.mem_cons, List.not_mem_nil, or_false] at hs
      rcases hs with rfl | rfl
      · exact absurd rfl ho
      · exact hf4

/-- Putting a value below an extension whose path the route follows, given the recursive
call. -/
lemma update_ext_append {p : Route} {u : PatriciaTree}
    (h : CanInsert C L k (.ext p u) (p ++ r) v t) {fuel : ℕ}
    (ih : ∀ {k t}, CanInsert C L k u r v t →
      Returns (update C fuel (C.treeHash u) r v) t (Inserted C L k u r v t)) :
    Returns (update C (fuel + 1) (C.treeHash (.ext p u)) (p ++ r) v) t
      (Inserted C L k (.ext p u) (p ++ r) v t) := by
  have hne : C.treeHash (.ext p u) ≠ [] := by simp
  have hins : (Tree.ext p u).insert (p ++ r) v = .ext p (u.insert r v) :=
    Tree.insert_ext_append p r u v
  have hsaves : insertSaves (.ext p u) (p ++ r) v =
      insertSaves u r v ++ [⟨(Tree.ext p u).insert (p ++ r) v, some (.ext p u)⟩] := by
    simp [insertSaves]
  have hover : overwritten C (insertSaves (.ext p u) (p ++ r) v) =
      overwritten C (insertSaves u r v) ∪
        changed (C.treeHash (.ext p u)) (C.treeHash ((Tree.ext p u).insert (p ++ r) v)) := by
    rw [hsaves, overwritten_append, overwritten_into]
  have hself : C.occ (C.treeHash ((Tree.ext p u).insert (p ++ r) v))
      ((Tree.ext p u).insert (p ++ r) v) ≠ 0 := (NodeCodec.occ_self_pos (by simp [hins])).ne'
  simp only [update, hne, if_false]
  refine Returns.bind (h.holds.fetch (by simp)) ?_
  intro n t₁ hn
  have hown : FreshOrOwn C t₁ (C.treeHash ((Tree.ext p u).insert (p ++ r) v)) n :=
    (h.saves ⟨_, some (.ext p u)⟩ (by simp [hsaves])).freshOrOwn h.holds.good hn
  have hsub : CanInsert C L (fun x => k x + one (C.treeHash (.ext p u)) x) u r v t₁ :=
    { holds := (h.holds.loads hn.good hn.loads).sub
        (fun x => by rw [NodeCodec.occ_ext]; omega) fun x => NodeCodec.occ_ext_le x p u
      saves := fun s hs => (h.saves s (by simp [hsaves, hs])).loads h.holds.good hn.loads
      keeps := by
        intro hp x hx
        have := h.keeps (hn.loads.prepared.symm.trans hp) x (by rw [hover]; exact .inl hx)
        rw [hins, NodeCodec.occ_ext] at this
        omega }
  rw [returns_read_bind, hn.node]
  simp only [NodeCodec.treeNode, updateExt]
  rw [returns_read_bind, hn.node, hn.right.hash]
  simp only [NodeCodec.treeNode, Node.path, Node.next]
  have hlen : commonLen p (p ++ r) = p.length := by
    simpa using commonLen_append p [] r
  rw [hlen, List.drop_length, List.drop_left]
  refine Returns.bind (ih hsub) ?_
  rintro _ t₂ ⟨rfl, h2, hf2⟩
  have hkeep : C.treeHash (.ext p u) ∉ overwritten C (insertSaves u r v) :=
    notMem_overwritten (Tree.size_ext_lt p u)
  obtain ⟨hr2, -, hnode2⟩ := h2.evolves.right hn.live hn.lt hn.right hkeep
  have hown2 := h2.freshOrOwn hn.good (fun hp hm => h.notMem hself
    (hn.loads.prepared.symm.trans hp) (by rw [hover]; exact .inl hm)) hown
  refine ((h2.good.reached h2.kept).resaveExt (hn.lt.trans_le h2.evolves.ptr_le) hn.live hr2
    (hnode2.trans hn.node) ?_ hown2 (e := fun x => k x + C.occ x (u.insert r v))
    (d := fun x => k x + C.occ x ((Tree.ext p u).insert (p ++ r) v)) ?_ ?_).mono ?_
  · rw [hins]
    rfl
  · intro x
    dsimp only
    omega
  · intro x
    rw [hins, NodeCodec.occ_ext]
    omega
  · rintro x t₃ ⟨hx, h3, hf3⟩
    rw [Set.empty_union] at h3
    refine ⟨hx, ?_, fun s hs ho => ?_⟩
    · have h1 : Reached C L (fun y => k y + C.occ y (.ext p u)) ∅ t t₁ :=
        h.holds.reached hn
      rw [hover]
      exact (h1.trans (h2.trans h3)).mono (by simp)
    · have hpos := occ_pos_of_into (C := C) hs ho
      rw [hsaves] at hs
      rcases List.mem_append.1 hs with hs | hs
      · refine h3.fresh h2.good (fun hp hm => h.notMem hpos.ne' ?_ ?_) (hf2 s hs ho)
        · rw [← hn.loads.prepared, ← h2.evolves.prepared, hp]
        · rw [hover]
          exact .inr hm
      · rw [List.mem_singleton.1 hs]
        exact hf3

/-! ## Splitting an extension -/

/-- A slice lies inside its array and reads as a given path. -/
def ReadsAs (s : Slice) (l : Route) (t : Trie) : Prop :=
  t.arrays.Fits s ∧ t.arrays.read s = l

lemma keeps_readsAs_newNode (s : Slice) (l : Route) (n : Node) (spare : ℕ) :
    Keeps (ReadsAs s l) (newNode n spare) := by
  intro t ⟨hfits, hread⟩
  obtain ⟨t', ht', ha, -⟩ := newNode_allocates n spare t
  rw [ht']
  refine ⟨fits_of_cells hfits ha.cells ha.next_le, ?_⟩
  rw [← hread, Arrays.read, Arrays.read, ha.cells _ hfits.array_lt]

lemma keeps_readsAs_saveNode (s : Slice) (l : Route) (n : NodePtr) :
    Keeps (ReadsAs s l) (saveNode C n) := by
  intro t h
  rw [saveNode_apply]
  exact h

lemma keeps_readsAs_saveNew (s : Slice) (l : Route) (n : Node) :
    Keeps (ReadsAs s l) (saveNew C n) :=
  (keeps_readsAs_newNode s l n 0).bind fun _ => keeps_readsAs_saveNode s l _

lemma keeps_readsAs_forkValue (s : Slice) (l : Route) (b : Node) (rest : Route) (v : Bytes) :
    Keeps (ReadsAs s l) (forkValue C b rest v) := by
  refine (keeps_readsAs_saveNew s l _).bind fun x => ?_
  cases rest with
  | nil => exact keeps_pure _ _
  | cons i rest =>
      refine Keeps.bind ?_ fun _ => keeps_pure _ _
      unfold saveExt
      split_ifs
      · exact keeps_pure _ _
      · exact keeps_readsAs_saveNew s l _

/-- Saving the new value of a split extension. -/
lemma Reached.forkValue (h : Reached C L c M t t') {a : Fin 16} {w : PatriciaTree} {rest : Route}
    (hleaf : Fresh C t' (C.treeHash (.leaf v)))
    (hext : rest.tail ≠ [] → Fresh C t' (C.treeHash (.ext rest.tail (.leaf v))))
    (hd : ∀ x, d x = c x + C.occ x (Tree.extend rest.tail (.leaf v))) :
    Returns (forkValue C (Node.emptyBranch.setSlot a.castSucc (C.treeHash w)) rest v) t'
      fun b t'' => b = C.treeNode (Tree.splitBranch a w rest v) ∧ Reached C L d M t t'' := by
  have h0 := h.good.reached h.kept
  refine Returns.bind (h0.saveNew (d := fun x => c x + C.occ x (.leaf v)) hleaf fun x => rfl) ?_
  rintro _ t₁ ⟨rfl, h1, hf1⟩
  cases rest with
  | nil =>
      refine returns_pure ⟨?_, ((h.trans h1).congr fun x => hd x).mono (by simp)⟩
      simp only [emptyBranch_eq, Node.setSlot, update_branchSlots_castSucc,
        update_branchSlots_value, Tree.splitBranch, NodeCodec.treeNode, NodeCodec.treeHash_single]
      rfl
  | cons b rest =>
      refine Returns.bind (h1.saveExt (u := .leaf v) (p := rest) (d := d) hf1
        (fun hr => h1.fresh h.good (by simp) (hext hr)) fun x => ?_) ?_
      · rw [hd, List.tail_cons]
        omega
      · rintro _ t₂ ⟨rfl, h2, -⟩
        refine returns_pure ⟨?_, (h.trans h2).mono (by simp)⟩
        simp only [emptyBranch_eq, Node.setSlot, update_branchSlots_castSucc,
          Tree.splitBranch, NodeCodec.treeNode, NodeCodec.treeHash_update,
          NodeCodec.treeHash_single]
        rfl

/-- An extension over a saved branch that holds a part of an existing path. -/
lemma Reached.addExtToBranch (h : Reached C L c M t t') {s : Slice} {q : Route}
    {u : PatriciaTree} (hs : ReadsAs s q t') (hu : Fresh C t' (C.treeHash u))
    (hf : q ≠ [] → Fresh C t' (C.treeHash (.ext q u)))
    (hd : ∀ x, d x + C.occ x u = c x + C.occ x (Tree.extend q u)) :
    Returns (addExtToBranch C (C.treeHash u) s) t' fun x t'' =>
      x = C.treeHash (Tree.extend q u) ∧ Reached C L d M t t'' ∧
        Fresh C t'' (C.treeHash (Tree.extend q u)) := by
  have hlen : s.len = q.length := by rw [← hs.2, Arrays.length_read hs.1]
  unfold Trie.addExtToBranch
  cases q with
  | nil =>
      rw [if_pos (by simpa using hlen)]
      refine returns_pure ⟨rfl, h.congr fun x => ?_, hu⟩
      have := hd x
      rw [Tree.extend_nil] at this
      omega
  | cons i q =>
      rw [if_neg (by simp [hlen])]
      obtain ⟨t₁, ht₁, ha⟩ := newObj_allocates (t := t') (.ext s (C.treeHash u))
        fun s' next hb => by cases hb; exact hs.1
      have hnode : NodeBody.toNode t'.arrays (.ext s (C.treeHash u)) =
          .ext (i :: q) (C.treeHash u) := by rw [NodeBody.toNode, hs.2]
      rw [hnode] at ha
      rw [returns_bind_of_ok ht₁]
      refine ⟨_, _, saveNode_apply _ _, by rw [ha.node]; rfl, ?_⟩
      refine ha.saved h (hf (by simp)) fun x => ?_
      have := hd x
      rw [NodeCodec.occ_extend_cons] at this
      simp only [NodeCodec.treeHash] at this ⊢
      omega

/-- The end of `updateExt` for an extension `q ++ a :: l` that is split after `q`: the new
value, the branch and the extension in front of it. -/
lemma Reached.splitExt (h : Reached C L (fun x => k x + one y x + C.occ x w) M t t')
    {q l rest : Route} {a : Fin 16} (hne : ∀ b r', rest = b :: r' → a ≠ b) {s : Slice}
    (hs : ReadsAs s (q ++ a :: l) t') (hleaf : Fresh C t' (C.treeHash (.leaf v)))
    (hext : rest.tail ≠ [] → Fresh C t' (C.treeHash (.ext rest.tail (.leaf v))))
    (hb : Fresh C t' (C.treeHash (Tree.splitBranch a w rest v)))
    (hf : q ≠ [] → Fresh C t' (C.treeHash (.ext q (Tree.splitBranch a w rest v)))) :
    Returns (do
      let branch ← Trie.forkValue C (Node.emptyBranch.setSlot a.castSucc (C.treeHash w)) rest v
      deprecateNode y
      let hash ← Trie.saveNew C branch
      Trie.addExtToBranch C hash (s.take q.length)) t' fun x t'' =>
      x = C.treeHash (Tree.extend q (Tree.splitBranch a w rest v)) ∧
        Reached C L (fun x => k x + C.occ x (Tree.extend q (Tree.splitBranch a w rest v))) M t t'' ∧
        Fresh C t'' (C.treeHash (Tree.extend q (Tree.splitBranch a w rest v))) := by
  set B := Tree.splitBranch a w rest v with hB
  have h0 := h.good.reached h.kept
  have htake : ReadsAs (s.take q.length) q t' := by
    refine ⟨hs.1.take _, ?_⟩
    rw [Arrays.read_take, hs.2, List.take_left]
  refine Returns.bind ((h0.forkValue (d := fun x => k x + one y x + C.occ x w +
    C.occ x (Tree.extend rest.tail (.leaf v))) hleaf hext fun x => rfl).and_keeps
    (keeps_readsAs_forkValue _ _ _ _ _) htake) ?_
  rintro _ t₁ ⟨⟨rfl, h1⟩, hs1⟩
  rw [returns_bind_of_ok (deprecateNode_apply _ _)]
  have h2 := h1.deprecated (y := y) (d := fun x => k x + C.occ x w +
    C.occ x (Tree.extend rest.tail (.leaf v))) fun x => by omega
  have hs2 : ReadsAs (s.take q.length) q (Trie.deprecated y t₁) := hs1
  refine Returns.bind ((h2.saveTree (splitBranch_ne_nil a w rest v)
    (d := fun x => k x + C.occ x B) (h2.fresh h.good (by simp) hb) fun x => ?_).and_keeps
    (keeps_readsAs_saveNew _ _ _) hs2) ?_
  · rw [hB, occ_splitBranch x hne]
    omega
  rintro _ t₃ ⟨⟨rfl, h3, hf3⟩, hs3⟩
  refine (h3.addExtToBranch (q := q) (d := fun x => k x + C.occ x (Tree.extend q B)) hs3 hf3
    (fun hq => h3.fresh h.good (by simp) (hf hq)) fun x => by rw [hB]; omega).mono ?_
  rintro x t₄ ⟨hx, h4, hf4⟩
  exact ⟨hx, (h.trans h4).mono (by simp), hf4⟩

/-- Putting a value that splits an extension. -/
lemma update_ext_fork {p : Route} (h : CanInsert C L k (.ext p u) r v t) (hp : ¬ p <+: r)
    (fuel : ℕ) : Returns (update C (fuel + 1) (C.treeHash (.ext p u)) r v) t
      (Inserted C L k (.ext p u) r v t) := by
  have hfork := overwritten_fork (C := C) hp u v
  obtain ⟨q, a, l, rfl, hm, hne, hins, hsaves⟩ := exists_split hp u v
  have hdropm : (q ++ a :: l).drop (q.length + 1) = l := by
    rw [← List.tail_drop, List.drop_left, List.tail_cons]
  rw [hm, hdropm] at hfork
  have hocc := fun x => occ_splitBranch (C := C) x hne (Tree.extend l u) v
  set rest := r.drop q.length with hrest
  set B := Tree.splitBranch a (Tree.extend l u) rest v with hB
  have hneh : C.treeHash (.ext (q ++ a :: l) u) ≠ [] := by simp
  simp only [update, hneh, if_false]
  refine Returns.bind (h.holds.fetch (by simp)) ?_
  intro n t₁ hn
  have hkept := (h.holds.loads hn.good hn.loads).kept
  have h01 : Reached C L (fun y => k y + C.occ y (.ext (q ++ a :: l) u)) ∅ t t₁ :=
    h.holds.reached hn
  have hsave : ∀ s ∈ insertSaves (.ext (q ++ a :: l) u) r v, SaveOk C t₁ s := fun s hs =>
    (h.saves s hs).loads h.holds.good hn.loads
  have hleaf : Fresh C t₁ (C.treeHash (.leaf v)) :=
    CanInsert.leaf_fresh (r := rest.tail) fun s hs => hsave s (by
      rw [hsaves]
      exact List.mem_append_right _ (List.mem_append_left _ hs))
  have hext : rest.tail ≠ [] → Fresh C t₁ (C.treeHash (.ext rest.tail (.leaf v))) :=
    CanInsert.ext_fresh fun s hs => hsave s (by
      rw [hsaves]
      exact List.mem_append_right _ (List.mem_append_left _ hs))
  have hfb : Fresh C t₁ (C.treeHash B) := (hsave (.new B) (by simp [hsaves])).fresh
  have hfq : q ≠ [] → Fresh C t₁ (C.treeHash (.ext q B)) := by
    intro hq
    have := (hsave (.new (Tree.extend q B)) (by simp [hsaves, hq])).fresh
    simpa [Tree.extend, hq] using this
  obtain ⟨s, hbody, hread⟩ := body_of_node_ext hn.node
  have hreads : ReadsAs s (q ++ a :: l) t₁ := ⟨hn.good.fits n s _ hn.lt hbody, hread⟩
  rw [returns_read_bind, hn.node]
  simp only [NodeCodec.treeNode, updateExt]
  rw [returns_read_bind, hn.node, hn.right.hash, hbody]
  simp only [NodeCodec.treeNode, Node.path, Node.next, NodeBody.path, hm, List.drop_left]
  rw [← hrest]
  cases l with
  | nil =>
      have h1 : Reached C L (fun x => k x + one (C.treeHash (.ext (q ++ [a]) u)) x +
          C.occ x (Tree.extend [] u)) ∅ t₁ t₁ :=
        (hn.good.reached hkept).congr fun x => by
          rw [NodeCodec.occ_ext, Tree.extend_nil]
          omega
      refine (h1.splitExt hne hreads hleaf hext hfb hfq).mono ?_
      rintro x t₂ ⟨hx, h2, -⟩
      refine ⟨by rw [hx, hins], ?_, fun s hs ho => ?_⟩
      · rw [hins]
        exact (h01.trans h2).mono (by simp)
      · rw [hsaves] at hs
        exact absurd rfl (eq_of_into_split hs ho).1
  | cons a' l =>
      rw [if_neg (by simp)] at hfork
      -- The object of the extension becomes the rest of the path below the branch.
      set y := C.treeHash (.ext (q ++ a :: a' :: l) u) with hy
      set z := C.treeHash (.ext (a' :: l) u) with hz
      have hyz : y ≠ z := by
        intro heq
        have := congrArg List.length (Tree.ext.inj (NodeCodec.treeHash_injective heq)).1
        simp at this
        omega
      have hown : FreshOrOwn C t₁ z n :=
        (h.saves ⟨_, some (.ext (q ++ a :: a' :: l) u)⟩ (by simp [hsaves])).freshOrOwn
          h.holds.good hn
      have hdrop : ReadsAs (s.drop (q.length + 1)) (a' :: l) t₁ := by
        have hlen : s.len = (q ++ a :: a' :: l).length := by
          rw [← hread, Arrays.length_read hreads.1]
        refine ⟨hreads.1.drop (by rw [hlen]; simp), ?_⟩
        rw [Arrays.read_drop, hread, ← List.tail_drop, List.drop_left, List.tail_cons]
      obtain ⟨h2, hf2, hz2⟩ := (hn.good.reached hkept).assign (z := z)
        (b := .ext (s.drop (q.length + 1)) (C.treeHash u)) hn.right
        (by rw [NodeBody.toNode, hdrop.2]; rfl) (fun s' next hb => by cases hb; exact hdrop.1)
        (fun heq => absurd heq hyz) hown
      rw [returns_bind_of_ok (modifyNode_apply _ _ _), hbody, NodeBody.setPath,
        returns_bind_of_ok (saveNode_apply _ _), hz2]
      set t₂ := t₁.setObj n ⟨.ext (s.drop (q.length + 1)) (C.treeHash u), (t₁.heap n).hash⟩
      have h3 : Reached C L (fun x => k x + one y x + C.occ x (Tree.extend (a' :: l) u))
          (∅ ∪ changed y z) t₁ (savedNode C n t₂) :=
        h2.savedNode hn.lt hn.live fun x => by
          rw [hz2, NodeCodec.occ_ext, NodeCodec.occ_extend_cons, ← hy, ← hz]
          omega
      have hf3 : Fresh C (savedNode C n t₂) z := by
        rw [← hz2] at hf2 ⊢
        exact hf2.savedNode
      -- What occurs in the new tree has kept its object.
      have hstay : ∀ w : PatriciaTree, w ≠ .nil →
          C.occ (C.treeHash w) w ≤ C.occ (C.treeHash w) (Tree.extend q B) →
          Fresh C t₁ (C.treeHash w) → Fresh C (savedNode C n t₂) (C.treeHash w) := by
        intro w hw hle hf
        have hpos := NodeCodec.occ_self_pos (C := C) hw
        refine h3.fresh hn.good (fun hprep hmem => ?_) hf
        refine h.notMem (x := C.treeHash w) ?_ (hn.loads.prepared.symm.trans hprep) ?_
        · rw [hins]
          omega
        · rw [hfork]
          exact hmem.resolve_left (Set.notMem_empty _)
      have hbq := fun x => occ_le_extend (C := C) x q B
      have hvq := fun x => occ_le_extend (C := C) x rest.tail (.leaf v)
      refine ((h3.good.reached h3.kept).splitExt (l := a' :: l) hne hreads
        (hstay _ (by simp) ?_ hleaf) (fun hr => hstay _ (by simp) ?_ (hext hr))
        (hstay _ (splitBranch_ne_nil _ _ _ _) (hbq _) hfb)
        fun hq => hstay _ (by simp) ?_ (hfq hq)).mono ?_
      · refine le_trans ?_ (hbq _)
        rw [hocc]
        exact le_trans (hvq _) (by omega)
      · refine le_trans ?_ (hbq _)
        rw [hocc, show Tree.extend rest.tail (.leaf v) = .ext rest.tail (.leaf v) from if_neg hr]
        omega
      · rw [show Tree.extend q B = .ext q B from if_neg hq]
      · rintro x t₄ ⟨hx, h4, -⟩
        refine ⟨by rw [hx, hins], ?_, fun s hs ho => ?_⟩
        · rw [hins, hfork]
          exact (h01.trans (h3.trans h4)).mono (by simp)
        · rw [hsaves] at hs
          rw [(eq_of_into_split hs ho).2]
          exact h4.fresh h3.good (by simp) hf3

/-- **Putting a value.**  On the hash of a well-formed tree that the trie holds, `update`
returns the hash of the tree with the value inserted. -/
theorem update_returns {u : PatriciaTree} (hwf : u.WF) {fuel : ℕ} (hfuel : r.length + 2 ≤ fuel)
    (h : CanInsert C L k u r v t) :
    Returns (update C fuel (C.treeHash u) r v) t (Inserted C L k u r v t) := by
  induction u generalizing fuel r k t with
  | nil =>
      obtain ⟨fuel, rfl⟩ := Nat.exists_eq_add_of_le' (show 1 ≤ fuel by omega)
      exact update_nil h fuel
  | leaf w =>
      obtain ⟨fuel, rfl⟩ := Nat.exists_eq_add_of_le' (show 1 ≤ fuel by omega)
      exact update_leaf h fuel
  | ext p u ih =>
      obtain ⟨fuel, rfl⟩ := Nat.exists_eq_add_of_le' (show 1 ≤ fuel by omega)
      by_cases hp : p <+: r
      · obtain ⟨r, rfl⟩ := hp
        have hlen : 0 < p.length := List.length_pos_of_ne_nil hwf.1
        rw [List.length_append] at hfuel
        exact update_ext_append h fun h' => ih hwf.2.2 (by omega) h'
      · exact update_ext_fork h hp fuel
  | branch w kids ih =>
      obtain ⟨fuel, rfl⟩ := Nat.exists_eq_add_of_le' (show 1 ≤ fuel by omega)
      cases r with
      | nil => exact update_branch_nil h fuel
      | cons i r =>
          rw [List.length_cons] at hfuel
          exact update_branch_cons h fun h' => ih i (hwf.2 i) (by omega) h'

/-- After putting a value the trie holds the new tree. -/
lemma Inserted.holds {x : Hash} (hi : Inserted C L k u r v t x t') (h : CanInsert C L k u r v t) :
    Holds C L k (u.insert r v) t' where
  good := hi.2.1.good
  kept := hi.2.1.kept
  fresh := by
    intro y hy
    have hstay : Fresh C t y → Fresh C t' y := hi.2.1.fresh h.holds.good (h.notMem hy.ne')
    rcases saved_of_occ_insert hy with hold | ⟨⟨w, into⟩, hs, rfl⟩
    · exact hstay (h.holds.fresh y hold)
    · cases into with
      | none => exact hstay (h.saves _ hs).fresh
      | some old => exact hi.2.2 _ hs (by simp)

end Trie

end GoMedibloc
