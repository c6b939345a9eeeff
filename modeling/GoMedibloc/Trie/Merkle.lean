import GoMedibloc.Trie.Node

/-!
# The Merkle tree over a radix tree

The meaning of a trie is a radix tree over nibbles.  `treeHash` is the root hash that such
a tree has: every subtree is encoded as a node that names its children by their hashes.
The hash commits to the whole tree (`treeHash_injective`), since the encoding and SHA3-256
are injective.

`occ h t` counts the nodes of `t` with hash `h`, values in branches included.  The
reference counts of a prepared trie are compared with it.
-/

namespace GoMedibloc

open Radix

/-- The radix trees that a trie stands for. -/
abbrev PatriciaTree := Tree 16 Bytes

/-- The slots of a branch: the hashes of the children and of the value. -/
def branchSlots (kids : Fin 16 → Hash) (value : Hash) : Fin 17 → Hash := fun i =>
  if h : i.val < 16 then kids ⟨i.val, h⟩ else value

section BranchSlots

variable (kids : Fin 16 → Hash) (value : Hash)

@[simp] lemma branchSlots_castSucc (i : Fin 16) : branchSlots kids value i.castSucc = kids i := by
  simp [branchSlots]

@[simp] lemma branchSlots_value : branchSlots kids value 16 = value := by
  simp [branchSlots]

/-- A slot is one of the nibbles or slot 16. -/
lemma slot_cases (i : Fin 17) : (∃ j : Fin 16, i = j.castSucc) ∨ i = 16 := by
  by_cases h : i.val < 16
  · exact .inl ⟨⟨i.val, h⟩, rfl⟩
  · exact .inr (Fin.ext (by have := i.isLt; simp only [Fin.coe_ofNat_eq_mod]; omega))

lemma castSucc_ne_value (i : Fin 16) : i.castSucc ≠ (16 : Fin 17) :=
  (Fin.castSucc_lt_last i).ne

lemma update_branchSlots_castSucc (i : Fin 16) (h : Hash) :
    Function.update (branchSlots kids value) i.castSucc h =
      branchSlots (Function.update kids i h) value := by
  funext j
  rcases slot_cases j with ⟨j, rfl⟩ | rfl
  · by_cases hj : j = i
    · simp [hj]
    · have hne : j.castSucc ≠ i.castSucc := fun hc => hj (Fin.castSucc_injective _ hc)
      simp [hj, hne]
  · simp [(castSucc_ne_value i).symm]

lemma update_branchSlots_value (h : Hash) :
    Function.update (branchSlots kids value) 16 h = branchSlots kids h := by
  funext j
  rcases slot_cases j with ⟨j, rfl⟩ | rfl
  · simp [castSucc_ne_value j]
  · simp

variable {kids value} in
lemma branchSlots_injective {kids' : Fin 16 → Hash} {value' : Hash}
    (h : branchSlots kids value = branchSlots kids' value') : kids = kids' ∧ value = value' := by
  constructor
  · funext i
    simpa using congrFun h i.castSucc
  · simpa using congrFun h 16

lemma emptyBranch_eq : Node.emptyBranch = .branch (branchSlots (fun _ => []) []) := by
  unfold Node.emptyBranch
  congr 1
  funext i
  rcases slot_cases i with ⟨i, rfl⟩ | rfl <;> simp

end BranchSlots

/-- A reference to the hash `y`, as a number of references to each hash. -/
def one (y x : Hash) : ℕ := if y = x then 1 else 0

@[simp] lemma one_self (x : Hash) : one x x = 1 := if_pos rfl

lemma one_of_ne {x y : Hash} (h : y ≠ x) : one y x = 0 := if_neg h

lemma eq_of_one_ne_zero {x y : Hash} (h : one y x ≠ 0) : y = x := by
  by_contra hne
  exact h (one_of_ne hne)

namespace NodeCodec

variable (C : NodeCodec)

/-- The hash in slot 16 of a branch. -/
def valueHash : Option Bytes → Hash
  | none => []
  | some v => C.hash (.val v)

/-- The root hash of a tree. -/
def treeHash : PatriciaTree → Hash
  | .nil => []
  | .leaf v => C.hash (.val v)
  | .ext p t => C.hash (.ext p (treeHash t))
  | .branch v kids => C.hash (.branch (branchSlots (fun i => treeHash (kids i)) (C.valueHash v)))

/-- The root node of a tree that is not empty. -/
def treeNode : PatriciaTree → Node
  | .nil => .val []
  | .leaf v => .val v
  | .ext p t => .ext p (C.treeHash t)
  | .branch v kids => .branch (branchSlots (fun i => C.treeHash (kids i)) (C.valueHash v))

variable {C}

@[simp] lemma treeHash_nil : C.treeHash .nil = [] := rfl

lemma treeHash_eq {t : PatriciaTree} (h : t ≠ .nil) : C.treeHash t = C.hash (C.treeNode t) := by
  cases t with
  | nil => exact absurd rfl h
  | leaf v => rfl
  | ext p t => rfl
  | branch v kids => rfl

@[simp] lemma treeHash_eq_nil_iff {t : PatriciaTree} : C.treeHash t = [] ↔ t = .nil := by
  constructor
  · intro h
    by_contra hne
    rw [treeHash_eq hne] at h
    exact C.hash_ne_nil _ h
  · rintro rfl
    rfl

lemma valueHash_injective : Function.Injective C.valueHash := by
  intro v w h
  cases v with
  | none =>
      cases w with
      | none => rfl
      | some w => exact absurd h.symm (C.hash_ne_nil _)
  | some v =>
      cases w with
      | none => exact absurd h (C.hash_ne_nil _)
      | some w => simpa [valueHash] using C.hash_injective h

/-- **The root hash commits to the whole tree.** -/
lemma treeHash_injective : Function.Injective C.treeHash := by
  intro t
  induction t with
  | nil => exact fun u h => (treeHash_eq_nil_iff.1 h.symm).symm
  | leaf v =>
      intro u h
      cases u with
      | nil => exact absurd h (C.hash_ne_nil _)
      | leaf w => simpa using C.hash_injective h
      | ext q u => simpa using C.hash_injective h
      | branch w kids => simpa using C.hash_injective h
  | ext p t ih =>
      intro u h
      cases u with
      | nil => exact absurd h (C.hash_ne_nil _)
      | leaf w => simpa using C.hash_injective h
      | ext q u =>
          obtain ⟨rfl, htu⟩ := Node.ext.inj (C.hash_injective h)
          rw [ih htu]
      | branch w kids => simpa using C.hash_injective h
  | branch v kids ih =>
      intro u h
      cases u with
      | nil => exact absurd h (C.hash_ne_nil _)
      | leaf w => simpa using C.hash_injective h
      | ext q u => simpa using C.hash_injective h
      | branch w kids' =>
          obtain ⟨hkids, hvw⟩ := branchSlots_injective (Node.branch.inj (C.hash_injective h))
          have hk : kids = kids' := funext fun i => ih i (congrFun hkids i)
          rw [valueHash_injective hvw, hk]

variable (C)

/-- How many nodes of a tree have a given hash. -/
def occ (h : Hash) : PatriciaTree → ℕ
  | .nil => 0
  | .leaf v => one (C.treeHash (.leaf v)) h
  | .ext p t => one (C.treeHash (.ext p t)) h + occ h t
  | .branch v kids =>
      one (C.treeHash (.branch v kids)) h +
        (v.elim 0 (fun w => one (C.treeHash (.leaf w)) h) + ∑ i, occ h (kids i))

variable {C}

lemma occ_leaf (h : Hash) (v : Bytes) : C.occ h (.leaf v) = one (C.treeHash (.leaf v)) h := rfl

lemma occ_ext (h : Hash) (p : Route) (t : PatriciaTree) :
    C.occ h (.ext p t) = one (C.treeHash (.ext p t)) h + C.occ h t := rfl

lemma occ_branch (h : Hash) (v : Option Bytes) (kids : Fin 16 → PatriciaTree) :
    C.occ h (.branch v kids) = one (C.treeHash (.branch v kids)) h +
      (v.elim 0 (fun w => C.occ h (.leaf w)) + ∑ i, C.occ h (kids i)) := rfl

/-- A hash that occurs is the hash of a subtree. -/
lemma exists_of_occ_ne_zero {h : Hash} {t : PatriciaTree} (ho : C.occ h t ≠ 0) :
    ∃ u, u ≠ .nil ∧ C.treeHash u = h ∧ u.size ≤ t.size := by
  induction t with
  | nil => exact absurd rfl ho
  | leaf v => exact ⟨.leaf v, by simp, eq_of_one_ne_zero ho, le_rfl⟩
  | ext p t ih =>
      rw [occ_ext] at ho
      by_cases hself : one (C.treeHash (.ext p t)) h = 0
      · obtain ⟨u, hu, huh, hsize⟩ := ih (by omega)
        exact ⟨u, hu, huh, hsize.trans (Tree.size_ext_lt p t).le⟩
      · exact ⟨.ext p t, by simp, eq_of_one_ne_zero hself, le_rfl⟩
  | branch v kids ih =>
      rw [occ_branch] at ho
      by_cases hself : one (C.treeHash (.branch v kids)) h = 0
      · by_cases hval : v.elim 0 (fun w => C.occ h (.leaf w)) = 0
        · obtain ⟨i, -, hi⟩ := Finset.exists_ne_zero_of_sum_ne_zero
            (show ∑ i, C.occ h (kids i) ≠ 0 by omega)
          obtain ⟨u, hu, huh, hsize⟩ := ih i hi
          exact ⟨u, hu, huh, hsize.trans (Tree.size_kid_lt v kids i).le⟩
        · cases v with
          | none => exact absurd rfl hval
          | some w =>
              exact ⟨.leaf w, by simp, eq_of_one_ne_zero hval, (Tree.size_value_lt w kids).le⟩
      · exact ⟨.branch v kids, by simp, eq_of_one_ne_zero hself, le_rfl⟩

/-- No tree occurs in a smaller one. -/
lemma occ_eq_zero_of_size_lt {t u : PatriciaTree} (h : t.size < u.size) :
    C.occ (C.treeHash u) t = 0 := by
  by_contra hne
  obtain ⟨w, -, hw, hsize⟩ := exists_of_occ_ne_zero hne
  rw [treeHash_injective hw] at hsize
  omega

lemma occ_self_pos {t : PatriciaTree} (h : t ≠ .nil) : 0 < C.occ (C.treeHash t) t := by
  cases t with
  | nil => exact absurd rfl h
  | leaf v => simp [occ_leaf]
  | ext p t => simp [occ_ext]
  | branch v kids => simp [occ_branch]

lemma occ_ext_le (h : Hash) (p : Route) (t : PatriciaTree) : C.occ h t ≤ C.occ h (.ext p t) := by
  rw [occ_ext]
  omega

lemma occ_kid_le (h : Hash) (v : Option Bytes) (kids : Fin 16 → PatriciaTree) (i : Fin 16) :
    C.occ h (kids i) ≤ C.occ h (.branch v kids) := by
  have hle : C.occ h (kids i) ≤ ∑ j, C.occ h (kids j) :=
    Finset.single_le_sum (f := fun j => C.occ h (kids j)) (fun _ _ => Nat.zero_le _)
      (Finset.mem_univ i)
  rw [occ_branch]
  omega

lemma occ_value_le (h : Hash) (w : Bytes) (kids : Fin 16 → PatriciaTree) :
    C.occ h (.leaf w) ≤ C.occ h (.branch (some w) kids) := by
  rw [occ_branch, Option.elim_some]
  omega

/-- Replacing a child replaces its share of the sum. -/
lemma sum_occ_update (h : Hash) (kids : Fin 16 → PatriciaTree) (i : Fin 16) (u : PatriciaTree) :
    ∑ j, C.occ h (Function.update kids i u j) + C.occ h (kids i) =
      ∑ j, C.occ h (kids j) + C.occ h u := by
  have hsum : ∀ f : Fin 16 → PatriciaTree, ∑ j, C.occ h (f j) =
      C.occ h (f i) + ∑ j ∈ Finset.univ.erase i, C.occ h (f j) := fun f =>
    (Finset.add_sum_erase Finset.univ _ (Finset.mem_univ i)).symm
  have hrest : ∑ j ∈ Finset.univ.erase i, C.occ h (Function.update kids i u j) =
      ∑ j ∈ Finset.univ.erase i, C.occ h (kids j) :=
    Finset.sum_congr rfl fun j hj => by
      rw [Function.update_of_ne (Finset.ne_of_mem_erase hj)]
  rw [hsum (Function.update kids i u), hsum kids, hrest, Function.update_self]
  omega

/-- The sum over the children of a branch with one child. -/
lemma sum_occ_single (h : Hash) (i : Fin 16) (u : PatriciaTree) :
    ∑ j, C.occ h (Tree.single i u j) = C.occ h u := by
  have := sum_occ_update (C := C) h (fun _ => .nil) i u
  simpa [occ, Tree.single] using this

/-- The hashes of the children, with one child replaced. -/
lemma treeHash_update (kids : Fin 16 → PatriciaTree) (i : Fin 16) (u : PatriciaTree) :
    (fun j => C.treeHash (Function.update kids i u j)) =
      Function.update (fun j => C.treeHash (kids j)) i (C.treeHash u) :=
  Function.comp_update C.treeHash kids i u

lemma treeHash_single (i : Fin 16) (u : PatriciaTree) :
    (fun j => C.treeHash (Tree.single i u j)) = Function.update (fun _ => []) i (C.treeHash u) :=
  treeHash_update (fun _ => .nil) i u

lemma occ_extend_cons (h : Hash) (i : Fin 16) (p : Route) (u : PatriciaTree) :
    C.occ h (Tree.extend (i :: p) u) = one (C.treeHash (.ext (i :: p) u)) h + C.occ h u := rfl

end NodeCodec

end GoMedibloc
