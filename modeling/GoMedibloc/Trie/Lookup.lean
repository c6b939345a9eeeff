import GoMedibloc.Trie.Operation

/-!
# Get

`Trie.get` walks down from the root.  On the hash of a tree that the trie holds it returns
the value that the tree has for the route, or `ErrNotFound` (`getLoop_finds`), and it does
nothing but load nodes.
-/

namespace GoMedibloc

open Prog Radix

/-- The result of `Get` for a key that has, or has not, a value. -/
def lookupResult : Option Bytes → Except TrieErr Bytes
  | some v => .ok v
  | none => .error .notFound

namespace Trie

variable {C : NodeCodec} {L : NodePtr → Prop} {t : Trie} {k : Hash → ℕ} {r : Route}

/-- The run ends with the given result and has only loaded nodes. -/
def Finds (C : NodeCodec) (L : NodePtr → Prop) (x : TrieM Bytes) (t : Trie)
    (res : Option Bytes) : Prop :=
  ∃ t', x t = (lookupResult res, t') ∧ Loads C t t' ∧ Good C L t'

/-- Walking on after a node was fetched. -/
lemma Finds.after_fetch {u : PatriciaTree} {n : NodePtr} {t₁ : Trie} {f : NodePtr → TrieM Bytes}
    {res : Option Bytes} (hrun : fetchNode C (C.treeHash u) t = (.ok n, t₁))
    (hn : Fetched C L u t n t₁) (hf : Finds C L (f n) t₁ res) :
    Finds C L (fetchNode C (C.treeHash u) >>= f) t res := by
  obtain ⟨t₂, h2, hl2, hg2⟩ := hf
  exact ⟨t₂, by rw [bind_of_ok hrun, h2], hn.loads.trans hn.good.toSound hl2, hg2⟩

lemma finds_nil (hg : Good C L t) (fuel : ℕ) : Finds C L (getLoop C (fuel + 1) [] r) t none := by
  refine ⟨t, ?_, Loads.refl C t, hg⟩
  rw [getLoop, bind_of_error (fetchNode_nil hg)]
  rfl

lemma finds_leaf {v : Bytes} (h : Holds C L k (.leaf v) t) (fuel : ℕ) :
    Finds C L (getLoop C (fuel + 1) (C.treeHash (.leaf v)) r) t ((Tree.leaf v).get r) := by
  obtain ⟨n, t₁, hrun, hn⟩ := h.fetch (by simp)
  refine Finds.after_fetch hrun hn ⟨t₁, ?_, Loads.refl C t₁, hn.good⟩
  simp only [read_bind, hn.node, NodeCodec.treeNode]
  cases r <;> rfl

/-- **Looking up a route.**  On the hash of a well-formed tree that the trie holds, the loop
of `get` returns what the tree has for the route. -/
theorem getLoop_finds {u : PatriciaTree} (hwf : u.WF) {fuel : ℕ} (hfuel : r.length + 2 ≤ fuel)
    (h : Holds C L k u t) : Finds C L (getLoop C fuel (C.treeHash u) r) t (u.get r) := by
  induction u generalizing fuel r k t with
  | nil =>
      obtain ⟨fuel, rfl⟩ := Nat.exists_eq_add_of_le' (show 1 ≤ fuel by omega)
      exact finds_nil h.good fuel
  | leaf v =>
      obtain ⟨fuel, rfl⟩ := Nat.exists_eq_add_of_le' (show 1 ≤ fuel by omega)
      exact finds_leaf h fuel
  | ext p u ih =>
      obtain ⟨fuel, rfl⟩ := Nat.exists_eq_add_of_le' (show 1 ≤ fuel by omega)
      obtain ⟨n, t₁, hrun, hn⟩ := h.fetch (by simp)
      have hlen : 0 < p.length := List.length_pos_of_ne_nil hwf.1
      have hsub : Holds C L (fun x => k x + one (C.treeHash (.ext p u)) x) u t₁ :=
        (h.loads hn.good hn.loads).sub (fun x => by rw [NodeCodec.occ_ext]; omega)
          fun x => NodeCodec.occ_ext_le x p u
      refine Finds.after_fetch hrun hn ?_
      by_cases hp : p <+: r
      · obtain ⟨r, rfl⟩ := hp
        rw [List.length_append] at hfuel
        rw [Tree.get_ext_append]
        obtain ⟨t₂, h2, hl2, hg2⟩ := ih hwf.2.2 (show r.length + 2 ≤ fuel by omega) hsub
        refine ⟨t₂, ?_, hl2, hg2⟩
        have hcommon : commonLen p (p ++ r) = p.length :=
          commonLen_eq_length_iff.2 (List.prefix_append p r)
        simp only [read_bind, hn.node, NodeCodec.treeNode, hcommon, ne_eq, not_true_eq_false,
          if_false, List.drop_left, h2]
      · rw [Tree.get_ext_not_prefixed hp]
        refine ⟨t₁, ?_, Loads.refl C t₁, hn.good⟩
        have hcommon : commonLen p r ≠ p.length := fun hc => hp (commonLen_eq_length_iff.1 hc)
        simp only [read_bind, hn.node, NodeCodec.treeNode, hcommon, ne_eq, not_false_eq_true,
          if_true]
        rfl
  | branch w kids ih =>
      obtain ⟨fuel, rfl⟩ := Nat.exists_eq_add_of_le' (show 1 ≤ fuel by omega)
      obtain ⟨n, t₁, hrun, hn⟩ := h.fetch (by simp)
      have h1 := h.loads hn.good hn.loads
      refine Finds.after_fetch hrun hn ?_
      cases r with
      | nil =>
          obtain ⟨fuel, rfl⟩ := Nat.exists_eq_add_of_le' (show 1 ≤ fuel by
            simp only [List.length_nil] at hfuel
            omega)
          have hval : Finds C L (getLoop C (fuel + 1) (C.valueHash w) []) t₁ w := by
            cases w with
            | none => exact finds_nil hn.good fuel
            | some w =>
                refine finds_leaf (k := fun x => k x + C.occ x (.branch (some w) kids) -
                  C.occ x (.leaf w)) (h1.sub (fun x => ?_) fun x =>
                    NodeCodec.occ_value_le x w kids) fuel
                have := NodeCodec.occ_value_le (C := C) x w kids
                omega
          obtain ⟨t₂, h2, hl2, hg2⟩ := hval
          refine ⟨t₂, ?_, hl2, hg2⟩
          simp only [read_bind, hn.node, NodeCodec.treeNode, branchSlots_value, h2]
          rfl
      | cons i r =>
          rw [List.length_cons] at hfuel
          have hsub : Holds C L (fun x => k x + C.occ x (.branch w kids) - C.occ x (kids i))
              (kids i) t₁ := by
            refine h1.sub (fun x => ?_) fun x => NodeCodec.occ_kid_le x w kids i
            have := NodeCodec.occ_kid_le (C := C) x w kids i
            omega
          obtain ⟨t₂, h2, hl2, hg2⟩ := ih i (hwf.2 i) (show r.length + 2 ≤ fuel by omega) hsub
          refine ⟨t₂, ?_, hl2, hg2⟩
          simp only [read_bind, hn.node, NodeCodec.treeNode, branchSlots_castSucc, h2]
          rfl

end Trie

end GoMedibloc
