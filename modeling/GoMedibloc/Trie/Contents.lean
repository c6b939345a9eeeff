import GoMedibloc.Trie.Delete
import GoMedibloc.Trie.Lookup

/-!
# The contents of a trie

`Stores C u t` says that the trie `t` is at the root of the tree `u` and has all of its
nodes; then `treeContents u` are its contents, a map from keys to values.  `Put`, `Get` and
`Delete` are followed here on trees, in a prepared and in an unprepared trie at once: the
conditions on the cache (`CanInsert`, `CanCut`) are void in an unprepared trie.

On the contents, `Put` is the update of a map and `Delete` of a present key the removal.
`Delete` of an absent key is not always an error: the walk may end in the value of a shorter
key (`Swallows`), and then that value is removed.
-/

namespace GoMedibloc

open Prog Radix

/-- The contents of a trie. -/
abbrev Contents := Bytes → Option Bytes

/-- The contents of a tree. -/
def treeContents (u : PatriciaTree) : Contents := fun k => u.get (keyToRoute k)

/-- Every route with a value is the route of a key. -/
def KeysWhole (u : PatriciaTree) : Prop := ∀ r v, u.get r = some v → ∃ k, r = keyToRoute k

/-- `Delete` of `k` ends in the value of the shorter key `p`: no key extends `p`, so that its
value is the last node on the way. -/
def Swallows (m : Contents) (k p : Bytes) : Prop :=
  p <+: k ∧ p ≠ k ∧ m p ≠ none ∧ ∀ q, p <+: q → q ≠ p → m q = none

/-! ## Operations on the contents of a tree -/

section Tree

variable {u u' : PatriciaTree}

lemma treeContents_insert (u : PatriciaTree) (k v : Bytes) :
    treeContents (u.insert (keyToRoute k) v) = Function.update (treeContents u) k (some v) := by
  funext l
  rw [treeContents, Tree.get_insert]
  by_cases hl : l = k
  · subst hl
    simp
  · rw [if_neg fun h => hl (keyToRoute_injective h), Function.update_of_ne hl]
    rfl

lemma KeysWhole.insert (h : KeysWhole u) (k v : Bytes) :
    KeysWhole (u.insert (keyToRoute k) v) := by
  intro r w hr
  rw [Tree.get_insert] at hr
  split_ifs at hr with hk
  · exact ⟨k, hk⟩
  · exact h r w hr

/-- A deletion that succeeds removes one key. -/
lemma exists_of_cut (hkeys : KeysWhole u) {k : Bytes} (hcut : u.cut (keyToRoute k) = some u') :
    KeysWhole u' ∧ ∃ p, (p = k ∧ treeContents u k ≠ none ∨ Swallows (treeContents u) k p) ∧
      treeContents u' = Function.update (treeContents u) p none := by
  obtain ⟨r, hr, hget⟩ := Tree.cut_eq_some u _ hcut
  obtain ⟨hpre, v, hv⟩ := Tree.reach_spec hr
  obtain ⟨p, rfl⟩ := hkeys r v hv
  refine ⟨fun s w hs => ?_, p, ?_, ?_⟩
  · rw [hget] at hs
    split_ifs at hs
    exact hkeys s w hs
  · by_cases hp : p = k
    · subst hp
      left
      exact ⟨rfl, by rw [treeContents, hv]; simp⟩
    · right
      refine ⟨keyToRoute_prefix_iff.1 hpre, hp, by rw [treeContents, hv]; simp, fun q hq hqp => ?_⟩
      exact Tree.reach_maximal hr (fun h => hp (keyToRoute_injective h))
        (keyToRoute_prefix_iff.2 hq) fun h => hqp (keyToRoute_injective h)
  · funext l
    rw [treeContents, hget]
    by_cases hl : l = p
    · subst hl
      simp
    · rw [if_neg fun h => hl (keyToRoute_injective h), Function.update_of_ne hl]
      rfl

/-- A deletion that fails finds neither the key nor a key that it would swallow. -/
lemma of_cut_eq_none (hwf : u.WF) (hkeys : KeysWhole u) {k : Bytes}
    (hcut : u.cut (keyToRoute k) = none) :
    treeContents u k = none ∧ ∀ p, ¬ Swallows (treeContents u) k p := by
  rw [Tree.cut_eq_none_iff] at hcut
  constructor
  · by_contra hne
    obtain ⟨v, hv⟩ := Option.ne_none_iff_exists'.1 hne
    rw [Tree.reach_of_get hv] at hcut
    cases hcut
  · rintro p ⟨hpre, hp, hm, hmax⟩
    obtain ⟨v, hv⟩ := Option.ne_none_iff_exists'.1 hm
    have hreach := Tree.reach_of_maximal hwf hv (keyToRoute_prefix_iff.2 hpre) fun s hs hsp => by
      by_contra hne
      obtain ⟨w, hw⟩ := Option.ne_none_iff_exists'.1 hne
      obtain ⟨q, rfl⟩ := hkeys s w hw
      have := hmax q (keyToRoute_prefix_iff.1 hs) fun h => hsp (by rw [h])
      rw [treeContents, hw] at this
      cases this
    rw [hreach] at hcut
    cases hcut

/-- **Canonical trees.**  A tree in normal form is determined by its contents. -/
lemma eq_of_treeContents_eq {w : PatriciaTree} (hu : u.WF) (hw : w.WF) (hku : KeysWhole u)
    (hkw : KeysWhole w) (h : treeContents u = treeContents w) : u = w := by
  refine Tree.eq_of_get_eq hu hw fun r => ?_
  by_cases hr : ∃ k, r = keyToRoute k
  · obtain ⟨k, rfl⟩ := hr
    exact congrFun h k
  · have hnone : ∀ t : PatriciaTree, KeysWhole t → t.get r = none := by
      intro t ht
      by_contra hne
      obtain ⟨v, hv⟩ := Option.ne_none_iff_exists'.1 hne
      exact hr (ht r v hv)
    rw [hnone u hku, hnone w hkw]

lemma keysWhole_nil : KeysWhole .nil := by
  intro r v h
  cases h

end Tree

namespace Trie

/-- The pointers that an operation may reach: those that are cached, and new ones. -/
def Live (t : Trie) (p : NodePtr) : Prop :=
  t.nextPtr ≤ p ∨ ∃ x temp, t.tempNodes x = some temp ∧ temp.node = p

/-- The trie is at the root of the tree and has all of its nodes. -/
structure Stores (C : NodeCodec) (u : PatriciaTree) (t : Trie) : Prop where
  wf : u.WF
  keys : KeysWhole u
  root : t.rootHash = C.treeHash u
  holds : Holds C t.Live (fun _ => 0) u t

/-- What an operation that leads to the tree `u` does to a trie. -/
structure Became (C : NodeCodec) (u : PatriciaTree) (t t' : Trie) : Prop where
  stores : Stores C u t'
  prepared : t'.prepared = t.prepared
  storage : ∀ x, (t.storage x).isSome → (t'.storage x).isSome
  storage_eq : t.prepared = true → t'.storage = t.storage
  clean : Clean C t → Clean C t'

variable {C : NodeCodec} {L : NodePtr → Prop} {M : Set Hash} {t t' : Trie} {c k : Hash → ℕ}
  {u u' : PatriciaTree}

/-! ## Between two operations -/

/-- Between two operations only the cached objects are live. -/
lemma Good.live_only (h : Good C L t) : Good C t.Live t :=
  { h with
    live := fun x temp he => .inr ⟨x, temp, he, rfl⟩
    live_new := fun _ hp => .inl hp }

lemma Holds.live_only (h : Holds C L k u t) : Holds C t.Live k u t :=
  ⟨h.good.live_only, h.fresh, h.kept⟩

lemma Holds.setRoot (h : Holds C L k u t) (x : Hash) :
    Holds C L k u { t with rootHash := x } where
  good := { h.good with }
  fresh := fun y hy temp he => ⟨(h.fresh y hy temp he).node, (h.fresh y hy temp he).hash⟩
  kept := h.kept

lemma Clean.setRoot (h : Clean C t) (x : Hash) : Clean C { t with rootHash := x } :=
  fun y temp he hs => (h y temp he hs).of_eq rfl rfl

/-- The end of an operation that returns a new root. -/
lemma Reached.became (h : Reached C L c M t t') (hwf : u.WF) (hkeys : KeysWhole u)
    (hh : Holds C L (fun _ => 0) u t') :
    Became C u t { t' with rootHash := C.treeHash u } where
  stores := ⟨hwf, hkeys, rfl, (hh.setRoot _).live_only⟩
  prepared := h.evolves.prepared
  storage := h.evolves.storage
  storage_eq := h.evolves.storage_eq
  clean := fun hc => (h.clean hc).setRoot _

/-- The end of an operation that has only read nodes. -/
lemma Stores.loads (hs : Stores C u t) (hg : Good C t.Live t') (hl : Loads C t t') :
    Became C u t t' where
  stores := ⟨hs.wf, hs.keys, hl.rootHash.trans hs.root, (hs.holds.loads hg hl).live_only⟩
  prepared := hl.prepared
  storage := fun x hx => by rwa [hl.storage]
  storage_eq := fun _ => hl.storage
  clean := fun hc => hc.loads hs.holds.good.toSound hl

lemma Became.refl (hs : Stores C u t) : Became C u t t :=
  ⟨hs, rfl, fun _ h => h, fun _ => rfl, id⟩

lemma Became.trans {t'' : Trie} (h : Became C u t t') (h' : Became C u' t' t'') :
    Became C u' t t'' where
  stores := h'.stores
  prepared := h'.prepared.trans h.prepared
  storage := fun x hx => h'.storage x (h.storage x hx)
  storage_eq := fun hp => (h'.storage_eq (h.prepared.trans hp)).trans (h.storage_eq hp)
  clean := fun hc => h'.clean (h.clean hc)

/-! ## The operations -/

/-- `Put` in a trie that meets the conditions on the cache. -/
lemma put_returns (hs : Stores C u t) {key value : Bytes}
    (h : CanInsert C t.Live (fun _ => 0) u (keyToRoute key) value t) :
    Returns (put C key value) t
      fun _ t' => Became C (u.insert (keyToRoute key) value) t t' := by
  unfold put
  rw [returns_read_bind, hs.root]
  refine Returns.bind (update_returns hs.wf le_rfl h) ?_
  intro x t₁ hi
  obtain ⟨rfl, hr, -⟩ := id hi
  exact ⟨(), _, rfl, hr.became (Tree.wf_insert hs.wf _ _) (hs.keys.insert key value) (hi.holds h)⟩

/-- `Get`. -/
lemma get_finds (hs : Stores C u t) (key : Bytes) :
    ∃ t', get C key t = (lookupResult (treeContents u key), t') ∧ Became C u t t' := by
  have hfuel : (keyToRoute key).length + 2 ≤ (keyToRoute key).length + 2 := le_rfl
  obtain ⟨t', hrun, hl, hg⟩ := getLoop_finds hs.wf hfuel hs.holds
  refine ⟨t', ?_, hs.loads hg hl⟩
  rw [← hs.root] at hrun
  exact hrun

/-- `Delete` when the walk ends in a value, in a trie that meets the conditions on the
cache. -/
lemma deleteKey_returns (hs : Stores C u t) {key : Bytes}
    (hcut : u.cut (keyToRoute key) = some u')
    (h : CanCut C t.Live (fun _ => 0) u (keyToRoute key) t)
    (hkeeps : t.prepared = true →
      ∀ w ∈ cutChanged u (keyToRoute key), C.occ (C.treeHash w) u' = 0) :
    Returns (deleteKey C key) t fun _ t' => Became C u' t t' := by
  unfold deleteKey
  rw [returns_read_bind, hs.root]
  refine Returns.bind (delete_returns hs.wf hcut le_rfl h) ?_
  intro x t₁ hr
  obtain rfl := hr.hash
  exact ⟨(), _, rfl, hr.reached.became (Tree.wf_cut hs.wf hcut) (exists_of_cut hs.keys hcut).1
    (hr.holds h hcut hkeeps)⟩

/-- `Delete` when the walk ends in no value. -/
lemma deleteKey_fails (hs : Stores C u t) {key : Bytes} (hcut : u.cut (keyToRoute key) = none) :
    Fails (deleteKey C key) t .notFound (Became C u t) := by
  unfold deleteKey
  rw [fails_read_bind, hs.root]
  refine Fails.bind ((delete_fails hs.wf hcut le_rfl hs.holds).mono ?_)
  rintro t' ⟨hl, hg⟩
  exact hs.loads hg hl

/-! ## Unprepared tries -/

/-- An unprepared trie has no cache, so the conditions on it are void. -/
lemma CanInsert.of_unprepared (h : Holds C L k u t) (hp : t.prepared = false) (r : Route)
    (v : Bytes) : CanInsert C L k u r v t where
  holds := h
  saves := fun s _ temp he => by
    rw [h.good.idle hp] at he
    cases he
  keeps := fun hp' => by
    rw [hp] at hp'
    cases hp'

lemma CanCut.of_unprepared (h : Holds C L k u t) (hp : t.prepared = false) (r : Route) :
    CanCut C L k u r t where
  holds := h
  saves := fun s _ temp he => by
    rw [h.good.idle hp] at he
    cases he
  keeps := fun hp' => by
    rw [hp] at hp'
    cases hp'
  apart := fun w q _ temp he => by
    rw [h.good.idle hp] at he
    cases he
  unshared := fun w _ temp he => by
    rw [h.good.idle hp] at he
    cases he

/-- `Put` in an unprepared trie. -/
lemma put_unprepared (hs : Stores C u t) (hp : t.prepared = false) (key value : Bytes) :
    ∃ t', put C key value t = (.ok (), t') ∧
      Became C (u.insert (keyToRoute key) value) t t' := by
  obtain ⟨_, t', hrun, hb⟩ := put_returns hs
    (CanInsert.of_unprepared hs.holds hp (keyToRoute key) value)
  exact ⟨t', hrun, hb⟩

/-- `Delete` in an unprepared trie when the walk ends in a value. -/
lemma deleteKey_unprepared (hs : Stores C u t) (hp : t.prepared = false) {key : Bytes}
    (hcut : u.cut (keyToRoute key) = some u') :
    ∃ t', deleteKey C key t = (.ok (), t') ∧ Became C u' t t' := by
  have hnot : t.prepared = true →
      ∀ w ∈ cutChanged u (keyToRoute key), C.occ (C.treeHash w) u' = 0 := by
    intro hp'
    rw [hp] at hp'
    cases hp'
  obtain ⟨_, t', hrun, hb⟩ := deleteKey_returns hs hcut
    (CanCut.of_unprepared hs.holds hp (keyToRoute key)) hnot
  exact ⟨t', hrun, hb⟩

end Trie

end GoMedibloc
