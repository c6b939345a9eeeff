import GoMedibloc.Trie.Canonical

/-!
# Prepared sessions

A session runs operations on a trie between `Prepare` and `Flush`.  Nodes are then shared
objects in the cache, and an operation assigns to them in place, so a session need not do
what the same operations do on an unprepared trie.  Four things can go wrong, and
`TrieOp.CacheOk` rules them out for one operation:

* a node whose object is assigned to may occur in the new tree as well, at another place;
* a node that is saved may be found in the cache under its hash with an object that has been
  assigned to since, and then the stale object stays;
* the append that merges two extensions may write into an array that other paths lie in;
* the branch that a deletion collapses is assigned to and not saved again, while another
  entry may still hold its object.

In every session whose operations meet these conditions each operation answers as on an
unprepared trie, the root at the end is the same, and `Flush` writes every node below that
root (`session_agrees`).
-/

namespace GoMedibloc

open Prog Radix Trie

namespace Trie

/-- The conditions on the cache under which `Put` does what it does in an unprepared trie. -/
structure PutOk (C : NodeCodec) (u : PatriciaTree) (key value : Bytes) (t : Trie) : Prop where
  saves : ∀ s ∈ insertSaves u (keyToRoute key) value, SaveOk C t s
  keeps : ∀ x ∈ overwritten C (insertSaves u (keyToRoute key) value),
    C.occ x (u.insert (keyToRoute key) value) = 0

/-- The conditions on the cache under which `Delete` does what it does in an unprepared
trie. -/
structure DeleteOk (C : NodeCodec) (u : PatriciaTree) (key : Bytes) (t : Trie) : Prop where
  saves : ∀ s ∈ cutSaves u (keyToRoute key), SaveOk C t s
  keeps : ∀ u', u.cut (keyToRoute key) = some u' →
    ∀ w ∈ cutChanged u (keyToRoute key), C.occ (C.treeHash w) u' = 0
  apart : Apart C t.Live t (cutMerge u (keyToRoute key))
  unshared : Unshared C t (cutCollapse u (keyToRoute key))

end Trie

namespace TrieOp

/-- The tree after an operation. -/
def tree (u : PatriciaTree) : TrieOp → PatriciaTree
  | put key value => u.insert (keyToRoute key) value
  | delete key => (u.cut (keyToRoute key)).getD u
  | get _ => u

/-- The answer of a trie that stores a tree. -/
def treeAnswer (u : PatriciaTree) : TrieOp → Except TrieErr (Option Bytes)
  | put _ _ => .ok none
  | delete key => if u.cut (keyToRoute key) = none then .error .notFound else .ok none
  | get key => (lookupResult (treeContents u key)).map some

/-- The conditions on the cache of a prepared trie that stores a tree. -/
def CacheOk (C : NodeCodec) (u : PatriciaTree) (t : Trie) (op : TrieOp) : Prop :=
  t.prepared = true →
    match op with
    | put key value => PutOk C u key value t
    | delete key => DeleteOk C u key t
    | get _ => True

end TrieOp

/-- Every operation of a run meets the conditions on the cache. -/
def SessionOk (C : NodeCodec) : List TrieOp → PatriciaTree → Trie → Prop
  | [], _, _ => True
  | op :: ops, u, t => op.CacheOk C u t ∧ SessionOk C ops (op.tree u) (op.run C t).2

/-- The answers of a run. -/
def answers (C : NodeCodec) : List TrieOp → Trie → List (Except TrieErr (Option Bytes))
  | [], _ => []
  | op :: ops, t => (op.run C t).1 :: answers C ops (op.run C t).2

variable {C : NodeCodec} {u : PatriciaTree} {t t' : Trie} {order : List Hash} {s : Storage}

/-! ## Operations -/

/-- An operation that meets the conditions on the cache. -/
lemma TrieOp.run_stores (hs : Stores C u t) {op : TrieOp} (hok : op.CacheOk C u t) :
    (op.run C t).1 = op.treeAnswer u ∧ Became C (op.tree u) t (op.run C t).2 := by
  cases op with
  | put key value =>
      have hcan : CanInsert C t.Live (fun _ => 0) u (keyToRoute key) value t := by
        cases hp : t.prepared with
        | false => exact .of_unprepared hs.holds hp _ _
        | true =>
            have hput : PutOk C u key value t := hok hp
            exact ⟨hs.holds, hput.saves, fun _ => hput.keeps⟩
      obtain ⟨_, t', hrun, hb⟩ := put_returns hs hcan
      have hop : TrieOp.run C (.put key value) t = (.ok none, t') := bind_of_ok hrun
      rw [hop]
      exact ⟨rfl, hb⟩
  | get key =>
      obtain ⟨t', hrun, hb⟩ := get_finds hs key
      have hop : TrieOp.run C (.get key) t =
          ((lookupResult (treeContents u key)).map some, t') := by
        cases h : treeContents u key with
        | none => exact bind_of_error (by rw [hrun, h]; rfl)
        | some v => exact bind_of_ok (by rw [hrun, h]; rfl)
      rw [hop]
      exact ⟨rfl, hb⟩
  | delete key =>
      cases hcut : u.cut (keyToRoute key) with
      | none =>
          obtain ⟨t', hrun, hb⟩ := deleteKey_fails hs hcut
          have hop : TrieOp.run C (.delete key) t = (.error .notFound, t') := bind_of_error hrun
          rw [hop]
          simpa [treeAnswer, tree, hcut] using hb
      | some u' =>
          have hcan : CanCut C t.Live (fun _ => 0) u (keyToRoute key) t := by
            cases hp : t.prepared with
            | false => exact .of_unprepared hs.holds hp _
            | true =>
                have hdel : DeleteOk C u key t := hok hp
                exact
                  { holds := hs.holds
                    saves := hdel.saves
                    keeps := fun _ _ => notMem_of_into_cut hs.wf hcut (hdel.keeps u' hcut)
                    apart := hdel.apart
                    unshared := hdel.unshared }
          obtain ⟨_, t', hrun, hb⟩ := deleteKey_returns hs hcut hcan fun hp =>
            (hok hp : DeleteOk C u key t).keeps u' hcut
          have hop : TrieOp.run C (.delete key) t = (.ok none, t') := bind_of_ok hrun
          rw [hop]
          simpa [treeAnswer, tree, hcut] using hb

/-- A run that meets the conditions on the cache answers as a run on any unprepared trie that
stores the same tree, and both end with one tree. -/
lemma SessionOk.run {ops : List TrieOp} (hok : SessionOk C ops u t) (hs : Stores C u t)
    (hs' : Stores C u t') (hp' : t'.prepared = false) :
    answers C ops t = answers C ops t' ∧
      ∃ u', Became C u' t (runOps C ops t) ∧ Became C u' t' (runOps C ops t') := by
  induction ops generalizing u t t' with
  | nil => exact ⟨rfl, u, .refl hs, .refl hs'⟩
  | cons op ops ih =>
      obtain ⟨hans, hb⟩ := TrieOp.run_stores hs hok.1
      have hok' : op.CacheOk C u t' := fun hp => by
        rw [hp'] at hp
        cases hp
      obtain ⟨hans', hb'⟩ := TrieOp.run_stores hs' hok'
      obtain ⟨hrest, u', hu, hu'⟩ := ih hok.2 hb.stores hb'.stores (hb'.prepared.trans hp')
      refine ⟨?_, u', hb.trans hu, hb'.trans hu'⟩
      rw [answers, answers, hans, hans', hrest]

namespace Trie

/-- The storage after a list of cached nodes has been written: it has its old entries, the
objects of the unsaved entries of the list under the hashes they carry, and nothing else. -/
structure Flushed (C : NodeCodec) (l : List TempNode) (t : Trie) (s : Storage) : Prop where
  grows : ∀ x, (t.storage x).isSome → (s x).isSome
  written : ∀ temp ∈ l, temp.saved = false → 1 ≤ temp.refCount →
    (s (t.heap temp.node).hash).isSome
  entry : ∀ x b, s x = some b → t.storage x = some b ∨
    ∃ temp ∈ l, temp.saved = false ∧ x = (t.heap temp.node).hash ∧ b = C.marshal (t.node temp.node)

lemma isSome_update_of_isSome {s : Storage} {x : Hash} (h : (s x).isSome) (y : Hash) (b : Bytes) :
    (Function.update s y (some b) x).isSome := by
  by_cases hxy : x = y
  · subst hxy
    simp
  · rwa [Function.update_of_ne hxy]

lemma flushed_foldl (l : List TempNode) (t : Trie) :
    ∃ s, l.foldl (flushNode C) t = { t with storage := s } ∧ Flushed C l t s := by
  induction l generalizing t with
  | nil => exact ⟨t.storage, rfl, fun _ h => h, by simp, fun _ _ h => .inl h⟩
  | cons temp l ih =>
      by_cases hskip : temp.saved = true ∨ temp.refCount < 1
      · -- The node is in the storage already, or nothing refers to it.
        have hnode : flushNode C t temp = t := by
          rw [flushNode, if_pos (by simpa using hskip)]
        obtain ⟨s, hs, hf⟩ := ih t
        refine ⟨s, by rw [List.foldl_cons, hnode, hs], hf.grows, ?_, fun x b hx => ?_⟩
        · rintro temp' (_ | ⟨_, hmem⟩) hsaved hrefs
          · rcases hskip with hskip | hskip
            · rw [hsaved] at hskip
              cases hskip
            · omega
          · exact hf.written temp' hmem hsaved hrefs
        · rcases hf.entry x b hx with hold | ⟨temp', hmem, hrest⟩
          · exact .inl hold
          · exact .inr ⟨temp', List.mem_cons_of_mem _ hmem, hrest⟩
      · obtain ⟨hunsaved, hrefs⟩ := not_or.1 hskip
        have hnode : flushNode C t temp = { t with
            storage := Function.update t.storage (t.heap temp.node).hash
              (some (C.marshal (t.node temp.node))) } := by
          rw [flushNode, if_neg (by simpa using hskip)]
        obtain ⟨s, hs, hf⟩ := ih (flushNode C t temp)
        rw [hnode] at hf hs
        refine ⟨s, by rw [List.foldl_cons, hnode, hs], fun x hx => ?_, ?_, fun x b hx => ?_⟩
        · exact hf.grows x (isSome_update_of_isSome hx _ _)
        · rintro temp' (_ | ⟨_, hmem⟩) hsaved hrefs
          · exact hf.grows _ (by simp)
          · exact hf.written temp' hmem hsaved hrefs
        · rcases hf.entry x b hx with hold | ⟨temp', hmem, hrest⟩
          · dsimp only at hold
            by_cases hxy : x = (t.heap temp.node).hash
            · subst hxy
              rw [Function.update_self] at hold
              exact .inr ⟨temp, List.mem_cons_self, by simpa using hunsaved, rfl,
                (Option.some.inj hold).symm⟩
            · rw [Function.update_of_ne hxy] at hold
              exact .inl hold
          · exact .inr ⟨temp', List.mem_cons_of_mem _ hmem, hrest⟩

lemma flush_apply (hp : t.prepared = true) (order : List Hash) :
    ∃ s, flush C order t =
        (.ok (), { t with storage := s, tempNodes := fun _ => none, prepared := false }) ∧
      Flushed C (order.filterMap t.tempNodes) t s := by
  obtain ⟨s, hs, hf⟩ := flushed_foldl (C := C) (order.filterMap t.tempNodes) t
  refine ⟨s, ?_, hf⟩
  rw [flush, read_bind, if_pos hp, update_apply, hs]

/-- The entries that `Flush` makes in a clean trie have the hashes of their nodes as keys. -/
lemma Flushed.entry_of_clean (hf : Flushed C (order.filterMap t.tempNodes) t s) (hc : Clean C t)
    {x : Hash} {b : Bytes} (hx : s x = some b) :
    t.storage x = some b ∨ ∃ n, x = C.hash n ∧ b = C.marshal n := by
  rcases hf.entry x b hx with hold | ⟨temp, hmem, hunsaved, rfl, rfl⟩
  · exact .inl hold
  · obtain ⟨y, -, hy⟩ := List.mem_filterMap.1 hmem
    exact .inr ⟨_, (hc y temp hy hunsaved).hash, rfl⟩

end Trie

variable {C : NodeCodec} {u : PatriciaTree} {t : Trie} {order : List Hash}

/-- `Prepare` on an unprepared trie that stores a tree. -/
lemma Trie.Stores.prepare (hs : Stores C u t) (hp : t.prepared = false) :
    ∃ t', Trie.prepare t = (.ok (), t') ∧ Stores C u t' ∧ t'.prepared = true ∧ Clean C t' := by
  refine ⟨{ t with tempNodes := fun _ => none, prepared := true }, ?_, ?_, rfl, ?_⟩
  · simp [Trie.prepare, hp]
  · exact
      { wf := hs.wf
        keys := hs.keys
        root := hs.root
        holds :=
          { good :=
              { hs.holds.good with
                allocated := by simp
                no_empty_entry := rfl
                idle := fun _ _ => rfl
                live := by simp
                live_new := fun _ hp => .inl hp
                saved := by simp
                refs := by simp }
            fresh := fun x _ temp he => by cases he
            kept := fun x => by
              rcases hs.holds.kept x with h0 | hsome | ⟨temp, he, -⟩
              · exact .inl h0
              · exact .inr (.inl hsome)
              · rw [hs.holds.good.idle hp] at he
                cases he } }
  · intro x temp he
    cases he

/-- `Flush` on a clean trie that stores a tree, in any order of the cached hashes. -/
lemma Trie.Stores.flush (hs : Stores C u t) (hc : Clean C t) (hp : t.prepared = true)
    (hall : ∀ x, (t.tempNodes x).isSome → x ∈ order) :
    ∃ t', Trie.flush C order t = (.ok (), t') ∧ Stores C u t' ∧ t'.prepared = false := by
  obtain ⟨s, hrun, hf⟩ := flush_apply (C := C) hp order
  refine ⟨_, hrun, NodeStorage.stores (s := s) ⟨?_, ?_⟩ hs.wf hs.keys ?_ ?_ hs.root rfl
    fun _ => rfl, rfl⟩
  · intro n b hb
    rcases hf.entry_of_clean hc hb with hold | ⟨m, hnm, rfl⟩
    · exact hs.holds.good.intact n b hold
    · rw [C.hash_injective hnm]
  · cases hb : s [] with
    | none => rfl
    | some b =>
        rcases hf.entry_of_clean hc hb with hold | ⟨m, hm, -⟩
        · rw [hs.holds.good.no_empty_key] at hold
          cases hold
        · exact absurd hm.symm (C.sha3_ne_nil _)
  · intro x hx
    rcases hs.holds.kept x with h0 | hsome | ⟨temp, he, hrefs⟩
    · omega
    · exact hf.grows x hsome
    · cases hsaved : temp.saved with
      | true => exact hf.grows x (hs.holds.good.saved x temp he hsaved)
      | false =>
          rw [← (hs.holds.fresh x hx temp he).hash]
          refine hf.written temp ?_ hsaved (by push_cast at hrefs; omega)
          exact List.mem_filterMap.2 ⟨x, hall x (by rw [he]; rfl), he⟩
  · exact ⟨by simp, hs.holds.good.fits⟩

/-- A new trie at the root of an unprepared one. -/
lemma Trie.Stores.reopen (hs : Stores C u t) (hp : t.prepared = false) :
    newTrie t.rootHash t.storage = .ok (ofRoot t.rootHash t.storage) ∧
      Stores C u (ofRoot t.rootHash t.storage) := by
  have hall : ∀ x, 0 < C.occ x u → (t.storage x).isSome := by
    intro x hx
    rcases hs.holds.kept x with h0 | hsome | ⟨temp, he, -⟩
    · omega
    · exact hsome
    · rw [hs.holds.good.idle hp] at he
      cases he
  refine ⟨?_, NodeStorage.stores ⟨hs.holds.good.intact, hs.holds.good.no_empty_key⟩ hs.wf hs.keys
    hall (sound_ofRoot _ _) hs.root rfl fun _ => rfl⟩
  by_cases hnil : t.rootHash = []
  · rw [newTrie, if_pos hnil]
  · have hu : u ≠ .nil := fun h => hnil (by rw [hs.root, NodeCodec.treeHash_eq_nil_iff.2 h])
    obtain ⟨b, hb⟩ := Option.isSome_iff_exists.1 (hall _ (NodeCodec.occ_self_pos (C := C) hu))
    rw [← hs.root] at hb
    rw [newTrie, if_neg hnil, hb]

/-! ## Sessions -/

/-- **Prepared mode agrees with direct mode.**  In a session whose operations meet the
conditions on the cache, every operation answers as on the unprepared trie and the root at
the end is the same.  After `Flush`, in any order of the cached hashes, every node below that
root is in the storage, and a new trie at the root has the same contents. -/
theorem session_agrees (C : NodeCodec) {u : PatriciaTree} {t : Trie} (hs : Stores C u t)
    (hp : t.prepared = false) {ops : List TrieOp} (hok : SessionOk C ops u (prepare t).2) :
    let direct := runOps C ops t
    let session := runOps C ops (prepare t).2
    (prepare t).1 = .ok () ∧ answers C ops (prepare t).2 = answers C ops t ∧
      session.rootHash = direct.rootHash ∧
      ∀ order, (∀ x, (session.tempNodes x).isSome → x ∈ order) →
        let flushed := (flush C order session).2
        (flush C order session).1 = .ok () ∧ flushed.rootHash = direct.rootHash ∧
          (∀ x, Below C flushed.storage flushed.rootHash x →
            ∃ n, nodeAt C flushed.storage x = some n) ∧
          ∃ t', newTrie flushed.rootHash flushed.storage = .ok t' ∧
            ∀ key, (Trie.get C key t').1 = (Trie.get C key direct).1 := by
  intro direct session
  obtain ⟨t₁, hprep, hs₁, hp₁, hc₁⟩ := hs.prepare hp
  rw [hprep] at hok
  obtain ⟨hans, u', hb₁, hb⟩ := hok.run hs₁ hs hp
  have hsession : session = runOps C ops t₁ := by
    simp only [session, hprep]
  refine ⟨by rw [hprep], by rw [hprep]; exact hans, ?_, fun order hall => ?_⟩
  · rw [hsession, hb₁.stores.root, hb.stores.root]
  · intro flushed
    rw [hsession] at hall
    obtain ⟨t₂, hflush, hs₂, hp₂⟩ := hb₁.stores.flush (hb₁.clean hc₁) (hb₁.prepared.trans hp₁) hall
    have hflushed : flushed = t₂ := by
      simp only [flushed, hsession, hflush]
    obtain ⟨hopen, hs₃⟩ := hs₂.reopen hp₂
    rw [hflushed, hsession, hflush]
    refine ⟨rfl, by rw [hs₂.root, hb.stores.root], (hs₂.normalForm hp₂).stored, _, hopen,
      fun key => ?_⟩
    rw [hs₃.shows key, hb.stores.shows key]

/-- A value that is put into an empty trie, with nothing cached under the hashes of its
nodes. -/
lemma putOk_nil {key value : Bytes} (h : ∀ s ∈ leafSaves (keyToRoute key) value,
    t.tempNodes (C.treeHash s.node) = none) : PutOk C .nil key value t where
  saves := fun s hs temp he => by
    rw [h s hs] at he
    cases he
  keeps := by
    rintro x ⟨s, hs, old, hinto, -⟩
    rw [into_leafSaves hs] at hinto
    cases hinto

/-- A session that puts two values, reads one and deletes the other. -/
theorem session_puts_and_delete :
    let t := ofRoot [] fun _ => none
    let ops : List TrieOp := [.put [0x10] [1], .get [0x10], .delete [0x10], .put [0x20] [2]]
    Stores .plain .nil t ∧ t.prepared = false ∧ SessionOk .plain ops .nil (prepare t).2 ∧
      (runOps .plain ops (prepare t).2).rootHash = (runOps .plain ops t).rootHash := by
  intro t ops
  have hs : Stores .plain .nil t := (nodeStorage_empty .plain).stores_empty
  have hok : SessionOk .plain ops .nil (prepare t).2 := by
    refine ⟨fun _ => putOk_nil (fun s _ => rfl), fun _ => trivial, fun _ => ⟨?_, ?_, ?_, ?_⟩,
      fun _ => putOk_nil ?_, trivial⟩
    · intro s hs
      cases (show s ∈ ([] : List Save) from hs)
    · intro u' _ w hw
      cases (show w ∈ ([] : List PatriciaTree) from hw)
    · intro w q ho
      cases (show (none : Option (PatriciaTree × Route)) = some (w, q) from ho)
    · intro w ho
      cases (show (none : Option PatriciaTree) = some w from ho)
    · decide +kernel
  exact ⟨hs, rfl, hok, (session_agrees .plain hs rfl hok).2.2.1⟩

/-- A session in which the same two values are put twice below different nibbles, so that the
two branches are one cached object.  Deleting a value below one of them changes both: the
value below the other one is lost, which the same operations on an unprepared trie keep. -/
theorem session_loses_value :
    let ops : List TrieOp := [.put [0x10] [1], .put [0x11] [2], .put [0x20] [1],
      .put [0x21] [2], .delete [0x11]]
    let t := ofRoot [] fun _ => none
    answers .plain (ops ++ [.get [0x21]]) t =
        [.ok none, .ok none, .ok none, .ok none, .ok none, .ok (some [2])] ∧
      answers .plain (ops ++ [.get [0x21]]) (prepare t).2 =
        [.ok none, .ok none, .ok none, .ok none, .ok none, .error .notFound] := by
  decide +kernel

end GoMedibloc
