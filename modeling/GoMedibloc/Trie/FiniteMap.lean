import GoMedibloc.Trie.Contents

/-!
# The trie as a finite map

A run of operations on an unprepared trie is compared with the same run on a plain map from
keys to values (`AsMap`): every answer is the map's, after every operation `Get` of every key
shows the map's value, and an operation that is answered with an error leaves the root as it
was.

This holds for a run exactly when no `Delete` in it swallows a shorter key (`Harmless`,
`asMap_iff_harmless`).  The value case of `Trie.delete` does not look at what is left of the
route, so `Delete` of an absent key removes the value of a stored key that is a proper prefix
of it and that no stored key extends.
-/

namespace GoMedibloc

open Prog Radix Trie

/-- An operation of a client of the trie. -/
inductive TrieOp where
  | put (key value : Bytes)
  | delete (key : Bytes)
  | get (key : Bytes)
  deriving DecidableEq

namespace TrieOp

/-- Run the operation; only `Get` returns a value. -/
def run (C : NodeCodec) : TrieOp → TrieM (Option Bytes)
  | put key value => do
      Trie.put C key value
      pure none
  | delete key => do
      Trie.deleteKey C key
      pure none
  | get key => do
      let value ← Trie.get C key
      pure (some value)

/-- The operation on a plain map. -/
def apply (m : Contents) : TrieOp → Contents
  | put key value => Function.update m key (some value)
  | delete key => Function.update m key none
  | get _ => m

/-- The answer of a plain map. -/
def answer (m : Contents) : TrieOp → Except TrieErr (Option Bytes)
  | put _ _ => .ok none
  | delete key => if m key = none then .error .notFound else .ok none
  | get key => (lookupResult (m key)).map some

/-- A `Delete` that swallows a shorter key. -/
def Swallowing (m : Contents) : TrieOp → Prop
  | delete key => ∃ p, Swallows m key p
  | _ => False

end TrieOp

/-- The storage holds under the hash of a node nothing but that node, and nothing under the
empty key. -/
structure NodeStorage (C : NodeCodec) (s : Storage) : Prop where
  intact : IntactStorage C s
  no_empty_key : s [] = none

/-- `Get` of every key returns what the map has for it. -/
def Shows (C : NodeCodec) (m : Contents) (t : Trie) : Prop :=
  ∀ key, (Trie.get C key t).1 = lookupResult (m key)

/-- The run behaves as the same run on a plain map. -/
def AsMap (C : NodeCodec) : List TrieOp → Contents → Trie → Prop
  | [], m, t => Shows C m t
  | op :: ops, m, t => Shows C m t ∧ (op.run C t).1 = op.answer m ∧
      ((∃ e, op.answer m = .error e) → (op.run C t).2.rootHash = t.rootHash) ∧
      AsMap C ops (op.apply m) (op.run C t).2

/-- No `Delete` of the run swallows a shorter key. -/
def Harmless : List TrieOp → Contents → Prop
  | [], _ => True
  | op :: ops, m => ¬ op.Swallowing m ∧ Harmless ops (op.apply m)

variable {C : NodeCodec} {u : PatriciaTree} {t : Trie}

lemma Trie.Stores.shows (hs : Stores C u t) : Shows C (treeContents u) t := by
  intro key
  obtain ⟨t', hrun, -⟩ := get_finds hs key
  rw [hrun]

/-- A storage with no entries. -/
lemma nodeStorage_empty (C : NodeCodec) : NodeStorage C fun _ => none where
  intact := by
    intro n b h
    cases h
  no_empty_key := rfl

/-- An unprepared trie that has every node of a tree in its storage stores the tree. -/
lemma NodeStorage.stores {s : Storage} (hs : NodeStorage C s) (hwf : u.WF) (hkeys : KeysWhole u)
    (hall : ∀ x, 0 < C.occ x u → (s x).isSome) (hsound : Sound t) (hroot : t.rootHash = C.treeHash u)
    (hstorage : t.storage = s) (htemp : ∀ x, t.tempNodes x = none) :
    Stores C u t where
  wf := hwf
  keys := hkeys
  root := hroot
  holds :=
    { good :=
        { hsound with
          intact := by rw [hstorage]; exact hs.intact
          no_empty_key := by rw [hstorage]; exact hs.no_empty_key
          no_empty_entry := htemp []
          idle := fun _ => htemp
          live := by simp [htemp]
          live_new := fun _ hp => .inl hp
          saved := by simp [htemp]
          refs := by simp [htemp] }
      fresh := fun x _ temp he => by
        rw [htemp] at he
        cases he
      kept := fun x => by
        by_cases h0 : C.occ x u = 0
        · exact .inl (by omega)
        · exact .inr (.inl (by rw [hstorage]; exact hall x (by omega))) }

lemma sound_ofRoot (rootHash : Hash) (s : Storage) : Sound (ofRoot rootHash s) :=
  ⟨by simp [ofRoot], by simp [ofRoot]⟩

/-- A trie at the empty root is the empty map. -/
lemma NodeStorage.stores_empty {s : Storage} (hs : NodeStorage C s) :
    Stores C .nil (ofRoot [] s) :=
  hs.stores trivial keysWhole_nil (by simp [NodeCodec.occ]) (sound_ofRoot _ _) rfl rfl
    fun _ => rfl

/-! ## One operation -/

/-- An operation that swallows no key does to an unprepared trie what it does to a map. -/
lemma TrieOp.run_unprepared (hs : Stores C u t) (hp : t.prepared = false) (op : TrieOp)
    (hop : ¬ op.Swallowing (treeContents u)) :
    ∃ u', (op.run C t).1 = op.answer (treeContents u) ∧ Became C u' t (op.run C t).2 ∧
      treeContents u' = op.apply (treeContents u) ∧
      ((∃ e, op.answer (treeContents u) = .error e) → u' = u) := by
  cases op with
  | put key value =>
      obtain ⟨t', hrun, hb⟩ := put_unprepared hs hp key value
      have hop : TrieOp.run C (.put key value) t = (.ok none, t') := bind_of_ok hrun
      rw [hop]
      exact ⟨_, rfl, hb, treeContents_insert u key value, by simp [answer]⟩
  | get key =>
      obtain ⟨t', hrun, hb⟩ := get_finds hs key
      have hop : TrieOp.run C (.get key) t =
          ((lookupResult (treeContents u key)).map some, t') := by
        cases h : treeContents u key with
        | none => exact bind_of_error (by rw [hrun, h]; rfl)
        | some v => exact bind_of_ok (by rw [hrun, h]; rfl)
      rw [hop]
      exact ⟨u, rfl, hb, rfl, fun _ => rfl⟩
  | delete key =>
      cases hcut : u.cut (keyToRoute key) with
      | none =>
          obtain ⟨t', hrun, hb⟩ := deleteKey_fails hs hcut
          have habsent := (of_cut_eq_none hs.wf hs.keys hcut).1
          have hop : TrieOp.run C (.delete key) t = (.error .notFound, t') := bind_of_error hrun
          rw [hop]
          refine ⟨u, by simp [answer, habsent], hb, ?_, fun _ => rfl⟩
          rw [apply, ← habsent, Function.update_eq_self]
      | some u' =>
          obtain ⟨t', hrun, hb⟩ := deleteKey_unprepared hs hp hcut
          obtain ⟨-, p, hpk, hm⟩ := exists_of_cut hs.keys hcut
          have hop' : TrieOp.run C (.delete key) t = (.ok none, t') := bind_of_ok hrun
          rcases hpk with ⟨rfl, hpresent⟩ | hswallow
          · rw [hop']
            exact ⟨u', by simp [answer, hpresent], hb, hm, by simp [answer, hpresent]⟩
          · exact absurd ⟨p, hswallow⟩ hop

/-- A `Delete` that swallows a shorter key is not answered as by a map. -/
lemma TrieOp.answer_ne_of_swallowing (hs : Stores C u t) (hp : t.prepared = false) {op : TrieOp}
    (hop : op.Swallowing (treeContents u)) : (op.run C t).1 ≠ op.answer (treeContents u) := by
  cases op with
  | put key value => exact hop.elim
  | get key => exact hop.elim
  | delete key =>
      obtain ⟨p, hswallow⟩ := hop
      have habsent : treeContents u key = none := hswallow.2.2.2 key hswallow.1 hswallow.2.1.symm
      cases hcut : u.cut (keyToRoute key) with
      | none => exact absurd hswallow ((of_cut_eq_none hs.wf hs.keys hcut).2 p)
      | some u' =>
          obtain ⟨t', hrun, -⟩ := deleteKey_unprepared hs hp hcut
          have hop : TrieOp.run C (.delete key) t = (.ok none, t') := bind_of_ok hrun
          rw [hop]
          simp [answer, habsent]

/-! ## Runs -/

/-- A run on a trie that stores a tree behaves as on the contents of the tree exactly when it
swallows no key. -/
lemma asMap_iff (hs : Stores C u t) (hp : t.prepared = false) (ops : List TrieOp) :
    AsMap C ops (treeContents u) t ↔ Harmless ops (treeContents u) := by
  induction ops generalizing u t with
  | nil => exact ⟨fun _ => trivial, fun _ => hs.shows⟩
  | cons op ops ih =>
      by_cases hop : op.Swallowing (treeContents u)
      · constructor
        · rintro ⟨-, hans, -⟩
          exact absurd hans (TrieOp.answer_ne_of_swallowing hs hp hop)
        · rintro ⟨hnot, -⟩
          exact absurd hop hnot
      · obtain ⟨u', hans, hb, hm, hsame⟩ := TrieOp.run_unprepared hs hp op hop
        have ih' := ih hb.stores (hb.prepared.trans hp)
        rw [hm] at ih'
        constructor
        · rintro ⟨-, -, -, hrest⟩
          exact ⟨hop, ih'.1 hrest⟩
        · rintro ⟨-, hrest⟩
          refine ⟨hs.shows, hans, fun he => ?_, ih'.2 hrest⟩
          rw [hb.stores.root, hsame he, hs.root]

/-- **The trie is a finite map, but for swallowed keys.**  A run of `Put`, `Delete` and `Get`
on an unprepared trie that starts empty behaves as the same run on a map exactly when no
`Delete` of an absent key is applied while a stored proper prefix of that key is extended by
no stored key. -/
theorem asMap_iff_harmless (C : NodeCodec) {s : Storage} (hs : NodeStorage C s)
    (ops : List TrieOp) :
    AsMap C ops (fun _ => none) (ofRoot [] s) ↔ Harmless ops fun _ => none :=
  asMap_iff hs.stores_empty rfl ops

/-- Putting a value and deleting it again, where nothing else is stored. -/
theorem asMap_put_delete :
    NodeStorage .plain (fun _ => none) ∧
      AsMap .plain [.put [0x10] [1], .delete [0x10]] (fun _ => none)
        (ofRoot [] fun _ => none) := by
  have hs := nodeStorage_empty .plain
  refine ⟨hs, (asMap_iff_harmless .plain hs _).2 ⟨id, ?_, trivial⟩⟩
  rintro ⟨p, hpre, hne, -, hmax⟩
  have hnone := hmax [0x10] hpre hne.symm
  simp [TrieOp.apply] at hnone

/-- Deleting an absent key that extends a stored one answers without an error and removes the
stored one. -/
theorem delete_absent_removes_shorter :
    let t := (Trie.put .plain [0x10] [1] (ofRoot [] fun _ => none)).2
    (Trie.get .plain [0x10, 0x20] t).1 = .error .notFound ∧
      (Trie.get .plain [0x10] t).1 = .ok [1] ∧
      (Trie.deleteKey .plain [0x10, 0x20] t).1 = .ok () ∧
      (Trie.get .plain [0x10] (Trie.deleteKey .plain [0x10, 0x20] t).2).1 = .error .notFound := by
  decide +kernel

end GoMedibloc
