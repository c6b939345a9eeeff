import GoMedibloc.Trie.Tidy

/-!
# Tries that share one storage

Any number of tries work on one storage: blocks and their children, forks, and the clones of
a state.  `SharedOp.step` is one step of one of them; a trie reads and writes the storage as
the others have left it.

An entry of the storage is right when its key is the hash of its value (`Hashed`).  Then no
entry ever changes, and a root gives the same contents forever (`roots_stay_intact`).  Every
step keeps this, but for `Delete` on a prepared trie: the branch that it collapses is assigned
to and not saved again, and when its object is still cached under the old hash `Flush` writes
the changed node under that hash.  `SharedOp.Ok` is the condition of `Session` on these
deletions; no condition is needed on any other step.
-/

namespace GoMedibloc

open Prog Trie

/-- Tries over one storage; the `storage` field of the tries themselves is not looked at. -/
structure Shared where
  storage : Storage
  tries : ℕ → Option Trie

/-- A step of one of the tries. -/
inductive SharedOp where
  | newTrie (i : ℕ) (rootHash : Hash)
  | clone (i j : ℕ)
  | prepare (i : ℕ)
  | put (i : ℕ) (key value : Bytes)
  | delete (i : ℕ) (key : Bytes)
  | get (i : ℕ) (key : Bytes)
  | flush (i : ℕ) (order : List Hash)
  | reset (i : ℕ)

namespace Shared

/-- A trie on the storage as it is now. -/
def attach (s : Shared) (t : Trie) : Trie := { t with storage := s.storage }

/-- Enter a trie that was opened. -/
def enter (s : Shared) (i : ℕ) : Except TrieErr Trie → Shared
  | .ok t => { s with tries := Function.update s.tries i (some t) }
  | .error _ => s

/-- Run a program on one of the tries. -/
def onTrie {α : Type} (s : Shared) (i : ℕ) (x : TrieM α) : Shared :=
  match s.tries i with
  | none => s
  | some t =>
      let t' := (x (s.attach t)).2
      ⟨t'.storage, Function.update s.tries i (some t')⟩

end Shared

namespace SharedOp

/-- The state after a step. -/
def step (C : NodeCodec) (s : Shared) : SharedOp → Shared
  | newTrie i rootHash => s.enter i (Trie.newTrie rootHash s.storage)
  | clone i j =>
      match s.tries i with
      | none => s
      | some t => s.enter j (s.attach t).clone
  | prepare i => s.onTrie i Trie.prepare
  | put i key value => s.onTrie i (Trie.put C key value)
  | delete i key => s.onTrie i (Trie.deleteKey C key)
  | get i key => s.onTrie i (Trie.get C key)
  | flush i order => s.onTrie i (Trie.flush C order)
  | reset i => s.onTrie i Trie.reset

/-- A `Delete` on a prepared trie meets the conditions on the cache. -/
def Ok (C : NodeCodec) (s : Shared) : SharedOp → Prop
  | delete i key => ∀ t, s.tries i = some t → t.prepared = true →
      ∃ u, Stores C u (s.attach t) ∧ DeleteOk C u key (s.attach t)
  | _ => True

end SharedOp

/-- The state after a run. -/
def runShared (C : NodeCodec) (ops : List SharedOp) (s : Shared) : Shared :=
  ops.foldl (SharedOp.step C) s

/-- Every step of a run meets its condition. -/
def SharedOk (C : NodeCodec) : List SharedOp → Shared → Prop
  | [], _ => True
  | op :: ops, s => op.Ok C s ∧ SharedOk C ops (op.step C s)

/-- The storage has every node below the root. -/
def Complete (C : NodeCodec) (s : Storage) (root : Hash) : Prop :=
  ∀ x, Below C s root x → (s x).isSome

variable {C : NodeCodec} {s s' : Shared} {t : Trie}

/-! ## Steps -/

/-- The storage is right, and so is every trie on it. -/
structure Intact (C : NodeCodec) (s : Shared) : Prop where
  hashed : Hashed C s.storage
  tries : ∀ i t, s.tries i = some t → Tidy C (s.attach t)

/-- A step keeps the state intact and every entry of the storage. -/
structure Preserves (C : NodeCodec) (s s' : Shared) : Prop where
  intact : Intact C s'
  storage : ∀ x b, s.storage x = some b → s'.storage x = some b

lemma Intact.preserves_refl (h : Intact C s) : Preserves C s s := ⟨h, fun _ _ hx => hx⟩

lemma Preserves.trans {s'' : Shared} (h : Preserves C s s') (h' : Preserves C s' s'') : Preserves C s s'' :=
  ⟨h'.intact, fun x b hx => h'.storage x b (h.storage x b hx)⟩

/-- A tidy trie is tidy on any right storage. -/
lemma Trie.Tidy.attach (h : Tidy C t) (hs : Hashed C s.storage) : Tidy C (s.attach t) :=
  { h with
    clean := fun x temp he hsaved => (h.clean x temp he hsaved).of_eq rfl rfl
    hashed := hs }

/-- A program that keeps a trie tidy keeps the whole state. -/
lemma Intact.onTrie {α : Type} (h : Intact C s) (i : ℕ) {x : TrieM α}
    (hx : ∀ t, s.tries i = some t → Tidy C (x (s.attach t)).2 ∧
      ∀ y b, s.storage y = some b → (x (s.attach t)).2.storage y = some b) :
    Preserves C s (s.onTrie i x) := by
  unfold Shared.onTrie
  cases hi : s.tries i with
  | none => exact h.preserves_refl
  | some t =>
      obtain ⟨htidy, hstorage⟩ := hx t hi
      refine ⟨⟨htidy.hashed, fun j t' hj => ?_⟩, hstorage⟩
      have hj' : Function.update s.tries i (some (x (s.attach t)).2) j = some t' := hj
      by_cases hji : j = i
      · rw [hji, Function.update_self] at hj'
        rw [← Option.some.inj hj']
        exact htidy.attach htidy.hashed
      · rw [Function.update_of_ne hji] at hj'
        exact (h.tries j t' hj').attach htidy.hashed

lemma Intact.enter (h : Intact C s) (i : ℕ) {r : Except TrieErr Trie}
    (hr : ∀ t, r = .ok t → ∃ root, t = ofRoot root s.storage) : Preserves C s (s.enter i r) := by
  cases r with
  | error e => exact h.preserves_refl
  | ok t =>
      obtain ⟨root, rfl⟩ := hr t rfl
      refine ⟨⟨h.hashed, fun j t' hj => ?_⟩, fun _ _ hx => hx⟩
      have htidy : Tidy C (ofRoot root s.storage) :=
        { sound_ofRoot root s.storage with
          clean := clean_of_idle fun _ => rfl
          idle := fun _ _ => rfl
          hashed := h.hashed }
      have hj' : Function.update s.tries i (some (ofRoot root s.storage)) j = some t' := hj
      by_cases hji : j = i
      · rw [hji, Function.update_self] at hj'
        rw [← Option.some.inj hj']
        exact htidy.attach h.hashed
      · rw [Function.update_of_ne hji] at hj'
        exact (h.tries j t' hj').attach h.hashed

lemma newTrie_eq_ok {root : Hash} {st : Storage} (h : newTrie root st = .ok t) :
    ∃ r, t = ofRoot r st := by
  unfold newTrie at h
  split_ifs at h
  · exact ⟨root, (Except.ok.inj h).symm⟩
  · cases hst : st root with
    | none => simp [hst] at h
    | some b =>
        simp only [hst] at h
        exact ⟨root, (Except.ok.inj h).symm⟩

/-- `Prepare` and `Reset` empty the cache. -/
lemma Trie.Tidy.emptied (h : Tidy C t) (mode : Bool) :
    Tidy C { t with tempNodes := fun _ => none, prepared := mode } where
  allocated := by simp
  fits := h.fits
  clean := clean_of_idle fun _ => rfl
  idle := fun _ _ => rfl
  hashed := h.hashed

/-- `Flush` on a tidy trie. -/
lemma Trie.Tidy.flush (h : Tidy C t) (order : List Hash) :
    Tidy C (Trie.flush C order t).2 ∧
      ∀ x b, t.storage x = some b → (Trie.flush C order t).2.storage x = some b := by
  cases hp : t.prepared with
  | false => simpa [Trie.flush, hp] using h
  | true =>
      obtain ⟨st, hrun, hf⟩ := flush_apply (C := C) hp order
      have hhashed : Hashed C st := by
        intro x b hx
        rcases hf.entry_of_clean h.clean hx with hold | ⟨m, rfl, rfl⟩
        · exact h.hashed x b hold
        · rfl
      rw [hrun]
      refine ⟨⟨⟨by simp, h.fits⟩, clean_of_idle fun _ => rfl, fun _ _ => rfl, hhashed⟩, ?_⟩
      intro x b hx
      obtain ⟨b', hb'⟩ := Option.isSome_iff_exists.1 (hf.grows x (by rw [hx]; rfl))
      have hsame : b = b' := C.sha3_injective ((h.hashed x b hx).symm.trans (hhashed x b' hb'))
      rw [hsame]
      exact hb'

/-- `Delete` on a prepared trie that meets the conditions on the cache. -/
lemma Trie.Tidy.deleteKey_prepared (h : Tidy C t) (hp : t.prepared = true) {u : PatriciaTree}
    {key : Bytes} (hs : Stores C u t) (hok : DeleteOk C u key t) :
    Tidy C (Trie.deleteKey C key t).2 ∧ (Trie.deleteKey C key t).2.storage = t.storage := by
  have hcache : TrieOp.CacheOk C u t (.delete key) := fun _ => hok
  have hb := (TrieOp.run_stores hs hcache).2
  have hstate : (TrieOp.run C (.delete key) t).2 = (Trie.deleteKey C key t).2 := by
    simp only [TrieOp.run, bind_apply]
    rcases Trie.deleteKey C key t with ⟨_ | _, t'⟩ <;> rfl
  rw [hstate] at hb
  have hstorage := hb.storage_eq hp
  exact ⟨{ hb.stores.holds.good.toSound with
    clean := hb.clean h.clean
    idle := hb.stores.holds.good.idle
    hashed := by rw [hstorage]; exact h.hashed }, hstorage⟩

/-- **One step.**  A step that meets its condition keeps the state intact and every entry of
the storage. -/
lemma Intact.step (h : Intact C s) {op : SharedOp} (hok : op.Ok C s) :
    Preserves C s (op.step C s) := by
  cases op with
  | newTrie i root => exact h.enter i fun t ht => newTrie_eq_ok ht
  | clone i j =>
      cases hi : s.tries i with
      | none =>
          simp only [SharedOp.step, hi]
          exact h.preserves_refl
      | some t =>
          simp only [SharedOp.step, hi]
          refine h.enter j fun t' ht' => ?_
          unfold Trie.clone at ht'
          split_ifs at ht'
          exact newTrie_eq_ok ht'
  | prepare i =>
      refine h.onTrie i fun t hi => ?_
      have htidy := h.tries i t hi
      unfold Trie.prepare
      rw [read_bind]
      split_ifs
      · exact ⟨htidy, fun _ _ hx => hx⟩
      · exact ⟨htidy.emptied true, fun _ _ hx => hx⟩
  | reset i =>
      refine h.onTrie i fun t hi => ?_
      have htidy := h.tries i t hi
      unfold Trie.reset
      rw [read_bind]
      split_ifs
      · exact ⟨htidy.emptied false, fun _ _ hx => hx⟩
      · exact ⟨htidy, fun _ _ hx => hx⟩
  | put i key value =>
      refine h.onTrie i fun t hi => ?_
      have hput := (h.tries i t hi).put key value
      exact ⟨hput.tidy, hput.storage⟩
  | get i key =>
      refine h.onTrie i fun t hi => ?_
      have hget := (h.tries i t hi).get key
      exact ⟨hget.tidy, hget.storage⟩
  | flush i order => exact h.onTrie i fun t hi => (h.tries i t hi).flush order
  | delete i key =>
      refine h.onTrie i fun t hi => ?_
      have htidy := h.tries i t hi
      cases hp : t.prepared with
      | false =>
          have hdelete := htidy.deleteKey hp key
          exact ⟨hdelete.tidy, hdelete.storage⟩
      | true =>
          obtain ⟨u, hs, hdel⟩ := hok t hi hp
          obtain ⟨htidy', hstorage⟩ := htidy.deleteKey_prepared hp hs hdel
          exact ⟨htidy', by rw [hstorage]; exact fun _ _ hx => hx⟩

/-- A run keeps the state intact. -/
lemma Intact.run (h : Intact C s) {ops : List SharedOp} (hok : SharedOk C ops s) :
    Preserves C s (runShared C ops s) := by
  induction ops generalizing s with
  | nil => exact h.preserves_refl
  | cons op ops ih =>
      have hstep := h.step hok.1
      exact hstep.trans (ih hstep.intact hok.2)

lemma sharedOk_append {ops₁ ops₂ : List SharedOp} :
    SharedOk C (ops₁ ++ ops₂) s ↔ SharedOk C ops₁ s ∧ SharedOk C ops₂ (runShared C ops₁ s) := by
  induction ops₁ generalizing s with
  | nil => simp [SharedOk, runShared]
  | cons op ops₁ ih =>
      simp only [List.cons_append, SharedOk, ih, and_assoc]
      rfl

/-! ## The contents of a root -/

/-- `Get` as a walk through the storage. -/
def walk (C : NodeCodec) (st : Storage) : ℕ → Hash → Route → Except TrieErr Bytes
  | 0, _, _ => .error .outOfFuel
  | fuel + 1, x, r =>
      match st x with
      | none => .error .notFound
      | some b =>
          match C.unmarshal b with
          | none => .error .invalidNodeType
          | some (.branch slots) =>
              match r with
              | [] => walk C st fuel (slots 16) []
              | i :: rest => walk C st fuel (slots i.castSucc) rest
          | some (.ext path next) =>
              if Radix.commonLen path r ≠ path.length then .error .notFound
              else walk C st fuel next (r.drop path.length)
          | some (.val value) => if r ≠ [] then .error .notFound else .ok value

/-- On an unprepared trie `Get` is a walk through the storage. -/
lemma getLoop_eq_walk (hp : t.prepared = false) (fuel : ℕ) (x : Hash) (r : Route) :
    (getLoop C fuel x r t).1 = walk C t.storage fuel x r := by
  induction fuel generalizing t x r with
  | zero => rfl
  | succ fuel ih =>
      have hfetch : fetchNode C x t = loadNode C x t := by
        simp [fetchNode, hp]
      cases hx : t.storage x with
      | none =>
          have hload : loadNode C x t = (.error .notFound, t) := by
            simp [loadNode, hx]
          simp only [getLoop, walk, hx]
          rw [bind_of_error (hfetch.trans hload)]
      | some b =>
          cases hb : C.unmarshal b with
          | none =>
              have hload : loadNode C x t = (.error .invalidNodeType, t) := by
                simp [loadNode, hx, hb]
              simp only [getLoop, walk, hx, hb]
              rw [bind_of_error (hfetch.trans hload)]
          | some m =>
              obtain ⟨t₁, ht₁, ha, -⟩ := newNode_allocates m (C.spare m.path.length) t
              let t₂ := t₁.setObj t.nextPtr ⟨(t₁.heap t.nextPtr).body, x⟩
              have hload : loadNode C x t = (.ok t.nextPtr, t₂) := by
                simp only [loadNode, read_bind, hx, hb]
                rw [bind_of_ok ht₁]
                rfl
              have hnode : t₂.node t.nextPtr = m := by
                simpa [t₂, Trie.node, setObj] using ha.node
              have hp₂ : t₂.prepared = false := ha.prepared.trans hp
              have hst : t₂.storage = t.storage := ha.storage
              simp only [getLoop, walk, hx, hb]
              rw [bind_of_ok (hfetch.trans hload), read_bind, hnode]
              cases m with
              | branch slots =>
                  cases r with
                  | nil => rw [← hst]; exact ih hp₂ _ _
                  | cons i rest => rw [← hst]; exact ih hp₂ _ _
              | ext path next =>
                  dsimp only
                  split_ifs
                  · rfl
                  · rw [← hst]
                    exact ih hp₂ _ _
              | val value =>
                  dsimp only
                  split_ifs <;> rfl

lemma get_eq_walk (root key : Bytes) (st : Storage) :
    (Trie.get C key (ofRoot root st)).1 =
      walk C st ((keyToRoute key).length + 2) root (keyToRoute key) :=
  getLoop_eq_walk rfl _ _ _

variable {st st' : Storage}

lemma Below.root_ne_nil {a b : Hash} (h : Below C st a b) : a ≠ [] := by
  induction h with
  | root h => exact h
  | slot _ _ _ _ ih => exact ih
  | next _ _ ih => exact ih

lemma Below.trans {a b c : Hash} (h : Below C st a b) (h' : Below C st b c) : Below C st a c := by
  induction h' with
  | root _ => exact h
  | slot _ hx i hi ih => exact .slot ih hx i hi
  | next _ hx ih => exact .next ih hx

/-- A walk that does not leave the storage goes the same way in a larger one. -/
lemma walk_grown (hle : ∀ x b, st x = some b → st' x = some b) (hnil : st' [] = none)
    (fuel : ℕ) (x : Hash) (r : Route) :
    walk C st' fuel x r = walk C st fuel x r ∨
      (walk C st fuel x r = .error .notFound ∧ ∃ y, Below C st x y ∧ st y = none) := by
  induction fuel generalizing x r with
  | zero => exact .inl rfl
  | succ fuel ih =>
      cases hx : st x with
      | none =>
          by_cases hempty : x = []
          · left
            simp [walk, hx, hempty ▸ hnil]
          · exact .inr ⟨by simp [walk, hx], x, .root hempty, hx⟩
      | some b =>
          have hx' := hle x b hx
          have hbelow : Below C st x x := .root fun hempty => by
            rw [hempty, hnil] at hx'
            cases hx'
          cases hb : C.unmarshal b with
          | none =>
              left
              simp [walk, hx, hx', hb]
          | some m =>
              have hat : nodeAt C st x = some m := by simp [nodeAt, hx, hb]
              simp only [walk, hx, hx', hb]
              cases m with
              | branch slots =>
                  -- A missing node below a slot is missing below the branch.
                  have hslot : ∀ i r', walk C st' fuel (slots i) r' = walk C st fuel (slots i) r' ∨
                      (walk C st fuel (slots i) r' = .error .notFound ∧
                        ∃ y, Below C st x y ∧ st y = none) := by
                    intro i r'
                    rcases ih (slots i) r' with h | ⟨h, y, hy, hmiss⟩
                    · exact .inl h
                    · exact .inr ⟨h, y, (Below.slot hbelow hat i hy.root_ne_nil).trans hy, hmiss⟩
                  cases r with
                  | nil => exact hslot 16 []
                  | cons i rest => exact hslot i.castSucc rest
              | ext path next =>
                  dsimp only
                  split_ifs
                  · exact .inl rfl
                  · rcases ih next (r.drop path.length) with h | ⟨h, y, hy, hmiss⟩
                    · exact .inl h
                    · exact .inr ⟨h, y, (Below.next hbelow hat).trans hy, hmiss⟩
              | val value => exact .inl rfl

/-- **Roots stay intact.**  In every run of tries that share a storage whose steps meet their
condition, every entry of the storage has the hash of its value as key and stays as it is.
Hence a root whose nodes are stored gives the same contents forever, and a value that was
found below a root is found forever. -/
theorem roots_stay_intact (C : NodeCodec) {s : Shared} (hs : Hashed C s.storage)
    (hempty : ∀ i, s.tries i = none) {before after : List SharedOp}
    (hok : SharedOk C (before ++ after) s) :
    let s₁ := runShared C before s
    let s₂ := runShared C after s₁
    (Hashed C s₂.storage ∧ ∀ x b, s₁.storage x = some b → s₂.storage x = some b) ∧
      (∀ root, Complete C s₁.storage root → ∀ key,
        (Trie.get C key (ofRoot root s₂.storage)).1 = (Trie.get C key (ofRoot root s₁.storage)).1) ∧
      ∀ root key value, (Trie.get C key (ofRoot root s₁.storage)).1 = .ok value →
        (Trie.get C key (ofRoot root s₂.storage)).1 = .ok value := by
  intro s₁ s₂
  have hstart : Intact C s := ⟨hs, fun i t hi => by rw [hempty] at hi; cases hi⟩
  obtain ⟨hok₁, hok₂⟩ := sharedOk_append.1 hok
  have h₁ := (hstart.run hok₁).intact
  have h₂ := h₁.run hok₂
  have hnil : s₂.storage [] = none := by
    cases hb : s₂.storage [] with
    | none => rfl
    | some b => exact absurd (h₂.intact.hashed [] b hb).symm (C.sha3_ne_nil b)
  refine ⟨⟨h₂.intact.hashed, h₂.storage⟩, fun root hroot key => ?_, fun root key value hget => ?_⟩
  · rw [get_eq_walk, get_eq_walk]
    rcases walk_grown (C := C) h₂.storage hnil _ root (keyToRoute key) with h | ⟨-, y, hy, hmiss⟩
    · exact h
    · exact absurd (hroot y hy) (by simp [s₁, hmiss])
  · rw [get_eq_walk] at hget ⊢
    rcases walk_grown (C := C) h₂.storage hnil _ root (keyToRoute key) with h | ⟨h, -⟩
    · exact h.trans hget
    · rw [show walk C s₁.storage _ root (keyToRoute key) = _ from hget] at h
      cases h

/-- A second trie writes another root, and the first one deletes its only key. -/
theorem root_stays_after_delete :
    let s : Shared := ⟨fun _ => none, fun _ => none⟩
    let before : List SharedOp := [.newTrie 0 [], .put 0 [0x10] [1]]
    let v₂ := NodeCodec.plain.hash (.val [2])
    let after : List SharedOp := [.newTrie 1 [], .prepare 1, .put 1 [0x20] [2],
      .flush 1 [v₂, NodeCodec.plain.hash (.ext [2, 0] v₂)], .delete 0 [0x10]]
    let root := NodeCodec.plain.hash (.ext [1, 0] (NodeCodec.plain.hash (.val [1])))
    Hashed .plain s.storage ∧ (∀ i, s.tries i = none) ∧ SharedOk .plain (before ++ after) s ∧
      (Trie.get .plain [0x10] (ofRoot root
        (runShared .plain after (runShared .plain before s)).storage)).1 = .ok [1] := by
  intro s before v₂ after root
  have hs : Hashed .plain s.storage := fun x b hx => by cases hx
  have hdelete : ((runShared .plain (before ++ after.dropLast) s).tries 0).map Trie.prepared =
      some false := by decide +kernel
  have hok : SharedOk .plain (before ++ after) s := by
    refine ⟨trivial, trivial, trivial, trivial, trivial, trivial, fun t ht hp => ?_, trivial⟩
    have hmode : ((runShared .plain (before ++ after.dropLast) s).tries 0).map Trie.prepared =
        some true := (congrArg (Option.map Trie.prepared) ht).trans (congrArg some hp)
    rw [hdelete] at hmode
    cases hmode
  exact ⟨hs, fun _ => rfl, hok,
    (roots_stay_intact .plain hs (fun _ => rfl) hok).2.2 root [0x10] [1] (by decide +kernel)⟩

/-- Two tries put the same four values in their sessions, and the first one flushes them.  The
second one deletes a value and flushes too: it writes its changed branch under the hash of
the branch that both have stored, and the root of the first one loses a value. -/
theorem flush_alters_root :
    let v₁ := NodeCodec.plain.hash (.val [1])
    let v₂ := NodeCodec.plain.hash (.val [2])
    let branch := NodeCodec.plain.hash ((Node.emptyBranch.setSlot 0 v₁).setSlot 1 v₂)
    let root := NodeCodec.plain.hash ((Node.emptyBranch.setSlot 1 branch).setSlot 2 branch)
    let ext := NodeCodec.plain.hash (.ext [0] v₁)
    let root' := NodeCodec.plain.hash ((Node.emptyBranch.setSlot 1 ext).setSlot 2 branch)
    let puts (i : ℕ) : List SharedOp := [.newTrie i [], .prepare i, .put i [0x10] [1],
      .put i [0x11] [2], .put i [0x20] [1], .put i [0x21] [2]]
    let s₁ := runShared .plain (puts 0 ++ puts 1 ++ [.flush 0 [v₁, v₂, branch, root]])
      ⟨fun _ => none, fun _ => none⟩
    let s₂ := runShared .plain [.delete 1 [0x11], .flush 1 [v₁, v₂, branch, ext, root']] s₁
    (Trie.get .plain [0x21] (ofRoot root s₁.storage)).1 = .ok [2] ∧
      (Trie.get .plain [0x21] (ofRoot root s₂.storage)).1 = .error .notFound ∧
      (s₂.storage branch).map NodeCodec.plain.sha3 ≠ some branch := by
  decide +kernel

end GoMedibloc
