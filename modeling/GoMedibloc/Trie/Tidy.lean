import GoMedibloc.Trie.Session

/-!
# What every run keeps

The theorems about `Put` and `Delete` start from a trie that stores a tree.  Here nothing is
assumed about the nodes that are stored or cached: the roots may be missing, entries may be
stale, and the operation may fail half-way.  Still every run of `Put` keeps a trie tidy, and so
does every run of `Delete` on an unprepared trie: what the storage holds has its hash as key
and stays, and every cached object that the storage does not have carries its hash.

`Delete` on a prepared trie is not among these, see `Clean` and `DeleteOk`.
-/

namespace GoMedibloc

open Prog

/-- Every entry of the storage has the hash of its value as key. -/
def Hashed (C : NodeCodec) (s : Storage) : Prop := ∀ x b, s x = some b → x = C.sha3 b

namespace Trie

/-- The trie is in order, whatever it holds. -/
structure Tidy (C : NodeCodec) (t : Trie) : Prop extends Sound t where
  clean : Clean C t
  idle : t.prepared = false → ∀ x, t.tempNodes x = none
  hashed : Hashed C t.storage

/-- A run that keeps the trie tidy. -/
structure Tidied (C : NodeCodec) (t t' : Trie) : Prop where
  tidy : Tidy C t'
  ptr_le : t.nextPtr ≤ t'.nextPtr
  fits : ∀ s, t.arrays.Fits s → t'.arrays.Fits s
  prepared : t'.prepared = t.prepared
  storage : ∀ x b, t.storage x = some b → t'.storage x = some b
  ext : ∀ p s next, p < t.nextPtr → (t.heap p).body = .ext s next →
    ∃ s' next', (t'.heap p).body = .ext s' next'

variable {C : NodeCodec} {t t' t'' : Trie} {n : NodePtr} {α : Type} {Q : α → Trie → Prop}

lemma Tidy.refl (h : Tidy C t) : Tidied C t t :=
  ⟨h, le_rfl, fun _ hs => hs, rfl, fun _ _ hx => hx, fun _ s next _ hb => ⟨s, next, hb⟩⟩

lemma Tidied.trans (h : Tidied C t t') (h' : Tidied C t' t'') : Tidied C t t'' where
  tidy := h'.tidy
  ptr_le := h.ptr_le.trans h'.ptr_le
  fits := fun s hs => h'.fits s (h.fits s hs)
  prepared := h'.prepared.trans h.prepared
  storage := fun x b hx => h'.storage x b (h.storage x b hx)
  ext := by
    intro p s next hp hb
    obtain ⟨s', next', hb'⟩ := h.ext p s next hp hb
    exact h'.ext p s' next' (hp.trans_le h.ptr_le) hb'

/-- The rule of composition for tidy runs. -/
lemma tidied_bind {β : Type} {x : TrieM α} {f : α → TrieM β} {Q' : β → Trie → Prop}
    (hx : Guarantees (Tidied C) x t Q)
    (hf : ∀ a t', Tidied C t t' → Q a t' → Guarantees (Tidied C) (f a) t' Q') :
    Guarantees (Tidied C) (x >>= f) t Q' :=
  hx.bind (fun _ _ _ => Tidied.trans) hf

/-! ## Steps -/

/-- A trie with nothing cached is clean. -/
lemma clean_of_idle (h : ∀ x, t.tempNodes x = none) : Clean C t := by
  intro x temp he
  rw [h] at he
  cases he

lemma Tidy.deprecated (h : Tidy C t) (x : Hash) : Tidied C t (deprecated x t) where
  tidy :=
    { allocated := by
        intro y temp' he'
        obtain ⟨temp, he, hp, -⟩ := entry_of_deprecated he'
        rw [← hp]
        exact h.allocated y temp he
      fits := h.fits
      clean := h.clean.deprecated x
      idle := by
        intro hp y
        have hp' : t.prepared = false := hp
        simp [Trie.deprecated, hp', h.idle hp' y]
      hashed := h.hashed }
  ptr_le := le_rfl
  fits := fun _ hs => hs
  prepared := rfl
  storage := fun _ _ hx => hx
  ext := fun _ s next _ hb => ⟨s, next, hb⟩

/-- Allocating an object. -/
lemma Allocates.tidied {m : Node} (ha : Allocates m t t') (h : Tidy C t) : Tidied C t t' where
  tidy :=
    { ha.sound h.toSound with
      clean := h.clean.allocates h.toSound ha
      idle := by rw [ha.prepared, ha.tempNodes]; exact h.idle
      hashed := by rw [ha.storage]; exact h.hashed }
  ptr_le := by rw [ha.nextPtr]; exact Nat.le_succ _
  fits := fun s hs => fits_of_cells hs ha.cells ha.next_le
  prepared := ha.prepared
  storage := by rw [ha.storage]; exact fun _ _ hx => hx
  ext := fun p s next hp hb => ⟨s, next, by rw [ha.heap p hp.ne, hb]⟩

/-- Saving an object when all others are clean. -/
lemma tidied_savedNode (hs : Sound t) (hc : CleanBut C n t)
    (hi : t.prepared = false → ∀ x, t.tempNodes x = none) (hh : Hashed C t.storage)
    (hn : n < t.nextPtr) : Tidied C t (savedNode C n t) where
  tidy :=
    { allocated := by
        intro x temp' he'
        rcases entry_of_savedNode he' with ⟨temp, he, hp, -⟩ | ⟨-, rfl, -⟩
        · rw [← hp]
          exact hs.allocated x temp he
        · exact hn
      fits := by
        intro p s next hp hb
        rw [body_savedNode] at hb
        exact hs.fits p s next hp hb
      clean := hc.savedNode
      idle := by
        intro hp x
        have hp' : t.prepared = false := hp
        simp [savedNode, hp', hi hp' x]
      hashed := by
        intro x b hx
        simp only [savedNode] at hx
        split_ifs at hx
        · exact hh x b hx
        · by_cases hxn : x = C.hash (t.node n)
          · rw [hxn, Function.update_self] at hx
            rw [hxn, ← Option.some.inj hx]
            rfl
          · rw [Function.update_of_ne hxn] at hx
            exact hh x b hx }
  ptr_le := le_rfl
  fits := fun _ hs => hs
  prepared := rfl
  storage := by
    intro x b hx
    simp only [savedNode]
    split_ifs
    · exact hx
    · by_cases hxn : x = C.hash (t.node n)
      · have hb := hh x b hx
        rw [hxn] at hb
        rw [hxn, Function.update_self, C.sha3_injective hb]
      · rw [Function.update_of_ne hxn, hx]
  ext := fun p s next _ hb => ⟨s, next, by rw [body_savedNode, hb]⟩

lemma Tidy.saveNode (h : Tidy C t) (hn : n < t.nextPtr) :
    Guarantees (Tidied C) (saveNode C n) t fun _ _ => True :=
  guarantees_of_ok (saveNode_apply n t)
    (tidied_savedNode h.toSound (h.clean.but n) h.idle h.hashed hn) trivial

lemma Tidy.deprecateNode (h : Tidy C t) (x : Hash) :
    Guarantees (Tidied C) (deprecateNode x) t fun _ _ => True :=
  guarantees_of_ok rfl (h.deprecated x) trivial

lemma Tidy.saveNew (h : Tidy C t) (m : Node) :
    Guarantees (Tidied C) (saveNew C m) t fun _ _ => True := by
  obtain ⟨t₁, ht₁, ha, -⟩ := newNode_allocates m 0 t
  refine tidied_bind (guarantees_of_ok (Q := fun p t' => p < t'.nextPtr) ht₁ (ha.tidied h) ?_) ?_
  · rw [ha.nextPtr]
    exact Nat.lt_succ_self _
  · intro p t' ht' hp
    exact ht'.tidy.saveNode hp

lemma Tidy.saveExt (h : Tidy C t) (path : Route) (x : Hash) :
    Guarantees (Tidied C) (saveExt C path x) t fun _ _ => True := by
  unfold Trie.saveExt
  split_ifs
  · exact guarantees_pure h.refl trivial
  · exact h.saveNew _

lemma Tidy.addExtToBranch (h : Tidy C t) (x : Hash) {s : Slice} (hs : t.arrays.Fits s) :
    Guarantees (Tidied C) (addExtToBranch C x s) t fun _ _ => True := by
  unfold Trie.addExtToBranch
  split_ifs
  · exact guarantees_pure h.refl trivial
  · obtain ⟨t₁, ht₁, ha⟩ := newObj_allocates (t := t) (.ext s x) (by
      rintro s' next ⟨⟩
      exact hs)
    refine tidied_bind (guarantees_of_ok (Q := fun p t' => p < t'.nextPtr) ht₁ (ha.tidied h) ?_) ?_
    · rw [ha.nextPtr]
      exact Nat.lt_succ_self _
    · intro p t' ht' hp
      exact ht'.tidy.saveNode hp

/-- An assignment to the fields of an object that leaves an extension one, with a path that
lies inside its array. -/
structure Tame (t : Trie) (n : NodePtr) (f : NodeBody → NodeBody) : Prop where
  fits : ∀ s next, f (t.heap n).body = .ext s next → t.arrays.Fits s
  ext : ∀ s next, (t.heap n).body = .ext s next → ∃ s' next', f (t.heap n).body = .ext s' next'

/-- The trie after an assignment to the fields of an object. -/
def modified (n : NodePtr) (f : NodeBody → NodeBody) (t : Trie) : Trie :=
  t.setObj n ⟨f (t.heap n).body, (t.heap n).hash⟩

/-- Assigning to the fields of an object: all others stay clean. -/
lemma Tidy.modified (h : Tidy C t) {f : NodeBody → NodeBody} (hf : Tame t n f) :
    Sound (Trie.modified n f t) ∧ CleanBut C n (Trie.modified n f t) := by
  refine ⟨⟨h.allocated, fun p s next hp hb => ?_⟩, h.clean.setObj n _⟩
  by_cases hpn : p = n
  · subst hpn
    simp only [Trie.modified, setObj, Function.update_self] at hb
    exact hf.fits s next hb
  · simp only [Trie.modified, setObj, Function.update_of_ne hpn] at hb
    exact h.fits p s next hp hb

lemma Tame.ext_modified {f : NodeBody → NodeBody} (hf : Tame t n f) (p : NodePtr) (s : Slice)
    (next : Hash) (hb : (t.heap p).body = .ext s next) :
    ∃ s' next', ((Trie.modified n f t).heap p).body = .ext s' next' := by
  by_cases hpn : p = n
  · subst hpn
    obtain ⟨s', next', hb'⟩ := hf.ext s next hb
    exact ⟨s', next', by simpa [Trie.modified, setObj] using hb'⟩
  · exact ⟨s, next, by simpa [Trie.modified, setObj, hpn] using hb⟩

/-- Assigning to the fields of an object and saving it. -/
lemma Tidy.modify_save (h : Tidy C t) (hn : n < t.nextPtr) {f : NodeBody → NodeBody}
    (hf : Tame t n f) :
    Guarantees (Tidied C) (do modifyNode n f; Trie.saveNode C n) t fun _ _ => True := by
  obtain ⟨hs, hc⟩ := h.modified hf
  have hsaved := tidied_savedNode hs hc h.idle h.hashed hn
  have hrun := bind_of_ok (f := fun _ => Trie.saveNode C n) (modifyNode_apply n f t)
  rw [saveNode_apply] at hrun
  refine guarantees_of_ok hrun ⟨hsaved.tidy, hsaved.ptr_le, hsaved.fits, hsaved.prepared,
    hsaved.storage, fun p s next hp hb => ?_⟩ trivial
  rw [body_savedNode]
  exact hf.ext_modified p s next hb

/-- Assigning to the fields of an object, deprecating a hash and saving the object. -/
lemma Tidy.modify_deprecate_save (h : Tidy C t) (hn : n < t.nextPtr) {f : NodeBody → NodeBody}
    (hf : Tame t n f) (x : Hash) :
    Guarantees (Tidied C) (do modifyNode n f; Trie.deprecateNode x; Trie.saveNode C n) t
      fun _ _ => True := by
  obtain ⟨hs, hc⟩ := h.modified hf
  have hs₁ : Sound (Trie.deprecated x (Trie.modified n f t)) := by
    refine ⟨fun y temp' he' => ?_, hs.fits⟩
    obtain ⟨temp, he, hp, -⟩ := entry_of_deprecated he'
    rw [← hp]
    exact hs.allocated y temp he
  have hi : (Trie.deprecated x (Trie.modified n f t)).prepared = false →
      ∀ y, (Trie.deprecated x (Trie.modified n f t)).tempNodes y = none := by
    intro hp y
    have hp' : t.prepared = false := hp
    simp [Trie.deprecated, Trie.modified, setObj, hp', h.idle hp' y]
  have hsaved := tidied_savedNode hs₁ (hc.deprecated x) hi h.hashed hn
  have hrun := bind_of_ok (f := fun _ => do Trie.deprecateNode x; Trie.saveNode C n)
    (modifyNode_apply n f t)
  rw [bind_of_ok (deprecateNode_apply x _), saveNode_apply] at hrun
  refine guarantees_of_ok hrun ⟨hsaved.tidy, hsaved.ptr_le, hsaved.fits, hsaved.prepared,
    hsaved.storage, fun p s next hp hb => ?_⟩ trivial
  rw [body_savedNode]
  exact hf.ext_modified p s next hb

/-! ## Reading nodes -/

lemma Tidy.loadNode (h : Tidy C t) (x : Hash) :
    Guarantees (Tidied C) (loadNode C x) t fun p t' =>
      p < t'.nextPtr ∧ t'.tempNodes = t.tempNodes := by
  unfold Trie.loadNode
  rw [guarantees_read_bind]
  cases t.storage x with
  | none => exact guarantees_fail h.refl
  | some b =>
      dsimp only
      cases C.unmarshal b with
      | none => exact guarantees_fail h.refl
      | some m =>
          obtain ⟨t₁, ht₁, ha, -⟩ := newNode_allocates m (C.spare m.path.length) t
          have h₁ := ha.tidied h
          have hlt : t.nextPtr < t₁.nextPtr := by
            rw [ha.nextPtr]
            exact Nat.lt_succ_self _
          -- The new object is not cached yet, so it does not matter which hash it carries.
          let t₂ := t₁.setObj t.nextPtr ⟨(t₁.heap t.nextPtr).body, x⟩
          have hrun := bind_of_ok (f := fun p => do setHash p x; pure p) ht₁
          refine guarantees_of_ok (hrun.trans rfl) ?_ ⟨hlt, ha.tempNodes⟩
          have hne : ∀ y temp, t₁.tempNodes y = some temp → temp.node ≠ t.nextPtr := by
            intro y temp he
            rw [ha.tempNodes] at he
            exact (h.allocated y temp he).ne
          refine ⟨⟨⟨h₁.tidy.allocated, fun p s next hp hb => ?_⟩, ?_, h₁.tidy.idle, h₁.tidy.hashed⟩,
            h₁.ptr_le, h₁.fits, h₁.prepared, h₁.storage, fun p s next hp hb => ?_⟩
          · refine h₁.tidy.fits p s next hp ?_
            by_cases hpn : p = t.nextPtr
            · subst hpn
              simpa [setObj] using hb
            · simpa [setObj, hpn] using hb
          · intro y temp he hs
            exact (h₁.tidy.clean.setObj t.nextPtr ⟨(t₁.heap t.nextPtr).body, x⟩) y temp he hs
              (hne y temp he)
          · exact ⟨s, next, by simp [setObj, hp.ne, ha.heap p hp.ne, hb]⟩

lemma Tidy.fetchNode (h : Tidy C t) (x : Hash) :
    Guarantees (Tidied C) (fetchNode C x) t fun p t' => p < t'.nextPtr := by
  unfold Trie.fetchNode
  rw [guarantees_read_bind]
  split_ifs with hp
  · cases he : t.tempNodes x with
    | some temp => exact guarantees_pure h.refl (h.allocated x temp he)
    | none =>
        refine tidied_bind (h.loadNode x) fun p t' ht' hlt => ?_
        let temp : TempNode := ⟨p, 0, true⟩
        have hentry : ∀ y temp', Function.update t'.tempNodes x (some temp) y = some temp' →
            t'.tempNodes y = some temp' ∨ temp' = temp := by
          intro y temp' hy
          by_cases hyx : y = x
          · rw [hyx, Function.update_self] at hy
            exact .inr (Option.some.inj hy).symm
          · rw [Function.update_of_ne hyx] at hy
            exact .inl hy
        refine guarantees_of_ok rfl ⟨⟨⟨fun y temp' hy => ?_, ht'.tidy.fits⟩, fun y temp' hy hs => ?_,
          fun hp' => ?_, ht'.tidy.hashed⟩, le_rfl, fun _ hs => hs, rfl, fun _ _ hx => hx,
          fun _ s next _ hb => ⟨s, next, hb⟩⟩ hlt.1
        · rcases hentry y temp' hy with he' | rfl
          · exact ht'.tidy.allocated y temp' he'
          · exact hlt.1
        · rcases hentry y temp' hy with he' | rfl
          · exact (ht'.tidy.clean y temp' he' hs).of_eq rfl rfl
          · cases hs
        · rw [show t'.prepared = true from ht'.prepared.trans hp] at hp'
          cases hp'
  · exact (h.loadNode x).mono fun _ _ h => h.1

/-! ## Put -/

lemma Tidy.tame_setSlot (h : Tidy C t) (hn : n < t.nextPtr) (i : Fin 17) (x : Hash) :
    Tame t n (NodeBody.setSlot i x) := by
  cases hbody : (t.heap n).body with
  | branch slots => constructor <;> simp [hbody, NodeBody.setSlot]
  | val value => constructor <;> simp [hbody, NodeBody.setSlot]
  | ext s next =>
      have hs := h.fits n s next hn hbody
      constructor
      · rintro s' next' hb
        rw [hbody] at hb
        cases hb
        exact hs
      · exact fun _ _ _ => ⟨s, next, by rw [hbody]; rfl⟩

lemma Tidy.tame_setNext (h : Tidy C t) (hn : n < t.nextPtr) (x : Hash) :
    Tame t n (NodeBody.setNext x) := by
  cases hbody : (t.heap n).body with
  | branch slots => constructor <;> simp [hbody, NodeBody.setNext]
  | val value => constructor <;> simp [hbody, NodeBody.setNext]
  | ext s next =>
      have hs := h.fits n s next hn hbody
      constructor
      · rintro s' next' hb
        rw [hbody] at hb
        cases hb
        exact hs
      · exact fun _ _ _ => ⟨s, x, by rw [hbody]; rfl⟩

lemma tame_setPath {s : Slice} (hs : t.arrays.Fits s) (n : NodePtr) :
    Tame t n (NodeBody.setPath s) := by
  cases hbody : (t.heap n).body with
  | branch slots => constructor <;> simp [hbody, NodeBody.setPath]
  | val value => constructor <;> simp [hbody, NodeBody.setPath]
  | ext s' next =>
      constructor
      · rintro s'' next' hb
        rw [hbody] at hb
        cases hb
        exact hs
      · exact fun _ _ _ => ⟨s, next, by rw [hbody]; rfl⟩

/-- A recursive call that keeps every tidy trie tidy. -/
def TidyCall (C : NodeCodec) (update : Hash → Route → Bytes → TrieM Hash) : Prop :=
  ∀ x r v t, Tidy C t → Guarantees (Tidied C) (update x r v) t fun _ _ => True

lemma Tidy.updateBranch (h : Tidy C t) (hn : n < t.nextPtr)
    {update : Hash → Route → Bytes → TrieM Hash} (hu : TidyCall C update) (r : Route) (v : Bytes) :
    Guarantees (Tidied C) (updateBranch C update n r v) t fun _ _ => True := by
  unfold Trie.updateBranch
  rw [guarantees_read_bind]
  cases r with
  | nil =>
      -- Once the old value is deprecated, the two branches of the program go the same way.
      have hmain : ∀ t₁, Tidied C t t₁ → Guarantees (Tidied C) (do
          let hash ← Trie.saveNew C (.val v)
          modifyNode n (NodeBody.setSlot 16 hash)
          Trie.deprecateNode (t.heap n).hash
          Trie.saveNode C n) t₁ fun _ _ => True := by
        intro t₁ h₁
        refine tidied_bind (h₁.tidy.saveNew _) fun x t₂ h₂ _ => ?_
        have hn₂ := hn.trans_le (h₁.trans h₂).ptr_le
        exact h₂.tidy.modify_deprecate_save hn₂ (h₂.tidy.tame_setSlot hn₂ 16 x) _
      dsimp only
      split_ifs
      · exact tidied_bind (h.deprecateNode _) fun _ t₁ h₁ _ => hmain t₁ h₁
      · exact hmain t h.refl
  | cons i r =>
      refine tidied_bind (hu _ r v t h) fun x t₁ h₁ _ => ?_
      have hn₁ := hn.trans_le h₁.ptr_le
      exact h₁.tidy.modify_deprecate_save hn₁ (h₁.tidy.tame_setSlot hn₁ i.castSucc x) _

lemma Tidy.forkValue (h : Tidy C t) (branch : Node) (rest : Route) (v : Bytes) :
    Guarantees (Tidied C) (forkValue C branch rest v) t fun _ _ => True := by
  unfold Trie.forkValue
  refine tidied_bind (h.saveNew _) fun x t₁ h₁ _ => ?_
  cases rest with
  | nil => exact guarantees_pure h₁.tidy.refl trivial
  | cons b rest =>
      exact tidied_bind (h₁.tidy.saveExt rest x) fun _ t₂ h₂ _ =>
        guarantees_pure h₂.tidy.refl trivial

/-- The end of `updateExt` when the extension is split. -/
lemma Tidy.finishFork (h : Tidy C t) (branch : Node) (rest : Route) (v : Bytes) (x : Hash)
    {s : Slice} (hs : t.arrays.Fits s) :
    Guarantees (Tidied C) (do
      let branch ← Trie.forkValue C branch rest v
      Trie.deprecateNode x
      let hash ← Trie.saveNew C branch
      Trie.addExtToBranch C hash s) t fun _ _ => True := by
  refine tidied_bind (h.forkValue branch rest v) fun branch t₁ h₁ _ => ?_
  refine tidied_bind (h₁.tidy.deprecateNode x) fun _ t₂ h₂ _ => ?_
  refine tidied_bind (h₂.tidy.saveNew branch) fun y t₃ h₃ _ => ?_
  exact h₃.tidy.addExtToBranch y (((h₁.trans h₂).trans h₃).fits s hs)

lemma Tidy.updateExt (h : Tidy C t) (hn : n < t.nextPtr)
    {update : Hash → Route → Bytes → TrieM Hash} (hu : TidyCall C update) {s : Slice}
    {next : Hash} (hbody : (t.heap n).body = .ext s next) (r : Route) (v : Bytes) :
    Guarantees (Tidied C) (updateExt C update n r v) t fun _ _ => True := by
  have hs : t.arrays.Fits s := h.fits n s next hn hbody
  have hpath : (t.heap n).body.path = s := by rw [hbody]; rfl
  have hread : (t.node n).path = t.arrays.read s := by
    simp only [Trie.node, hbody]
    rfl
  unfold Trie.updateExt
  rw [guarantees_read_bind]
  dsimp only
  rw [hpath]
  generalize hm : Radix.commonLen (t.node n).path r = m
  split
  · refine tidied_bind (hu _ _ v t h) fun x t₁ h₁ _ => ?_
    have hn₁ := hn.trans_le h₁.ptr_le
    exact h₁.tidy.modify_deprecate_save hn₁ (h₁.tidy.tame_setNext hn₁ x) _
  · exact h.finishFork _ _ v _ (hs.take m)
  · next a rest hdrop hrest =>
      have hlen : m + 1 ≤ s.len := by
        have := congrArg List.length hrest
        rw [hread, List.length_drop, Arrays.length_read hs, List.length_cons] at this
        omega
      have hfit : t.arrays.Fits (s.drop (m + 1)) := hs.drop hlen
      have hsave := h.modify_save hn (f := NodeBody.setPath (s.drop (m + 1))) (tame_setPath hfit n)
      rw [← bind_bind]
      refine tidied_bind hsave fun x t₁ h₁ _ => ?_
      exact h₁.tidy.finishFork _ _ v _ (h₁.fits _ (hs.take m))

lemma Tidy.updateVal (h : Tidy C t) (r : Route) (v : Bytes) :
    Guarantees (Tidied C) (updateVal C n r v) t fun _ _ => True := by
  unfold Trie.updateVal
  rw [guarantees_read_bind]
  refine tidied_bind (h.saveNew _) fun x t₁ h₁ _ => ?_
  cases r with
  | nil =>
      exact tidied_bind (h₁.tidy.deprecateNode _) fun _ t₂ h₂ _ =>
        guarantees_pure h₂.tidy.refl trivial
  | cons a rest =>
      exact tidied_bind (h₁.tidy.saveExt rest x) fun y t₂ h₂ _ => h₂.tidy.saveNew _

/-- **Every run of `update` keeps a tidy trie tidy.** -/
lemma tidyCall_update (C : NodeCodec) (fuel : ℕ) : TidyCall C (update C fuel) := by
  induction fuel with
  | zero => exact fun _ _ _ t h => guarantees_fail h.refl
  | succ fuel ih =>
      intro root r v t h
      unfold update
      split_ifs
      · exact tidied_bind (h.saveNew _) fun x t₁ h₁ _ => h₁.tidy.saveExt r x
      · refine tidied_bind (h.fetchNode root) fun n t₁ h₁ hn => ?_
        rw [guarantees_read_bind]
        cases hnode : t₁.node n with
        | branch slots => exact h₁.tidy.updateBranch hn ih r v
        | ext path next =>
            obtain ⟨s, hbody, -⟩ := body_of_node_ext hnode
            exact h₁.tidy.updateExt hn ih hbody r v
        | val value => exact h₁.tidy.updateVal r v

lemma Tidy.setRoot (h : Tidy C t) (x : Hash) : Tidied C t { t with rootHash := x } where
  tidy :=
    { h with
      clean := h.clean.setRoot x }
  ptr_le := le_rfl
  fits := fun _ hs => hs
  prepared := rfl
  storage := fun _ _ hx => hx
  ext := fun _ s next _ hb => ⟨s, next, hb⟩

lemma Tidy.put (h : Tidy C t) (key value : Bytes) : Tidied C t (put C key value t).2 := by
  have hput : Guarantees (Tidied C) (Trie.put C key value) t fun _ _ => True := by
    unfold Trie.put
    rw [guarantees_read_bind]
    exact tidied_bind (tidyCall_update C _ _ _ _ t h) fun x t₁ h₁ _ =>
      guarantees_of_ok rfl (h₁.tidy.setRoot x) trivial
  exact hput.moved

/-! ## Get -/

lemma Tidy.getLoop (h : Tidy C t) (fuel : ℕ) (x : Hash) (r : Route) :
    Guarantees (Tidied C) (getLoop C fuel x r) t fun _ _ => True := by
  induction fuel generalizing t x r with
  | zero => exact guarantees_fail h.refl
  | succ fuel ih =>
      unfold Trie.getLoop
      refine tidied_bind (h.fetchNode x) fun n t₁ h₁ _ => ?_
      rw [guarantees_read_bind]
      cases t₁.node n with
      | branch slots =>
          cases r with
          | nil => exact ih h₁.tidy _ _
          | cons i rest => exact ih h₁.tidy _ _
      | ext path next =>
          dsimp only
          split_ifs
          · exact guarantees_fail h₁.tidy.refl
          · exact ih h₁.tidy _ _
      | val value =>
          dsimp only
          split_ifs
          · exact guarantees_fail h₁.tidy.refl
          · exact guarantees_pure h₁.tidy.refl trivial

lemma Tidy.get (h : Tidy C t) (key : Bytes) : Tidied C t (get C key t).2 :=
  (h.getLoop ((keyToRoute key).length + 2) t.rootHash (keyToRoute key)).moved

/-! ## Delete on an unprepared trie -/

section Unprepared

/-- Assigning to an object of an unprepared trie, where nothing is cached. -/
lemma Tidy.modifyNode (h : Tidy C t) (hp : t.prepared = false) {f : NodeBody → NodeBody}
    (hf : Tame t n f) :
    Guarantees (Tidied C) (modifyNode n f) t fun _ _ => True := by
  have hs := (h.modified hf).1
  exact guarantees_of_ok (modifyNode_apply n f t)
    ⟨⟨hs, clean_of_idle (h.idle hp), h.idle, h.hashed⟩, le_rfl, fun _ hs => hs, rfl,
      fun _ _ hx => hx, fun p s next _ hb => hf.ext_modified p s next hb⟩ trivial

/-- Changing the arrays of an unprepared trie. -/
lemma Tidy.setArrays (h : Tidy C t) (hp : t.prepared = false) {A : Arrays (Fin 16)}
    (hA : ∀ s, t.arrays.Fits s → A.Fits s) : Tidied C t { t with arrays := A } where
  tidy :=
    { allocated := h.allocated
      fits := fun p s next hlt hb => hA s (h.fits p s next hlt hb)
      clean := clean_of_idle (h.idle hp)
      idle := h.idle
      hashed := h.hashed }
  ptr_le := le_rfl
  fits := hA
  prepared := rfl
  storage := fun _ _ hx => hx
  ext := fun _ s next _ hb => ⟨s, next, hb⟩

lemma Tidy.newSlice (h : Tidy C t) (hp : t.prepared = false) (l : Route) (spare : ℕ) :
    Guarantees (Tidied C) (newSlice l spare) t fun s t' => t'.arrays.Fits s :=
  guarantees_of_ok rfl (h.setArrays hp fun _ hs => hs.alloc l _) (Arrays.fits_alloc_self _ _)

lemma Tidy.appendSlice (h : Tidy C t) (hp : t.prepared = false) {s : Slice}
    (hs : t.arrays.Fits s) (l : Route) (spare : ℕ) :
    Guarantees (Tidied C) (appendSlice s l spare) t fun s' t' => t'.arrays.Fits s' :=
  guarantees_of_ok rfl (h.setArrays hp fun _ hu => hs.append hu l _)
    (Arrays.fits_append_self hs _ _)

lemma Tidy.collapseBranch (h : Tidy C t) (hp : t.prepared = false) :
    Guarantees (Tidied C) (collapseBranch C n) t fun _ _ => True := by
  unfold Trie.collapseBranch
  rw [guarantees_read_bind]
  refine tidied_bind (h.fetchNode _) fun m t₁ h₁ hm => ?_
  rw [guarantees_read_bind]
  cases t₁.node m with
  | branch slots => exact h₁.tidy.saveNew _
  | ext path next =>
      refine tidied_bind (h₁.tidy.deprecateNode _) fun _ t₂ h₂ _ => ?_
      have hp₂ := (h₁.trans h₂).prepared.trans hp
      refine tidied_bind (h₂.tidy.newSlice hp₂ _ _) fun s t₃ h₃ hs => ?_
      have hp₃ := h₃.prepared.trans hp₂
      refine tidied_bind (h₃.tidy.modifyNode hp₃ (tame_setPath hs m)) fun _ t₄ h₄ _ => ?_
      exact h₄.tidy.saveNode (hm.trans_le ((h₂.trans h₃).trans h₄).ptr_le)
  | val value =>
      dsimp only
      split_ifs
      · exact guarantees_pure h₁.tidy.refl trivial
      · exact h₁.tidy.saveNew _

lemma Tidy.deleteBranch (h : Tidy C t) (hp : t.prepared = false) (hn : n < t.nextPtr) (x : Hash)
    (i : Fin 17) (y : Hash) :
    Guarantees (Tidied C) (deleteBranch C x n i y) t fun _ _ => True := by
  unfold Trie.deleteBranch
  refine tidied_bind (h.modifyNode hp (h.tame_setSlot hn i y)) fun _ t₁ h₁ _ => ?_
  rw [guarantees_read_bind]
  refine tidied_bind (h₁.tidy.deprecateNode x) fun _ t₂ h₂ _ => ?_
  split_ifs
  · exact h₂.tidy.collapseBranch ((h₁.trans h₂).prepared.trans hp)
  · exact h₂.tidy.saveNode (hn.trans_le (h₁.trans h₂).ptr_le)

lemma Tidy.deleteExt (h : Tidy C t) (hp : t.prepared = false) (hn : n < t.nextPtr)
    {s : Slice} {next : Hash} (hbody : (t.heap n).body = .ext s next) (x y : Hash) :
    Guarantees (Tidied C) (deleteExt C x n y) t fun _ _ => True := by
  unfold Trie.deleteExt
  split_ifs
  · exact tidied_bind (h.deprecateNode x) fun _ t₁ h₁ _ => guarantees_pure h₁.tidy.refl trivial
  · refine tidied_bind (h.fetchNode y) fun m t₁ h₁ hm => ?_
    have hp₁ := h₁.prepared.trans hp
    have hn₁ := hn.trans_le h₁.ptr_le
    rw [guarantees_read_bind]
    split
    · obtain ⟨s₁, next₁, hbody₁⟩ := h₁.ext n s next hn hbody
      have hpath : (t₁.heap n).body.path = s₁ := by rw [hbody₁]; rfl
      rw [hpath]
      refine tidied_bind (h₁.tidy.appendSlice hp₁ (h₁.tidy.fits n s₁ next₁ hn₁ hbody₁) _ _)
        fun s₂ t₂ h₂ hs₂ => ?_
      have hp₂ := h₂.prepared.trans hp₁
      refine tidied_bind (h₂.tidy.modifyNode hp₂ (tame_setPath hs₂ m)) fun _ t₃ h₃ _ => ?_
      refine tidied_bind (h₃.tidy.deprecateNode y) fun _ t₄ h₄ _ => ?_
      exact h₄.tidy.saveNode (hm.trans_le ((h₂.trans h₃).trans h₄).ptr_le)
    · refine tidied_bind (h₁.tidy.modifyNode hp₁ (h₁.tidy.tame_setNext hn₁ y)) fun _ t₂ h₂ _ => ?_
      refine tidied_bind (h₂.tidy.deprecateNode x) fun _ t₃ h₃ _ => ?_
      exact h₃.tidy.saveNode (hn₁.trans_le (h₂.trans h₃).ptr_le)

lemma Tidy.delete (h : Tidy C t) (hp : t.prepared = false) (fuel : ℕ) (x : Hash) (r : Route) :
    Guarantees (Tidied C) (delete C fuel x r) t fun _ _ => True := by
  induction fuel generalizing t x r with
  | zero => exact guarantees_fail h.refl
  | succ fuel ih =>
      unfold Trie.delete
      refine tidied_bind (h.fetchNode x) fun n t₁ h₁ hn => ?_
      have hp₁ := h₁.prepared.trans hp
      rw [guarantees_read_bind]
      cases hnode : t₁.node n with
      | branch slots =>
          cases r with
          | nil =>
              refine tidied_bind (ih h₁.tidy hp₁ _ _) fun y t₂ h₂ _ => ?_
              exact h₂.tidy.deleteBranch (h₂.prepared.trans hp₁) (hn.trans_le h₂.ptr_le) x 16 y
          | cons i rest =>
              refine tidied_bind (ih h₁.tidy hp₁ _ _) fun y t₂ h₂ _ => ?_
              exact h₂.tidy.deleteBranch (h₂.prepared.trans hp₁) (hn.trans_le h₂.ptr_le) x _ y
      | ext path next =>
          dsimp only
          split_ifs
          · exact guarantees_fail h₁.tidy.refl
          · refine tidied_bind (ih h₁.tidy hp₁ _ _) fun y t₂ h₂ _ => ?_
            obtain ⟨s, hbody, -⟩ := body_of_node_ext hnode
            obtain ⟨s₂, next₂, hbody₂⟩ := h₂.ext n s next hn hbody
            exact h₂.tidy.deleteExt (h₂.prepared.trans hp₁) (hn.trans_le h₂.ptr_le) hbody₂ x y
      | val value =>
          exact tidied_bind (h₁.tidy.deprecateNode x) fun _ t₂ h₂ _ =>
            guarantees_pure h₂.tidy.refl trivial

lemma Tidy.deleteKey (h : Tidy C t) (hp : t.prepared = false) (key : Bytes) :
    Tidied C t (deleteKey C key t).2 := by
  have hdelete : Guarantees (Tidied C) (Trie.deleteKey C key) t fun _ _ => True := by
    unfold Trie.deleteKey
    rw [guarantees_read_bind]
    exact tidied_bind (h.delete hp _ _ _) fun x t₁ h₁ _ =>
      guarantees_of_ok rfl (h₁.tidy.setRoot x) trivial
  exact hdelete.moved

end Unprepared

end Trie

end GoMedibloc
