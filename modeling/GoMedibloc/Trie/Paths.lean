import GoMedibloc.Trie.Operation

/-!
# The paths of extensions

The paths of extensions are slices, and several objects may hold parts of one array.  Nearly
every step of an operation leaves the arrays alone or allocates new ones; `Unwritten` says so
of a run.  The one exception is the merge of two extensions in `delete`, which appends to a
path: `SafeAppend` is the condition under which no live object notices, and `Apart` the same
condition on the state before the operation.
-/

namespace GoMedibloc

open Prog Radix

namespace Trie

variable {C : NodeCodec} {L : NodePtr → Prop} {M : Set Hash} {t t' t'' : Trie} {c d : Hash → ℕ}

/-! ## Paths that are not written to -/

/-- No backing array has been written to, and every path is an old one or has an array that
is new. -/
structure Unwritten (t t' : Trie) : Prop where
  next_le : t.arrays.next ≤ t'.arrays.next
  cells : ∀ a, a < t.arrays.next → t'.arrays.cells a = t.arrays.cells a
  path : ∀ p s next, p < t'.nextPtr → (t'.heap p).body = .ext s next →
    (p < t.nextPtr ∧ ∃ next', (t.heap p).body = .ext s next') ∨ t.arrays.next ≤ s.array

lemma Loads.unwritten (h : Loads C t t') : Unwritten t t' := by
  refine ⟨h.next_le, h.cells, fun p s next hp hb => ?_⟩
  by_cases hlt : p < t.nextPtr
  · exact .inl ⟨hlt, next, by rw [← h.heap p hlt, hb]⟩
  · exact .inr (h.new_path p s next (Nat.not_lt.1 hlt) hp hb)

lemma Unwritten.trans (h : Unwritten t t') (h' : Unwritten t' t'') : Unwritten t t'' := by
  refine ⟨h.next_le.trans h'.next_le, fun a ha => ?_, fun p s next hp hb => ?_⟩
  · rw [h'.cells a (ha.trans_le h.next_le), h.cells a ha]
  · rcases h'.path p s next hp hb with ⟨hp', next', hb'⟩ | hle
    · exact h.path p s next' hp' hb'
    · exact .inr (h.next_le.trans hle)

/-- Steps that keep the fields of all objects keep the paths. -/
lemma Unwritten.of_eq (h : Unwritten t t') (hptr : t''.nextPtr = t'.nextPtr)
    (hbody : ∀ p, (t''.heap p).body = (t'.heap p).body) (harr : t''.arrays = t'.arrays) :
    Unwritten t t'' := by
  refine ⟨by rw [harr]; exact h.next_le, by rw [harr]; exact h.cells, fun p s next hp hb => ?_⟩
  rw [hbody] at hb
  rw [hptr] at hp
  exact h.path p s next hp hb

lemma keeps_unwritten_deprecateNode (t : Trie) (x : Hash) :
    Keeps (Unwritten t) (deprecateNode x) := fun _ h => h.of_eq rfl (fun _ => rfl) rfl

lemma keeps_unwritten_saveNode (t : Trie) (n : NodePtr) : Keeps (Unwritten t) (saveNode C n) := by
  intro t' h
  rw [saveNode_apply]
  exact h.of_eq rfl (fun p => body_savedNode n p t') rfl

/-- A new object with a path of its own. -/
lemma Unwritten.allocates {n : Node} (h : Unwritten t t') (ha : Allocates n t' t'')
    (ho : OwnsPath t' t'' t'.nextPtr) : Unwritten t t'' := by
  refine ⟨h.next_le.trans ha.next_le, fun a hlt => ?_, fun p s next hp hb => ?_⟩
  · rw [ha.cells a (hlt.trans_le h.next_le), h.cells a hlt]
  · by_cases hpn : p = t'.nextPtr
    · subst hpn
      exact .inr (h.next_le.trans (ho s next hb))
    · rw [ha.heap p hpn] at hb
      rw [ha.nextPtr] at hp
      exact h.path p s next (Nat.lt_of_le_of_ne (Nat.le_of_lt_succ hp) hpn) hb

lemma keeps_unwritten_newNode (t : Trie) (n : Node) (spare : ℕ) :
    Keeps (Unwritten t) (newNode n spare) := by
  intro t' h
  obtain ⟨t'', ht, ha, ho⟩ := newNode_allocates n spare t'
  rw [ht]
  exact h.allocates ha ho

lemma keeps_unwritten_saveNew (t : Trie) (n : Node) : Keeps (Unwritten t) (saveNew C n) :=
  (keeps_unwritten_newNode t n 0).bind fun p => keeps_unwritten_saveNode t p

lemma keeps_unwritten_setHash (t : Trie) (n : NodePtr) (x : Hash) :
    Keeps (Unwritten t) (setHash n x) := by
  intro t' h
  refine h.of_eq rfl (fun p => ?_) rfl
  by_cases hp : p = n
  · subst hp
    simp [setHash, setObj]
  · simp [setHash, setObj, hp]

lemma keeps_unwritten_loadNode (t : Trie) (x : Hash) : Keeps (Unwritten t) (loadNode C x) := by
  refine (keeps_read _).bind fun t' => ?_
  split
  · exact keeps_fail _ _
  · split
    · exact keeps_fail _ _
    · exact (keeps_unwritten_newNode t _ _).bind fun n =>
        (keeps_unwritten_setHash t n x).bind fun _ => keeps_pure _ _

lemma keeps_unwritten_fetchNode (t : Trie) (x : Hash) : Keeps (Unwritten t) (fetchNode C x) := by
  refine (keeps_read _).bind fun t' => ?_
  split_ifs
  · split
    · exact keeps_pure _ _
    · refine (keeps_unwritten_loadNode t x).bind fun n => Keeps.bind ?_ fun _ => keeps_pure _ _
      exact fun _ h => h.of_eq rfl (fun _ => rfl) rfl
  · exact keeps_unwritten_loadNode t x

/-- Assignments that leave the path of an extension alone. -/
lemma keeps_unwritten_modifyNode (t : Trie) (n : NodePtr) {f : NodeBody → NodeBody}
    (hf : ∀ b s next, f b = .ext s next → ∃ next', b = .ext s next') :
    Keeps (Unwritten t) (modifyNode n f) := by
  intro t' h
  refine ⟨h.next_le, h.cells, fun p s next hp hb => ?_⟩
  by_cases hpn : p = n
  · subst hpn
    simp only [modifyNode_apply, setObj, Function.update_self] at hb
    obtain ⟨next', hb'⟩ := hf _ s next hb
    exact h.path p s next' hp hb'
  · simp only [modifyNode_apply, setObj, Function.update_of_ne hpn] at hb
    exact h.path p s next hp hb

/-! ## New arrays on the way -/

/-- Storing the paths in other arrays: the live objects keep their nodes. -/
lemma Reached.arrays (h : Reached C L c M t t') {A : Arrays (Fin 16)}
    (hfits : ∀ s, t'.arrays.Fits s → A.Fits s)
    (hnode : ∀ p, L p → p < t'.nextPtr → (t'.heap p).body.toNode A = t'.node p) :
    Reached C L c M t { t' with arrays := A } := by
  have hg : Good C L { t' with arrays := A } :=
    { h.good with fits := fun p s next hp hb => hfits s (h.good.fits p s next hp hb) }
  have he : Evolves C L ∅ t' { t' with arrays := A } :=
    { Evolves.refl (C := C) L t' with
      obj := fun p hL hp _ _ => ⟨rfl, hnode p hL hp⟩
      entry := fun _ _ temp' hx => .inl ⟨temp', hx, rfl⟩ }
  refine h.step hg he h.kept fun hc x temp hx hs => ?_
  exact (hc x temp hx hs).of_eq rfl
    (hnode _ (h.good.live x temp hx) (h.good.allocated x temp hx))

/-- Allocating a path. -/
lemma Reached.newSlice (h : Reached C L c M t t') (l : Route) (spare : ℕ) :
    ∃ s A, newSlice l spare t' = (.ok s, { t' with arrays := A }) ∧
      Reached C L c M t { t' with arrays := A } ∧ A.Fits s ∧ A.read s = l := by
  refine ⟨_, _, rfl, h.arrays ?_ ?_, Arrays.fits_alloc_self _ _, Arrays.read_alloc_self _ _⟩
  · exact fun s hs => hs.alloc _ _
  · intro p _ hp
    exact toNode_eq_of_cells (fun s next hb => h.good.fits p s next hp hb)
      fun a ha => Arrays.cells_alloc_of_lt ha _ _

/-- Giving an object a new path and saving it. -/
lemma keeps_unwritten_newPath (t : Trie) (n : NodePtr) (l : Route) (spare : ℕ) :
    Keeps (Unwritten t) (do
      let s ← newSlice l spare
      modifyNode n (NodeBody.setPath s)
      saveNode C n) := by
  intro t' h
  rw [bind_of_ok (x := newSlice l spare) rfl, bind_of_ok (modifyNode_apply _ _ _)]
  refine keeps_unwritten_saveNode t n _
    ⟨h.next_le.trans (Nat.le_succ _), fun a ha => ?_, fun p s next hp hb => ?_⟩
  · rw [← h.cells a ha]
    exact Arrays.cells_alloc_of_lt (ha.trans_le h.next_le) _ _
  · by_cases hpn : p = n
    · subst hpn
      simp only [setObj, Function.update_self] at hb
      cases hbody : (t'.heap p).body with
      | ext s' next' =>
          rw [hbody] at hb
          cases hb
          exact .inr h.next_le
      | branch slots =>
          rw [hbody] at hb
          cases hb
      | val value =>
          rw [hbody] at hb
          cases hb
    · simp only [setObj, Function.update_of_ne hpn] at hb
      exact h.path p s next hp hb

/-! ## Appending to a path -/

/-- Appending to a slice leaves the paths of all live objects as they are. -/
def SafeAppend (L : NodePtr → Prop) (t : Trie) (s : Slice) (q : Route) : Prop :=
  ∀ p s' next, L p → p < t.nextPtr → (t.heap p).body = .ext s' next →
    t.arrays.Undisturbed s q s'

/-- If the extension is cached then appending to its path is safe. -/
def Apart (C : NodeCodec) (L : NodePtr → Prop) (t : Trie) (o : Option (PatriciaTree × Route)) :
    Prop :=
  ∀ u q, o = some (u, q) → ∀ temp, t.tempNodes (C.treeHash u) = some temp →
    ∀ s next, (t.heap temp.node).body = .ext s next → SafeAppend L t s q

variable {s : Slice} {q : Route}

lemma SafeAppend.unwritten (h : SafeAppend L t s q) (hs : t.arrays.Fits s) (hu : Unwritten t t') :
    SafeAppend L t' s q := by
  intro p s' next hL hp hb
  rcases hu.path p s' next hp hb with ⟨hp, next', hb⟩ | hle
  · exact (h p s' next' hL hp hb).congr (hu.cells _ hs.array_lt)
  · exact Arrays.undisturbed_of_array_ne q (hs.array_lt.trans_le hle).ne'

/-- An extension that was just read has an array of its own. -/
lemma Loads.safeAppend (h : Loads C t t') (hsound : Sound t') {n : NodePtr} {next : Hash}
    (hle : t.nextPtr ≤ n) (hlt : n < t'.nextPtr) (hb : (t'.heap n).body = .ext s next) :
    SafeAppend L t' s q := by
  intro p s' next' hL hp hb'
  by_cases hpn : n = p
  · subst hpn
    rw [hb] at hb'
    cases hb'
    exact Arrays.undisturbed_of_stop_le (hsound.fits n s next hlt hb) q le_rfl
  · exact Arrays.undisturbed_of_array_ne q
      (h.own_path n p s s' next next' hle hlt hp hpn hb hb').symm

lemma Apart.loads {o : Option (PatriciaTree × Route)} (h : Apart C L t o) (hsound : Sound t)
    (hsound' : Sound t') (hl : Loads C t t') : Apart C L t' o := by
  intro u q ho temp he s next hb
  rcases hl.new_entry _ temp he with he | ⟨hle, -, -⟩
  · have hlt := hsound.allocated _ temp he
    rw [hl.heap _ hlt] at hb
    exact (h u q ho temp he s next hb).unwritten (hsound.fits _ s next hlt hb) hl.unwritten
  · exact hl.safeAppend hsound' hle (hsound'.allocated _ temp he) hb

/-- Appending to the path of an extension that was fetched. -/
lemma Apart.safeAppend {u : PatriciaTree} (h : Apart C L t (some (u, q))) (hg : Good C L t)
    {n : NodePtr} (hn : Fetched C L u t n t') {next : Hash}
    (hb : (t'.heap n).body = .ext s next) : SafeAppend L t' s q := by
  cases he : t.tempNodes (C.treeHash u) with
  | none => exact hn.loads.safeAppend hn.good.toSound (hn.loaded he) hn.lt hb
  | some temp =>
      have hprep : t.prepared = true := by
        by_contra hne
        rw [hg.idle (by simpa using hne)] at he
        cases he
      obtain ⟨temp', he', hp'⟩ := hn.entry hprep
      have happart := h.loads hg.toSound hn.good.toSound hn.loads
      exact happart u q rfl temp' he' s next (by rwa [hp'])

/-- Appending to a path on the way. -/
lemma Reached.appendSlice (h : Reached C L c M t t') (hs : t'.arrays.Fits s)
    (hsafe : SafeAppend L t' s q) (spare : ℕ) :
    ∃ s' A, appendSlice s q spare t' = (.ok s', { t' with arrays := A }) ∧
      Reached C L c M t { t' with arrays := A } ∧ A.Fits s' ∧
      A.read s' = t'.arrays.read s ++ q := by
  refine ⟨(t'.arrays.append s q (List.replicate spare 0)).1,
    (t'.arrays.append s q (List.replicate spare 0)).2, rfl, h.arrays ?_ ?_,
    Arrays.fits_append_self hs _ _, Arrays.read_append_self hs _ _⟩
  · exact fun s' hs' => hs.append hs' _ _
  · intro p hL hp
    cases hb : (t'.heap p).body with
    | branch slots => simp [Trie.node, hb, NodeBody.toNode]
    | val value => simp [Trie.node, hb, NodeBody.toNode]
    | ext s' next =>
        simp only [Trie.node, hb, NodeBody.toNode]
        rw [Arrays.read_append_of_undisturbed (h.good.fits p s' next hp hb)
          (hsafe p s' next hL hp hb)]

end Trie

end GoMedibloc
