import Mathlib

/-!
# Canonical radix trees over a finite alphabet

A radix tree stores a finite map from words over the alphabet `Fin n` to values: a `leaf`
holds the value of the empty word, an `ext` consumes a whole path, and a `branch` consumes
one letter and may hold a value of its own.  This file knows nothing about hashing, storage
or node encodings; it is the mathematics a Merkle trie rests on.

The operations are `get`, `insert` and `cut`.  The last one removes the value in which the
walk along a word *ends*: a walk ends in a leaf whatever is left of the word, and
`reach` names the key of the value it ends in.  On a word that is a key of the tree, `cut`
is the ordinary deletion (`reach_of_get`).

`WF` is the normal form: no empty path, no extension under an extension, no branch with
fewer than two occupied slots.  The two facts a canonical commitment needs are
`wf_insert` and `wf_cut` (the normal form is kept) and `eq_of_get_eq`: two trees in
normal form with the same contents are the same tree.
-/

namespace Radix

universe u

/-! ## The common prefix of two words -/

/-- The length of the longest common prefix of two words. -/
def commonLen {α : Type*} [DecidableEq α] : List α → List α → ℕ
  | a :: p, b :: r => if a = b then commonLen p r + 1 else 0
  | _, _ => 0

section CommonLen

variable {α : Type*} [DecidableEq α]

@[simp] lemma commonLen_nil_left (r : List α) : commonLen [] r = 0 := by
  cases r <;> rfl

@[simp] lemma commonLen_nil_right (p : List α) : commonLen p [] = 0 := by
  cases p <;> rfl

@[simp] lemma commonLen_append (c p r : List α) :
    commonLen (c ++ p) (c ++ r) = c.length + commonLen p r := by
  induction c with
  | nil => simp
  | cons a c ih => simp [commonLen, ih]; omega

lemma commonLen_cons_ne {a b : α} (h : a ≠ b) (p r : List α) :
    commonLen (a :: p) (b :: r) = 0 := by
  simp [commonLen, h]

/-- The first word is a prefix of the second exactly when all of it is common. -/
lemma commonLen_eq_length_iff {p r : List α} : commonLen p r = p.length ↔ p <+: r := by
  induction p generalizing r with
  | nil => simp
  | cons a p ih =>
      cases r with
      | nil => simp
      | cons b r =>
          by_cases h : a = b
          · simp [commonLen, h, ih]
          · simp [commonLen, h]

/-- A path that is not a prefix of a word leaves it either where the word stops or at a
first differing letter. -/
lemma exists_fork {p r : List α} (h : ¬ p <+: r) :
    ∃ c a p', p = c ++ a :: p' ∧ (r = c ∨ ∃ b r', r = c ++ b :: r' ∧ a ≠ b) := by
  induction p generalizing r with
  | nil => simp at h
  | cons a p ih =>
      cases r with
      | nil => exact ⟨[], a, p, rfl, .inl rfl⟩
      | cons b r =>
          by_cases hab : a = b
          · subst hab
            obtain ⟨c, a', p', rfl, hr⟩ := ih (r := r) (by simpa using h)
            refine ⟨a :: c, a', p', rfl, ?_⟩
            rcases hr with rfl | ⟨b, r', rfl, hne⟩
            · exact .inl rfl
            · exact .inr ⟨b, r', rfl, hne⟩
          · exact ⟨[], a, p, rfl, .inr ⟨b, r, rfl, hab⟩⟩

end CommonLen

/-! ## Trees -/

/-- A radix tree over the alphabet `Fin n`. -/
inductive Tree (n : ℕ) (β : Type u) : Type u where
  /-- The empty tree. -/
  | nil
  /-- The empty word alone. -/
  | leaf (v : β)
  /-- Every key starts with the path. -/
  | ext (p : List (Fin n)) (t : Tree n β)
  /-- One subtree for each first letter, and possibly a value for the empty word. -/
  | branch (v : Option β) (kids : Fin n → Tree n β)

namespace Tree

variable {n : ℕ} {β : Type u}

/-- Whether the tree is the empty tree. -/
def isNil : Tree n β → Bool
  | nil => true
  | _ => false

@[simp] lemma isNil_iff {t : Tree n β} : t.isNil = true ↔ t = nil := by
  cases t <;> simp [isNil]

/-- The value of a word. -/
def get : Tree n β → List (Fin n) → Option β
  | nil, _ => none
  | leaf v, r => if r = [] then some v else none
  | ext p t, r => if p <+: r then t.get (r.drop p.length) else none
  | branch v _, [] => v
  | branch _ kids, i :: r => (kids i).get r

@[simp] lemma get_nil (r : List (Fin n)) : (nil : Tree n β).get r = none := rfl

@[simp] lemma get_leaf_nil (v : β) : (leaf v : Tree n β).get [] = some v := rfl

@[simp] lemma get_leaf_cons (v : β) (i : Fin n) (r : List (Fin n)) :
    (leaf v).get (i :: r) = none := rfl

@[simp] lemma get_branch_nil (v : Option β) (kids : Fin n → Tree n β) :
    (branch v kids).get [] = v := rfl

@[simp] lemma get_branch_cons (v : Option β) (kids : Fin n → Tree n β) (i : Fin n)
    (r : List (Fin n)) : (branch v kids).get (i :: r) = (kids i).get r := rfl

@[simp] lemma get_ext_append (p r : List (Fin n)) (t : Tree n β) :
    (ext p t).get (p ++ r) = t.get r := by
  simp [get]

lemma get_ext_not_prefixed {p r : List (Fin n)} (h : ¬ p <+: r) (t : Tree n β) :
    (ext p t).get r = none := by
  simp [get, h]

@[simp] lemma get_ext_nil_path (t : Tree n β) (r : List (Fin n)) : (ext [] t).get r = t.get r := by
  simp [get]

@[simp] lemma get_ext_cons_nil (i : Fin n) (p : List (Fin n)) (t : Tree n β) :
    (ext (i :: p) t).get [] = none := by
  simp [get]

@[simp] lemma get_ext_cons_cons (i j : Fin n) (p r : List (Fin n)) (t : Tree n β) :
    (ext (i :: p) t).get (j :: r) = if i = j then (ext p t).get r else none := by
  by_cases h : i = j <;> simp [get, h]

/-- A path in front of both the extension and the word can be dropped. -/
lemma get_ext_append_append (c p r : List (Fin n)) (t : Tree n β) :
    (ext (c ++ p) t).get (c ++ r) = (ext p t).get r := by
  simp [get]

/-- An extension over a leaf holds one key. -/
@[simp] lemma get_ext_leaf (p r : List (Fin n)) (v : β) :
    (ext p (leaf v)).get r = if r = p then some v else none := by
  by_cases hp : p <+: r
  · obtain ⟨q, rfl⟩ := hp
    rw [get_ext_append]
    cases q <;> simp
  · have hr : r ≠ p := by rintro rfl; exact hp List.prefix_rfl
    simp [get_ext_not_prefixed hp, hr]

/-- Every key of an extension starts with its path. -/
lemma prefix_of_get_ext {p r : List (Fin n)} {t : Tree n β} {v : β}
    (h : (ext p t).get r = some v) : p <+: r := by
  by_contra hp
  rw [get_ext_not_prefixed hp] at h
  cases h

/-- Put a path in front of a tree, without creating an empty extension. -/
def extend (p : List (Fin n)) (t : Tree n β) : Tree n β :=
  if p = [] then t else ext p t

@[simp] lemma extend_nil (t : Tree n β) : extend [] t = t := rfl

@[simp] lemma extend_cons (i : Fin n) (p : List (Fin n)) (t : Tree n β) :
    extend (i :: p) t = ext (i :: p) t := rfl

@[simp] lemma get_extend (p : List (Fin n)) (t : Tree n β) (r : List (Fin n)) :
    (extend p t).get r = (ext p t).get r := by
  cases p with
  | nil => simp [get]
  | cons i p => rfl

/-- Put a path in front of a tree, merging it into an extension. -/
def prepend (p : List (Fin n)) : Tree n β → Tree n β
  | nil => nil
  | ext q t => ext (p ++ q) t
  | leaf v => ext p (leaf v)
  | branch v kids => ext p (branch v kids)

@[simp] lemma get_prepend (p : List (Fin n)) (t : Tree n β) (r : List (Fin n)) :
    (prepend p t).get r = (ext p t).get r := by
  cases t with
  | nil => simp [prepend, get]
  | leaf v => rfl
  | branch v kids => rfl
  | ext q t =>
      by_cases hp : p <+: r
      · obtain ⟨s, rfl⟩ := hp
        simp [prepend, get]
      · rw [get_ext_not_prefixed hp]
        exact get_ext_not_prefixed (fun h => hp ((List.prefix_append p q).trans h)) t

/-- The slots of a branch with one subtree. -/
def single (i : Fin n) (t : Tree n β) : Fin n → Tree n β :=
  Function.update (fun _ => nil) i t

@[simp] lemma single_self (i : Fin n) (t : Tree n β) : single i t i = t := by
  simp [single]

lemma single_of_ne {i j : Fin n} (h : j ≠ i) (t : Tree n β) : single i t j = nil := by
  simp [single, h]

/-- The branch over a subtree that starts with the letter `a` and the value of a word that
does not. -/
def splitBranch (a : Fin n) (t : Tree n β) (r : List (Fin n)) (v : β) : Tree n β :=
  match r with
  | [] => branch (some v) (single a t)
  | b :: r => branch none (Function.update (single a t) b (extend r (leaf v)))

/-- The branch that splits an extension at the end of the common prefix with a new word.
The last arm is not reached when the path is not a prefix of the word. -/
def forkBranch (p : List (Fin n)) (t : Tree n β) (r : List (Fin n)) (v : β) : Tree n β :=
  match p.drop (commonLen p r) with
  | a :: p' => splitBranch a (extend p' t) (r.drop (commonLen p r)) v
  | [] => t

/-- Split an extension at the end of the common prefix with a new word. -/
def fork (p : List (Fin n)) (t : Tree n β) (r : List (Fin n)) (v : β) : Tree n β :=
  extend (p.take (commonLen p r)) (forkBranch p t r v)

lemma fork_stop (c : List (Fin n)) (a : Fin n) (p : List (Fin n)) (t : Tree n β) (v : β) :
    fork (c ++ a :: p) t c v = extend c (branch (some v) (single a (extend p t))) := by
  have h : commonLen (c ++ a :: p) c = c.length := by
    simpa using commonLen_append c (a :: p) []
  simp [fork, forkBranch, splitBranch, h]

lemma fork_diverge (c : List (Fin n)) {a b : Fin n} (hab : a ≠ b) (p r : List (Fin n))
    (t : Tree n β) (v : β) :
    fork (c ++ a :: p) t (c ++ b :: r) v =
      extend c (branch none
        (Function.update (single a (extend p t)) b (extend r (leaf v)))) := by
  have h : commonLen (c ++ a :: p) (c ++ b :: r) = c.length := by
    simp [commonLen_cons_ne hab]
  simp [fork, forkBranch, splitBranch, h]

/-- Set the value of a word. -/
def insert : Tree n β → List (Fin n) → β → Tree n β
  | nil, r, v => extend r (leaf v)
  | leaf _, [], v => leaf v
  | leaf w, i :: r, v => branch (some w) (single i (extend r (leaf v)))
  | ext p t, r, v => if p <+: r then ext p (t.insert (r.drop p.length) v) else fork p t r v
  | branch _ kids, [], v => branch (some v) kids
  | branch w kids, i :: r, v => branch w (Function.update kids i ((kids i).insert r v))

@[simp] lemma insert_ext_append (p r : List (Fin n)) (t : Tree n β) (v : β) :
    (ext p t).insert (p ++ r) v = ext p (t.insert r v) := by
  simp [insert]

lemma insert_ext_not_prefixed {p r : List (Fin n)} (h : ¬ p <+: r) (t : Tree n β) (v : β) :
    (ext p t).insert r v = fork p t r v := by
  simp [insert, h]

/-- The occupied slots of a branch, in the order of the alphabet. -/
def occupied (kids : Fin n → Tree n β) : List (Fin n) :=
  (List.finRange n).filter fun i => !(kids i).isNil

lemma mem_occupied {kids : Fin n → Tree n β} {i : Fin n} :
    i ∈ occupied kids ↔ kids i ≠ nil := by
  simp [occupied, Bool.eq_false_iff]

/-- Restore the normal form of a branch that may have lost a slot. -/
def collapse (v : Option β) (kids : Fin n → Tree n β) : Tree n β :=
  match occupied kids, v with
  | [], none => nil
  | [], some w => leaf w
  | [i], none => prepend [i] (kids i)
  | _, _ => branch v kids

/-- The key of the value in which the walk along a word ends, if it ends in one. -/
def reach : Tree n β → List (Fin n) → Option (List (Fin n))
  | nil, _ => none
  | leaf _, _ => some []
  | ext p t, r => if p <+: r then (t.reach (r.drop p.length)).map (p ++ ·) else none
  | branch v _, [] => v.map fun _ => []
  | branch _ kids, i :: r => ((kids i).reach r).map (i :: ·)

/-- Remove the value in which the walk along a word ends. -/
def cut : Tree n β → List (Fin n) → Option (Tree n β)
  | nil, _ => none
  | leaf _, _ => some nil
  | ext p t, r => if p <+: r then (t.cut (r.drop p.length)).map (prepend p) else none
  | branch v kids, [] => v.map fun _ => collapse none kids
  | branch v kids, i :: r =>
      ((kids i).cut r).map fun t => collapse v (Function.update kids i t)

/-! ## Contents of the operations -/

lemma get_single_update {a b : Fin n} (hab : a ≠ b) (t u : Tree n β) (i : Fin n) :
    Function.update (single a t) b u i = if i = b then u else if i = a then t else nil := by
  by_cases hib : i = b
  · simp [hib]
  · by_cases hia : i = a
    · subst hia; simp [hib]
    · simp [hib, hia, single_of_ne hia]

/-- Splitting an extension adds the new word and nothing else. -/
lemma get_fork {p r : List (Fin n)} (h : ¬ p <+: r) (t : Tree n β) (v : β)
    (s : List (Fin n)) :
    (fork p t r v).get s = if s = r then some v else (ext p t).get s := by
  obtain ⟨c, a, p', rfl, hr⟩ := exists_fork h
  -- Below the common prefix `c` the two words are compared letter by letter; off it, no
  -- key of either tree starts with `c`.
  by_cases hc : c <+: s
  · obtain ⟨s, rfl⟩ := hc
    rcases hr with rfl | ⟨b, r', rfl, hab⟩
    · rw [fork_stop, get_extend, get_ext_append, get_ext_append_append]
      cases s with
      | nil => simp
      | cons i s =>
          by_cases hi : i = a
          · subst hi; simp
          · simp [single_of_ne hi, Ne.symm hi]
    · rw [fork_diverge c hab, get_extend, get_ext_append, get_ext_append_append]
      cases s with
      | nil => simp
      | cons i s =>
          rw [get_branch_cons, get_single_update hab]
          by_cases hib : i = b
          · subst hib; simp [hab]
          · by_cases hia : i = a
            · subst hia; simp [hib]
            · simp [hib, hia, Ne.symm hia]
  · have hs : s ≠ r := by
      rintro rfl
      rcases hr with rfl | ⟨b, r', rfl, -⟩
      · exact hc List.prefix_rfl
      · exact hc (List.prefix_append _ _)
    have hleft : (fork (c ++ a :: p') t r v).get s = none := by
      rcases hr with rfl | ⟨b, r', rfl, hab⟩
      · rw [fork_stop, get_extend, get_ext_not_prefixed hc]
      · rw [fork_diverge c hab, get_extend, get_ext_not_prefixed hc]
    rw [hleft, if_neg hs,
      get_ext_not_prefixed (fun h' => hc ((List.prefix_append _ _).trans h'))]

/-- Reading after writing. -/
lemma get_insert (t : Tree n β) (r : List (Fin n)) (v : β) (s : List (Fin n)) :
    (t.insert r v).get s = if s = r then some v else t.get s := by
  induction t generalizing r s with
  | nil => simp [insert]
  | leaf w =>
      cases r with
      | nil => cases s <;> simp [insert]
      | cons i r =>
          cases s with
          | nil => simp [insert]
          | cons j s =>
              by_cases hj : j = i
              · subst hj; simp [insert]
              · simp [insert, single_of_ne hj, hj]
  | ext p t ih =>
      by_cases hp : p <+: r
      · obtain ⟨r, rfl⟩ := hp
        rw [insert_ext_append]
        by_cases hs : p <+: s
        · obtain ⟨s, rfl⟩ := hs
          simp [ih]
        · have : s ≠ p ++ r := by rintro rfl; exact hs (List.prefix_append _ _)
          simp [get_ext_not_prefixed hs, this]
      · rw [insert_ext_not_prefixed hp]
        exact get_fork hp t v s
  | branch w kids ih =>
      cases r with
      | nil => cases s <;> simp [insert]
      | cons i r =>
          cases s with
          | nil => simp [insert]
          | cons j s =>
              by_cases hj : j = i
              · subst hj; simp [insert, ih]
              · simp [insert, hj]

lemma eq_nil_of_not_mem_occupied {kids : Fin n → Tree n β} {i : Fin n}
    (h : i ∉ occupied kids) : kids i = nil := by
  by_contra hne
  exact h (mem_occupied.2 hne)

/-- Restoring the normal form of a branch does not change its contents. -/
@[simp] lemma get_collapse (v : Option β) (kids : Fin n → Tree n β) (s : List (Fin n)) :
    (collapse v kids).get s = (branch v kids).get s := by
  have hnil : ∀ i, i ∉ occupied kids → kids i = nil := fun i => eq_nil_of_not_mem_occupied
  unfold collapse
  split
  · next h =>
      cases s with
      | nil => rfl
      | cons i s => simp [hnil i (by simp [h])]
  · next h =>
      cases s with
      | nil => rfl
      | cons i s => simp [hnil i (by simp [h])]
  · next i h =>
      rw [get_prepend]
      cases s with
      | nil => simp [get]
      | cons j s =>
          by_cases hj : j = i
          · subst hj; simp [get]
          · rw [get_branch_cons, hnil j (by simpa [h] using hj)]
            simp [get, Ne.symm hj]
  · rfl

lemma reach_ext_append (p r : List (Fin n)) (t : Tree n β) :
    (ext p t).reach (p ++ r) = (t.reach r).map (p ++ ·) := by
  simp [reach]

/-- The walk removes exactly the value of the key it ends in. -/
lemma cut_eq_some (t : Tree n β) (r : List (Fin n)) {t' : Tree n β} (h : t.cut r = some t') :
    ∃ k, t.reach r = some k ∧ ∀ s, t'.get s = if s = k then none else t.get s := by
  induction t generalizing r t' with
  | nil => cases h
  | leaf w =>
      cases h
      refine ⟨[], rfl, fun s => ?_⟩
      cases s <;> simp
  | ext p t ih =>
      by_cases hp : p <+: r
      · obtain ⟨r, rfl⟩ := hp
        simp only [cut, List.prefix_append, if_true, List.drop_left, Option.map_eq_some_iff] at h
        obtain ⟨u, hu, rfl⟩ := h
        obtain ⟨k, hk, hget⟩ := ih r hu
        refine ⟨p ++ k, by rw [reach_ext_append, hk]; rfl, fun s => ?_⟩
        rw [get_prepend]
        by_cases hs : p <+: s
        · obtain ⟨s, rfl⟩ := hs
          simp [hget]
        · have : s ≠ p ++ k := by rintro rfl; exact hs (List.prefix_append _ _)
          simp [get_ext_not_prefixed hs, this]
      · simp [cut, hp] at h
  | branch w kids ih =>
      cases r with
      | nil =>
          cases w with
          | none => cases h
          | some w =>
              cases h
              refine ⟨[], rfl, fun s => ?_⟩
              cases s <;> simp
      | cons i r =>
          simp only [cut, Option.map_eq_some_iff] at h
          obtain ⟨u, hu, rfl⟩ := h
          obtain ⟨k, hk, hget⟩ := ih i r hu
          refine ⟨i :: k, by simp [reach, hk], fun s => ?_⟩
          rw [get_collapse]
          cases s with
          | nil => simp
          | cons j s =>
              by_cases hj : j = i
              · subst hj; simp [hget]
              · simp [hj]

/-- The walk fails exactly when it ends in no value. -/
lemma cut_eq_none_iff (t : Tree n β) (r : List (Fin n)) : t.cut r = none ↔ t.reach r = none := by
  induction t generalizing r with
  | nil => simp [cut, reach]
  | leaf w => simp [cut, reach]
  | ext p t ih =>
      by_cases hp : p <+: r
      · simp [cut, reach, hp, ih]
      · simp [cut, reach, hp]
  | branch w kids ih =>
      cases r with
      | nil => cases w <;> simp [cut, reach]
      | cons i r => simp [cut, reach, ih]

/-! ## The normal form -/

/-- A tree that may stand under an extension: a leaf or a branch. -/
def isSolid : Tree n β → Bool
  | leaf _ => true
  | branch _ _ => true
  | _ => false

/-- The normal form: paths are not empty, no extension stands under an extension, and every
branch has at least two occupied slots, its value counted as one. -/
def WF : Tree n β → Prop
  | nil => True
  | leaf _ => True
  | ext p t => p ≠ [] ∧ t.isSolid = true ∧ t.WF
  | branch v kids => 2 ≤ (occupied kids).length + v.toList.length ∧ ∀ i, (kids i).WF

@[simp] lemma wf_nil : (nil : Tree n β).WF := trivial

@[simp] lemma wf_leaf (v : β) : (leaf v : Tree n β).WF := trivial

lemma wf_extend {p : List (Fin n)} {t : Tree n β} (hs : t.isSolid = true) (h : t.WF) :
    (extend p t).WF := by
  cases p with
  | nil => exact h
  | cons i p => exact ⟨by simp, hs, h⟩

lemma wf_prepend {p : List (Fin n)} (hp : p ≠ []) {t : Tree n β} (h : t.WF) :
    (prepend p t).WF := by
  cases t with
  | nil => trivial
  | leaf v => exact ⟨hp, rfl, h⟩
  | branch v kids => exact ⟨hp, rfl, h⟩
  | ext q t => exact ⟨by simp [hp], h.2⟩

/-- Two different occupied slots make a branch wide enough. -/
lemma two_le_occupied {kids : Fin n → Tree n β} {i j : Fin n} (hij : i ≠ j)
    (hi : kids i ≠ nil) (hj : kids j ≠ nil) : 2 ≤ (occupied kids).length := by
  have hmi := mem_occupied.2 hi
  have hmj := mem_occupied.2 hj
  match hl : occupied kids with
  | [] => simp [hl] at hmi
  | [k] =>
      rw [hl, List.mem_singleton] at hmi hmj
      exact absurd (hmi.trans hmj.symm) hij
  | _ :: _ :: _ => simp

lemma one_le_occupied {kids : Fin n → Tree n β} {i : Fin n} (hi : kids i ≠ nil) :
    1 ≤ (occupied kids).length :=
  List.length_pos_of_mem (mem_occupied.2 hi)

/-- Occupancy only grows when no slot is emptied. -/
lemma occupied_length_le {kids kids' : Fin n → Tree n β} (h : ∀ i, kids i ≠ nil → kids' i ≠ nil) :
    (occupied kids).length ≤ (occupied kids').length := by
  have hsub : (occupied kids).Sublist (occupied kids') := by
    apply List.monotone_filter_right
    intro i hi
    have hne : kids i ≠ nil := by
      rintro hn
      simp [hn, isNil] at hi
    cases hk : kids' i with
    | nil => exact absurd hk (h i hne)
    | leaf v => rfl
    | ext p t => rfl
    | branch v k => rfl
  exact hsub.length_le

lemma extend_ne_nil {p : List (Fin n)} {t : Tree n β} (h : t ≠ nil) : extend p t ≠ nil := by
  cases p with
  | nil => simpa using h
  | cons i p => simp

lemma isSolid_ne_nil {t : Tree n β} (h : t.isSolid = true) : t ≠ nil := by
  rintro rfl
  simp [isSolid] at h

lemma fork_ne_nil {p r : List (Fin n)} (h : ¬ p <+: r) (t : Tree n β) (v : β) :
    fork p t r v ≠ nil := by
  obtain ⟨c, a, p', rfl, rfl | ⟨b, r', rfl, hab⟩⟩ := exists_fork h
  · rw [fork_stop]
    exact extend_ne_nil (by simp)
  · rw [fork_diverge c hab]
    exact extend_ne_nil (by simp)

lemma insert_ne_nil (t : Tree n β) (r : List (Fin n)) (v : β) : t.insert r v ≠ nil := by
  cases t with
  | nil => exact extend_ne_nil (by simp)
  | leaf w => cases r <;> simp [insert]
  | ext p t =>
      by_cases hp : p <+: r
      · simp [insert, hp]
      · rw [insert_ext_not_prefixed hp]
        exact fork_ne_nil hp t v
  | branch w kids => cases r <;> simp [insert]

/-- Writing below a leaf or a branch leaves a leaf or a branch. -/
lemma isSolid_insert {t : Tree n β} (h : t.isSolid = true) (r : List (Fin n)) (v : β) :
    (t.insert r v).isSolid = true := by
  cases t with
  | nil => simp [isSolid] at h
  | ext p t => simp [isSolid] at h
  | leaf w => cases r <;> simp [insert, isSolid]
  | branch w kids => cases r <;> simp [insert, isSolid]

lemma wf_single_branch {w : β} {i : Fin n} {t : Tree n β} (hn : t ≠ nil) (h : t.WF) :
    (branch (some w) (single i t)).WF := by
  constructor
  · have hi : single i t i ≠ nil := by simpa using hn
    simpa using one_le_occupied hi
  · intro j
    by_cases hj : j = i
    · subst hj; simpa using h
    · simp [single_of_ne hj]

lemma wf_fork {p r : List (Fin n)} (h : ¬ p <+: r) {t : Tree n β} (hs : t.isSolid = true)
    (ht : t.WF) (v : β) : (fork p t r v).WF := by
  have hne : ∀ q : List (Fin n), extend q t ≠ nil := fun q => extend_ne_nil (isSolid_ne_nil hs)
  obtain ⟨c, a, p', rfl, rfl | ⟨b, r', rfl, hab⟩⟩ := exists_fork h
  · rw [fork_stop]
    exact wf_extend rfl (wf_single_branch (hne p') (wf_extend hs ht))
  · rw [fork_diverge c hab]
    refine wf_extend rfl ⟨?_, fun i => ?_⟩
    · set kids := Function.update (single a (extend p' t)) b (extend r' (leaf v)) with hkids
      have ha : kids a ≠ nil := by simpa [hkids, hab] using hne p'
      have hb : kids b ≠ nil := by simpa [hkids] using extend_ne_nil (by simp)
      simpa using two_le_occupied hab ha hb
    · rw [get_single_update hab]
      split_ifs
      · exact wf_extend rfl trivial
      · exact wf_extend hs ht
      · trivial

/-- Writing keeps the normal form. -/
lemma wf_insert {t : Tree n β} (h : t.WF) (r : List (Fin n)) (v : β) : (t.insert r v).WF := by
  induction t generalizing r with
  | nil => exact wf_extend rfl trivial
  | leaf w =>
      cases r with
      | nil => trivial
      | cons i r => exact wf_single_branch (extend_ne_nil (by simp)) (wf_extend rfl trivial)
  | ext p t ih =>
      obtain ⟨hp, hs, ht⟩ := h
      by_cases hpr : p <+: r
      · simp only [insert, hpr, if_true]
        exact ⟨hp, isSolid_insert hs _ v, ih ht _⟩
      · rw [insert_ext_not_prefixed hpr]
        exact wf_fork hpr hs ht v
  | branch w kids ih =>
      obtain ⟨hcount, hkids⟩ := h
      cases r with
      | nil =>
          refine ⟨?_, hkids⟩
          cases w with
          | none => simp at hcount ⊢; omega
          | some w => simpa using hcount
      | cons i r =>
          refine ⟨le_trans hcount (Nat.add_le_add_right (occupied_length_le ?_) _), fun j => ?_⟩
          · intro j hj
            by_cases hji : j = i
            · subst hji; simpa using insert_ne_nil _ r v
            · simpa [hji] using hj
          · by_cases hji : j = i
            · subst hji; simpa using ih j (hkids j) r
            · simpa [hji] using hkids j

lemma wf_collapse {v : Option β} {kids : Fin n → Tree n β} (h : ∀ i, (kids i).WF) :
    (collapse v kids).WF := by
  rcases hl : occupied kids with _ | ⟨i, _ | ⟨j, l⟩⟩
  · cases v <;> simp [collapse, hl]
  · cases v with
    | none => simpa [collapse, hl] using wf_prepend (by simp) (h i)
    | some w =>
        have hc : collapse (some w) kids = branch (some w) kids := by simp [collapse, hl]
        exact hc ▸ ⟨by simp [hl], h⟩
  · have hc : collapse v kids = branch v kids := by simp [collapse, hl]
    exact hc ▸ ⟨by simp [hl]; omega, h⟩

/-- Removing a value keeps the normal form. -/
lemma wf_cut {t t' : Tree n β} (h : t.WF) {r : List (Fin n)} (hc : t.cut r = some t') :
    t'.WF := by
  induction t generalizing r t' with
  | nil => cases hc
  | leaf w => cases hc; trivial
  | ext p t ih =>
      by_cases hp : p <+: r
      · simp only [cut, hp, if_true, Option.map_eq_some_iff] at hc
        obtain ⟨u, hu, rfl⟩ := hc
        exact wf_prepend h.1 (ih h.2.2 hu)
      · simp [cut, hp] at hc
  | branch w kids ih =>
      cases r with
      | nil =>
          simp only [cut, Option.map_eq_some_iff] at hc
          obtain ⟨_, -, rfl⟩ := hc
          exact wf_collapse h.2
      | cons i r =>
          simp only [cut, Option.map_eq_some_iff] at hc
          obtain ⟨u, hu, rfl⟩ := hc
          refine wf_collapse fun j => ?_
          by_cases hji : j = i
          · subst hji; simpa using ih j (h.2 j) hu
          · simpa [hji] using h.2 j

/-! ## Equal contents, equal trees -/

/-- Every non-empty tree in normal form has a key. -/
lemma exists_get {t : Tree n β} (h : t.WF) (hn : t ≠ nil) : ∃ r v, t.get r = some v := by
  induction t with
  | nil => exact absurd rfl hn
  | leaf v => exact ⟨[], v, rfl⟩
  | ext p t ih =>
      obtain ⟨r, v, hr⟩ := ih h.2.2 (isSolid_ne_nil h.2.1)
      exact ⟨p ++ r, v, by simpa using hr⟩
  | branch w kids ih =>
      cases w with
      | some w => exact ⟨[], w, rfl⟩
      | none =>
          have hlen : 0 < (occupied kids).length := by
            have := h.1
            simp at this
            omega
          obtain ⟨i, hi⟩ := List.exists_mem_of_length_pos hlen
          obtain ⟨r, v, hr⟩ := ih i (h.2 i) (mem_occupied.1 hi)
          exact ⟨i :: r, v, hr⟩

/-- The keys of a leaf or of a branch in normal form do not all start with one letter. -/
lemma exists_get_off {t : Tree n β} (h : t.WF) (hs : t.isSolid = true) (i : Fin n) :
    ∃ r v, t.get r = some v ∧ ¬ [i] <+: r := by
  cases t with
  | nil => simp [isSolid] at hs
  | ext p t => simp [isSolid] at hs
  | leaf v => exact ⟨[], v, rfl, by simp⟩
  | branch w kids =>
      cases w with
      | some w => exact ⟨[], w, rfl, by simp⟩
      | none =>
          obtain ⟨j, hj, hji⟩ : ∃ j ∈ occupied kids, j ≠ i := by
            by_contra hcon
            push Not at hcon
            have hnodup : (occupied kids).Nodup := (List.nodup_finRange n).filter _
            have hsub : occupied kids ⊆ [i] := fun j hj => by simp [hcon j hj]
            have hle := (hnodup.subperm hsub).length_le
            have := h.1
            simp at hle this
            omega
          obtain ⟨r, v, hr⟩ := exists_get (h.2 j) (mem_occupied.1 hj)
          exact ⟨j :: r, v, hr, by simpa using Ne.symm hji⟩

/-- The path of an extension in normal form is a prefix of the path of any extension in
normal form with the same contents. -/
lemma ext_path_prefix_path {p q : List (Fin n)} {t u : Tree n β} (ht : t.WF)
    (hs : t.isSolid = true) (h : ∀ r, (ext p t).get r = (ext q u).get r) : q <+: p := by
  obtain ⟨r, v, hr⟩ := exists_get ht (isSolid_ne_nil hs)
  have hq : ∀ r v, t.get r = some v → q <+: p ++ r := fun r v hr =>
    prefix_of_get_ext (t := u) (v := v) (by rw [← h, get_ext_append, hr])
  rcases List.prefix_or_prefix_of_prefix (hq r v hr) (List.prefix_append p r) with hqp | hpq
  · exact hqp
  · -- A longer `q` would make all keys of `t` start with one letter.
    obtain ⟨s, rfl⟩ := hpq
    cases s with
    | nil => simp
    | cons i s =>
        obtain ⟨r', v', hr', hoff⟩ := exists_get_off ht hs i
        have := hq r' v' hr'
        rw [List.prefix_append_right_inj] at this
        exact absurd ((by simp : [i] <+: i :: s).trans this) hoff

/-- A tree in normal form that is not an extension differs in contents from every
extension in normal form. -/
lemma not_ext_contents {t u : Tree n β} {q : List (Fin n)} (ht : t.WF)
    (hs : t.isSolid = true) (hq : q ≠ []) : ¬ ∀ r, t.get r = (ext q u).get r := by
  intro h
  obtain ⟨i, q, rfl⟩ := List.exists_cons_of_ne_nil hq
  obtain ⟨r, v, hr, hoff⟩ := exists_get_off ht hs i
  rw [h] at hr
  exact hoff ((by simp : [i] <+: i :: q).trans (prefix_of_get_ext hr))

/-- A leaf and a branch in normal form differ in contents. -/
lemma leaf_ne_branch {w : β} {v : Option β} {kids : Fin n → Tree n β}
    (h : (branch v kids).WF) : ¬ ∀ r, (leaf w).get r = (branch v kids).get r := by
  intro heq
  have hlen : 0 < (occupied kids).length := by
    have := h.1
    cases v <;> simp at this <;> omega
  obtain ⟨i, hi⟩ := List.exists_mem_of_length_pos hlen
  obtain ⟨r, x, hr⟩ := exists_get (h.2 i) (mem_occupied.1 hi)
  have := heq (i :: r)
  simp [hr] at this

/-- **Canonicity.**  Two trees in normal form with the same contents are equal. -/
theorem eq_of_get_eq {t u : Tree n β} (ht : t.WF) (hu : u.WF) (h : ∀ r, t.get r = u.get r) :
    t = u := by
  induction t generalizing u with
  | nil =>
      by_contra hne
      obtain ⟨r, v, hr⟩ := exists_get hu (Ne.symm hne)
      rw [← h] at hr
      cases hr
  | leaf w =>
      cases u with
      | nil => simpa using h []
      | leaf w' => simpa using h []
      | ext q u => exact absurd h (not_ext_contents ht rfl hu.1)
      | branch v kids => exact absurd h (leaf_ne_branch hu)
  | ext p t ih =>
      cases u with
      | nil =>
          obtain ⟨r, v, hr⟩ := exists_get ht (by simp)
          rw [h] at hr
          cases hr
      | leaf w => exact absurd (fun r => (h r).symm) (not_ext_contents hu rfl ht.1)
      | branch v kids => exact absurd (fun r => (h r).symm) (not_ext_contents hu rfl ht.1)
      | ext q u =>
          have hqp := ext_path_prefix_path ht.2.2 ht.2.1 h
          have hpq := ext_path_prefix_path hu.2.2 hu.2.1 fun r => (h r).symm
          obtain rfl : p = q := hpq.eq_of_length (Nat.le_antisymm hpq.length_le hqp.length_le)
          congr 1
          exact ih ht.2.2 hu.2.2 fun r => by simpa using h (p ++ r)
  | branch v kids ih =>
      cases u with
      | nil =>
          obtain ⟨r, x, hr⟩ := exists_get ht (by simp)
          rw [h] at hr
          cases hr
      | leaf w => exact absurd (fun r => (h r).symm) (leaf_ne_branch ht)
      | ext q u => exact absurd h (not_ext_contents ht rfl hu.1)
      | branch v' kids' =>
          obtain rfl : v = v' := by simpa using h []
          congr 1
          funext i
          exact ih i (ht.2 i) (hu.2 i) fun r => by simpa using h (i :: r)

/-! ## Where a walk ends -/

/-- The walk along a key of the tree ends in that key. -/
lemma reach_of_get {t : Tree n β} {r : List (Fin n)} {v : β} (h : t.get r = some v) :
    t.reach r = some r := by
  induction t generalizing r with
  | nil => cases h
  | leaf w => cases r <;> simp_all [reach]
  | ext p t ih =>
      obtain ⟨r, rfl⟩ := prefix_of_get_ext h
      rw [get_ext_append] at h
      rw [reach_ext_append, ih h]
      rfl
  | branch w kids ih =>
      cases r with
      | nil =>
          simp only [get_branch_nil] at h
          simp [reach, h]
      | cons i r => simp [reach, ih i (by simpa using h)]

/-- A walk ends in a key of the tree that is a prefix of the word walked. -/
lemma reach_spec {t : Tree n β} {r k : List (Fin n)} (h : t.reach r = some k) :
    k <+: r ∧ ∃ v, t.get k = some v := by
  induction t generalizing r k with
  | nil => cases h
  | leaf w => cases h; exact ⟨List.nil_prefix, w, rfl⟩
  | ext p t ih =>
      by_cases hp : p <+: r
      · obtain ⟨r, rfl⟩ := hp
        rw [reach_ext_append, Option.map_eq_some_iff] at h
        obtain ⟨k, hk, rfl⟩ := h
        obtain ⟨hpre, v, hv⟩ := ih hk
        exact ⟨by simpa using hpre, v, by simpa using hv⟩
      · simp [reach, hp] at h
  | branch w kids ih =>
      cases r with
      | nil =>
          cases w with
          | none => simp [reach] at h
          | some w =>
              simp only [reach, Option.map_some, Option.some.injEq] at h
              subst h
              exact ⟨List.nil_prefix, w, rfl⟩
      | cons i r =>
          simp only [reach, Option.map_eq_some_iff] at h
          obtain ⟨k, hk, rfl⟩ := h
          obtain ⟨hpre, v, hv⟩ := ih i hk
          exact ⟨by simpa using hpre, v, hv⟩

/-- A walk that ends before the end of its word has ended in a key that no other key of the
tree extends. -/
lemma reach_maximal {t : Tree n β} {r k s : List (Fin n)} (h : t.reach r = some k)
    (hne : k ≠ r) (hks : k <+: s) (hs : s ≠ k) : t.get s = none := by
  induction t generalizing r k s with
  | nil => rfl
  | leaf w =>
      cases h
      cases s with
      | nil => exact absurd rfl hs
      | cons i s => rfl
  | ext p t ih =>
      by_cases hp : p <+: r
      · obtain ⟨r, rfl⟩ := hp
        rw [reach_ext_append, Option.map_eq_some_iff] at h
        obtain ⟨k, hk, rfl⟩ := h
        obtain ⟨s, rfl⟩ := (List.prefix_append p k).trans hks
        rw [get_ext_append]
        exact ih hk (by simpa using hne) (by simpa using hks) (by simpa using hs)
      · simp [reach, hp] at h
  | branch w kids ih =>
      cases r with
      | nil =>
          cases w with
          | none => simp [reach] at h
          | some w =>
              simp only [reach, Option.map_some, Option.some.injEq] at h
              exact absurd h.symm hne
      | cons i r =>
          simp only [reach, Option.map_eq_some_iff] at h
          obtain ⟨k, hk, rfl⟩ := h
          obtain ⟨s, rfl⟩ : ∃ s', s = i :: s' := by
            obtain ⟨q, rfl⟩ := hks
            exact ⟨k ++ q, rfl⟩
          rw [get_branch_cons]
          exact ih i hk (by simpa using hne) (by simpa using hks) (by simpa using hs)

/-- Conversely, in a tree in normal form a walk ends in every key that is a prefix of its
word and that no other key extends. -/
lemma reach_of_maximal {t : Tree n β} (ht : t.WF) {r k : List (Fin n)} {v : β}
    (hk : t.get k = some v) (hkr : k <+: r)
    (hmax : ∀ s, k <+: s → s ≠ k → t.get s = none) : t.reach r = some k := by
  induction t generalizing r k with
  | nil => cases hk
  | leaf w =>
      cases k with
      | nil => rfl
      | cons i k => cases hk
  | ext p t ih =>
      obtain ⟨k, rfl⟩ := prefix_of_get_ext hk
      obtain ⟨r, rfl⟩ := (List.prefix_append p k).trans hkr
      rw [reach_ext_append, ih ht.2.2 (by simpa using hk) (by simpa using hkr)]
      · rfl
      · intro s hks hs
        simpa using hmax (p ++ s) (by simpa using hks) (by simpa using hs)
  | branch w kids ih =>
      cases k with
      | nil =>
          -- A branch with a value has another slot occupied, hence a longer key.
          exfalso
          obtain ⟨i, hi⟩ : ∃ i, i ∈ occupied kids := by
            apply List.exists_mem_of_length_pos
            have := ht.1
            cases w <;> simp at this <;> omega
          obtain ⟨s, x, hx⟩ := exists_get (ht.2 i) (mem_occupied.1 hi)
          have := hmax (i :: s) List.nil_prefix (by simp)
          simp [hx] at this
      | cons i k =>
          obtain ⟨q, rfl⟩ := hkr
          rw [List.cons_append]
          simp only [reach]
          rw [ih i (ht.2 i) (by simpa using hk) (List.prefix_append k q)]
          · rfl
          · intro s hks hs
            simpa using hmax (i :: s) (by simpa using hks) (by simpa using hs)

/-! ## Size -/

/-- The number of nodes of a tree, the values of branches included. -/
def size : Tree n β → ℕ
  | nil => 0
  | leaf _ => 1
  | ext _ t => t.size + 1
  | branch v kids => v.toList.length + ∑ i, (kids i).size + 1

lemma size_ext_lt (p : List (Fin n)) (t : Tree n β) : t.size < (ext p t).size :=
  Nat.lt_succ_self _

lemma size_kid_lt (v : Option β) (kids : Fin n → Tree n β) (i : Fin n) :
    (kids i).size < (branch v kids).size := by
  have h : (kids i).size ≤ ∑ j, (kids j).size :=
    Finset.single_le_sum (f := fun j => (kids j).size) (fun _ _ => Nat.zero_le _)
      (Finset.mem_univ i)
  simp only [size]
  omega

lemma size_value_lt (w : β) (kids : Fin n → Tree n β) :
    (leaf w : Tree n β).size < (branch (some w) kids).size := by
  simp only [size, Option.toList_some, List.length_singleton]
  omega

lemma size_prepend_le (p : List (Fin n)) (t : Tree n β) : (prepend p t).size ≤ t.size + 1 := by
  cases t <;> simp [prepend, size]

lemma size_collapse_le (v : Option β) (kids : Fin n → Tree n β) :
    (collapse v kids).size ≤ (branch v kids).size := by
  unfold collapse
  split
  · simp [size]
  · simp [size]
  · next j hj =>
      have hkid := size_kid_lt (none : Option β) kids j
      exact (size_prepend_le [j] (kids j)).trans hkid
  · exact le_rfl

lemma size_update_le (v : Option β) {kids : Fin n → Tree n β} {i : Fin n} {t : Tree n β}
    (h : t.size ≤ (kids i).size) :
    (branch v (Function.update kids i t)).size ≤ (branch v kids).size := by
  have hsum : ∑ j, (Function.update kids i t j).size ≤ ∑ j, (kids j).size := by
    refine Finset.sum_le_sum fun j _ => ?_
    by_cases hj : j = i
    · subst hj
      rwa [Function.update_self]
    · rw [Function.update_of_ne hj]
  simp only [size]
  omega

/-- Removing a value does not make a tree larger. -/
lemma size_cut_le {t t' : Tree n β} {r : List (Fin n)} (h : t.cut r = some t') :
    t'.size ≤ t.size := by
  induction t generalizing r t' with
  | nil => cases h
  | leaf v =>
      cases h
      exact Nat.zero_le _
  | ext p t ih =>
      by_cases hp : p <+: r
      · simp only [cut, hp, if_true, Option.map_eq_some_iff] at h
        obtain ⟨u, hu, rfl⟩ := h
        exact (size_prepend_le p u).trans (Nat.succ_le_succ (ih hu))
      · simp [cut, hp] at h
  | branch v kids ih =>
      cases r with
      | nil =>
          simp only [cut, Option.map_eq_some_iff] at h
          obtain ⟨w, rfl, rfl⟩ := h
          refine (size_collapse_le none kids).trans ?_
          simp [size]
      | cons i r =>
          simp only [cut, Option.map_eq_some_iff] at h
          obtain ⟨u, hu, rfl⟩ := h
          exact (size_collapse_le _ _).trans (size_update_le v (ih i hu))

end Tree

end Radix
