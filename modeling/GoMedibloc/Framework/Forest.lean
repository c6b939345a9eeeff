import Mathlib

/-!
# Ancestors in a forest given by parent pointers

A forest is a partial function `up : α → Option α` that gives the parent of an element.
`Ancestor up a b` says that `a` is `b` or is reached from `b` by going up; it is the
reflexive-transitive closure of the parent relation, read downwards.  Since `up` is a
function, two ancestors of one element are always comparable.

`Ranked up rank S` says that `S` is closed under parents and that `rank` drops by exactly one
at each of them.  Inside such a set an ancestor is determined by its rank, and a walk upwards
meets every rank between its two ends.
-/

namespace Forest

variable {α : Type*} {up up' : α → Option α} {rank : α → ℕ} {S : Set α} {a b c p : α}

/-- `a` is `b` or one of its ancestors. -/
def Ancestor (up : α → Option α) (a b : α) : Prop :=
  Relation.ReflTransGen (fun x y => up x = some y) b a

@[refl] lemma Ancestor.refl (a : α) : Ancestor up a a := Relation.ReflTransGen.refl

@[trans] lemma Ancestor.trans (hab : Ancestor up a b) (hbc : Ancestor up b c) :
    Ancestor up a c :=
  Relation.ReflTransGen.trans hbc hab

/-- Ancestors of the parent are ancestors. -/
lemma Ancestor.of_parent (hp : up b = some p) (h : Ancestor up a p) : Ancestor up a b :=
  Relation.ReflTransGen.head hp h

/-- An ancestor other than the element itself is an ancestor of the parent. -/
lemma Ancestor.parent (h : Ancestor up a b) (hne : a ≠ b) :
    ∃ p, up b = some p ∧ Ancestor up a p := by
  rcases Relation.ReflTransGen.cases_head h with heq | ⟨p, hp, hpa⟩
  · exact absurd heq.symm hne
  · exact ⟨p, hp, hpa⟩

/-- Parent pointers that are kept keep the ancestors. -/
lemma Ancestor.mono (hup : ∀ x y, up x = some y → up' x = some y) (h : Ancestor up a b) :
    Ancestor up' a b :=
  Relation.ReflTransGen.mono hup _ _ h

/-- Two ancestors of one element lie on one branch. -/
lemma Ancestor.comparable (ha : Ancestor up a c) (hb : Ancestor up b c) :
    Ancestor up a b ∨ Ancestor up b a := by
  have huniq : Relator.RightUnique fun x y => up x = some y := by
    intro x y z hy hz
    exact Option.some_inj.1 (hy.symm.trans hz)
  exact (Relation.ReflTransGen.total_of_right_unique huniq ha hb).symm

/-- A set of elements that contains the parents of its elements, with a rank that drops by
one from an element to its parent. -/
def Ranked (up : α → Option α) (rank : α → ℕ) (S : Set α) : Prop :=
  ∀ b ∈ S, ∀ p, up b = some p → p ∈ S ∧ rank b = rank p + 1

namespace Ranked

variable (hr : Ranked up rank S)
include hr

lemma mem_of_ancestor (hb : b ∈ S) (h : Ancestor up a b) : a ∈ S := by
  induction h using Relation.ReflTransGen.head_induction_on with
  | refl => exact hb
  | head hp _ ih => exact ih (hr _ hb _ hp).1

lemma rank_le (hb : b ∈ S) (h : Ancestor up a b) : rank a ≤ rank b := by
  induction h using Relation.ReflTransGen.head_induction_on with
  | refl => exact le_rfl
  | head hp _ ih =>
      obtain ⟨hpS, hrank⟩ := hr _ hb _ hp
      have := ih hpS
      omega

/-- An ancestor of the same rank is the element itself. -/
lemma eq_of_rank_le (hb : b ∈ S) (h : Ancestor up a b) (hle : rank b ≤ rank a) : a = b := by
  by_contra hne
  obtain ⟨p, hp, hap⟩ := h.parent hne
  obtain ⟨hpS, hrank⟩ := hr _ hb _ hp
  have := hr.rank_le hpS hap
  omega

/-- Of two ancestors of one element, the lower one is an ancestor of the higher one. -/
lemma ancestor_of_rank_le (hc : c ∈ S) (ha : Ancestor up a c) (hb : Ancestor up b c)
    (hle : rank a ≤ rank b) : Ancestor up a b := by
  rcases ha.comparable hb with h | h
  · exact h
  · obtain rfl := hr.eq_of_rank_le (hr.mem_of_ancestor hc ha) h hle
    rfl

/-- Two ancestors of one element with the same rank are one. -/
lemma eq_of_rank_eq (hc : c ∈ S) (ha : Ancestor up a c) (hb : Ancestor up b c)
    (heq : rank a = rank b) : a = b :=
  hr.eq_of_rank_le (hr.mem_of_ancestor hc hb)
    (hr.ancestor_of_rank_le hc ha hb heq.le) heq.ge

/-- Between an element and its ancestor there is one ancestor of every rank. -/
lemma exists_ancestor (hb : b ∈ S) (h : Ancestor up a b) {n : ℕ} (han : rank a ≤ n)
    (hnb : n ≤ rank b) : ∃ x, Ancestor up a x ∧ Ancestor up x b ∧ rank x = n := by
  induction h using Relation.ReflTransGen.head_induction_on with
  | refl => exact ⟨a, .refl a, .refl a, le_antisymm han hnb⟩
  | @head x p hp hpa ih =>
      obtain ⟨hpS, hrank⟩ := hr _ hb _ hp
      rcases Nat.lt_or_ge (rank p) n with hlt | hge
      · exact ⟨x, .of_parent hp hpa, .refl x, by omega⟩
      · obtain ⟨y, hay, hyp, hy⟩ := ih hpS hge
        exact ⟨y, hay, .of_parent hp hyp, hy⟩

/-- A forest that gives no new parent to an element of `S` gives it no new ancestor. -/
lemma ancestor_of_grown (hroot : ∀ x ∈ S, ∀ y, up' x = some y → up x = some y) (hb : b ∈ S)
    (h : Ancestor up' a b) : Ancestor up a b := by
  induction h using Relation.ReflTransGen.head_induction_on with
  | refl => exact .refl a
  | head hp _ ih =>
      have hp' := hroot _ hb _ hp
      exact .of_parent hp' (ih (hr _ hb _ hp').1)

end Ranked

end Forest
