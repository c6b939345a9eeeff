import Mathlib

/-!
# Mutable objects

Objects that are held by reference.  A heap has a cell for every reference; the references from
`next` on have not been given out yet.  `alloc` gives out a new one, and `modify` changes the
object behind a reference, for everyone who holds it.

What a holder reads through its references stays the same when new objects are made, and when
an object is modified that it does not hold.
-/

/-- The objects of a process; references from `next` on are not in use. -/
structure ObjectHeap (α : Type) where
  cell : ℕ → α
  next : ℕ

namespace ObjectHeap

variable {α : Type} {h : ObjectHeap α} {refs : List ℕ} {a : α} {l : List α}

/-- The objects behind a list of references. -/
def read (h : ObjectHeap α) (refs : List ℕ) : List α := refs.map h.cell

/-- A new object. -/
def alloc (h : ObjectHeap α) (a : α) : ObjectHeap α :=
  ⟨Function.update h.cell h.next a, h.next + 1⟩

/-- New objects, one for each element of the list. -/
def allocAll (h : ObjectHeap α) (l : List α) : ObjectHeap α := l.foldl alloc h

/-- The references of the next `n` new objects. -/
def fresh (h : ObjectHeap α) (n : ℕ) : List ℕ := List.range' h.next n

/-- Change the object behind a reference. -/
def modify (h : ObjectHeap α) (ref : ℕ) (f : α → α) : ObjectHeap α :=
  { h with cell := Function.update h.cell ref (f (h.cell ref)) }

/-- All references are in use. -/
def Valid (h : ObjectHeap α) (refs : List ℕ) : Prop := ∀ r ∈ refs, r < h.next

@[simp] lemma next_modify (ref : ℕ) (f : α → α) : (h.modify ref f).next = h.next := rfl

@[simp] lemma next_allocAll : (h.allocAll l).next = h.next + l.length := by
  induction l generalizing h with
  | nil => rfl
  | cons a l ih =>
      change ((h.alloc a).allocAll l).next = _
      rw [ih]
      simp only [alloc, List.length_cons]
      omega

lemma Valid.mono {h' : ObjectHeap α} (hv : h.Valid refs) (hle : h.next ≤ h'.next) :
    h'.Valid refs :=
  fun r hr => (hv r hr).trans_le hle

lemma valid_fresh : (h.allocAll l).Valid (h.fresh l.length) := by
  intro r hr
  rw [next_allocAll]
  exact (List.mem_range'_1.1 hr).2

/-- New objects change nothing that was there. -/
lemma cell_allocAll {r : ℕ} (hr : r < h.next) : (h.allocAll l).cell r = h.cell r := by
  induction l generalizing h with
  | nil => rfl
  | cons a l ih =>
      have hstep : (h.alloc a).cell r = h.cell r := Function.update_of_ne hr.ne _ _
      exact (ih (h := h.alloc a) (hr.trans (Nat.lt_succ_self _))).trans hstep

lemma read_allocAll (hv : h.Valid refs) : (h.allocAll l).read refs = h.read refs :=
  List.map_congr_left fun r hr => cell_allocAll (hv r hr)

/-- New objects read as what they were made of. -/
lemma read_fresh : (h.allocAll l).read (h.fresh l.length) = l := by
  induction l generalizing h with
  | nil => rfl
  | cons a l ih =>
      have hfirst : ((h.alloc a).allocAll l).cell h.next = a := by
        rw [cell_allocAll (Nat.lt_succ_self _)]
        exact Function.update_self _ _ _
      have hrest := ih (h := h.alloc a)
      change ((h.alloc a).allocAll l).read (h.next :: (h.alloc a).fresh l.length) = _
      rw [read, List.map_cons, hfirst, ← read, hrest]

/-- An object that is not held is modified unseen. -/
lemma read_modify {ref : ℕ} {f : α → α} (hnot : ref ∉ refs) :
    (h.modify ref f).read refs = h.read refs :=
  List.map_congr_left fun _ hr => Function.update_of_ne (fun (heq : _ = ref) => hnot (heq ▸ hr)) _ _

@[simp] lemma cell_modify_self (ref : ℕ) (f : α → α) :
    (h.modify ref f).cell ref = f (h.cell ref) := Function.update_self _ _ _

lemma cell_modify_of_ne {ref r : ℕ} {f : α → α} (hr : r ≠ ref) :
    (h.modify ref f).cell r = h.cell r := Function.update_of_ne hr _ _

end ObjectHeap
