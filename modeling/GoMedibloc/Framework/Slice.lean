import Mathlib

/-!
# Slices over shared backing arrays

A slice is a window into a backing array.  Taking a part of a slice copies nothing, so two
slices may look at the same cells.  Appending to a slice writes behind its end when the
array has room there, whoever else looks at those cells, and copies to a new array when it
has not.

`Arrays` is a store of backing arrays that are allocated one after another and `Fits` says
that a slice lies inside an allocated array.  The laws are: a part of a slice reads as the
part of what the slice reads (`read_take`, `read_drop`), allocation disturbs no slice
(`read_alloc_of_fits`), and appending reads as appending (`read_append_self`) and disturbs
only slices that reach behind the end of the slice appended to (`Undisturbed`).
-/

/-- A window into a backing array. -/
structure Slice where
  array : ℕ
  off : ℕ
  len : ℕ
  deriving DecidableEq, Repr

namespace Slice

/-- The first `m` elements of a slice, `s[:m]`. -/
def take (s : Slice) (m : ℕ) : Slice := { s with len := min m s.len }

/-- All but the first `m` elements of a slice, `s[m:]`. -/
def drop (s : Slice) (m : ℕ) : Slice := { s with off := s.off + m, len := s.len - m }

/-- The first slice does not reach behind the end of the second one. -/
def Before (s r : Slice) : Prop := s.array = r.array → s.off + s.len ≤ r.off + r.len

end Slice

/-- A store of backing arrays; those from `next` on are not allocated yet.  The length of
an array is its capacity. -/
structure Arrays (α : Type) where
  cells : ℕ → List α
  next : ℕ

namespace Arrays

variable {α : Type} (A : Arrays α)

/-- The elements of a slice. -/
def read (s : Slice) : List α := ((A.cells s.array).drop s.off).take s.len

/-- The slice lies inside an allocated array. -/
structure Fits (s : Slice) : Prop where
  array_lt : s.array < A.next
  stop_le : s.off + s.len ≤ (A.cells s.array).length

/-- Allocate an array that holds `l` followed by spare cells, and the slice of `l`. -/
def alloc (l spare : List α) : Slice × Arrays α :=
  (⟨A.next, 0, l.length⟩, ⟨Function.update A.cells A.next (l ++ spare), A.next + 1⟩)

/-- Overwrite the cells of an array from an index on. -/
def write (a i : ℕ) (l : List α) : Arrays α :=
  { A with
    cells := Function.update A.cells a
      ((A.cells a).take i ++ l ++ (A.cells a).drop (i + l.length)) }

/-- How many cells the array has behind the end of a slice. -/
def room (s : Slice) : ℕ := (A.cells s.array).length - (s.off + s.len)

/-- Append to a slice: in place when the array has room, else into a new array. -/
def append (s : Slice) (l spare : List α) : Slice × Arrays α :=
  if l.length ≤ A.room s then
    (⟨s.array, s.off, s.len + l.length⟩, A.write s.array (s.off + s.len) l)
  else A.alloc (A.read s ++ l) spare

/-- Appending `l` to `s` leaves what `u` reads as it was. -/
def Undisturbed (s : Slice) (l : List α) (u : Slice) : Prop :=
  l.length ≤ A.room s → (A.write s.array (s.off + s.len) l).read u = A.read u

instance [DecidableEq α] (s : Slice) (l : List α) (u : Slice) :
    Decidable (A.Undisturbed s l u) :=
  inferInstanceAs (Decidable (_ → _))

variable {A}

/-! ## Parts of a slice -/

lemma length_read {s : Slice} (h : A.Fits s) : (A.read s).length = s.len := by
  have := h.stop_le
  simp only [read, List.length_take, List.length_drop]
  omega

lemma read_take (s : Slice) (m : ℕ) : A.read (s.take m) = (A.read s).take m := by
  simp [read, Slice.take, List.take_take]

lemma read_drop (s : Slice) (m : ℕ) : A.read (s.drop m) = (A.read s).drop m := by
  simp [read, Slice.drop, List.drop_take, List.drop_drop]

lemma Fits.take {s : Slice} (h : A.Fits s) (m : ℕ) : A.Fits (s.take m) where
  array_lt := h.array_lt
  stop_le := by
    have := h.stop_le
    simp only [Slice.take]
    omega

lemma Fits.drop {s : Slice} (h : A.Fits s) {m : ℕ} (hm : m ≤ s.len) : A.Fits (s.drop m) where
  array_lt := h.array_lt
  stop_le := by
    have := h.stop_le
    simp only [Slice.drop]
    omega

/-! ## Allocation -/

@[simp] lemma read_alloc_self (l spare : List α) :
    (A.alloc l spare).2.read (A.alloc l spare).1 = l := by
  simp [alloc, read]

lemma fits_alloc_self (l spare : List α) : (A.alloc l spare).2.Fits (A.alloc l spare).1 where
  array_lt := Nat.lt_succ_self _
  stop_le := by simp [alloc]

lemma cells_alloc_of_lt {a : ℕ} (h : a < A.next) (l spare : List α) :
    (A.alloc l spare).2.cells a = A.cells a := by
  simp [alloc, h.ne]

lemma read_alloc_of_fits {s : Slice} (h : A.Fits s) (l spare : List α) :
    (A.alloc l spare).2.read s = A.read s := by
  rw [read, read, cells_alloc_of_lt h.array_lt]

lemma Fits.alloc {s : Slice} (h : A.Fits s) (l spare : List α) : (A.alloc l spare).2.Fits s where
  array_lt := Nat.lt_succ_of_lt h.array_lt
  stop_le := by
    rw [cells_alloc_of_lt h.array_lt]
    exact h.stop_le

/-! ## Appending -/

/-- Overwriting keeps the length of an array when it stays inside. -/
lemma length_write {a i : ℕ} {l : List α} (h : i + l.length ≤ (A.cells a).length) (b : ℕ) :
    ((A.write a i l).cells b).length = (A.cells b).length := by
  by_cases hb : b = a
  · subst hb
    simp only [write, Function.update_self, List.length_append, List.length_take,
      List.length_drop]
    omega
  · simp [write, hb]

lemma read_write_of_ne {a i : ℕ} {l : List α} {u : Slice} (h : u.array ≠ a) :
    (A.write a i l).read u = A.read u := by
  simp [read, write, h]

/-- Appending in place reads as appending. -/
lemma read_write_self {s : Slice} (h : A.Fits s) (l : List α) :
    (A.write s.array (s.off + s.len) l).read ⟨s.array, s.off, s.len + l.length⟩ =
      A.read s ++ l := by
  have hlen := h.stop_le
  have hdrop : ((A.cells s.array).take (s.off + s.len)).drop s.off = A.read s := by
    rw [List.drop_take, read]
    congr 1
    omega
  have htake : ((A.cells s.array).take (s.off + s.len)).length = s.off + s.len := by
    rw [List.length_take]
    omega
  have hstop : s.len + l.length = (A.read s ++ l).length := by
    rw [List.length_append, length_read h]
  have hcells : ((A.write s.array (s.off + s.len) l).cells s.array).drop s.off =
      (A.read s ++ l) ++ (A.cells s.array).drop (s.off + s.len + l.length) := by
    simp only [write, Function.update_self, List.append_assoc]
    rw [List.drop_append_of_le_length (by omega), hdrop]
  calc (A.write s.array (s.off + s.len) l).read ⟨s.array, s.off, s.len + l.length⟩
      = (((A.write s.array (s.off + s.len) l).cells s.array).drop s.off).take
          (s.len + l.length) := rfl
    _ = A.read s ++ l := by rw [hcells, hstop, List.take_left]

/-- Appending never touches the cells in front of the end of the slice. -/
lemma undisturbed_of_stop_le {s u : Slice} (h : A.Fits s) (l : List α)
    (hu : u.off + u.len ≤ s.off + s.len) : A.Undisturbed s l u := by
  intro _
  by_cases ha : u.array = s.array
  · have hstop := h.stop_le
    simp only [read, write, ha, Function.update_self, List.append_assoc]
    by_cases hoff : u.off ≤ s.off + s.len
    · rw [List.drop_append_of_le_length (by rw [List.length_take]; omega),
        List.take_append_of_le_length (by rw [List.length_drop, List.length_take]; omega),
        List.drop_take, List.take_take, min_eq_left (by omega)]
    · omega
  · exact read_write_of_ne ha

lemma undisturbed_of_array_ne {s u : Slice} (l : List α) (hu : u.array ≠ s.array) :
    A.Undisturbed s l u :=
  fun _ => read_write_of_ne hu

/-- Whether an append is noticed depends on the array appended to only. -/
lemma Undisturbed.congr {A' : Arrays α} {s u : Slice} {l : List α} (h : A.Undisturbed s l u)
    (hs : A'.cells s.array = A.cells s.array) : A'.Undisturbed s l u := by
  intro hroom
  have hroom' : l.length ≤ A.room s := by
    rw [room, ← hs]
    exact hroom
  by_cases ha : u.array = s.array
  · have h' := h hroom'
    simp only [read, write, ha, Function.update_self, hs] at h' ⊢
    exact h'
  · exact read_write_of_ne ha

lemma read_append_self {s : Slice} (h : A.Fits s) (l spare : List α) :
    (A.append s l spare).2.read (A.append s l spare).1 = A.read s ++ l := by
  unfold append
  split_ifs
  · exact read_write_self h l
  · exact read_alloc_self _ _

lemma read_append_of_undisturbed {s u : Slice} {l : List α} (hu : A.Fits u)
    (h : A.Undisturbed s l u) (spare : List α) :
    (A.append s l spare).2.read u = A.read u := by
  unfold append
  split_ifs with hroom
  · exact h hroom
  · exact read_alloc_of_fits hu _ _

/-- Appending keeps every slice inside its array. -/
lemma Fits.append {s u : Slice} (hs : A.Fits s) (hu : A.Fits u) (l spare : List α) :
    (A.append s l spare).2.Fits u := by
  have hstop := hs.stop_le
  unfold Arrays.append
  split_ifs with hroom
  · unfold room at hroom
    refine ⟨hu.array_lt, ?_⟩
    simp only [length_write (show s.off + s.len + l.length ≤ (A.cells s.array).length by omega)]
    exact hu.stop_le
  · exact hu.alloc _ _

lemma fits_append_self {s : Slice} (hs : A.Fits s) (l spare : List α) :
    (A.append s l spare).2.Fits (A.append s l spare).1 := by
  have hstop := hs.stop_le
  unfold append
  split_ifs with hroom
  · unfold room at hroom
    refine ⟨hs.array_lt, ?_⟩
    simp only [length_write (show s.off + s.len + l.length ≤ (A.cells s.array).length by omega)]
    omega
  · exact fits_alloc_self _ _

/-- Appending to a slice leaves those alone that do not reach behind it. -/
lemma append_keeps {r s : Slice} (hr : A.Fits r) (hs : A.Fits s) (h : s.Before r)
    (l spare : List α) : (A.append r l spare).2.Fits s ∧
      (A.append r l spare).2.read s = A.read s ∧ s.Before (A.append r l spare).1 := by
  refine ⟨hr.append hs l spare, read_append_of_undisturbed hs ?_ spare, ?_⟩
  · by_cases ha : s.array = r.array
    · exact undisturbed_of_stop_le hr l (h ha)
    · exact undisturbed_of_array_ne l ha
  · unfold append
    split_ifs
    · exact fun ha => (h ha).trans (by dsimp only; omega)
    · exact fun ha => absurd ha hs.array_lt.ne

end Arrays
