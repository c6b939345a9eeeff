import Mathlib

/-!
# Priority queues with keys

A binary heap in an array, as the package `container/heap` keeps it, together with an index of its
entries by key.  An entry is moved up or down by swaps until its parent and children are in order;
an entry is removed by swapping it with the last one.

The index is not a second copy here: the entry of a key is looked up in the array, and that no key
occurs twice is part of the type.  What is proved is which entries a queue holds after an
operation.  It does not depend on the order, which only says which of the entries comes first.
-/

/-- A queue of entries under different keys; the entry at the front comes first. -/
structure HashHeap (κ ν : Type*) where
  pq : List (κ × ν)
  nodup : (pq.map Prod.fst).Nodup

namespace HashHeap

variable {κ ν : Type*}

/-! ## Swaps -/

section Swaps

variable (less : ν → ν → Bool)

/-- `Swap`. -/
def swap (l : List (κ × ν)) (i j : ℕ) : List (κ × ν) :=
  if h : i < l.length ∧ j < l.length then (l.set i (l.get ⟨j, h.2⟩)).set j (l.get ⟨i, h.1⟩) else l

lemma swap_perm (l : List (κ × ν)) (i j : ℕ) : (swap l i j).Perm l := by
  unfold swap
  split_ifs with h
  · exact List.set_set_perm h.1 h.2
  · exact .refl l

/-- `Less`, of the entries at two places. -/
def lessAt (l : List (κ × ν)) (i j : ℕ) : Bool :=
  match l[i]?, l[j]? with
  | some x, some y => less x.2 y.2
  | _, _ => false

/-- `up`: the entry at a place is swapped with its parent as long as it comes before it. -/
def up : ℕ → List (κ × ν) → ℕ → List (κ × ν)
  | 0, l, _ => l
  | fuel + 1, l, j =>
    let i := (j - 1) / 2
    if i = j ∨ ¬ lessAt less l j i then l else up fuel (swap l i j) i

/-- `down`: the entry at a place is swapped with the first of its children as long as that comes
before it.  The place where it ends is returned too. -/
def down : ℕ → List (κ × ν) → ℕ → List (κ × ν) × ℕ
  | 0, l, i => (l, i)
  | fuel + 1, l, i =>
    let j₁ := 2 * i + 1
    if l.length ≤ j₁ then (l, i)
    else
      let j := if j₁ + 1 < l.length ∧ lessAt less l (j₁ + 1) j₁ then j₁ + 1 else j₁
      if ¬ lessAt less l j i then (l, i) else down fuel (swap l i j) j

variable {less}

lemma up_perm (fuel : ℕ) (l : List (κ × ν)) (j : ℕ) : (up less fuel l j).Perm l := by
  induction fuel generalizing l j with
  | zero => exact .refl l
  | succ fuel ih =>
      rw [up]
      split_ifs with h
      · exact .refl l
      · exact (ih _ _).trans (swap_perm l _ _)

lemma down_perm (fuel : ℕ) (l : List (κ × ν)) (i : ℕ) : (down less fuel l i).1.Perm l := by
  induction fuel generalizing l i with
  | zero => exact .refl l
  | succ fuel ih =>
      rw [down]
      dsimp only
      split_ifs with hleaf hchild hless hless
      · exact .refl l
      · exact (ih _ _).trans (swap_perm l _ _)
      · exact .refl l
      · exact (ih _ _).trans (swap_perm l _ _)
      · exact .refl l

/-- An entry that is swapped with the last one is the last one then. -/
lemma getLast?_swap {l : List (κ × ν)} {i : ℕ} (hi : i < l.length) :
    (swap l i (l.length - 1)).getLast? = some l[i] := by
  have hswap : (swap l i (l.length - 1)).length = l.length := (swap_perm l _ _).length_eq
  rw [List.getLast?_eq_getElem?, hswap]
  simp [swap, hi, show l.length - 1 < l.length by omega]

variable (less)

/-- The array that `heap.Remove` leaves for the entry at a place.  The entry is swapped with the
last one; what `down` and `up` do then does not touch it, and it is cut off first here. -/
def removed (l : List (κ × ν)) (i : ℕ) : List (κ × ν) :=
  let n := l.length - 1
  if n = i then l.dropLast
  else
    let l := (swap l i n).dropLast
    let moved := down less l.length l i
    if moved.2 = i then up less l.length moved.1 i else moved.1

/-- What is left is the array without the entry. -/
lemma removed_perm {l : List (κ × ν)} {i : ℕ} (hi : i < l.length) :
    (removed less l i).Perm (l.eraseIdx i) := by
  have hlast : (swap l i (l.length - 1)).dropLast.Perm (l.eraseIdx i) := by
    have hperm : (l[i] :: (swap l i (l.length - 1)).dropLast).Perm l := by
      have hsplit := List.dropLast_append_getLast? _ (getLast?_swap hi)
      refine (List.perm_append_singleton _ _).symm.trans ?_
      rw [hsplit]
      exact swap_perm l _ _
    exact (List.perm_cons _).1 (hperm.trans (List.getElem_cons_eraseIdx_perm hi).symm)
  unfold removed
  dsimp only
  split_ifs with hn hstay
  · rw [← hn, ← List.eraseIdx_length_sub_one]
  · exact (up_perm _ _ _).trans ((down_perm _ _ _).trans hlast)
  · exact (down_perm _ _ _).trans hlast

end Swaps

/-! ## The queue -/

/-- The queue holds the entry. -/
def Holds (h : HashHeap κ ν) (k : κ) (v : ν) : Prop := (k, v) ∈ h.pq

/-- `New`. -/
def new : HashHeap κ ν := ⟨[], List.nodup_nil⟩

@[simp] lemma not_holds_new (k : κ) (v : ν) : ¬ (new : HashHeap κ ν).Holds k v :=
  List.not_mem_nil

/-- `Len`. -/
def len (h : HashHeap κ ν) : ℕ := h.pq.length

/-- `Peek`. -/
def peek (h : HashHeap κ ν) : Option ν := h.pq.head?.map Prod.snd

variable {h : HashHeap κ ν} {k k' : κ} {v v' : ν}

lemma Holds.unique (hv : h.Holds k v) (hv' : h.Holds k v') : v = v' :=
  congrArg Prod.snd (List.inj_on_of_nodup_map h.nodup hv hv' rfl)

lemma holds_of_peek (hv : h.peek = some v) : ∃ k, h.Holds k v := by
  obtain ⟨⟨k, v'⟩, hhead, rfl⟩ := Option.map_eq_some_iff.1 hv
  exact ⟨k, List.mem_of_mem_head? hhead⟩

lemma peek_ne_none (hv : h.Holds k v) : h.peek ≠ none := by
  intro hnone
  rw [peek, Option.map_eq_none_iff, List.head?_eq_none_iff] at hnone
  exact absurd hv (by rw [Holds, hnone]; exact List.not_mem_nil)

lemma len_eq_zero : h.len = 0 ↔ ∀ k v, ¬ h.Holds k v := by
  rw [len, List.length_eq_zero_iff, List.eq_nil_iff_forall_not_mem, Prod.forall]
  rfl

variable [DecidableEq κ]

/-- `Get`. -/
def get (h : HashHeap κ ν) (k : κ) : Option ν := (h.pq.find? fun e => e.1 = k).map Prod.snd

lemma get_eq_some : h.get k = some v ↔ h.Holds k v := by
  constructor
  · intro hget
    obtain ⟨⟨k', v'⟩, hfind, rfl⟩ := Option.map_eq_some_iff.1 hget
    have hkey : k' = k := by simpa using List.find?_some hfind
    exact hkey ▸ List.mem_of_find?_eq_some hfind
  · intro hv
    cases hfind : h.pq.find? fun e => e.1 = k with
    | none =>
        have hnone := List.find?_eq_none.1 hfind (k, v) hv
        simp at hnone
    | some e =>
        have hkey : e.1 = k := by simpa using List.find?_some hfind
        have heq : e = (k, v) :=
          List.inj_on_of_nodup_map h.nodup (List.mem_of_find?_eq_some hfind) hv hkey
        rw [get, hfind, heq]
        rfl

lemma get_eq_none : h.get k = none ↔ ∀ v, ¬ h.Holds k v := by
  rw [Option.eq_none_iff_forall_ne_some]
  exact forall_congr' fun v => not_congr get_eq_some

variable (less : ν → ν → Bool)

/-- `Del`. -/
def del (h : HashHeap κ ν) (k : κ) : Option ν × HashHeap κ ν :=
  (h.get k,
    if hi : h.pq.findIdx (fun e => e.1 = k) < h.pq.length then
      ⟨removed less h.pq (h.pq.findIdx fun e => e.1 = k),
        ((removed_perm less hi).map _).nodup_iff.2
          (h.nodup.sublist ((List.eraseIdx_sublist _ _).map _))⟩
    else h)

@[simp] lemma del_fst : (h.del less k).1 = h.get k := rfl

lemma del_holds : (h.del less k).2.Holds k' v' ↔ k' ≠ k ∧ h.Holds k' v' := by
  unfold del
  dsimp only
  split_ifs with hi
  · have hkey : (h.pq[h.pq.findIdx fun e => e.1 = k]).1 = k := by
      simpa using List.findIdx_getElem (w := hi)
    have hperm := List.getElem_cons_eraseIdx_perm hi
    have hnot := (List.nodup_cons.1 (hperm.nodup_iff.2 (h.nodup.of_map _))).1
    rw [Holds, Holds, (removed_perm less hi).mem_iff, ← hperm.mem_iff, List.mem_cons]
    constructor
    · intro hmem
      refine ⟨?_, .inr hmem⟩
      rintro rfl
      have heq := List.inj_on_of_nodup_map h.nodup (hperm.mem_iff.1 (List.mem_cons_of_mem _ hmem))
        (List.getElem_mem hi) hkey.symm
      exact hnot (heq ▸ hmem)
    · rintro ⟨hne, heq | hmem⟩
      · exact absurd (by rw [← hkey, ← heq]) hne
      · exact hmem
  · rw [List.findIdx_lt_length, not_exists] at hi
    refine ⟨fun hv => ⟨?_, hv⟩, fun hv => hv.2⟩
    rintro rfl
    exact hi _ ⟨hv, by simp⟩

/-- `heap.Push`. -/
def push (h : HashHeap κ ν) (k : κ) (v : ν) (hk : ∀ v', ¬ h.Holds k v') : HashHeap κ ν :=
  ⟨up less (h.pq.length + 1) (h.pq ++ [(k, v)]) h.pq.length, by
    rw [((up_perm _ _ _).map _).nodup_iff, List.map_append, List.nodup_append]
    refine ⟨h.nodup, List.nodup_singleton _, fun a ha b hb hab => ?_⟩
    obtain ⟨⟨a, v'⟩, he, rfl⟩ := List.mem_map.1 ha
    obtain rfl : b = k := List.mem_singleton.1 hb
    exact hk v' (hab ▸ he)⟩

/-- `Set`. -/
def set (h : HashHeap κ ν) (k : κ) (v : ν) : Option ν × HashHeap κ ν :=
  ((h.del less k).1, (h.del less k).2.push less k v fun _ hv => ((del_holds less).1 hv).1 rfl)

@[simp] lemma set_fst : (h.set less k v).1 = h.get k := rfl

lemma set_holds :
    (h.set less k v).2.Holds k' v' ↔ k' = k ∧ v' = v ∨ k' ≠ k ∧ h.Holds k' v' := by
  have hmem : (h.set less k v).2.Holds k' v' ↔ (k', v') ∈ (h.del less k).2.pq ++ [(k, v)] :=
    (up_perm _ _ _).mem_iff
  have hdel : (k', v') ∈ (h.del less k).2.pq ↔ k' ≠ k ∧ h.Holds k' v' := del_holds less
  rw [hmem, List.mem_append, List.mem_singleton, hdel, Prod.mk.injEq]
  exact or_comm

end HashHeap
