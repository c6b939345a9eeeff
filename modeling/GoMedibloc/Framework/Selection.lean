import Mathlib

/-!
# The best of a list

A list is put into descending order of a key and its first `n` elements are selected.  Elements
with equal keys may come in any order, as a sort that is not stable leaves them.  The selection is
the same for every such order exactly if no elements with equal keys stand on both sides of the
boundary after the `n`-th place (`perm_take_of_not_tied`, `exists_differ_of_tied`): without such a
tie the first `n` elements are those with a key that is at least that of the last of them, and
with one the tied elements can be exchanged across the boundary.
-/

namespace Selection

variable {α κ : Type*} [LinearOrder κ] (f : α → κ)

/-- The keys do not increase along the list. -/
def Descending (l : List α) : Prop := l.Pairwise fun x y => f y ≤ f x

/-- The second list has the elements of the first in descending order. -/
structure Arranges (l l' : List α) : Prop where
  perm : l'.Perm l
  descending : Descending f l'

/-- Elements with one key stand on both sides of the boundary after the `n`-th place: fewer than
`n` have a greater key, and more than `n` have a key that is not smaller. -/
def TiedAt (l : List α) (n : ℕ) : Prop :=
  ∃ x ∈ l, l.countP (fun y => f x < f y) < n ∧ n < l.countP (fun y => f x ≤ f y)

instance (l : List α) (n : ℕ) : Decidable (TiedAt f l n) :=
  inferInstanceAs (Decidable (∃ x ∈ l, _))

variable {f} {l l₁ l₂ : List α} {n : ℕ}

/-- The elements above a bound come first. -/
lemma Descending.filter_eq_take (h : Descending f l) (p : κ) :
    l.filter (fun y => p ≤ f y) = l.take (l.countP fun y => p ≤ f y) := by
  induction l with
  | nil => rfl
  | cons a l ih =>
      obtain ⟨ha, hl⟩ := List.pairwise_cons.1 h
      by_cases hp : p ≤ f a
      · simp [hp, ih hl]
      · have hnone : ∀ y ∈ l, ¬ p ≤ f y := fun y hy hle => hp (hle.trans (ha y hy))
        have hcount : l.countP (fun y => p ≤ f y) = 0 :=
          List.countP_eq_zero.2 fun y hy => by simpa using hnone y hy
        have hfilter : l.filter (fun y => p ≤ f y) = [] :=
          List.filter_eq_nil_iff.2 fun y hy => by simpa using hnone y hy
        simp [hp, hcount, hfilter]

/-- Fewer than `n` elements are greater than the `n`-th. -/
lemma Descending.countP_lt (h : Descending f l) {i : ℕ} (hi : i < l.length) :
    l.countP (fun y => f l[i] < f y) ≤ i := by
  have hdrop : (l.drop i).countP (fun y => f l[i] < f y) = 0 := by
    refine List.countP_eq_zero.2 fun y hy => ?_
    rw [List.drop_eq_getElem_cons hi] at hy
    have hpair := List.Pairwise.drop (i := i) h
    rw [List.drop_eq_getElem_cons hi] at hpair
    rcases List.mem_cons.1 hy with rfl | hy
    · simp
    · simpa using (List.pairwise_cons.1 hpair).1 y hy
  calc l.countP (fun y => f l[i] < f y)
      = (l.take i ++ l.drop i).countP (fun y => f l[i] < f y) := by rw [List.take_append_drop]
    _ = (l.take i).countP (fun y => f l[i] < f y) := by rw [List.countP_append, hdrop, add_zero]
    _ ≤ (l.take i).length := List.countP_le_length
    _ ≤ i := List.length_take_le _ _

/-- At least `i + 1` elements are not smaller than the one with the index `i`. -/
lemma Descending.lt_countP (h : Descending f l) {i : ℕ} (hi : i < l.length) :
    i + 1 ≤ l.countP (fun y => f l[i] ≤ f y) := by
  have htake : (l.take (i + 1)).countP (fun y => f l[i] ≤ f y) = (l.take (i + 1)).length := by
    refine List.countP_eq_length.2 fun y hy => ?_
    obtain ⟨j, hj, rfl⟩ := List.mem_take_iff_getElem.1 hy
    have hle : j ≤ i := by omega
    rcases hle.eq_or_lt with rfl | hlt
    · simp
    · simpa using List.pairwise_iff_getElem.1 h j i (by omega) hi hlt
  calc i + 1 = (l.take (i + 1)).length := by rw [List.length_take]; omega
    _ = (l.take (i + 1)).countP (fun y => f l[i] ≤ f y) := htake.symm
    _ ≤ l.countP (fun y => f l[i] ≤ f y) := (List.take_sublist _ _).countP_le

/-- Where no tie crosses the boundary, the first `n` elements are those that are not smaller than
the last of them. -/
lemma Arranges.take_eq_filter (h : Arranges f l l₁) {i : ℕ} (hi : i < l₁.length)
    (hn : ¬ TiedAt f l (i + 1)) :
    l₁.take (i + 1) = l₁.filter fun y => f l₁[i] ≤ f y := by
  have hcount : l₁.countP (fun y => f l₁[i] ≤ f y) = i + 1 := by
    refine le_antisymm ?_ (h.descending.lt_countP hi)
    by_contra hgt
    refine hn ⟨l₁[i], h.perm.mem_iff.1 (List.getElem_mem hi), ?_, ?_⟩
    · rw [← h.perm.countP_eq]
      exact Nat.lt_succ_of_le (h.descending.countP_lt hi)
    · rw [← h.perm.countP_eq]
      omega
  rw [h.descending.filter_eq_take, hcount]

/-- The keys of two arrangements are the same at every place. -/
lemma Arranges.map_eq (h₁ : Arranges f l l₁) (h₂ : Arranges f l l₂) : l₁.map f = l₂.map f := by
  have hperm : (l₁.map f).Perm (l₂.map f) := (h₁.perm.trans h₂.perm.symm).map f
  have hsorted : ∀ l, Descending f l → (l.map f).SortedGE := fun l h =>
    List.Pairwise.sortedGE (List.pairwise_map.2 h)
  exact hperm.eq_of_sortedGE (hsorted _ h₁.descending) (hsorted _ h₂.descending)

/-- **Without a tie at the boundary the selection does not depend on the order.** -/
theorem perm_take_of_not_tied (h₁ : Arranges f l l₁) (h₂ : Arranges f l l₂)
    (hn : ¬ TiedAt f l n) : (l₁.take n).Perm (l₂.take n) := by
  have hperm : l₁.Perm l₂ := h₁.perm.trans h₂.perm.symm
  obtain hle | hlt := le_or_gt l₁.length n
  · rwa [List.take_of_length_le hle, List.take_of_length_le (hperm.length_eq ▸ hle)]
  · cases n with
    | zero => simp
    | succ i =>
        have hi₁ : i < l₁.length := Nat.lt_of_succ_lt hlt
        have hi₂ : i < l₂.length := hperm.length_eq ▸ hi₁
        have hkey : f l₁[i] = f l₂[i] := by
          have hmap := congrArg (fun l => l[i]?) (h₁.map_eq h₂)
          simpa [hi₁, hi₂] using hmap
        rw [h₁.take_eq_filter hi₁ hn, h₂.take_eq_filter hi₂ hn, hkey]
        exact hperm.filter _

/-- Parts in descending order, with keys that do not increase from one part to the next. -/
lemma Descending.append (h₁ : Descending f l₁) (h₂ : Descending f l₂)
    (h : ∀ x ∈ l₁, ∀ y ∈ l₂, f y ≤ f x) : Descending f (l₁ ++ l₂) :=
  List.pairwise_append.2 ⟨h₁, h₂, h⟩

/-- A list can be put into descending order. -/
lemma exists_arranges (f : α → κ) (l : List α) : ∃ l', Arranges f l l' := by
  have hrefl : Std.Total fun x y => f y ≤ f x := ⟨fun x y => le_total _ _⟩
  have htrans : IsTrans α fun x y => f y ≤ f x := ⟨fun x y z hxy hyz => hyz.trans hxy⟩
  exact ⟨l.insertionSort fun x y => f y ≤ f x, List.perm_insertionSort _ _,
    List.pairwise_insertionSort _ _⟩

/-- A list taken apart at a key: the elements above it in descending order, those that have it,
and those below in descending order.  Those that have the key may come in any order. -/
lemma exists_split (f : α → κ) (l : List α) (p : κ) :
    ∃ A T B : List α, (∀ T', T'.Perm T → Arranges f l (A ++ (T' ++ B))) ∧
      (∀ y ∈ A, p < f y) ∧ (∀ y ∈ T, f y = p) ∧
      A.length = l.countP (fun y => p < f y) ∧
      A.length + T.length = l.countP (fun y => p ≤ f y) := by
  obtain ⟨rest, hrest⟩ : ∃ r, r = l.filter (fun y => !decide (p < f y)) := ⟨_, rfl⟩
  obtain ⟨A, hA⟩ := exists_arranges f (l.filter fun y => p < f y)
  obtain ⟨B, hB⟩ := exists_arranges f (rest.filter fun y => !decide (p ≤ f y))
  have hmemA : ∀ y ∈ A, p < f y := fun y hy => by
    simpa using (List.mem_filter.1 (hA.perm.mem_iff.1 hy)).2
  have hmemB : ∀ y ∈ B, f y < p := fun y hy => by
    simpa using (List.mem_filter.1 (hB.perm.mem_iff.1 hy)).2
  have hmemT : ∀ y ∈ rest.filter (fun y => p ≤ f y), f y = p := by
    intro y hy
    obtain ⟨hy, hle⟩ := List.mem_filter.1 hy
    rw [hrest] at hy
    have hnot := (List.mem_filter.1 hy).2
    simp only [Bool.not_eq_true', decide_eq_false_iff_not, not_lt, decide_eq_true_eq] at hnot hle
    exact le_antisymm hnot hle
  have hlenA : A.length = l.countP fun y => p < f y := by
    rw [hA.perm.length_eq, List.countP_eq_length_filter]
  refine ⟨A, rest.filter fun y => p ≤ f y, B, fun T hT => ⟨?_, ?_⟩, hmemA, hmemT, hlenA, ?_⟩
  · have hlow : (T ++ B).Perm rest := (hT.append hB.perm).trans (List.filter_append_perm _ _)
    rw [hrest] at hlow
    exact (hA.perm.append hlow).trans (List.filter_append_perm _ _)
  · have hmem : ∀ y ∈ T, f y = p := fun y hy => hmemT y (hT.mem_iff.1 hy)
    have hsame : Descending f T :=
      List.pairwise_of_forall_mem_list fun a ha b hb => (hmem b hb).trans_le (hmem a ha).ge
    refine hA.descending.append (hsame.append hB.descending ?_) ?_
    · exact fun a ha b hb => (hmemB b hb).le.trans (hmem a ha).ge
    · intro a ha b hb
      rcases List.mem_append.1 hb with hb | hb
      · exact (hmem b hb).trans_le (hmemA a ha).le
      · exact ((hmemB b hb).trans (hmemA a ha)).le
  · have habove : (l.filter fun y => p < f y).countP (fun y => p ≤ f y) = A.length := by
      rw [hA.perm.length_eq]
      refine List.countP_eq_length.2 fun y hy => ?_
      simpa using (of_decide_eq_true (List.mem_filter.1 hy).2).le
    rw [List.countP_eq_countP_filter_add l (fun y => p ≤ f y) fun y => p < f y, habove, hrest,
      List.countP_eq_length_filter]

/-- **With a tie at the boundary the selection depends on the order**: some element is selected in
one order and not in another. -/
theorem exists_differ_of_tied (hnodup : l.Nodup) (h : TiedAt f l n) :
    ∃ l₁ l₂ z, Arranges f l l₁ ∧ Arranges f l l₂ ∧ z ∈ l₁.take n ∧ z ∉ l₂.take n := by
  obtain ⟨x, -, hlt, hgt⟩ := h
  obtain ⟨A, T, B, harrange, hmemA, hmemT, hlenA, hlenT⟩ := exists_split f l (f x)
  rw [← hlenA] at hlt
  rw [← hlenT] at hgt
  obtain ⟨k, rfl⟩ := Nat.exists_eq_add_of_lt hlt
  cases T with
  | nil =>
      rw [List.length_nil] at hgt
      omega
  | cons z T =>
      -- the first of the tied elements is moved behind the others
      rw [List.length_cons] at hgt
      have hnodupT : (A ++ ((z :: T) ++ B)).Nodup :=
        (harrange _ (.refl _)).perm.nodup_iff.2 hnodup
      have hz : z ∉ T :=
        (List.nodup_cons.1 (List.nodup_append.1 (List.nodup_append.1 hnodupT).2.1).1).1
      refine ⟨_, _, z, harrange _ (.refl _), harrange (T ++ [z]) (List.perm_append_singleton z T),
        ?_, ?_⟩
      · rw [add_assoc, List.take_length_add_append]
        simp
      · rw [add_assoc, List.take_length_add_append, List.append_assoc,
          List.take_append_of_le_length (by omega), List.mem_append, not_or]
        refine ⟨fun hmem => ?_, fun hmem => hz (List.mem_of_mem_take hmem)⟩
        exact (hmemA z hmem).ne' (hmemT z List.mem_cons_self)

end Selection
