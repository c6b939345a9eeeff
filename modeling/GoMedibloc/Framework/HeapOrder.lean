import GoMedibloc.Framework.HashHeap

/-!
# The order of a priority queue

The entry at place `k` has its parent at place `(k - 1) / 2`.  The array is ordered if no entry comes
before its parent; then no entry comes before the one at the front, which `peek` returns.

`up` and `down` repair an array that is ordered except around one place, the hole.  At the hole the
children must not come before the parent, so that an entry can move through it.  `up` needs
moreover that the children do not come before the entry at the hole.  `down` either moves the entry
away, after which the array is ordered, or leaves it where `up` can go on.

The comparison is assumed to be a strict weak order.
-/

namespace HashHeap

variable {κ ν : Type*}

/-- A strict weak order: `less` is asymmetric, and if one value comes before another then every third
value comes after the one or before the other. -/
structure WeakOrder (less : ν → ν → Bool) : Prop where
  asymm : ∀ x y, less x y = true → less y x = false
  cotrans : ∀ x y z, less x z = true → less x y = true ∨ less y z = true

variable {less : ν → ν → Bool} {l : List (κ × ν)} {i j k : ℕ}

/-! ## Comparing places -/

lemma lessAt_eq_true : lessAt less l i j = true ↔
    ∃ x y, l[i]? = some x ∧ l[j]? = some y ∧ less x.2 y.2 = true := by
  unfold lessAt
  cases l[i]? with
  | none => simp
  | some x =>
      cases l[j]? with
      | none => simp
      | some y => simp

lemma lt_length_of_lessAt (h : lessAt less l i j = true) : i < l.length ∧ j < l.length := by
  obtain ⟨x, y, hx, hy, -⟩ := lessAt_eq_true.1 h
  exact ⟨(List.getElem?_eq_some_iff.1 hx).1, (List.getElem?_eq_some_iff.1 hy).1⟩

lemma lessAt_asymm (ho : WeakOrder less) (h : lessAt less l i j = true) :
    ¬ lessAt less l j i = true := by
  obtain ⟨x, y, hx, hy, hless⟩ := lessAt_eq_true.1 h
  rw [lessAt, hy, hx]
  simp only [ho.asymm _ _ hless, Bool.false_eq_true, not_false_eq_true]

lemma lessAt_cotrans (ho : WeakOrder less) (hj : j < l.length) (h : lessAt less l i k = true) :
    lessAt less l i j = true ∨ lessAt less l j k = true := by
  obtain ⟨x, z, hx, hz, hless⟩ := lessAt_eq_true.1 h
  have hy := List.getElem?_eq_getElem hj
  obtain hxy | hyz := ho.cotrans _ l[j].2 _ hless
  · exact .inl (lessAt_eq_true.2 ⟨_, _, hx, hy, hxy⟩)
  · exact .inr (lessAt_eq_true.2 ⟨_, _, hy, hz, hyz⟩)

lemma lessAt_trans (ho : WeakOrder less) (hij : lessAt less l i j = true)
    (hjk : lessAt less l j k = true) : lessAt less l i k = true := by
  have hk := (lt_length_of_lessAt hjk).2
  exact (lessAt_cotrans ho hk hij).resolve_right (lessAt_asymm ho hjk)

lemma getElem?_swap (hi : i < l.length) (hj : j < l.length) (k : ℕ) :
    (swap l i j)[k]? = l[Equiv.swap i j k]? := by
  rw [swap, dif_pos ⟨hi, hj⟩, List.getElem?_set, List.getElem?_set]
  by_cases hkj : j = k
  · subst hkj
    rw [if_pos rfl, Equiv.swap_apply_right, List.length_set, if_pos hj,
      List.getElem?_eq_getElem hi]
    rfl
  · rw [if_neg hkj]
    by_cases hki : i = k
    · subst hki
      rw [if_pos rfl, if_pos hi, Equiv.swap_apply_left, List.getElem?_eq_getElem hj]
      rfl
    · rw [if_neg hki, Equiv.swap_apply_of_ne_of_ne (Ne.symm hki) (Ne.symm hkj)]

/-- A swapped array is compared at the swapped places. -/
lemma lessAt_swap (hi : i < l.length) (hj : j < l.length) (a b : ℕ) :
    lessAt less (swap l i j) a b = lessAt less l (Equiv.swap i j a) (Equiv.swap i j b) := by
  unfold lessAt
  rw [getElem?_swap hi hj, getElem?_swap hi hj]

/-! ## Order -/

/-- No entry comes before its parent. -/
def Ordered (less : ν → ν → Bool) (l : List (κ × ν)) : Prop :=
  ∀ k, 0 < k → ¬ lessAt less l k ((k - 1) / 2) = true

/-- The array is ordered except around a hole: no entry comes before its parent unless it is or its
parent is at the hole, and the children of the hole do not come before its parent. -/
structure OrderedAround (less : ν → ν → Bool) (l : List (κ × ν)) (hole : ℕ) : Prop where
  elsewhere : ∀ k, 0 < k → k ≠ hole → (k - 1) / 2 ≠ hole → ¬ lessAt less l k ((k - 1) / 2) = true
  through : ∀ c, 0 < c → (c - 1) / 2 = hole → 0 < hole →
    ¬ lessAt less l c ((hole - 1) / 2) = true

/-- The children of the hole do not come before it. -/
def BelowOk (less : ν → ν → Bool) (l : List (κ × ν)) (hole : ℕ) : Prop :=
  ∀ c, 0 < c → (c - 1) / 2 = hole → ¬ lessAt less l c hole = true

/-- The entry at the hole does not come before its parent. -/
def AboveOk (less : ν → ν → Bool) (l : List (κ × ν)) (hole : ℕ) : Prop :=
  0 < hole → ¬ lessAt less l hole ((hole - 1) / 2) = true

lemma OrderedAround.ordered (h : OrderedAround less l i) (habove : AboveOk less l i)
    (hbelow : BelowOk less l i) : Ordered less l := by
  intro k hk
  by_cases hki : k = i
  · subst hki
    exact habove hk
  · by_cases hparent : (k - 1) / 2 = i
    · rw [hparent]
      exact hbelow k hk hparent
    · exact h.elsewhere k hk hki hparent

/-- In an ordered array nothing comes before the front. -/
lemma Ordered.front (ho : WeakOrder less) (h : Ordered less l) (k : ℕ) :
    ¬ lessAt less l k 0 = true := by
  induction k using Nat.strongRecOn with
  | ind k ih =>
      intro hless
      obtain rfl | hk := Nat.eq_zero_or_pos k
      · exact lessAt_asymm ho hless hless
      · have hlt : (k - 1) / 2 < l.length := by
          have hlen := (lt_length_of_lessAt hless).1
          omega
        obtain hless | hless := lessAt_cotrans ho hlt hless
        · exact h k hk hless
        · exact ih _ (by omega) hless

/-! ## Moving up -/

/-- The entry at the hole has come before its parent and changes places with it. -/
lemma OrderedAround.moveUp (ho : WeakOrder less) (h : OrderedAround less l j)
    (hbelow : BelowOk less l j) (hj : 0 < j) (hless : lessAt less l j ((j - 1) / 2) = true) :
    OrderedAround less (swap l ((j - 1) / 2) j) ((j - 1) / 2) ∧
      BelowOk less (swap l ((j - 1) / 2) j) ((j - 1) / 2) := by
  obtain ⟨i, hi⟩ : ∃ i, i = (j - 1) / 2 := ⟨_, rfl⟩
  rw [← hi] at hless ⊢
  obtain ⟨hjl, hil⟩ := lt_length_of_lessAt hless
  -- the places other than the two are compared as before
  have hother : ∀ k, k ≠ i → k ≠ j → Equiv.swap i j k = k :=
    fun k => Equiv.swap_apply_of_ne_of_ne
  have habove : 0 < i → ¬ lessAt less l i ((i - 1) / 2) = true :=
    fun hpos => h.elsewhere i hpos (by omega) (by omega)
  refine ⟨⟨fun k hk hki hparent => ?_, fun c hc hparent hpos => ?_⟩, fun c hc hparent => ?_⟩
  · -- a child of the new hole's old child, or a pair far away
    have hkj : k ≠ j := by
      rintro rfl
      exact hparent hi.symm
    rw [lessAt_swap hil hjl, hother k hki hkj]
    by_cases hkp : (k - 1) / 2 = j
    · rw [hkp, Equiv.swap_apply_right, hi]
      exact h.through k hk hkp hj
    · rw [hother _ hparent hkp]
      exact h.elsewhere k hk hkj hkp
  · rw [lessAt_swap hil hjl, hother ((i - 1) / 2) (by omega) (by omega)]
    by_cases hcj : c = j
    · rw [hcj, Equiv.swap_apply_right]
      exact habove hpos
    · rw [hother c (by omega) hcj]
      intro hlt
      obtain hci | hip := lessAt_cotrans ho hil hlt
      · exact h.elsewhere c hc hcj (by omega) (hparent ▸ hci)
      · exact habove hpos hip
  · rw [lessAt_swap hil hjl, Equiv.swap_apply_left]
    by_cases hcj : c = j
    · rw [hcj, Equiv.swap_apply_right]
      exact lessAt_asymm ho hless
    · rw [hother c (by omega) hcj]
      intro hlt
      exact h.elsewhere c hc hcj (by omega) (hparent ▸ lessAt_trans ho hlt hless)

/-- `up` orders the array. -/
lemma ordered_up (ho : WeakOrder less) {fuel : ℕ} (h : OrderedAround less l j)
    (hbelow : BelowOk less l j) (hfuel : j ≤ fuel) : Ordered less (up less fuel l j) := by
  induction fuel generalizing l j with
  | zero => exact h.ordered (fun hpos => absurd hpos (by omega)) hbelow
  | succ fuel ih =>
      rw [up]
      split_ifs with hstop
      · refine h.ordered (fun hpos => ?_) hbelow
        obtain heq | hnot := hstop
        · omega
        · exact hnot
      · rw [not_or, not_not] at hstop
        obtain ⟨h', hbelow'⟩ := h.moveUp ho hbelow (by omega) hstop.2
        exact ih h' hbelow' (by omega)

/-! ## Moving down -/

/-- The child of the hole that comes first changes places with the entry at the hole. -/
lemma OrderedAround.moveDown (ho : WeakOrder less) (h : OrderedAround less l i) (hj : 0 < j)
    (hparent : (j - 1) / 2 = i) (hleast : ∀ c, 0 < c → (c - 1) / 2 = i → ¬ lessAt less l c j = true)
    (hless : lessAt less l j i = true) :
    OrderedAround less (swap l i j) j ∧ AboveOk less (swap l i j) j := by
  obtain ⟨hjl, hil⟩ := lt_length_of_lessAt hless
  have hother : ∀ k, k ≠ i → k ≠ j → Equiv.swap i j k = k :=
    fun k => Equiv.swap_apply_of_ne_of_ne
  refine ⟨⟨fun k hk hkj hkp => ?_, fun c hc hcp _ => ?_⟩, fun _ => ?_⟩
  · rw [lessAt_swap hil hjl]
    by_cases hki : k = i
    · rw [hki, Equiv.swap_apply_left, hother _ (by omega) (by omega)]
      exact h.through j hj hparent (by omega)
    · rw [hother k hki hkj]
      by_cases hkp' : (k - 1) / 2 = i
      · rw [hkp', Equiv.swap_apply_left]
        exact hleast k hk hkp'
      · rw [hother _ hkp' hkp]
        exact h.elsewhere k hk hki hkp'
  · rw [lessAt_swap hil hjl, hparent, Equiv.swap_apply_left, hother c (by omega) (by omega)]
    exact hcp ▸ h.elsewhere c hc (by omega) (by omega)
  · rw [lessAt_swap hil hjl, hparent, Equiv.swap_apply_left, Equiv.swap_apply_right]
    exact lessAt_asymm ho hless

/-- The child that `down` looks at comes before no other child. -/
lemma least_child (ho : WeakOrder less) (i : ℕ) :
    let j := if 2 * i + 1 + 1 < l.length ∧ lessAt less l (2 * i + 1 + 1) (2 * i + 1) = true
      then 2 * i + 1 + 1 else 2 * i + 1
    0 < j ∧ (j - 1) / 2 = i ∧ ∀ c, 0 < c → (c - 1) / 2 = i → ¬ lessAt less l c j = true := by
  dsimp only
  split_ifs with hright
  · refine ⟨by omega, by omega, fun c hc hparent hless => ?_⟩
    obtain rfl | rfl : c = 2 * i + 1 ∨ c = 2 * i + 1 + 1 := by omega
    · exact lessAt_asymm ho hless hright.2
    · exact lessAt_asymm ho hless hless
  · refine ⟨by omega, by omega, fun c hc hparent hless => ?_⟩
    obtain rfl | rfl : c = 2 * i + 1 ∨ c = 2 * i + 1 + 1 := by omega
    · exact lessAt_asymm ho hless hless
    · exact hright ⟨(lt_length_of_lessAt hless).1, hless⟩

/-- `down` leaves an entry that no child comes before, or moves it down and orders the array if the
entry does not come before its parent.  After the first move it does not. -/
lemma ordered_down (ho : WeakOrder less) {fuel : ℕ} (h : OrderedAround less l i)
    (hfuel : l.length ≤ i + fuel) :
    ((down less fuel l i).2 = i ∧ (down less fuel l i).1 = l ∧ BelowOk less l i) ∨
      (i < (down less fuel l i).2 ∧ Ordered less (down less fuel l i).1) := by
  induction fuel generalizing l i with
  | zero =>
      refine .inl ⟨rfl, rfl, fun c hc hparent hless => ?_⟩
      have hlen := (lt_length_of_lessAt hless).2
      omega
  | succ fuel ih =>
      rw [down]
      dsimp only
      obtain ⟨hj, hparent, hleast⟩ := least_child (l := l) ho i
      by_cases hleaf : l.length ≤ 2 * i + 1
      · rw [if_pos hleaf]
        refine .inl ⟨rfl, rfl, fun c hc hchild hless => ?_⟩
        have hlen := (lt_length_of_lessAt hless).1
        omega
      · rw [if_neg hleaf]
        generalize hchoice : (if 2 * i + 1 + 1 < l.length ∧
          lessAt less l (2 * i + 1 + 1) (2 * i + 1) = true then 2 * i + 1 + 1 else 2 * i + 1) = j
          at hj hparent hleast
        by_cases hless : lessAt less l j i = true
        · rw [if_neg (not_not.2 hless)]
          obtain ⟨h', habove⟩ := h.moveDown ho hj hparent hleast hless
          have hlength : (swap l i j).length = l.length := (swap_perm l i j).length_eq
          obtain ⟨hplace, harray, hbelow⟩ | ⟨hplace, hordered⟩ := ih h' (by omega)
          · refine .inr ⟨by omega, ?_⟩
            rw [harray]
            exact h'.ordered habove hbelow
          · exact .inr ⟨by omega, hordered⟩
        · rw [if_pos hless]
          refine .inl ⟨rfl, rfl, fun c hc hchild hlt => ?_⟩
          have hjl : j < l.length := by
            rw [← hchoice]
            split_ifs with hright
            · exact hright.1
            · omega
          obtain hcj | hji := lessAt_cotrans ho hjl hlt
          · exact hleast c hc hchild hcj
          · exact hless hji

/-! ## Removing and pushing -/

lemma lessAt_dropLast (h : lessAt less l.dropLast i j = true) :
    lessAt less l i j = true ∧ i < l.length - 1 ∧ j < l.length - 1 := by
  obtain ⟨x, y, hx, hy, hless⟩ := lessAt_eq_true.1 h
  obtain ⟨hi, hx⟩ := List.getElem?_eq_some_iff.1 hx
  obtain ⟨hj, hy⟩ := List.getElem?_eq_some_iff.1 hy
  rw [List.length_dropLast] at hi hj
  rw [List.getElem_dropLast] at hx hy
  refine ⟨lessAt_eq_true.2 ⟨x, y, ?_, ?_, hless⟩, hi, hj⟩
  · exact List.getElem?_eq_some_iff.2 ⟨by omega, hx⟩
  · exact List.getElem?_eq_some_iff.2 ⟨by omega, hy⟩

/-- The array without the entry at a place is ordered. -/
lemma Ordered.removed (ho : WeakOrder less) (h : Ordered less l) (hi : i < l.length) :
    Ordered less (removed less l i) := by
  unfold HashHeap.removed
  dsimp only
  by_cases hlast : l.length - 1 = i
  · rw [if_pos hlast]
    exact fun k hk hless => h k hk (lessAt_dropLast hless).1
  · rw [if_neg hlast]
    -- where the last entry is put there is a hole
    have hswap : (swap l i (l.length - 1)).length = l.length := (swap_perm l _ _).length_eq
    have hother : ∀ k, k ≠ i → k < l.length - 1 → Equiv.swap i (l.length - 1) k = k :=
      fun k hki hk => Equiv.swap_apply_of_ne_of_ne hki (by omega)
    have haround : OrderedAround less (swap l i (l.length - 1)).dropLast i := by
      refine ⟨fun k hk hki hkp hless => ?_, fun c hc hparent hpos hless => ?_⟩
      · obtain ⟨hless, hk', hkp'⟩ := lessAt_dropLast hless
        rw [hswap] at hk' hkp'
        rw [lessAt_swap hi (by omega), hother _ hki hk', hother _ hkp hkp'] at hless
        exact h k hk hless
      · obtain ⟨hless, hc', hp'⟩ := lessAt_dropLast hless
        rw [hswap] at hc' hp'
        rw [lessAt_swap hi (by omega), hother _ (by omega) hc', hother _ (by omega) hp'] at hless
        obtain hci | hip := lessAt_cotrans ho hi hless
        · exact h c hc (hparent ▸ hci)
        · exact h i hpos hip
    have hlength : (swap l i (l.length - 1)).dropLast.length = l.length - 1 := by
      rw [List.length_dropLast, hswap]
    obtain ⟨hplace, harray, hbelow⟩ | ⟨hplace, hordered⟩ :=
      ordered_down ho haround (Nat.le_add_left _ i)
    · rw [if_pos hplace, harray]
      exact ordered_up ho haround hbelow (by omega)
    · rw [if_neg (by omega)]
      exact hordered

/-- The array with one more entry is ordered after `up`. -/
lemma Ordered.pushed (ho : WeakOrder less) (h : Ordered less l) (e : κ × ν) :
    Ordered less (up less (l.length + 1) (l ++ [e]) l.length) := by
  have hbefore : ∀ k j, k ≠ l.length → j ≠ l.length → lessAt less (l ++ [e]) k j = true →
      lessAt less l k j = true := by
    intro k j hk hj hless
    obtain ⟨hkl, hjl⟩ := lt_length_of_lessAt hless
    rw [List.length_append, List.length_singleton] at hkl hjl
    rwa [lessAt, List.getElem?_append_left (by omega), List.getElem?_append_left (by omega)] at hless
  refine ordered_up ho ⟨fun k hk hkl hkp hless => ?_, fun c hc hparent hpos hless => ?_⟩
    (fun c hc hparent hless => ?_) (Nat.le_succ _)
  · exact h k hk (hbefore _ _ hkl hkp hless)
  · have hlen := (lt_length_of_lessAt hless).1
    rw [List.length_append, List.length_singleton] at hlen
    omega
  · have hlen := (lt_length_of_lessAt hless).1
    rw [List.length_append, List.length_singleton] at hlen
    omega

/-! ## An entry behind the array -/

section Behind

variable {e : κ × ν}

lemma length_swap : (swap l i j).length = l.length := (swap_perm l i j).length_eq

/-- An entry behind the array is not compared. -/
lemma lessAt_append (hi : i < l.length) (hj : j < l.length) :
    lessAt less (l ++ [e]) i j = lessAt less l i j := by
  unfold lessAt
  rw [List.getElem?_append_left hi, List.getElem?_append_left hj]

/-- An entry behind the array is not swapped. -/
lemma swap_append (hi : i < l.length) (hj : j < l.length) :
    swap (l ++ [e]) i j = swap l i j ++ [e] := by
  have hi' : i < (l ++ [e]).length := hi.trans_le (List.sublist_append_left _ _).length_le
  have hj' : j < (l ++ [e]).length := hj.trans_le (List.sublist_append_left _ _).length_le
  rw [swap, swap, dif_pos ⟨hi', hj'⟩, dif_pos ⟨hi, hj⟩, List.set_append_left _ _ hi,
    List.set_append_left _ _ (by rwa [List.length_set])]
  simp only [List.get_eq_getElem, List.getElem_append_left hi, List.getElem_append_left hj]

lemma up_append {fuel : ℕ} (hj : j < l.length) :
    up less fuel (l ++ [e]) j = up less fuel l j ++ [e] := by
  induction fuel generalizing l j with
  | zero => rfl
  | succ fuel ih =>
      have hi : (j - 1) / 2 < l.length := by omega
      rw [up, up, lessAt_append hj hi]
      split_ifs
      · rfl
      · rw [swap_append hi hj, ih (by rwa [length_swap])]

/-- An entry that is moved down does not end above its place. -/
lemma le_down (fuel : ℕ) (l : List (κ × ν)) (i : ℕ) : i ≤ (down less fuel l i).2 := by
  induction fuel generalizing l i with
  | zero => exact le_rfl
  | succ fuel ih =>
      rw [down]
      dsimp only
      obtain ⟨j, hj⟩ : ∃ j, j = (if 2 * i + 1 + 1 < l.length ∧
        lessAt less l (2 * i + 1 + 1) (2 * i + 1) = true then 2 * i + 1 + 1 else 2 * i + 1) :=
        ⟨_, rfl⟩
      have hle : i ≤ j := by rw [hj]; split_ifs <;> omega
      rw [← hj]
      split_ifs
      · exact le_rfl
      · exact hle.trans (ih _ _)
      · exact le_rfl

end Behind

/-! ## Queues -/

variable {h : HashHeap κ ν} {v v' : ν} {key' : κ}

lemma ordered_new : Ordered less (new : HashHeap κ ν).pq := fun _ _ hless =>
  absurd (lt_length_of_lessAt hless).1 (Nat.not_lt_zero _)

/-- Nothing in an ordered queue comes before what `peek` returns. -/
lemma peek_first (ho : WeakOrder less) (hord : Ordered less h.pq) (hpeek : h.peek = some v)
    (hv' : h.Holds key' v') : less v' v = false := by
  obtain ⟨e, hhead, rfl⟩ := Option.map_eq_some_iff.1 hpeek
  obtain ⟨k, hk, heq⟩ := List.mem_iff_getElem.1 hv'
  by_contra hless
  rw [Bool.not_eq_false] at hless
  refine hord.front ho k (lessAt_eq_true.2 ⟨(key', v'), e, ?_, ?_, hless⟩)
  · exact List.getElem?_eq_some_iff.2 ⟨hk, heq⟩
  · rw [← List.head?_eq_getElem?]
    exact hhead

variable [DecidableEq κ]

lemma ordered_del (ho : WeakOrder less) (hord : Ordered less h.pq) (key : κ) :
    Ordered less (h.del less key).2.pq := by
  unfold del
  dsimp only
  split_ifs with hi
  · exact hord.removed ho hi
  · exact hord

lemma ordered_set (ho : WeakOrder less) (hord : Ordered less h.pq) (key : κ) (v : ν) :
    Ordered less (h.set less key v).2.pq :=
  (ordered_del ho hord key).pushed ho (key, v)

end HashHeap
