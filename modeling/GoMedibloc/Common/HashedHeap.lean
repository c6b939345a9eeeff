import GoMedibloc.Framework.HeapOrder
import GoMedibloc.Framework.ObjectHeap

/-!
# The hashed heap

`HashedHeap` is a table of entries by key and a heap of the same entries.  The heap is an array of
pointers to the entries, kept by the package `container/heap`; an entry records its place in the
array, so that `Del` finds it there, and the place is kept up to date by `Swap` and `Push` only.

The first half of the module is the code, on entries behind pointers.  The second half shows that it
is the heap of `Framework/HashHeap.lean`, whose array holds its keys and values itself, with the
pointers as keys: `view` is that array, and it is sifted by the code as it is there.  So what is
known of that heap is true of the code.  `Ok` says besides that every entry records its place and
that the table points to the entries of the array, each under its key; every operation keeps it.
-/

namespace GoMedibloc

/-- `entry`. -/
structure Entry (κ ν : Type) where
  key : κ
  value : ν
  index : ℤ
deriving Inhabited

/-- `HashedHeap`: the table, the array, and the entries behind the pointers. -/
structure HashedHeap (κ ν : Type) where
  hash : Finmap fun _ : κ => ℕ
  pq : List ℕ
  entries : ObjectHeap (Entry κ ν)

namespace HashedHeap

variable {κ ν : Type}

/-! ## The array -/

section Array

variable (less : ν → ν → Bool)

/-- `Less`, of the entries at two places. -/
def lessAt (h : HashedHeap κ ν) (i j : ℕ) : Bool :=
  match h.pq[i]?, h.pq[j]? with
  | some a, some b => less (h.entries.cell a).value (h.entries.cell b).value
  | _, _ => false

/-- An entry records a place. -/
def record (h : HashedHeap κ ν) (ref : ℕ) (index : ℤ) : HashedHeap κ ν :=
  { h with entries := h.entries.modify ref fun e => { e with index := index } }

/-- `Swap`. -/
def swap (h : HashedHeap κ ν) (i j : ℕ) : HashedHeap κ ν :=
  match h.pq[i]?, h.pq[j]? with
  | some a, some b => ({ h with pq := (h.pq.set i b).set j a }.record b i).record a j
  | _, _ => h

/-- `priorityQueue.Push`, of a new entry. -/
def pqPush (h : HashedHeap κ ν) (ref : ℕ) : HashedHeap κ ν :=
  { h.record ref h.pq.length with pq := h.pq ++ [ref] }

/-- `priorityQueue.Pop`. -/
def pqPop (h : HashedHeap κ ν) : Option ℕ × HashedHeap κ ν :=
  match h.pq.getLast? with
  | none => (none, h)
  | some ref => (some ref, { h.record ref (-1) with pq := h.pq.dropLast })

/-- `up` of `container/heap`. -/
def up : ℕ → HashedHeap κ ν → ℕ → HashedHeap κ ν
  | 0, h, _ => h
  | fuel + 1, h, j =>
    let i := (j - 1) / 2
    if i = j ∨ ¬ lessAt less h j i then h else up fuel (h.swap i j) i

/-- `down` of `container/heap`, with the place where the entry ends. -/
def down (n : ℕ) : ℕ → HashedHeap κ ν → ℕ → HashedHeap κ ν × ℕ
  | 0, h, i => (h, i)
  | fuel + 1, h, i =>
    let j₁ := 2 * i + 1
    if n ≤ j₁ then (h, i)
    else
      let j := if j₁ + 1 < n ∧ lessAt less h (j₁ + 1) j₁ then j₁ + 1 else j₁
      if ¬ lessAt less h j i then (h, i) else down n fuel (h.swap i j) j

/-- `heap.Push`. -/
def heapPush (h : HashedHeap κ ν) (ref : ℕ) : HashedHeap κ ν :=
  up less (h.pq.length + 1) (h.pqPush ref) h.pq.length

/-- `heap.Remove`. -/
def heapRemove (h : HashedHeap κ ν) (i : ℕ) : HashedHeap κ ν :=
  let n := h.pq.length - 1
  if n = i then h.pqPop.2
  else
    let moved := down less n n (h.swap i n) i
    if i < moved.2 then moved.1.pqPop.2 else (up less n moved.1 i).pqPop.2

/-- `heap.Pop`. -/
def heapPop (h : HashedHeap κ ν) : Option ℕ × HashedHeap κ ν :=
  let n := h.pq.length - 1
  (down less n n (h.swap 0 n) 0).1.pqPop

end Array

/-! ## The operations -/

/-- `New`. -/
def new [Inhabited κ] [Inhabited ν] : HashedHeap κ ν := ⟨∅, [], ⟨fun _ => default, 0⟩⟩

/-- `Len`. -/
def len (h : HashedHeap κ ν) : ℕ := h.pq.length

/-- `Peek`. -/
def peek (h : HashedHeap κ ν) : Option ν := h.pq.head?.map fun ref => (h.entries.cell ref).value

variable [DecidableEq κ]

/-- `Get`. -/
def get (h : HashedHeap κ ν) (key : κ) : Option ν :=
  (h.hash.lookup key).map fun ref => (h.entries.cell ref).value

/-- `Del`. -/
def del (less : ν → ν → Bool) (h : HashedHeap κ ν) (key : κ) : Option ν × HashedHeap κ ν :=
  match h.hash.lookup key with
  | none => (none, h)
  | some ref =>
    let removed := heapRemove less h (h.entries.cell ref).index.toNat
    (some (h.entries.cell ref).value, { removed with hash := removed.hash.erase key })

/-- `Set`. -/
def set (less : ν → ν → Bool) (h : HashedHeap κ ν) (key : κ) (value : ν) :
    Option ν × HashedHeap κ ν :=
  let evicted := h.del less key
  let h := evicted.2
  let ref := h.entries.next
  let h := { h with
    entries := h.entries.alloc ⟨key, value, 0⟩
    hash := h.hash.insert key ref }
  (evicted.1, heapPush less h ref)

/-- `Pop`. -/
def pop (less : ν → ν → Bool) (h : HashedHeap κ ν) : Option ν × HashedHeap κ ν :=
  if h.pq.length = 0 then (none, h)
  else match heapPop less h with
  | (none, h) => (none, h)
  | (some ref, h) =>
    (some (h.entries.cell ref).value, { h with hash := h.hash.erase (h.entries.cell ref).key })

/-! ## What the array holds -/

section View

omit [DecidableEq κ]

variable {less : ν → ν → Bool} {h h' : HashedHeap κ ν} {i j n ref : ℕ} {l : List (ℕ × ν)}
  {e : ℕ × ν}

/-- The key and the value of the entry behind a pointer. -/
def data (h : HashedHeap κ ν) (ref : ℕ) : κ × ν :=
  ((h.entries.cell ref).key, (h.entries.cell ref).value)

/-- The pointers of the array with the values of their entries. -/
def view (h : HashedHeap κ ν) : List (ℕ × ν) := h.pq.map fun ref => (ref, (h.data ref).2)

@[simp] lemma length_view : h.view.length = h.pq.length := List.length_map _

lemma map_fst_view : h.view.map Prod.fst = h.pq := by
  rw [view, List.map_map]
  exact List.map_id _

/-- No pointer is twice in the array, and every entry of the array records its place. -/
structure Numbered (h : HashedHeap κ ν) : Prop where
  nodup : h.pq.Nodup
  index : ∀ (i ref : ℕ), h.pq[i]? = some ref → (h.entries.cell ref).index = i

/-- The entries of the array have been moved around. -/
structure Moved (h h' : HashedHeap κ ν) : Prop where
  perm : h'.pq.Perm h.pq
  data : h'.data = h.data
  hash : h'.hash = h.hash
  next : h'.entries.next = h.entries.next
  numbered : h.Numbered → h'.Numbered

lemma Moved.refl (h : HashedHeap κ ν) : Moved h h := ⟨.refl _, rfl, rfl, rfl, id⟩

lemma Moved.trans {h'' : HashedHeap κ ν} (h₁ : Moved h h') (h₂ : Moved h' h'') : Moved h h'' :=
  ⟨h₂.perm.trans h₁.perm, h₂.data.trans h₁.data, h₂.hash.trans h₁.hash, h₂.next.trans h₁.next,
    h₂.numbered ∘ h₁.numbered⟩

/-- Recording a place changes no key and no value. -/
lemma data_record (ref : ℕ) (index : ℤ) : (h.record ref index).data = h.data := by
  funext r
  by_cases hr : r = ref
  · rw [hr]
    simp only [data, record, ObjectHeap.cell_modify_self]
  · simp only [data, record, ObjectHeap.modify, Function.update_of_ne hr]

lemma index_record_self (ref : ℕ) (index : ℤ) :
    ((h.record ref index).entries.cell ref).index = index := by
  simp only [record, ObjectHeap.cell_modify_self]

lemma index_record_of_ne {r : ℕ} (hr : r ≠ ref) (index : ℤ) :
    ((h.record ref index).entries.cell r).index = (h.entries.cell r).index := by
  simp only [record, ObjectHeap.modify, Function.update_of_ne hr]

lemma lessAt_view : lessAt less h i j = HashHeap.lessAt less h.view i j := by
  unfold lessAt HashHeap.lessAt view
  rw [List.getElem?_map, List.getElem?_map]
  cases h.pq[i]? <;> cases h.pq[j]? <;> rfl

/-- What `Swap` does to pointers at two places. -/
lemma swap_eq {a b : ℕ} (ha : h.pq[i]? = some a) (hb : h.pq[j]? = some b) :
    h.swap i j = ({ h with pq := (h.pq.set i b).set j a }.record b i).record a j := by
  unfold swap
  rw [ha, hb]

lemma view_swap : (h.swap i j).view = HashHeap.swap h.view i j := by
  by_cases hij : i < h.pq.length ∧ j < h.pq.length
  · have ha := List.getElem?_eq_getElem hij.1
    have hb := List.getElem?_eq_getElem hij.2
    have hview : i < h.view.length ∧ j < h.view.length := by rwa [length_view]
    rw [swap_eq ha hb, HashHeap.swap, dif_pos hview]
    simp only [view, data_record]
    change ((h.pq.set i h.pq[j]).set j h.pq[i]).map (fun ref => (ref, (h.data ref).2)) = _
    rw [List.map_set, List.map_set]
    simp only [List.get_eq_getElem, List.getElem_map]
  · have hview : ¬ (i < h.view.length ∧ j < h.view.length) := by rwa [length_view]
    rw [HashHeap.swap, dif_neg hview]
    unfold swap
    rw [not_and_or, not_lt, not_lt] at hij
    obtain hi | hj := hij
    · rw [List.getElem?_eq_none hi]
    · rw [List.getElem?_eq_none hj]
      cases h.pq[i]? <;> rfl

/-- `Swap` keeps the places up to date. -/
lemma moved_swap (h : HashedHeap κ ν) (i j : ℕ) : Moved h (h.swap i j) := by
  by_cases hij : i < h.pq.length ∧ j < h.pq.length
  · obtain ⟨a, ha⟩ : ∃ a, h.pq[i]? = some a := ⟨_, List.getElem?_eq_getElem hij.1⟩
    obtain ⟨b, hb⟩ : ∃ b, h.pq[j]? = some b := ⟨_, List.getElem?_eq_getElem hij.2⟩
    have hperm : ((h.pq.set i b).set j a).Perm h.pq := by
      obtain ⟨hi, rfl⟩ := List.getElem?_eq_some_iff.1 ha
      obtain ⟨hj, rfl⟩ := List.getElem?_eq_some_iff.1 hb
      exact List.set_set_perm hi hj
    rw [swap_eq ha hb]
    refine ⟨hperm, ?_, rfl, rfl, fun hnum => ⟨hperm.nodup_iff.2 hnum.nodup, fun p r hr => ?_⟩⟩
    · rw [data_record, data_record]
      rfl
    · change ((h.pq.set i b).set j a)[p]? = some r at hr
      -- the entry that is now at the second place, at the first place, or elsewhere
      by_cases hpj : p = j
      · subst hpj
        rw [List.getElem?_set_self (by rw [List.length_set]; exact hij.2), Option.some_inj] at hr
        rw [← hr, index_record_self]
      · rw [List.getElem?_set_ne (Ne.symm hpj)] at hr
        have hne : ∀ q c, h.pq[q]? = some c → p ≠ q → ∀ d, h.pq[p]? = some d → d ≠ c := by
          rintro q c hc hpq d hd rfl
          exact hpq ((List.getElem?_inj (List.getElem?_eq_some_iff.1 hd).1 hnum.nodup).1
            (hd.trans hc.symm))
        by_cases hpi : p = i
        · subst hpi
          rw [List.getElem?_set_self hij.1, Option.some_inj] at hr
          subst hr
          rw [index_record_of_ne (fun heq => hne j b hb hpj a ha heq.symm), index_record_self]
        · rw [List.getElem?_set_ne (Ne.symm hpi)] at hr
          rw [index_record_of_ne (hne i a ha hpi r hr), index_record_of_ne (hne j b hb hpj r hr)]
          exact hnum.index p r hr
  · have hsame : h.swap i j = h := by
      unfold swap
      rw [not_and_or, not_lt, not_lt] at hij
      obtain hi | hj := hij
      · rw [List.getElem?_eq_none hi]
      · rw [List.getElem?_eq_none hj]
        cases h.pq[i]? <;> rfl
    rw [hsame]
    exact .refl h

/-! ## Sifting -/

lemma moved_up (less : ν → ν → Bool) (fuel : ℕ) (h : HashedHeap κ ν) (j : ℕ) : Moved h (up less fuel h j) := by
  induction fuel generalizing h j with
  | zero => exact .refl h
  | succ fuel ih =>
      rw [up]
      split_ifs
      · exact .refl h
      · exact (moved_swap h _ _).trans (ih _ _)

lemma view_up (less : ν → ν → Bool) (fuel : ℕ) (h : HashedHeap κ ν) (j : ℕ) :
    (up less fuel h j).view = HashHeap.up less fuel h.view j := by
  induction fuel generalizing h j with
  | zero => rfl
  | succ fuel ih =>
      rw [up, HashHeap.up, lessAt_view]
      split_ifs
      · rfl
      · rw [ih, view_swap]

lemma moved_down (less : ν → ν → Bool) (n fuel : ℕ) (h : HashedHeap κ ν) (i : ℕ) :
    Moved h (down less n fuel h i).1 := by
  induction fuel generalizing h i with
  | zero => exact .refl h
  | succ fuel ih =>
      rw [down]
      dsimp only
      generalize (if 2 * i + 1 + 1 < n ∧ lessAt less h (2 * i + 1 + 1) (2 * i + 1) = true
        then 2 * i + 1 + 1 else 2 * i + 1) = j
      split_ifs
      · exact .refl h
      · exact (moved_swap h _ _).trans (ih _ _)
      · exact .refl h

/-- `down` leaves the last entry of the array alone, and sifts the others. -/
lemma view_down (less : ν → ν → Bool) (fuel : ℕ) (hview : h.view = l ++ [e]) (hn : l.length = n) (hi : i < n) :
    (down less n fuel h i).1.view = (HashHeap.down less fuel l i).1 ++ [e] ∧
      (down less n fuel h i).2 = (HashHeap.down less fuel l i).2 := by
  induction fuel generalizing h l i with
  | zero => exact ⟨hview, rfl⟩
  | succ fuel ih =>
      have hless : ∀ {a b}, a < n → b < n →
          lessAt less h a b = HashHeap.lessAt less l a b := by
        intro a b ha hb
        rw [lessAt_view, hview, HashHeap.lessAt_append (hn ▸ ha) (hn ▸ hb)]
      rw [down, HashHeap.down]
      dsimp only
      rw [hn]
      by_cases hleaf : n ≤ 2 * i + 1
      · rw [if_pos hleaf, if_pos hleaf]
        exact ⟨hview, rfl⟩
      · rw [if_neg hleaf, if_neg hleaf]
        have hchild : (if 2 * i + 1 + 1 < n ∧ lessAt less h (2 * i + 1 + 1) (2 * i + 1) = true
            then 2 * i + 1 + 1 else 2 * i + 1) =
            if 2 * i + 1 + 1 < n ∧ HashHeap.lessAt less l (2 * i + 1 + 1) (2 * i + 1) = true
            then 2 * i + 1 + 1 else 2 * i + 1 := by
          by_cases hsecond : 2 * i + 1 + 1 < n
          · rw [hless hsecond (by omega)]
          · rw [if_neg fun h => hsecond h.1, if_neg fun h => hsecond h.1]
        rw [hchild]
        obtain ⟨j, hj⟩ : ∃ j, j = if 2 * i + 1 + 1 < n ∧
            HashHeap.lessAt less l (2 * i + 1 + 1) (2 * i + 1) = true
            then 2 * i + 1 + 1 else 2 * i + 1 := ⟨_, rfl⟩
        have hjn : j < n := by rw [hj]; split_ifs <;> omega
        rw [← hj, hless hjn hi]
        split_ifs with hstop
        · refine ih ?_ (HashHeap.length_swap.trans hn) hjn
          rw [view_swap, hview, HashHeap.swap_append (hn ▸ hi) (hn ▸ hjn)]
        · exact ⟨hview, rfl⟩

/-! ## Removing -/

/-- What `priorityQueue.Pop` does to an array with a last pointer. -/
lemma pqPop_eq {refs : List ℕ} (hpq : h.pq = refs ++ [ref]) :
    h.pqPop = (some ref, { h.record ref (-1) with pq := refs }) := by
  unfold pqPop
  rw [hpq, List.getLast?_concat, List.dropLast_concat]

/-- An entry has been taken out of the array. -/
structure TakenOut (ref : ℕ) (h h' : HashedHeap κ ν) : Prop where
  perm : (ref :: h'.pq).Perm h.pq
  data : h'.data = h.data
  hash : h'.hash = h.hash
  next : h'.entries.next = h.entries.next
  numbered : h.Numbered → h'.Numbered

/-- Entries are moved around, and then the last one is popped. -/
lemma Moved.pqPop (hmoved : Moved h h') (hlast : h'.view = l ++ [e]) :
    TakenOut e.1 h h'.pqPop.2 ∧ h'.pqPop.1 = some e.1 ∧ h'.pqPop.2.view = l := by
  have hpq : h'.pq = l.map Prod.fst ++ [e.1] := by
    rw [← map_fst_view, hlast, List.map_append]
    rfl
  have heq := pqPop_eq hpq
  have hdata : h'.pqPop.2.data = h'.data := by
    rw [heq]
    exact data_record e.1 (-1)
  refine ⟨⟨?_, hdata.trans hmoved.data, ?_, ?_, ?_⟩, by rw [heq], ?_⟩
  · rw [heq]
    refine (List.perm_append_singleton _ _).symm.trans ?_
    rw [← hpq]
    exact hmoved.perm
  · rw [heq]
    exact hmoved.hash
  · rw [heq]
    exact hmoved.next
  · intro hnum
    have hnum' := hmoved.numbered hnum
    rw [heq]
    refine ⟨?_, fun p r hr => ?_⟩
    · have hnodup := hnum'.nodup
      rw [hpq] at hnodup
      exact (List.nodup_append.1 hnodup).1
    · have hlt := (List.getElem?_eq_some_iff.1 hr).1
      have hr' : h'.pq[p]? = some r := by
        rw [hpq, List.getElem?_append_left hlt]
        exact hr
      have hne : r ≠ e.1 := by
        have hnodup := hnum'.nodup
        rw [hpq, List.nodup_append] at hnodup
        exact fun h => hnodup.2.2 r (List.mem_of_getElem? hr) e.1 (List.mem_singleton.2 rfl) h
      exact (index_record_of_ne (h := { h' with pq := l.map Prod.fst }) hne (-1)).trans
        (hnum'.index p r hr')
  · have hview : h'.pqPop.2.view = (l.map Prod.fst).map fun r => (r, (h'.data r).2) := by
      rw [view, hdata, heq]
    have happend : (l.map Prod.fst).map (fun r => (r, (h'.data r).2)) ++ [(e.1, (h'.data e.1).2)] =
        l ++ [e] := by
      rw [← hlast, view, hpq, List.map_append, List.map_singleton]
    rw [hview]
    exact (List.append_inj' happend rfl).1

/-- What the swap with the last place makes of the array. -/
lemma view_swap_last (hi : h.pq[i]? = some ref) :
    (h.swap i (h.pq.length - 1)).view =
      (HashHeap.swap h.view i (h.view.length - 1)).dropLast ++ [(ref, (h.data ref).2)] := by
  obtain ⟨hlt, rfl⟩ := List.getElem?_eq_some_iff.1 hi
  have hlt' : i < h.view.length := by rwa [length_view]
  have hlast := HashHeap.getLast?_swap hlt'
  rw [view_swap, ← length_view, ← List.dropLast_append_getLast? _ hlast]
  simp only [view, List.getElem_map, List.dropLast_concat]

/-- `heap.Remove` takes out the entry at the place. -/
lemma heapRemove_spec (less : ν → ν → Bool) (hi : h.pq[i]? = some ref) :
    TakenOut ref h (heapRemove less h i) ∧
      (heapRemove less h i).view = HashHeap.removed less h.view i := by
  have hlt := (List.getElem?_eq_some_iff.1 hi).1
  unfold heapRemove HashHeap.removed
  dsimp only
  rw [length_view]
  by_cases hn : h.pq.length - 1 = i
  · rw [if_pos hn, if_pos hn]
    have hlast : h.view = h.view.dropLast ++ [(ref, (h.data ref).2)] := by
      refine (List.dropLast_append_getLast? _ ?_).symm
      rw [List.getLast?_eq_getElem?, length_view, hn, view, List.getElem?_map, hi]
      rfl
    obtain ⟨htaken, -, hview⟩ := (Moved.refl h).pqPop hlast
    exact ⟨htaken, hview⟩
  · rw [if_neg hn, if_neg hn]
    have hswap := view_swap_last hi
    rw [length_view] at hswap
    obtain ⟨l, hl⟩ : ∃ l, l = (HashHeap.swap h.view i (h.pq.length - 1)).dropLast := ⟨_, rfl⟩
    have hlength : l.length = h.pq.length - 1 := by
      rw [hl, List.length_dropLast, HashHeap.length_swap, length_view]
    rw [← hl] at hswap ⊢
    rw [hlength]
    obtain ⟨hdown, hplace⟩ := view_down less (h.pq.length - 1) hswap hlength
      (show i < h.pq.length - 1 by omega)
    have hmoved := (moved_swap h i (h.pq.length - 1)).trans
      (moved_down less (h.pq.length - 1) (h.pq.length - 1) _ i)
    have hle : i ≤ (HashHeap.down less (h.pq.length - 1) l i).2 := HashHeap.le_down _ l i
    rw [hplace]
    by_cases hstay : (HashHeap.down less (h.pq.length - 1) l i).2 = i
    · rw [if_neg (by omega), if_pos hstay]
      have hi' : i < (HashHeap.down less (h.pq.length - 1) l i).1.length := by
        rw [(HashHeap.down_perm _ _ _).length_eq]
        omega
      have hup := view_up less (h.pq.length - 1)
        (down less (h.pq.length - 1) (h.pq.length - 1) (h.swap i (h.pq.length - 1)) i).1 i
      rw [hdown, HashHeap.up_append hi'] at hup
      obtain ⟨htaken, -, hview⟩ := (hmoved.trans (moved_up less _ _ i)).pqPop hup
      exact ⟨htaken, hview⟩
    · rw [if_pos (by omega), if_neg hstay]
      obtain ⟨htaken, -, hview⟩ := hmoved.pqPop hdown
      exact ⟨htaken, hview⟩

/-- `heap.Pop` takes out the entry at the front, and returns it. -/
lemma heapPop_spec (less : ν → ν → Bool) (hi : h.pq[0]? = some ref) :
    TakenOut ref h (heapPop less h).2 ∧ (heapPop less h).1 = some ref ∧
      (heapPop less h).2.view = HashHeap.removed less h.view 0 := by
  have hlt := (List.getElem?_eq_some_iff.1 hi).1
  have hswap := view_swap_last hi
  rw [length_view] at hswap
  obtain ⟨l, hl⟩ : ∃ l, l = (HashHeap.swap h.view 0 (h.pq.length - 1)).dropLast := ⟨_, rfl⟩
  have hlength : l.length = h.pq.length - 1 := by
    rw [hl, List.length_dropLast, HashHeap.length_swap, length_view]
  rw [← hl] at hswap
  have hmoved := (moved_swap h 0 (h.pq.length - 1)).trans
    (moved_down less (h.pq.length - 1) (h.pq.length - 1) _ 0)
  unfold heapPop HashHeap.removed
  dsimp only
  rw [length_view]
  by_cases hn : h.pq.length - 1 = 0
  · -- the array is left empty
    rw [if_pos hn]
    have hnil : l = [] := List.length_eq_zero_iff.1 (hlength.trans hn)
    rw [hn] at hswap hmoved ⊢
    obtain ⟨htaken, hfst, hview⟩ := hmoved.pqPop (hswap.trans (by rw [hnil]))
    refine ⟨htaken, hfst, hview.trans (Eq.symm ?_)⟩
    rw [← List.length_eq_zero_iff, List.length_dropLast, length_view, hn]
  · rw [if_neg hn, ← hl, hlength]
    obtain ⟨hdown, -⟩ := view_down less (h.pq.length - 1) hswap hlength
      (show 0 < h.pq.length - 1 by omega)
    obtain ⟨htaken, hfst, hview⟩ := hmoved.pqPop hdown
    refine ⟨htaken, hfst, hview.trans ?_⟩
    -- nothing is above the front
    have hup : ∀ (fuel : ℕ) (l : List (ℕ × ν)), HashHeap.up less fuel l 0 = l := by
      intro fuel l
      cases fuel with
      | zero => rfl
      | succ fuel => rw [HashHeap.up, if_pos (.inl rfl)]
    rw [hup, ite_self]

end View

/-! ## The table and the array -/

section Linked

variable {less : ν → ν → Bool} {h h' : HashedHeap κ ν} {i ref ref' : ℕ} {key : κ} {value : ν}

/-- The table points to the entries of the array, each under its key, and every entry of the array
records its place. -/
structure Linked (h : HashedHeap κ ν) : Prop where
  numbered : h.Numbered
  valid : h.entries.Valid h.pq
  indexed : ∀ key ref, h.hash.lookup key = some ref ↔ ref ∈ h.pq ∧ (h.data ref).1 = key

/-- Entries of the array with the same key are one entry. -/
lemma Linked.eq_of_key (hlinked : h.Linked) (hr : ref ∈ h.pq) (hr' : ref' ∈ h.pq)
    (hkey : (h.data ref).1 = (h.data ref').1) : ref = ref' := by
  have hlookup := (hlinked.indexed _ _).2 ⟨hr, hkey⟩
  rw [(hlinked.indexed _ _).2 ⟨hr', rfl⟩, Option.some_inj] at hlookup
  exact hlookup.symm

lemma linked_new [Inhabited κ] [Inhabited ν] : (new : HashedHeap κ ν).Linked where
  numbered := ⟨List.nodup_nil, fun _ _ hr => absurd (List.mem_of_getElem? hr) List.not_mem_nil⟩
  valid := fun _ hr => absurd hr List.not_mem_nil
  indexed _ _ := ⟨fun hr => absurd hr (by rw [new, Finmap.lookup_empty]; nofun),
    fun hr => absurd hr.1 List.not_mem_nil⟩

lemma Moved.linked (hmoved : Moved h h') (hlinked : h.Linked) : h'.Linked where
  numbered := hmoved.numbered hlinked.numbered
  valid r hr := by
    rw [hmoved.next]
    exact hlinked.valid r (hmoved.perm.mem_iff.1 hr)
  indexed key r := by
    rw [hmoved.hash, hlinked.indexed, hmoved.perm.mem_iff, hmoved.data]

/-- The entry is taken out of the array, and then its key out of the table. -/
lemma TakenOut.linked (htaken : TakenOut ref h h') (hlinked : h.Linked) :
    { h' with hash := h'.hash.erase (h.data ref).1 }.Linked where
  numbered := ⟨(htaken.numbered hlinked.numbered).nodup, (htaken.numbered hlinked.numbered).index⟩
  valid r hr := by
    change r < h'.entries.next
    rw [htaken.next]
    exact hlinked.valid r (htaken.perm.subset (List.mem_cons_of_mem _ hr))
  indexed key r := by
    change (h'.hash.erase (h.data ref).1).lookup key = some r ↔ r ∈ h'.pq ∧ (h'.data r).1 = key
    have hmem : ∀ r, r ∈ h.pq ↔ r = ref ∨ r ∈ h'.pq := fun r => by
      rw [← htaken.perm.mem_iff, List.mem_cons]
    have hnot : ref ∉ h'.pq :=
      (List.nodup_cons.1 (htaken.perm.nodup_iff.2 hlinked.numbered.nodup)).1
    rw [htaken.data, htaken.hash]
    by_cases hkey : key = (h.data ref).1
    · rw [hkey, Finmap.lookup_erase]
      refine ⟨nofun, fun ⟨hr, heq⟩ => absurd ?_ hnot⟩
      rwa [← hlinked.eq_of_key ((hmem r).2 (.inr hr)) ((hmem ref).2 (.inl rfl)) heq]
    · rw [Finmap.lookup_erase_ne hkey, hlinked.indexed, hmem]
      constructor
      · rintro ⟨rfl | hr, heq⟩
        · exact absurd heq.symm hkey
        · exact ⟨hr, heq⟩
      · exact fun ⟨hr, heq⟩ => ⟨.inr hr, heq⟩

/-- A new entry at the end of the array, before it is sifted. -/
def appended (h : HashedHeap κ ν) (key : κ) (value : ν) : HashedHeap κ ν :=
  { h with
    entries := h.entries.alloc ⟨key, value, 0⟩
    hash := h.hash.insert key h.entries.next }.pqPush h.entries.next

lemma data_appended (ref : ℕ) :
    (h.appended key value).data ref = if ref = h.entries.next then (key, value) else h.data ref := by
  have hdata : (h.appended key value).data ref =
      { h with
        entries := h.entries.alloc ⟨key, value, 0⟩
        hash := h.hash.insert key h.entries.next }.data ref :=
    congrFun (data_record h.entries.next _) ref
  rw [hdata]
  split_ifs with hr
  · simp only [data, ObjectHeap.alloc, hr, Function.update_self]
  · simp only [data, ObjectHeap.alloc, Function.update_of_ne hr]

lemma pq_appended : (h.appended key value).pq = h.pq ++ [h.entries.next] := rfl

lemma view_appended (hlinked : h.Linked) :
    (h.appended key value).view = h.view ++ [(h.entries.next, value)] := by
  rw [view, pq_appended, List.map_append, List.map_singleton, data_appended, if_pos rfl, view]
  congr 1
  refine List.map_congr_left fun r hr => ?_
  rw [data_appended, if_neg (hlinked.valid r hr).ne]

lemma linked_appended (hlinked : h.Linked) (hkey : h.hash.lookup key = none) :
    (h.appended key value).Linked := by
  have hfresh : h.entries.next ∉ h.pq := fun hr => (hlinked.valid _ hr).false
  refine ⟨⟨?_, fun i r hr => ?_⟩, fun r hr => ?_, fun k r => ?_⟩
  · rw [pq_appended, List.nodup_append]
    refine ⟨hlinked.numbered.nodup, List.nodup_singleton _, fun a ha b hb hab => hfresh ?_⟩
    rwa [← List.mem_singleton.1 hb, ← hab]
  · rw [pq_appended] at hr
    obtain hlt | hle := Nat.lt_or_ge i h.pq.length
    · rw [List.getElem?_append_left hlt] at hr
      have hne : r ≠ h.entries.next := fun heq => hfresh (heq ▸ List.mem_of_getElem? hr)
      refine (index_record_of_ne hne _).trans ?_
      change ((h.entries.alloc ⟨key, value, 0⟩).cell r).index = i
      simp only [ObjectHeap.alloc, Function.update_of_ne hne]
      exact hlinked.numbered.index i r hr
    · rw [List.getElem?_append_right hle] at hr
      obtain ⟨hi, hr⟩ := List.getElem?_eq_some_iff.1 hr
      rw [List.length_singleton] at hi
      rw [List.getElem_singleton] at hr
      subst hr
      refine (index_record_self _ _).trans ?_
      change (h.pq.length : ℤ) = i
      omega
  · change r < h.entries.next + 1
    obtain hr | hr := List.mem_append.1 hr
    · exact (hlinked.valid r hr).trans (Nat.lt_succ_self _)
    · rw [List.mem_singleton.1 hr]
      exact Nat.lt_succ_self _
  · change (h.hash.insert key h.entries.next).lookup k = some r ↔ _
    rw [pq_appended, List.mem_append, List.mem_singleton, data_appended]
    by_cases hk : k = key
    · subst hk
      rw [Finmap.lookup_insert, Option.some_inj]
      constructor
      · rintro rfl
        exact ⟨.inr rfl, by rw [if_pos rfl]⟩
      · rintro ⟨hr | rfl, heq⟩
        · rw [if_neg (hlinked.valid r hr).ne] at heq
          rw [(hlinked.indexed _ _).2 ⟨hr, heq⟩] at hkey
          cases hkey
        · rfl
    · rw [Finmap.lookup_insert_of_ne _ hk, hlinked.indexed]
      constructor
      · rintro ⟨hr, heq⟩
        exact ⟨.inl hr, by rwa [if_neg (hlinked.valid r hr).ne]⟩
      · rintro ⟨hr | rfl, heq⟩
        · exact ⟨hr, by rwa [if_neg (hlinked.valid r hr).ne] at heq⟩
        · rw [if_pos rfl] at heq
          exact absurd heq.symm hk

end Linked

/-! ## A map with a priority view -/

section Map

variable {less : ν → ν → Bool} {h h' : HashedHeap κ ν} {ref : ℕ} {key : κ} {value : ν}
  {m m' : Finmap fun _ : κ => ν}

lemma get_eq (key : κ) : h.get key = (h.hash.lookup key).map fun ref => (h.data ref).2 := rfl

lemma Linked.get_eq_some (hlinked : h.Linked) :
    h.get key = some value ↔ ∃ ref ∈ h.pq, h.data ref = (key, value) := by
  rw [get_eq, Option.map_eq_some_iff]
  constructor
  · rintro ⟨ref, hlookup, rfl⟩
    obtain ⟨hr, rfl⟩ := (hlinked.indexed _ _).1 hlookup
    exact ⟨ref, hr, rfl⟩
  · rintro ⟨ref, hr, hdata⟩
    exact ⟨ref, (hlinked.indexed _ _).2 ⟨hr, by rw [hdata]⟩, by rw [hdata]⟩

lemma Moved.get_eq (hmoved : Moved h h') (key : κ) : h'.get key = h.get key := by
  rw [HashedHeap.get_eq, HashedHeap.get_eq, hmoved.hash, hmoved.data]

lemma TakenOut.get_eq (htaken : TakenOut ref h h') (erased key : κ) :
    { h' with hash := h'.hash.erase erased }.get key =
      if key = erased then none else h.get key := by
  change ((h'.hash.erase erased).lookup key).map (fun ref => (h'.data ref).2) = _
  rw [htaken.hash, htaken.data, HashedHeap.get_eq]
  split_ifs with hkey
  · rw [hkey, Finmap.lookup_erase]
    rfl
  · rw [Finmap.lookup_erase_ne hkey]

lemma get_appended (hlinked : h.Linked) (key key' : κ) :
    (h.appended key value).get key' = if key' = key then some value else h.get key' := by
  change ((h.hash.insert key h.entries.next).lookup key').map
    (fun ref => ((h.appended key value).data ref).2) = _
  split_ifs with hkey
  · rw [hkey, Finmap.lookup_insert, Option.map_some, data_appended, if_pos rfl]
  · rw [Finmap.lookup_insert_of_ne _ hkey, get_eq]
    cases hlookup : h.hash.lookup key' with
    | none => rfl
    | some ref =>
        have hr := ((hlinked.indexed _ _).1 hlookup).1
        rw [Option.map_some, Option.map_some, data_appended, if_neg (hlinked.valid ref hr).ne]

/-- The queue holds the entries of the map, in an ordered array. -/
structure Represents (less : ν → ν → Bool) (h : HashedHeap κ ν) (m : Finmap fun _ : κ => ν) :
    Prop where
  linked : h.Linked
  ordered : HashHeap.Ordered less h.view
  entries : ∀ key, h.get key = m.lookup key

lemma represents_new [Inhabited κ] [Inhabited ν] : (new : HashedHeap κ ν).Represents less ∅ where
  linked := linked_new
  ordered := HashHeap.ordered_new
  entries key := by
    rw [get_eq, new, Finmap.lookup_empty, Finmap.lookup_empty]
    rfl

lemma Represents.mem_pq (hrep : h.Represents less m) :
    m.lookup key = some value ↔ ∃ ref ∈ h.pq, h.data ref = (key, value) := by
  rw [← hrep.entries, hrep.linked.get_eq_some]

/-- There are as many entries as keys. -/
lemma Represents.len_eq (hrep : h.Represents less m) : h.len = m.keys.card := by
  have hnodup : (h.pq.map fun ref => (h.data ref).1).Nodup :=
    hrep.linked.numbered.nodup.map_on fun _ hr _ hr' => hrep.linked.eq_of_key hr hr'
  have hkeys : m.keys = (h.pq.map fun ref => (h.data ref).1).toFinset := by
    ext key
    rw [Finmap.mem_keys, ← Finmap.lookup_isSome, Option.isSome_iff_exists, List.mem_toFinset,
      List.mem_map]
    constructor
    · rintro ⟨value, hvalue⟩
      obtain ⟨ref, hr, hdata⟩ := hrep.mem_pq.1 hvalue
      exact ⟨ref, hr, by rw [hdata]⟩
    · rintro ⟨ref, hr, rfl⟩
      exact ⟨(h.data ref).2, hrep.mem_pq.2 ⟨ref, hr, rfl⟩⟩
  rw [hkeys, List.toFinset_card_of_nodup hnodup, List.length_map, len]

lemma Represents.eq_empty_iff (hrep : h.Represents less m) : h.pq = [] ↔ m = ∅ := by
  rw [← List.length_eq_zero_iff]
  change h.len = 0 ↔ _
  rw [hrep.len_eq, Finset.card_eq_zero]
  constructor
  · intro hkeys
    refine Finmap.ext_lookup fun key => ?_
    rw [Finmap.lookup_empty, Finmap.lookup_eq_none, ← Finmap.mem_keys, hkeys]
    exact Finset.notMem_empty key
  · rintro rfl
    exact Finmap.keys_empty

/-- No value of the map comes before the value of the key. -/
def First (less : ν → ν → Bool) (m : Finmap fun _ : κ => ν) (key : κ) (value : ν) : Prop :=
  m.lookup key = some value ∧
    ∀ key' value', m.lookup key' = some value' → less value' value = false

/-- The entry at the front of the array. -/
lemma Represents.first (ho : HashHeap.WeakOrder less) (hrep : h.Represents less m)
    (hfront : h.pq[0]? = some ref) : First less m (h.data ref).1 (h.data ref).2 := by
  refine ⟨hrep.mem_pq.2 ⟨ref, List.mem_of_getElem? hfront, rfl⟩, fun key' value' hvalue' => ?_⟩
  obtain ⟨ref', hr', hdata⟩ := hrep.mem_pq.1 hvalue'
  obtain ⟨k, hk, hget⟩ := List.mem_iff_getElem.1 hr'
  by_contra hless
  rw [Bool.not_eq_false] at hless
  refine hrep.ordered.front ho k (HashHeap.lessAt_eq_true.2
    ⟨(ref', (h.data ref').2), (ref, (h.data ref).2), ?_, ?_, ?_⟩)
  · rw [view, List.getElem?_map, List.getElem?_eq_getElem hk, hget]
    rfl
  · rw [view, List.getElem?_map, hfront]
    rfl
  · rw [hdata]
    exact hless

/-- An entry is taken out of the array and its key out of the table. -/
lemma Represents.takenOut (ho : HashHeap.WeakOrder less) (hrep : h.Represents less m) {i : ℕ}
    (hi : h.pq[i]? = some ref) (htaken : TakenOut ref h h')
    (hview : h'.view = HashHeap.removed less h.view i) :
    { h' with hash := h'.hash.erase (h.data ref).1 }.Represents less (m.erase (h.data ref).1) where
  linked := htaken.linked hrep.linked
  ordered := by
    change HashHeap.Ordered less h'.view
    rw [hview]
    refine hrep.ordered.removed ho ?_
    rw [length_view]
    exact (List.getElem?_eq_some_iff.1 hi).1
  entries key := by
    rw [htaken.get_eq]
    split_ifs with hkey
    · rw [hkey, Finmap.lookup_erase]
    · rw [Finmap.lookup_erase_ne hkey, hrep.entries]

/-- `Del` deletes the key and returns its value. -/
lemma del_spec (ho : HashHeap.WeakOrder less) (hrep : h.Represents less m) (key : κ) :
    (h.del less key).1 = m.lookup key ∧ (h.del less key).2.Represents less (m.erase key) := by
  rw [← hrep.entries, get_eq]
  unfold del
  cases hlookup : h.hash.lookup key with
  | none =>
      have hnone : m.lookup key = none := by rw [← hrep.entries, get_eq, hlookup, Option.map_none]
      refine ⟨rfl, hrep.linked, hrep.ordered, fun key' => ?_⟩
      by_cases hkey : key' = key
      · rw [hkey, Finmap.lookup_erase, hrep.entries, hnone]
      · rw [Finmap.lookup_erase_ne hkey, hrep.entries]
  | some ref =>
      obtain ⟨hr, rfl⟩ := (hrep.linked.indexed _ _).1 hlookup
      obtain ⟨i, hi⟩ := List.mem_iff_getElem?.1 hr
      have hindex : (h.entries.cell ref).index.toNat = i := by
        rw [hrep.linked.numbered.index i ref hi]
        rfl
      dsimp only
      rw [hindex]
      obtain ⟨htaken, hview⟩ := heapRemove_spec less hi
      exact ⟨rfl, hrep.takenOut ho hi htaken hview⟩

/-- `Set` puts the value under the key and returns the value that was there. -/
lemma set_spec (ho : HashHeap.WeakOrder less) (hrep : h.Represents less m) (key : κ) (value : ν) :
    (h.set less key value).1 = m.lookup key ∧
      (h.set less key value).2.Represents less (m.insert key value) := by
  obtain ⟨hdel, hrep'⟩ := del_spec ho hrep key
  obtain ⟨h', hh'⟩ : ∃ h', h' = (h.del less key).2 := ⟨_, rfl⟩
  have hset : (h.set less key value).2 =
      up less (h'.pq.length + 1) (h'.appended key value) h'.pq.length := by
    rw [hh']
    rfl
  rw [← hh'] at hrep'
  have hnone : h'.hash.lookup key = none := by
    rw [← Option.map_eq_none_iff, ← get_eq, hrep'.entries, Finmap.lookup_erase]
  have hmoved := moved_up less (h'.pq.length + 1) (h'.appended key value) h'.pq.length
  refine ⟨hdel, ?_⟩
  rw [hset]
  refine ⟨hmoved.linked (linked_appended hrep'.linked hnone), ?_, fun key' => ?_⟩
  · rw [view_up, view_appended hrep'.linked, ← length_view]
    exact hrep'.ordered.pushed ho _
  · rw [hmoved.get_eq, get_appended hrep'.linked]
    split_ifs with hkey
    · rw [hkey, Finmap.lookup_insert]
    · rw [Finmap.lookup_insert_of_ne _ hkey, hrep'.entries, Finmap.lookup_erase_ne hkey]

/-- `Pop` deletes a first key and returns its value. -/
lemma pop_spec (ho : HashHeap.WeakOrder less) (hrep : h.Represents less m) :
    (m = ∅ ∧ h.pop less = (none, h)) ∨
      ∃ key value, First less m key value ∧ (h.pop less).1 = some value ∧
        (h.pop less).2.Represents less (m.erase key) := by
  by_cases hempty : h.pq = []
  · refine .inl ⟨hrep.eq_empty_iff.1 hempty, ?_⟩
    rw [pop, if_pos (List.length_eq_zero_iff.2 hempty)]
  · have hlength : h.pq.length ≠ 0 := fun hlen => hempty (List.length_eq_zero_iff.1 hlen)
    obtain ⟨ref, hfront⟩ : ∃ ref, h.pq[0]? = some ref :=
      ⟨_, List.getElem?_eq_getElem (Nat.pos_of_ne_zero hlength)⟩
    obtain ⟨htaken, hfst, hview⟩ := heapPop_spec less hfront
    refine .inr ⟨(h.data ref).1, (h.data ref).2, hrep.first ho hfront, ?_⟩
    have hpop : h.pop less = (some ((heapPop less h).2.data ref).2, { (heapPop less h).2 with
        hash := (heapPop less h).2.hash.erase ((heapPop less h).2.data ref).1 }) := by
      rw [pop, if_neg hlength]
      cases hheap : heapPop less h with
      | mk fst h' =>
          rw [hheap] at hfst
          cases hfst
          rfl
    rw [hpop, htaken.data]
    exact ⟨rfl, hrep.takenOut ho hfront htaken hview⟩

/-- `Peek` returns a first value. -/
lemma peek_spec (ho : HashHeap.WeakOrder less) (hrep : h.Represents less m) :
    (m = ∅ ∧ h.peek = none) ∨ ∃ key value, First less m key value ∧ h.peek = some value := by
  cases hfront : h.pq[0]? with
  | none =>
      rw [List.getElem?_eq_none_iff, Nat.le_zero, List.length_eq_zero_iff] at hfront
      refine .inl ⟨hrep.eq_empty_iff.1 hfront, ?_⟩
      rw [peek, hfront]
      rfl
  | some ref =>
      refine .inr ⟨_, _, hrep.first ho hfront, ?_⟩
      rw [peek, List.head?_eq_getElem?, hfront]
      rfl

/-! ## Whole runs -/

/-- A call on a queue. -/
inductive Call (κ ν : Type) where
  | get (key : κ)
  | set (key : κ) (value : ν)
  | del (key : κ)
  | pop
  | peek

/-- The value that the call returns and the queue it leaves. -/
def call (less : ν → ν → Bool) (h : HashedHeap κ ν) : Call κ ν → Option ν × HashedHeap κ ν
  | .get key => (h.get key, h)
  | .set key value => h.set less key value
  | .del key => h.del less key
  | .pop => h.pop less
  | .peek => (h.peek, h)

/-- The calls with what they return, and the queue they leave. -/
def run (less : ν → ν → Bool) : HashedHeap κ ν → List (Call κ ν) →
    List (Call κ ν × Option ν) × HashedHeap κ ν
  | h, [] => ([], h)
  | h, c :: calls =>
    let done := h.call less c
    let rest := run less done.2 calls
    ((c, done.1) :: rest.1, rest.2)

/-- What a call may return on a map, and the map after it. -/
inductive MapStep (less : ν → ν → Bool) :
    (Finmap fun _ : κ => ν) → Call κ ν → Option ν → (Finmap fun _ : κ => ν) → Prop
  | get (m : Finmap fun _ : κ => ν) (key : κ) : MapStep less m (.get key) (m.lookup key) m
  | set (m : Finmap fun _ : κ => ν) (key : κ) (value : ν) :
      MapStep less m (.set key value) (m.lookup key) (m.insert key value)
  | del (m : Finmap fun _ : κ => ν) (key : κ) :
      MapStep less m (.del key) (m.lookup key) (m.erase key)
  | popEmpty : MapStep less ∅ .pop none ∅
  | pop {m : Finmap fun _ : κ => ν} {key : κ} {value : ν} (hfirst : First less m key value) :
      MapStep less m .pop (some value) (m.erase key)
  | peekEmpty : MapStep less ∅ .peek none ∅
  | peek {m : Finmap fun _ : κ => ν} {key : κ} {value : ν} (hfirst : First less m key value) :
      MapStep less m .peek (some value) m

/-- What calls in turn may return on a map, and the map after them. -/
inductive MapRun (less : ν → ν → Bool) :
    (Finmap fun _ : κ => ν) → List (Call κ ν × Option ν) → (Finmap fun _ : κ => ν) → Prop
  | nil (m : Finmap fun _ : κ => ν) : MapRun less m [] m
  | cons {m m' m'' : Finmap fun _ : κ => ν} {c : Call κ ν} {result : Option ν}
      {rest : List (Call κ ν × Option ν)} (hstep : MapStep less m c result m')
      (hrest : MapRun less m' rest m'') : MapRun less m ((c, result) :: rest) m''

/-- The queue has the entries of the map, and as many of them.  The table and the array hold the same
entries, each once and with its place in the array. -/
structure HasEntries (h : HashedHeap κ ν) (m : Finmap fun _ : κ => ν) : Prop where
  get : ∀ key, h.get key = m.lookup key
  len : h.len = m.keys.card
  once : h.pq.Nodup
  index : ∀ (i ref : ℕ), h.pq[i]? = some ref → (h.entries.cell ref).index = i
  same : ∀ key ref, h.hash.lookup key = some ref ↔ ref ∈ h.pq ∧ (h.entries.cell ref).key = key

/-- **A call is a step of the map.** -/
lemma Represents.step (ho : HashHeap.WeakOrder less) (hrep : h.Represents less m)
    (c : Call κ ν) :
    ∃ m', MapStep less m c (h.call less c).1 m' ∧ (h.call less c).2.Represents less m' := by
  cases c with
  | get key =>
      refine ⟨m, ?_, hrep⟩
      have hstep : MapStep less m (.get key) (m.lookup key) _ := .get m key
      rwa [← hrep.entries] at hstep
  | set key value =>
      obtain ⟨hreturn, hafter⟩ := set_spec ho hrep key value
      have hstep : MapStep less m (.set key value) (m.lookup key) _ := .set m key value
      rw [← hreturn] at hstep
      exact ⟨_, hstep, hafter⟩
  | del key =>
      obtain ⟨hreturn, hafter⟩ := del_spec ho hrep key
      have hstep : MapStep less m (.del key) (m.lookup key) _ := .del m key
      rw [← hreturn] at hstep
      exact ⟨_, hstep, hafter⟩
  | pop =>
      obtain ⟨rfl, hpop⟩ | ⟨key, value, hfirst, hreturn, hafter⟩ := pop_spec ho hrep
      · change ∃ m', MapStep less ∅ .pop (h.pop less).1 m' ∧ (h.pop less).2.Represents less m'
        rw [hpop]
        exact ⟨∅, .popEmpty, hrep⟩
      · change ∃ m', MapStep less m .pop (h.pop less).1 m' ∧ (h.pop less).2.Represents less m'
        rw [hreturn]
        exact ⟨_, .pop hfirst, hafter⟩
  | peek =>
      change ∃ m', MapStep less m .peek h.peek m' ∧ h.Represents less m'
      obtain ⟨rfl, hpeek⟩ | ⟨key, value, hfirst, hpeek⟩ := peek_spec ho hrep
      · rw [hpeek]
        exact ⟨∅, .peekEmpty, hrep⟩
      · rw [hpeek]
        exact ⟨m, .peek hfirst, hrep⟩

lemma Represents.run (ho : HashHeap.WeakOrder less) (hrep : h.Represents less m)
    (calls : List (Call κ ν)) :
    ∃ m', MapRun less m (run less h calls).1 m' ∧ (run less h calls).2.Represents less m' := by
  induction calls generalizing h m with
  | nil => exact ⟨m, .nil m, hrep⟩
  | cons c calls ih =>
      obtain ⟨m', hstep, hafter⟩ := hrep.step ho c
      obtain ⟨m'', hrest, hend⟩ := ih hafter
      exact ⟨m'', .cons hstep hrest, hend⟩

/-- **A queue is a map with a priority view.**  Calls on a new queue return what they return on a
finite map, where `Pop` and `Peek` choose a value that no other comes before, and leave a queue with
the entries of that map. -/
theorem hashedHeap_is_map [Inhabited κ] [Inhabited ν] (ho : HashHeap.WeakOrder less)
    (calls : List (Call κ ν)) :
    ∃ m : Finmap fun _ : κ => ν, MapRun less ∅ (run less new calls).1 m ∧
      (run less new calls).2.HasEntries m := by
  obtain ⟨m, hrun, hrep⟩ := represents_new.run ho calls
  exact ⟨m, hrun, hrep.entries, hrep.len_eq, hrep.linked.numbered.nodup,
    hrep.linked.numbered.index, hrep.linked.indexed⟩

/-- Numbers by size: the second of two values under one key takes the place of the first, and the
least value is popped. -/
theorem hashedHeap_of_numbers :
    (run (fun a b : ℕ => decide (a < b)) new
        [.set 1 5, .set 2 7, .set 2 3, .set 4 4, .del 1, .peek, .pop, .get (2 : ℕ)]).1.map Prod.snd =
      [none, none, some 7, none, some 5, some 3, some 3, none] ∧
    ∃ m : Finmap fun _ : ℕ => ℕ, MapRun (fun a b => decide (a < b)) ∅
        (run (fun a b : ℕ => decide (a < b)) new
          [.set 1 5, .set 2 7, .set 2 3, .set 4 4, .del 1, .peek, .pop, .get 2]).1 m ∧
      (run (fun a b : ℕ => decide (a < b)) new
        [.set 1 5, .set 2 7, .set 2 3, .set 4 4, .del 1, .peek, .pop, .get 2]).2.HasEntries m := by
  refine ⟨by decide +kernel, hashedHeap_is_map ⟨fun a b hab => ?_, fun a b c hab => ?_⟩ _⟩
  · rw [decide_eq_true_eq] at hab
    rw [decide_eq_false_iff_not]
    omega
  · simp only [decide_eq_true_eq] at hab ⊢
    omega

end Map

end HashedHeap

end GoMedibloc
