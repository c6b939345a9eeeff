import GoMedibloc.Framework.FiniteSum

/-!
# Tallies

A tally is a finite map together with the sum of the weights of its values.  The sum is not
computed anew: an entry that is set adds its weight and takes away that of the entry it replaces,
one that is removed takes its weight away.  The field `sum_eq` says that this comes to the same,
so a tally is determined by its entries.

A view of a set is an index of its elements by some key of theirs (`Indexes`); the key tells the
elements apart.  Adding an element to every view, or taking it out of every view, keeps the views
those of one set.

A shelf is a finite map of containers, such as tallies, of which each has entries of its own.  What
a shelf has is read with `find`.  `Tally.put` and `Tally.drop` set and remove one entry of a shelf
of tallies; a tally that becomes empty is taken off the shelf.
-/

/-! ## Views of a set -/

/-- The function finds every element of the set under its key, and nothing else. -/
def Indexes {κ ν : Type*} (f : κ → Option ν) (key : ν → κ) (S : Set ν) : Prop :=
  ∀ k v, f k = some v ↔ key v = k ∧ v ∈ S

namespace Indexes

variable {κ ν : Type*} {f f' : κ → Option ν} {key : ν → κ} {S : Set ν} {v v₀ : ν}

lemma find (h : Indexes f key S) (hv : v ∈ S) : f (key v) = some v := (h _ _).2 ⟨rfl, hv⟩

lemma mem (h : Indexes f key S) {k : κ} (hv : f k = some v) : v ∈ S := ((h _ _).1 hv).2

lemma key_eq (h : Indexes f key S) {k : κ} (hv : f k = some v) : key v = k := ((h _ _).1 hv).1

lemma injOn (h : Indexes f key S) : Set.InjOn key S := by
  intro v hv v' hv' hkey
  have hfind := h.find hv
  rw [hkey, h.find hv', Option.some_inj] at hfind
  exact hfind.symm

/-- A key under which nothing is found is that of no element. -/
lemma key_ne (h : Indexes f key S) {k : κ} (hk : f k = none) (hv : v ∈ S) : key v ≠ k := by
  rintro rfl
  rw [h.find hv] at hk
  cases hk

lemma eq_none_iff (h : Indexes f key S) {k : κ} : f k = none ↔ ∀ v ∈ S, key v ≠ k := by
  refine ⟨fun hk v hv => h.key_ne hk hv, fun hne => Option.eq_none_iff_forall_ne_some.2 ?_⟩
  intro v hv
  exact hne v (h.mem hv) (h.key_eq hv)

lemma insert [DecidableEq κ] (h : Indexes f key S) (hnew : ∀ v ∈ S, key v ≠ key v₀)
    (hf : ∀ k, f' k = if k = key v₀ then some v₀ else f k) : Indexes f' key (insert v₀ S) := by
  intro k v
  rw [hf, Set.mem_insert_iff]
  split_ifs with hk
  · subst hk
    rw [Option.some_inj]
    refine ⟨fun heq => ⟨congrArg key heq.symm, .inl heq.symm⟩, ?_⟩
    rintro ⟨hkey, rfl | hv⟩
    · rfl
    · exact absurd hkey (hnew v hv)
  · rw [h]
    refine ⟨fun ⟨hkey, hv⟩ => ⟨hkey, .inr hv⟩, ?_⟩
    rintro ⟨rfl, rfl | hv⟩
    · exact absurd rfl hk
    · exact ⟨rfl, hv⟩

lemma diff [DecidableEq κ] (h : Indexes f key S) (hv₀ : v₀ ∈ S)
    (hf : ∀ k, f' k = if k = key v₀ then none else f k) : Indexes f' key (S \ {v₀}) := by
  intro k v
  rw [hf, Set.mem_sdiff, Set.mem_singleton_iff]
  split_ifs with hk
  · refine ⟨nofun, ?_⟩
    rintro ⟨hkey, hv, hne⟩
    exact absurd (h.injOn hv hv₀ (hkey.trans hk)) hne
  · rw [h]
    refine ⟨fun ⟨hkey, hv⟩ => ⟨hkey, hv, ?_⟩, fun ⟨hkey, hv, _⟩ => ⟨hkey, hv⟩⟩
    rintro rfl
    exact hk hkey.symm

/-- A set that a finite map indexes is finite. -/
lemma finite [DecidableEq κ] {m : Finmap fun _ : κ => ν} (h : Indexes m.lookup key S) :
    S.Finite := by
  refine Set.Finite.of_injOn (f := key) (t := (m.keys : Set κ)) (fun v hv => ?_) h.injOn
    (Finset.finite_toSet _)
  exact Finset.mem_coe.2 (Finmap.mem_keys.2 (Finmap.mem_iff.2 ⟨v, h.find hv⟩))

/-- The weights in a finite map add up to those of the set that it indexes. -/
lemma weigh_eq [DecidableEq κ] {M : Type*} [AddCommMonoid M] {m : Finmap fun _ : κ => ν}
    (h : Indexes m.lookup key S) (w : ν → M) : m.weigh w = ∑ᶠ v ∈ S, w v := by
  have hbij : Set.BijOn key S (m.keys : Set κ) := by
    refine ⟨fun v hv => ?_, h.injOn, fun k hk => ?_⟩
    · exact Finset.mem_coe.2 (Finmap.mem_keys.2 (Finmap.mem_iff.2 ⟨v, h.find hv⟩))
    · obtain ⟨v, hv⟩ := Finmap.mem_iff.1 (Finmap.mem_keys.1 (Finset.mem_coe.1 hk))
      exact ⟨v, h.mem hv, h.key_eq hv⟩
  have hsum : ∑ᶠ v ∈ S, w v = ∑ᶠ k ∈ (m.keys : Set κ), (m.lookup k).elim 0 w :=
    finsum_mem_eq_of_bijOn key hbij fun v hv => by
      rw [h.find hv]
      rfl
  rw [hsum]
  exact (finsum_mem_coe_finset _ _).symm

end Indexes

namespace Finmap

variable {ι κ ν C : Type*} [DecidableEq ι] [DecidableEq κ]

/-- Change the value of a key in place; a key without a value stays without. -/
def modify (m : Finmap fun _ : ι => C) (i : ι) (f : C → C) : Finmap fun _ : ι => C :=
  match m.lookup i with
  | none => m
  | some c => m.insert i (f c)

lemma modify_of_some {m : Finmap fun _ : ι => C} {i : ι} {c : C} (h : m.lookup i = some c)
    (f : C → C) : m.modify i f = m.insert i (f c) := by
  rw [modify, h]

/-- What an insertion overwrites does not matter. -/
lemma insert_congr {m m' : Finmap fun _ : ι => C} {i : ι}
    (h : ∀ j, j ≠ i → m'.lookup j = m.lookup j) (c : C) : m'.insert i c = m.insert i c := by
  refine ext_lookup fun j => ?_
  by_cases hj : j = i
  · rw [hj, lookup_insert, lookup_insert]
  · rw [lookup_insert_of_ne _ hj, lookup_insert_of_ne _ hj, h j hj]

/-- A map without entries has no keys. -/
lemma card_keys_eq_zero {m : Finmap fun _ : κ => ν} : m.keys.card = 0 ↔ m = ∅ := by
  rw [Finset.card_eq_zero]
  constructor
  · intro h
    refine ext_lookup fun k => ?_
    rw [lookup_empty, lookup_eq_none, ← mem_keys, h]
    exact Finset.notMem_empty k
  · rintro rfl
    exact keys_empty

lemma ne_empty_of_lookup {m : Finmap fun _ : κ => ν} {k : κ} {v : ν} (h : m.lookup k = some v) :
    m ≠ ∅ := by
  rintro rfl
  rw [lookup_empty] at h
  cases h

lemma exists_lookup_of_ne_empty {m : Finmap fun _ : κ => ν} (h : m ≠ ∅) :
    ∃ k v, m.lookup k = some v := by
  by_contra hnone
  push Not at hnone
  refine h (ext_lookup fun k => ?_)
  rw [lookup_empty]
  exact Option.eq_none_iff_forall_ne_some.2 (hnone k)

/-! ## Shelves -/

/-- The entry of a shelf under a key of one of its containers. -/
def find (items : C → Finmap fun _ : κ => ν) (m : Finmap fun _ : ι => C) (i : ι) (k : κ) :
    Option ν :=
  (m.lookup i).bind fun c => (items c).lookup k

/-- No container of the shelf is empty. -/
def NoneEmpty (items : C → Finmap fun _ : κ => ν) (m : Finmap fun _ : ι => C) : Prop :=
  ∀ i c, m.lookup i = some c → items c ≠ ∅

variable {items : C → Finmap fun _ : κ => ν} {m : Finmap fun _ : ι => C} {i j : ι} {c : C} {k : κ}
  {v : ν}

lemma find_of_lookup (h : m.lookup i = some c) : m.find items i k = (items c).lookup k := by
  rw [find, h, Option.bind_some]

lemma find_eq_some : m.find items i k = some v ↔
    ∃ c, m.lookup i = some c ∧ (items c).lookup k = some v := Option.bind_eq_some_iff

@[simp] lemma find_insert_self : (m.insert i c).find items i k = (items c).lookup k :=
  find_of_lookup (lookup_insert _)

lemma find_insert_of_ne (h : j ≠ i) : (m.insert i c).find items j k = m.find items j k := by
  rw [find, find, lookup_insert_of_ne _ h]

@[simp] lemma find_erase_self : (m.erase i).find items i k = none := by
  rw [find, lookup_erase, Option.bind_none]

lemma find_erase_of_ne (h : j ≠ i) : (m.erase i).find items j k = m.find items j k := by
  rw [find, find, lookup_erase_ne h]

omit [DecidableEq κ] in
lemma NoneEmpty.insert (h : m.NoneEmpty items) (hc : items c ≠ ∅) :
    (m.insert i c).NoneEmpty items := by
  intro j d hd
  by_cases hj : j = i
  · rw [hj, lookup_insert, Option.some_inj] at hd
    exact hd ▸ hc
  · rw [lookup_insert_of_ne _ hj] at hd
    exact h j d hd

omit [DecidableEq κ] in
lemma NoneEmpty.erase (h : m.NoneEmpty items) : (m.erase i).NoneEmpty items := by
  intro j d hd
  by_cases hj : j = i
  · rw [hj, lookup_erase] at hd
    cases hd
  · rw [lookup_erase_ne hj] at hd
    exact h j d hd

end Finmap

/-- A container of a shelf that indexes a set indexes the elements that belong to it. -/
lemma Indexes.entry {ι κ ν C : Type*} [DecidableEq ι] [DecidableEq κ]
    {items : C → Finmap fun _ : κ => ν} {m : Finmap fun _ : ι => C} {i : ι} {c : C} {g : ν → ι}
    {key : ν → κ} {S : Set ν}
    (h : Indexes (fun q : ι × κ => m.find items q.1 q.2) (fun v => (g v, key v)) S)
    (hc : m.lookup i = some c) : Indexes (items c).lookup key {v ∈ S | g v = i} := by
  intro k v
  have hfind : m.find items i k = some v ↔ (g v, key v) = (i, k) ∧ v ∈ S := h (i, k) v
  rw [Finmap.find_of_lookup hc, Prod.mk.injEq] at hfind
  rw [hfind, Set.mem_ofPred_eq]
  tauto

/-! ## Tallies -/

/-- A finite map with the sum of the weights of its values. -/
structure Tally (κ : Type*) {ν M : Type*} [DecidableEq κ] [AddCommGroup M] (w : ν → M) where
  items : Finmap fun _ : κ => ν
  sum : M
  sum_eq : sum = items.weigh w

namespace Tally

open Finmap

variable {ι κ ν M : Type*} [DecidableEq ι] [DecidableEq κ] [AddCommGroup M] {w : ν → M}

/-- An empty tally. -/
def new : Tally κ w := ⟨∅, 0, rfl⟩

/-- The number of entries. -/
def size (t : Tally κ w) : ℕ := t.items.keys.card

/-- The sum without the entry of a key. -/
def sumWithout (t : Tally κ w) (k : κ) : M :=
  match t.items.lookup k with
  | some old => t.sum - w old
  | none => t.sum

lemma sumWithout_add (t : Tally κ w) (k : κ) :
    t.sumWithout k + (t.items.lookup k).elim 0 w = t.items.weigh w := by
  rw [sumWithout, ← t.sum_eq]
  cases t.items.lookup k with
  | none => exact add_zero _
  | some old => exact sub_add_cancel _ _

/-- Set an entry. -/
def set (t : Tally κ w) (k : κ) (v : ν) : Tally κ w where
  items := t.items.insert k v
  sum := t.sumWithout k + w v
  sum_eq := by
    have hinsert := weigh_insert t.items k v w
    rw [← t.sumWithout_add k, add_right_comm] at hinsert
    exact (add_right_cancel hinsert).symm

/-- Remove the entry of a key. -/
def remove (t : Tally κ w) (k : κ) : Tally κ w where
  items := t.items.erase k
  sum := t.sumWithout k
  sum_eq := by
    have herase := weigh_erase t.items k w
    rw [← t.sumWithout_add k] at herase
    exact (add_right_cancel herase).symm

variable {t t' : Tally κ w} {m : Finmap fun _ : ι => Tally κ w} {i j : ι} {k l : κ} {v : ν}

/-- A tally is determined by its entries. -/
lemma ext_items (h : t.items = t'.items) : t = t' := by
  obtain ⟨items, sum, hsum⟩ := t
  obtain ⟨items', sum', hsum'⟩ := t'
  obtain rfl : items = items' := h
  obtain rfl : sum = sum' := hsum.trans hsum'.symm
  rfl

lemma size_eq_zero : t.size = 0 ↔ t.items = ∅ := card_keys_eq_zero

@[simp] lemma set_remove : (t.remove k).set k v = t.set k v :=
  ext_items (insert_congr (fun _ hj => lookup_erase_ne hj) v)

/-! ## Shelves of tallies -/

/-- Set an entry of a tally of the shelf, a new tally if there is none. -/
def put (m : Finmap fun _ : ι => Tally κ w) (i : ι) (k : κ) (v : ν) :
    Finmap fun _ : ι => Tally κ w :=
  m.insert i (((m.lookup i).getD new).set k v)

/-- Remove an entry of a tally of the shelf, and the tally with it if that was its last one. -/
def drop (m : Finmap fun _ : ι => Tally κ w) (i : ι) (t : Tally κ w) (k : κ) :
    Finmap fun _ : ι => Tally κ w :=
  if (t.remove k).size = 0 then m.erase i else m.insert i (t.remove k)

lemma lookup_drop_of_ne (h : j ≠ i) : (drop m i t k).lookup j = m.lookup j := by
  unfold drop
  split_ifs
  · exact lookup_erase_ne h
  · exact lookup_insert_of_ne _ h

/-- A tally that is gone and an empty one are the same to `put`. -/
lemma getD_drop_self : ((drop m i t k).lookup i).getD new = t.remove k := by
  unfold drop
  split_ifs with hsize
  · rw [lookup_erase, Option.getD_none]
    exact ext_items (size_eq_zero.1 hsize).symm
  · rw [lookup_insert, Option.getD_some]

lemma find_put : (put m i k v).find items j l =
    if j = i ∧ l = k then some v else m.find items j l := by
  by_cases hj : j = i
  · obtain rfl := hj
    have hfind : (((m.lookup j).getD new).items).lookup l = m.find items j l := by
      cases hm : m.lookup j with
      | none =>
          rw [find, hm]
          rfl
      | some t =>
          rw [find_of_lookup hm]
          rfl
    rw [put, find_insert_self, ← hfind]
    by_cases hl : l = k
    · rw [if_pos ⟨rfl, hl⟩, hl]
      exact lookup_insert _
    · rw [if_neg fun h => hl h.2]
      exact lookup_insert_of_ne _ hl
  · rw [if_neg fun h => hj h.1, put, find_insert_of_ne hj]

lemma find_drop (ht : m.lookup i = some t) : (drop m i t k).find items j l =
    if j = i ∧ l = k then none else m.find items j l := by
  by_cases hj : j = i
  · obtain rfl := hj
    have hfind : (drop m j t k).find items j l = (t.items.erase k).lookup l := by
      unfold drop
      split_ifs with hsize
      · rw [find_erase_self]
        change none = (t.remove k).items.lookup l
        rw [size_eq_zero.1 hsize, lookup_empty]
      · exact find_insert_self
    rw [hfind]
    by_cases hl : l = k
    · rw [if_pos ⟨rfl, hl⟩, hl, lookup_erase]
    · rw [if_neg fun h => hl h.2, lookup_erase_ne hl, find_of_lookup ht]
  · rw [if_neg fun h => hj h.1, find, find, lookup_drop_of_ne hj]

lemma noneEmpty_put (h : m.NoneEmpty items) : (put m i k v).NoneEmpty items :=
  h.insert (ne_empty_of_lookup (lookup_insert _))

lemma noneEmpty_drop (h : m.NoneEmpty items) : (drop m i t k).NoneEmpty items := by
  unfold drop
  split_ifs with hsize
  · exact h.erase
  · exact h.insert fun hempty => hsize (size_eq_zero.2 hempty)

end Tally
