import Mathlib

/-!
# Finite maps: sums and lookups

The sum of a quantity over the values of a finite map.  A change at one key changes the sum by
the difference there (`weigh_update`), so an invariant about such a sum is kept by a step that
touches a few keys if the differences at those keys add up.  `total` is the sum of natural numbers,
`weigh` that of any weights that can be added.

Where an abstract model has plain functions, insertions and deletions are updates of the lookup
function.
-/

namespace Finmap

variable {κ ν : Type*} [DecidableEq κ] {m m' : Finmap fun _ : κ => ν}

section Weigh

variable {M : Type*} [AddCommMonoid M]

/-- The sum of the weights of the values of a finite map. -/
def weigh (m : Finmap fun _ : κ => ν) (f : ν → M) : M :=
  ∑ k ∈ m.keys, (m.lookup k).elim 0 f

/-- The sum may be taken over any set of keys that has all keys of the map. -/
lemma weigh_eq_sum {S : Finset κ} (h : m.keys ⊆ S) (f : ν → M) :
    m.weigh f = ∑ k ∈ S, (m.lookup k).elim 0 f := by
  refine Finset.sum_subset h fun k _ hk => ?_
  rw [lookup_eq_none.2 fun hmem => hk (mem_keys.2 hmem)]
  rfl

/-- Two maps that agree except at one key have sums that differ as the values there do. -/
lemma weigh_update {k : κ} (h : ∀ a, a ≠ k → m'.lookup a = m.lookup a) (f : ν → M) :
    m'.weigh f + (m.lookup k).elim 0 f = m.weigh f + (m'.lookup k).elim 0 f := by
  obtain ⟨S, hS⟩ : ∃ S : Finset κ, S = {k} ∪ (m.keys ∪ m'.keys) := ⟨_, rfl⟩
  have hk : k ∈ S := by simp [hS]
  have hm : m.keys ⊆ S := by
    rw [hS]
    exact Finset.subset_union_left.trans Finset.subset_union_right
  have hm' : m'.keys ⊆ S := by
    rw [hS]
    exact Finset.subset_union_right.trans Finset.subset_union_right
  have hrest : ∑ a ∈ S.erase k, (m'.lookup a).elim 0 f = ∑ a ∈ S.erase k, (m.lookup a).elim 0 f :=
    Finset.sum_congr rfl fun a ha => by rw [h a (Finset.ne_of_mem_erase ha)]
  rw [weigh_eq_sum hm, weigh_eq_sum hm', ← Finset.add_sum_erase _ _ hk,
    ← Finset.add_sum_erase _ _ hk, hrest]
  abel

lemma weigh_insert (m : Finmap fun _ : κ => ν) (k : κ) (v : ν) (f : ν → M) :
    (m.insert k v).weigh f + (m.lookup k).elim 0 f = m.weigh f + f v := by
  have h : (m.insert k v).weigh f + _ = _ :=
    weigh_update (m := m) (k := k) (fun a ha => lookup_insert_of_ne _ ha) f
  rwa [lookup_insert] at h

lemma weigh_erase (m : Finmap fun _ : κ => ν) (k : κ) (f : ν → M) :
    (m.erase k).weigh f + (m.lookup k).elim 0 f = m.weigh f := by
  have h : (m.erase k).weigh f + _ = _ :=
    weigh_update (m := m) (k := k) (fun a ha => lookup_erase_ne ha) f
  rwa [lookup_erase, Option.elim_none, add_zero] at h

end Weigh

/-- The sum of `f` over the values of a finite map. -/
def total (m : Finmap fun _ : κ => ν) (f : ν → ℕ) : ℕ :=
  ∑ k ∈ m.keys, (m.lookup k).elim 0 f

lemma total_eq_sum {S : Finset κ} (h : m.keys ⊆ S) (f : ν → ℕ) :
    m.total f = ∑ k ∈ S, (m.lookup k).elim 0 f := weigh_eq_sum h f

lemma total_insert (m : Finmap fun _ : κ => ν) (k : κ) (v : ν) (f : ν → ℕ) :
    (m.insert k v).total f + (m.lookup k).elim 0 f = m.total f + f v := weigh_insert m k v f

lemma total_erase (m : Finmap fun _ : κ => ν) (k : κ) (f : ν → ℕ) :
    (m.erase k).total f + (m.lookup k).elim 0 f = m.total f := weigh_erase m k f

@[simp] lemma total_empty (f : ν → ℕ) : (∅ : Finmap fun _ : κ => ν).total f = 0 := rfl

/-- One value is at most the sum. -/
lemma le_total {k : κ} {v : ν} (h : m.lookup k = some v) (f : ν → ℕ) : f v ≤ m.total f := by
  have hk : k ∈ m.keys := mem_keys.2 (lookup_isSome.1 (by rw [h]; rfl))
  have hle := Finset.single_le_sum (f := fun a => (m.lookup a).elim 0 f)
    (fun _ _ => Nat.zero_le _) hk
  rwa [h] at hle

/-- A quantity that is smaller at every value has a smaller sum. -/
lemma total_mono {f g : ν → ℕ} (h : ∀ k v, m.lookup k = some v → f v ≤ g v) :
    m.total f ≤ m.total g := by
  refine Finset.sum_le_sum fun k _ => ?_
  cases hk : m.lookup k with
  | none => exact le_rfl
  | some v => exact h k v hk

/-- Maps with equal quantities at every key have equal sums. -/
lemma total_eq_of_lookup {f : ν → ℕ}
    (h : ∀ k, (m'.lookup k).elim 0 f = (m.lookup k).elim 0 f) : m'.total f = m.total f := by
  rw [total_eq_sum (S := m.keys ∪ m'.keys) Finset.subset_union_left,
    total_eq_sum (S := m.keys ∪ m'.keys) Finset.subset_union_right]
  exact Finset.sum_congr rfl fun k _ => h k

/-- An insertion is an update of the lookup function, also of what `f` sees of it. -/
lemma map_lookup_insert {μ : Type*} (m : Finmap fun _ : κ => ν) (k : κ) (v : ν) (f : ν → μ) :
    (fun a => ((m.insert k v).lookup a).map f) =
      Function.update (fun a => (m.lookup a).map f) k (some (f v)) := by
  funext a
  by_cases ha : a = k
  · rw [ha, Function.update_self, lookup_insert, Option.map_some]
  · rw [Function.update_of_ne ha, lookup_insert_of_ne _ ha]

lemma lookup_insert_eq_update (m : Finmap fun _ : κ => ν) (k : κ) (v : ν) :
    (fun a => (m.insert k v).lookup a) = Function.update (fun a => m.lookup a) k (some v) := by
  simpa only [Option.map_id, id_eq] using map_lookup_insert m k v id

/-- So is a deletion. -/
lemma map_lookup_erase {μ : Type*} (m : Finmap fun _ : κ => ν) (k : κ) (f : ν → μ) :
    (fun a => ((m.erase k).lookup a).map f) =
      Function.update (fun a => (m.lookup a).map f) k none := by
  funext a
  by_cases ha : a = k
  · rw [ha, Function.update_self, lookup_erase, Option.map_none]
  · rw [Function.update_of_ne ha, lookup_erase_ne ha]

lemma lookup_erase_eq_update (m : Finmap fun _ : κ => ν) (k : κ) :
    (fun a => (m.erase k).lookup a) = Function.update (fun a => m.lookup a) k none := by
  simpa only [Option.map_id, id_eq] using map_lookup_erase m k id

end Finmap
