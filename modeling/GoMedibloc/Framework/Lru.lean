import Mathlib

/-!
# Least-recently-used caches

A cache of bounded size that drops the entry used longest ago when a new one does not fit.
The entries are kept in a list, the one used longest ago first: `add` and a successful `get`
move an entry to the end, `remove` takes it out, and `keys` lists the keys from the oldest
use to the newest.

What is proved here is which entries a cache can hold after an operation: an entry that was
there stays unless it is removed, overwritten or dropped for lack of room, and nothing
appears that was not added.  For a cache without duplicate keys the same is said by equations
for `peek`, where `evicted` is the entry that is dropped.
-/

/-- A cache with room for `size` entries; the entry used longest ago comes first. -/
structure Lru (κ ν : Type*) where
  size : ℕ
  entries : List (κ × ν)

namespace Lru

variable {κ ν : Type*} {c : Lru κ ν} {k k' : κ} {v v' : ν}

/-- A cache without entries. -/
def new (size : ℕ) : Lru κ ν := ⟨size, []⟩

/-- The keys, the one used longest ago first. -/
def keys (c : Lru κ ν) : List κ := c.entries.map Prod.fst

/-- The cache holds the entry. -/
def Holds (c : Lru κ ν) (k : κ) (v : ν) : Prop := (k, v) ∈ c.entries

lemma mem_keys_of_holds (h : c.Holds k v) : k ∈ c.keys :=
  List.mem_map.2 ⟨_, h, rfl⟩

@[simp] lemma not_holds_new (size : ℕ) : ¬ (new size : Lru κ ν).Holds k v := by
  simp [Holds, new]

/-- Every key has one value. -/
def Functional (c : Lru κ ν) : Prop := ∀ k v v', c.Holds k v → c.Holds k v' → v = v'

variable [DecidableEq κ]

/-- The value of a key, without using the entry. -/
def peek (c : Lru κ ν) (k : κ) : Option ν := c.entries.lookup k

/-- Take an entry out. -/
def remove (c : Lru κ ν) (k : κ) : Lru κ ν :=
  { c with entries := c.entries.filter (fun e => e.1 ≠ k) }

/-- Put an entry in as the newest; the oldest one is dropped if there are too many. -/
def add (c : Lru κ ν) (k : κ) (v : ν) : Lru κ ν :=
  let entries := (c.remove k).entries ++ [(k, v)]
  { c with entries := if c.size < entries.length then entries.tail else entries }

/-- The value of a key; a hit makes the entry the newest one. -/
def get (c : Lru κ ν) (k : κ) : Option ν × Lru κ ν :=
  match c.peek k with
  | some v => (some v, { c with entries := (c.remove k).entries ++ [(k, v)] })
  | none => (none, c)

/-- There is room for one more entry under `k`: adding it drops nothing. -/
def Fits (c : Lru κ ν) (k : κ) : Prop := (c.remove k).entries.length < c.size

instance : Decidable (c.Fits k) := by unfold Fits; infer_instance

lemma holds_of_peek (h : c.peek k = some v) : c.Holds k v := by
  unfold peek at h
  obtain ⟨l₁, l₂, hl, -⟩ := List.lookup_eq_some_iff.1 h
  simp [Holds, hl]

lemma peek_ne_none (h : c.Holds k v) : c.peek k ≠ none := by
  intro hnone
  rw [peek, List.lookup_eq_none_iff] at hnone
  simpa using hnone _ h

@[simp] lemma remove_holds :
    (c.remove k).Holds k' v' ↔ k' ≠ k ∧ c.Holds k' v' := by
  simp [Holds, remove, and_comm]

/-- Adding an entry brings in no other one, and the entry takes the place of an older one. -/
lemma add_cases (h : (c.add k v).Holds k' v') :
    (k' = k ∧ v' = v) ∨ (k' ≠ k ∧ c.Holds k' v') := by
  have hmem : (k', v') ∈ (c.remove k).entries ++ [(k, v)] := by
    unfold add Holds at h
    dsimp only at h
    split at h
    · exact List.mem_of_mem_tail h
    · exact h
  rcases List.mem_append.1 hmem with h' | h'
  · exact .inr (remove_holds.1 h')
  · exact .inl (by simpa using h')

lemma holds_of_add (h : (c.add k v).Holds k' v') : (k' = k ∧ v' = v) ∨ c.Holds k' v' :=
  (add_cases h).imp_right And.right

/-- While there is room, adding an entry keeps the others. -/
lemma add_holds (hfits : c.Fits k) :
    (c.add k v).Holds k' v' ↔ (k' = k ∧ v' = v) ∨ (k' ≠ k ∧ c.Holds k' v') := by
  have hlen : ¬ c.size < ((c.remove k).entries ++ [(k, v)]).length := by
    simp only [List.length_append, List.length_singleton]
    exact not_lt.2 hfits
  have hadd : (c.add k v).entries = (c.remove k).entries ++ [(k, v)] := if_neg hlen
  rw [Holds, hadd, List.mem_append, ← Holds, remove_holds]
  simp only [List.mem_singleton, Prod.mk.injEq]
  exact or_comm

lemma get_fst : (c.get k).1 = c.peek k := by
  unfold get
  cases c.peek k <;> rfl

/-- A lookup brings in no entry. -/
lemma holds_of_get (h : (c.get k).2.Holds k' v') : c.Holds k' v' := by
  unfold get at h
  cases hpeek : c.peek k with
  | none =>
      rw [hpeek] at h
      exact h
  | some w =>
      rw [hpeek] at h
      rcases List.mem_append.1 h with h | h
      · exact (remove_holds.1 h).2
      · rw [List.mem_singleton, Prod.mk.injEq] at h
        rw [h.1, h.2]
        exact holds_of_peek hpeek

/-- A lookup changes no entry, only their order. -/
lemma get_holds (hc : c.Functional) : (c.get k).2.Holds k' v' ↔ c.Holds k' v' := by
  unfold get
  cases hpeek : c.peek k with
  | none => rfl
  | some w =>
      have hw := holds_of_peek hpeek
      have hstep : (⟨c.size, (c.remove k).entries ++ [(k, w)]⟩ : Lru κ ν).Holds k' v' ↔
          (k' ≠ k ∧ c.Holds k' v') ∨ (k' = k ∧ v' = w) := by
        rw [Holds, List.mem_append, ← Holds, remove_holds]
        simp
      rw [hstep]
      constructor
      · rintro (⟨-, h⟩ | ⟨rfl, rfl⟩)
        · exact h
        · exact hw
      · intro h
        by_cases hk : k' = k
        · subst hk
          exact .inr ⟨rfl, hc _ _ _ h hw⟩
        · exact .inl ⟨hk, h⟩

/-! ## Caches without duplicate keys -/

/-- The entry that has to go when a new one is added under `k`. -/
def evicted (c : Lru κ ν) (k : κ) : Option (κ × ν) :=
  if c.Fits k then none else (c.remove k).entries.head?

lemma peek_isSome : (c.peek k).isSome ↔ k ∈ c.keys := by
  constructor
  · intro h
    obtain ⟨v, hv⟩ := Option.isSome_iff_exists.1 h
    exact mem_keys_of_holds (holds_of_peek hv)
  · intro h
    obtain ⟨e, he, rfl⟩ := List.mem_map.1 h
    exact Option.isSome_iff_ne_none.2 (peek_ne_none he)

lemma peek_remove : (c.remove k).peek k' = if k' = k then none else c.peek k' := by
  unfold peek remove
  induction c.entries with
  | nil => simp
  | cons e l ih =>
      obtain ⟨k₀, v₀⟩ := e
      by_cases hk : k₀ = k
      · subst hk
        rw [List.filter_cons_of_neg (by simp), ih]
        split_ifs with h
        · rfl
        · rw [List.lookup_cons, beq_false_of_ne h]
      · rw [List.filter_cons_of_pos (by simpa using hk), List.lookup_cons, List.lookup_cons]
        by_cases hk' : k' = k₀
        · subst hk'
          simp [hk]
        · rw [beq_false_of_ne hk']
          exact ih

@[simp] lemma peek_get : (c.get k).2.peek k' = c.peek k' := by
  unfold get
  cases hpeek : c.peek k with
  | none => rfl
  | some w =>
      have hrem : (c.remove k).peek k' = if k' = k then none else c.peek k' := peek_remove
      unfold peek at hrem hpeek ⊢
      dsimp only
      rw [List.lookup_append, hrem]
      by_cases hk : k' = k
      · subst hk
        simp [hpeek]
      · rw [if_neg hk, List.lookup_cons, beq_false_of_ne hk]
        simp

@[simp] lemma size_get : (c.get k).2.size = c.size := by
  unfold get
  cases c.peek k <;> rfl

lemma nodup_keys_remove (h : c.keys.Nodup) : (c.remove k).keys.Nodup :=
  h.sublist (List.filter_sublist.map _)

/-- Putting an entry behind the others under a key that was taken out. -/
lemma nodup_keys_append (h : c.keys.Nodup) :
    (((c.remove k).entries ++ [(k, v)]).map Prod.fst).Nodup := by
  rw [List.map_append, List.nodup_append]
  refine ⟨nodup_keys_remove h, by simp, ?_⟩
  intro a ha b hb hab
  subst hab
  obtain ⟨e, he, rfl⟩ := List.mem_map.1 ha
  simp only [List.map_cons, List.map_nil, List.mem_singleton] at hb
  simp [remove, hb] at he

lemma nodup_keys_get (h : c.keys.Nodup) : (c.get k).2.keys.Nodup := by
  unfold get
  cases c.peek k with
  | none => exact h
  | some w => exact nodup_keys_append h

@[simp] lemma size_add : (c.add k v).size = c.size := rfl

lemma nodup_keys_add (h : c.keys.Nodup) : (c.add k v).keys.Nodup := by
  have happend := nodup_keys_append (k := k) (v := v) h
  unfold add keys
  dsimp only
  split_ifs
  · exact happend.sublist ((List.tail_sublist _).map _)
  · exact happend

/-- The same entries in another order of use. -/
structure Reordered (c c' : Lru κ ν) : Prop where
  size : c'.size = c.size
  peek : ∀ k, c'.peek k = c.peek k
  nodup : c.keys.Nodup → c'.keys.Nodup

lemma Reordered.refl (c : Lru κ ν) : Reordered c c := ⟨rfl, fun _ => rfl, id⟩

lemma Reordered.trans {c₁ c₂ c₃ : Lru κ ν} (h : Reordered c₁ c₂) (h' : Reordered c₂ c₃) :
    Reordered c₁ c₃ :=
  ⟨h'.size.trans h.size, fun k => (h'.peek k).trans (h.peek k), fun hn => h'.nodup (h.nodup hn)⟩

/-- A lookup only changes the order of use. -/
lemma reordered_get (c : Lru κ ν) (k : κ) : Reordered c (c.get k).2 :=
  ⟨size_get, fun _ => peek_get, nodup_keys_get⟩

lemma peek_of_evicted {e : κ × ν} (h : c.evicted k = some e) :
    e.1 ≠ k ∧ c.peek e.1 = some e.2 := by
  unfold evicted at h
  split_ifs at h
  have hmem : e ∈ (c.remove k).entries := List.mem_of_head? h
  have hne : e.1 ≠ k := by
    intro heq
    simp [remove, heq] at hmem
  refine ⟨hne, ?_⟩
  have hlookup : (c.remove k).peek e.1 = some e.2 := by
    obtain ⟨l, hl⟩ := List.head?_eq_some_iff.1 h
    rw [peek, hl, List.lookup_cons, beq_self_eq_true]
  rwa [peek_remove, if_neg hne] at hlookup

/-- What is found after adding an entry: the new one, and of the others all but the one that
had to go. -/
lemma peek_add (hnodup : c.keys.Nodup) (hsize : 0 < c.size) :
    (c.add k v).peek k' =
      if (c.evicted k).map Prod.fst = some k' then none
      else if k' = k then some v else c.peek k' := by
  have hrem : (c.remove k).peek k' = if k' = k then none else c.peek k' := peek_remove
  have happend : ((c.remove k).entries ++ [(k, v)]).lookup k' =
      if k' = k then some v else c.peek k' := by
    rw [List.lookup_append, ← peek, hrem]
    by_cases hk : k' = k
    · simp [hk]
    · rw [if_neg hk, if_neg hk, List.lookup_cons, beq_false_of_ne hk]
      simp
  have hlength : ((c.remove k).entries ++ [(k, v)]).length = (c.remove k).entries.length + 1 := by
    simp
  by_cases hfits : (c.remove k).entries.length < c.size
  · have hadd : (c.add k v).entries = (c.remove k).entries ++ [(k, v)] :=
      if_neg (by rw [hlength]; omega)
    have hnone : c.evicted k = none := if_pos hfits
    rw [peek, hadd, happend, hnone]
    simp
  · have hadd : (c.add k v).entries = ((c.remove k).entries ++ [(k, v)]).tail :=
      if_pos (by rw [hlength]; omega)
    have hhead : c.evicted k = (c.remove k).entries.head? := if_neg hfits
    have hkeys := nodup_keys_append (k := k) (v := v) hnodup
    rw [peek, hadd, hhead]
    -- there is an oldest entry, since the cache has room for at least one
    cases hentries : (c.remove k).entries with
    | nil => simp [hentries, hsize] at hfits
    | cons e l =>
        rw [hentries, List.cons_append] at happend hkeys
        rw [List.cons_append, List.tail_cons, List.head?_cons, Option.map_some]
        rw [List.map_cons, List.nodup_cons] at hkeys
        by_cases hk : e.1 = k'
        · rw [if_pos (congrArg some hk), List.lookup_eq_none_iff]
          intro p hp
          rw [bne_iff_ne]
          exact fun heq => hkeys.1 (hk.trans heq ▸ List.mem_map_of_mem hp)
        · rw [if_neg (fun heq => hk (Option.some_inj.1 heq)), ← happend, List.lookup_cons, beq_false_of_ne (Ne.symm hk)]

end Lru
