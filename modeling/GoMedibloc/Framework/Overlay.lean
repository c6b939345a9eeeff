import Mathlib

/-!
# Maps with changes that can be taken back

An `Overlay` is a finite map together with changes to it that are held back.  While it is
batching, writes go to the held-back changes, and reading looks there first.  `commit` applies the
changes to the map, in an order that is chosen from outside, and `rollBack` drops them.

Overlays are compared with plain finite maps: `Shows o m` says that reading the overlay is reading
`m`.  Writes keep the relation, whether the overlay is batching or not; `commit` keeps it, in
whatever order it visits the changes; and after `rollBack` the overlay holds the map as it was at
`beginBatch`, since no write touches it in between (`Overlay.Batching`).
-/

/-- Write a key of a finite map; `none` deletes it. -/
def Finmap.write {K V : Type} [DecidableEq K] (m : Finmap fun _ : K => V) (k : K) :
    Option V → Finmap fun _ : K => V
  | some v => m.insert k v
  | none => m.erase k

lemma Finmap.lookup_write {K V : Type} [DecidableEq K] (m : Finmap fun _ : K => V) (k : K)
    (v : Option V) (k' : K) : (m.write k v).lookup k' = if k' = k then v else m.lookup k' := by
  by_cases hk : k' = k
  · subst hk
    rw [if_pos rfl]
    cases v with
    | none => exact lookup_erase _ _
    | some v => exact lookup_insert _
  · rw [if_neg hk]
    cases v with
    | none => exact lookup_erase_ne hk
    | some v => exact lookup_insert_of_ne _ hk

/-- A finite map, and changes to it that are held back; `none` marks a key that is deleted. -/
structure Overlay (K V : Type) where
  trie : Finmap fun _ : K => V
  dirties : Finmap fun _ : K => Option V
  batching : Bool

/-- An order in which the keys of any finite map are visited. -/
structure VisitOrder where
  keys : ∀ {K V : Type} [DecidableEq K], (Finmap fun _ : K => V) → List K
  mem_keys : ∀ {K V : Type} [DecidableEq K] (m : Finmap fun _ : K => V) (k : K),
    k ∈ keys m ↔ k ∈ m

noncomputable instance : Inhabited VisitOrder :=
  ⟨⟨fun m => m.keys.toList, fun _ _ => Finset.mem_toList.trans Finmap.mem_keys⟩⟩

namespace Overlay

variable {K V : Type} [DecidableEq K] {o : Overlay K V} {m : Finmap fun _ : K => V}

/-- Read a key. -/
def get (o : Overlay K V) (k : K) : Option V :=
  if o.batching then (o.dirties.lookup k).getD (o.trie.lookup k) else o.trie.lookup k

/-- Write or delete a key. -/
def write (o : Overlay K V) (k : K) (v : Option V) : Overlay K V :=
  if o.batching then { o with dirties := o.dirties.insert k v }
  else { o with trie := o.trie.write k v }

/-- Hold changes back from now on. -/
def beginBatch (o : Overlay K V) : Option (Overlay K V) :=
  if o.batching then none else some { o with dirties := ∅, batching := true }

/-- Apply one change. -/
def commitEntry (dirties : Finmap fun _ : K => Option V) (trie : Finmap fun _ : K => V) (k : K) :
    Finmap fun _ : K => V :=
  (dirties.lookup k).elim trie (trie.write k)

/-- Apply the changes. -/
def commit (order : VisitOrder) (o : Overlay K V) : Option (Overlay K V) :=
  if o.batching then
    some ⟨(order.keys o.dirties).foldl (commitEntry o.dirties) o.trie, ∅, false⟩
  else none

/-- Drop the changes. -/
def rollBack (o : Overlay K V) : Option (Overlay K V) :=
  if o.batching then some { o with dirties := ∅, batching := false } else none

/-- Reading the overlay is reading the map. -/
def Shows (o : Overlay K V) (m : Finmap fun _ : K => V) : Prop := ∀ k, m.lookup k = o.get k

/-- The overlay holds changes to the map back. -/
structure Batching (o : Overlay K V) (m : Finmap fun _ : K => V) : Prop where
  batching : o.batching = true
  trie : o.trie = m

lemma Shows.write (h : o.Shows m) (k : K) (v : Option V) : (o.write k v).Shows (m.write k v) := by
  intro k'
  rw [Finmap.lookup_write, h k', get, get, Overlay.write]
  cases hb : o.batching with
  | false => simp only [Bool.false_eq_true, if_false, Finmap.lookup_write]
  | true =>
      simp only [if_true]
      by_cases hk : k' = k
      · rw [hk, if_pos rfl, Finmap.lookup_insert]
        rfl
      · rw [if_neg hk, Finmap.lookup_insert_of_ne _ hk]

lemma Batching.write (h : o.Batching m) (k : K) (v : Option V) : (o.write k v).Batching m := by
  rw [Overlay.write, if_pos h.batching]
  exact ⟨h.batching, h.trie⟩

/-- A batch that is begun shows the map. -/
lemma beginBatch_idle (m : Finmap fun _ : K => V) :
    ∃ o, beginBatch ⟨m, ∅, false⟩ = some o ∧ o.Batching m ∧ o.Shows m := by
  refine ⟨⟨m, ∅, true⟩, rfl, ⟨rfl, rfl⟩, fun k => ?_⟩
  rw [get, if_pos rfl, Finmap.lookup_empty]
  rfl

/-- Dropping the changes gives the map back as it was. -/
lemma Batching.rollBack {K V : Type} {o : Overlay K V} {m : Finmap fun _ : K => V}
    (h : o.Batching m) : o.rollBack = some ⟨m, ∅, false⟩ := by
  rw [Overlay.rollBack, if_pos h.batching, h.trie]

/-- After visiting some keys these have their new values, and the others their old ones. -/
lemma lookup_foldl_commitEntry (dirties : Finmap fun _ : K => Option V) (l : List K)
    (t : Finmap fun _ : K => V) (k : K) :
    (l.foldl (commitEntry dirties) t).lookup k =
      if k ∈ l then (dirties.lookup k).getD (t.lookup k) else t.lookup k := by
  have hentry : ∀ (t : Finmap fun _ : K => V) (x : K), (commitEntry dirties t x).lookup k =
      if k = x then (dirties.lookup k).getD (t.lookup k) else t.lookup k := by
    intro t x
    unfold commitEntry
    cases hx : dirties.lookup x with
    | none =>
        by_cases hk : k = x
        · rw [if_pos hk, hk, hx]
          rfl
        · rw [if_neg hk]
          rfl
    | some v =>
        rw [Option.elim_some, Finmap.lookup_write]
        by_cases hk : k = x
        · rw [if_pos hk, if_pos hk, hk, hx]
          rfl
        · rw [if_neg hk, if_neg hk]
  induction l generalizing t with
  | nil => rfl
  | cons x l ih =>
      rw [List.foldl_cons, ih, hentry]
      by_cases hx : k = x
      · -- a key that has been visited is visited again without a change
        subst hx
        cases dirties.lookup k <;> simp
      · simp [hx]

/-- Applying the changes gives the map that was shown, in any order. -/
lemma Shows.commit (h : o.Shows m) (hb : o.batching = true) (order : VisitOrder) :
    o.commit order = some ⟨m, ∅, false⟩ := by
  have htrie : (order.keys o.dirties).foldl (commitEntry o.dirties) o.trie = m := by
    refine Finmap.ext_lookup fun k => ?_
    rw [lookup_foldl_commitEntry, h k, get, if_pos hb]
    by_cases hk : k ∈ o.dirties
    · rw [if_pos ((order.mem_keys _ _).2 hk)]
    · rw [if_neg fun hmem => hk ((order.mem_keys _ _).1 hmem), Finmap.lookup_eq_none.2 hk]
      rfl
  rw [Overlay.commit, if_pos hb, htrie]

end Overlay
