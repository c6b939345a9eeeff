import GoMedibloc.Framework.RadixTree

/-!
# The entries of a radix tree in order

`entries` lists the keys of a tree with their values: the value of a branch first, then its
subtrees in the order of the alphabet.  The list holds exactly what `get` finds
(`mem_entries`), and its keys increase strictly (`sorted_entries`).

A walk that resumes a branch needs a part of that list.  The positions of a branch are `0`,
its own value, and `i.succ`, the subtree of the letter `i`; `entriesFrom a` are the entries
from position `a` on, and only the occupied positions contribute (`entriesFrom_eq_flatMap`).
-/

namespace Radix.Tree

universe u

variable {n : ℕ} {β : Type u}

/-- Entries with a path in front of each key. -/
def under (p : List (Fin n)) (es : List (List (Fin n) × β)) : List (List (Fin n) × β) :=
  es.map (Prod.map (p ++ ·) id)

lemma under_under (p q : List (Fin n)) (es : List (List (Fin n) × β)) :
    under p (under q es) = under (p ++ q) es := by
  simp [under, Function.comp_def, Prod.map]

lemma under_append (p : List (Fin n)) (es fs : List (List (Fin n) × β)) :
    under p (es ++ fs) = under p es ++ under p fs :=
  List.map_append

/-- The entries at a position of a branch with the value `v` and the entries `es i` in the
subtree of the letter `i`. -/
def entriesAt (v : Option β) (es : Fin n → List (List (Fin n) × β)) :
    Fin (n + 1) → List (List (Fin n) × β) :=
  Fin.cases (v.toList.map fun v => ([], v)) fun i => under [i] (es i)

/-- The keys of a tree with their values, in order. -/
def entries : Tree n β → List (List (Fin n) × β)
  | nil => []
  | leaf v => [([], v)]
  | ext p t => under p t.entries
  | branch v kids => (List.finRange (n + 1)).flatMap (entriesAt v fun i => (kids i).entries)

/-- The entries from a position on; a tree that is no branch has one position. -/
def entriesFrom (a : Fin (n + 1)) : Tree n β → List (List (Fin n) × β)
  | branch v kids =>
      ((List.finRange (n + 1)).filter (a ≤ ·)).flatMap (entriesAt v fun i => (kids i).entries)
  | t => t.entries

lemma entriesFrom_zero (t : Tree n β) : t.entriesFrom 0 = t.entries := by
  cases t <;> simp [entriesFrom, entries]

lemma mem_under {p r : List (Fin n)} {v : β} {es : List (List (Fin n) × β)} :
    (r, v) ∈ under p es ↔ ∃ s, (s, v) ∈ es ∧ r = p ++ s := by
  simp [under, eq_comm]

/-- The list holds exactly what `get` finds. -/
lemma mem_entries {t : Tree n β} {r : List (Fin n)} {v : β} :
    (r, v) ∈ t.entries ↔ t.get r = some v := by
  induction t generalizing r with
  | nil => simp [entries]
  | leaf w => cases r <;> simp [entries, eq_comm]
  | ext p t ih =>
      rw [entries, mem_under]
      constructor
      · rintro ⟨s, hs, rfl⟩
        rwa [get_ext_append, ← ih]
      · intro h
        obtain ⟨s, rfl⟩ := prefix_of_get_ext h
        exact ⟨s, ih.2 (by rwa [get_ext_append] at h), rfl⟩
  | branch w kids ih =>
      simp only [entries, entriesAt, List.mem_flatMap, List.mem_finRange, true_and, Fin.exists_fin_succ,
        Fin.cases_zero, Fin.cases_succ, mem_under, ih]
      cases r <;> simp

lemma sorted_under {p : List (Fin n)} {es : List (List (Fin n) × β)}
    (h : es.Pairwise fun a b => a.1 < b.1) : (under p es).Pairwise fun a b => a.1 < b.1 := by
  refine List.pairwise_map.2 (h.imp fun {a b} hab => ?_)
  induction p with
  | nil => exact hab
  | cons i p ih => exact List.cons_lt_cons_iff.2 (.inr ⟨rfl, ih⟩)

/-- The keys increase strictly. -/
lemma sorted_entries (t : Tree n β) : t.entries.Pairwise fun a b => a.1 < b.1 := by
  induction t with
  | nil => exact .nil
  | leaf v => exact List.pairwise_singleton _ _
  | ext p t ih => exact sorted_under ih
  | branch v kids ih =>
      refine List.pairwise_flatMap.2 ⟨fun a _ => ?_, (List.pairwise_lt_finRange _).imp ?_⟩
      · cases a using Fin.cases with
        | zero => cases v <;> simp [entriesAt]
        | succ i => exact sorted_under (ih i)
      · rintro a b hab ⟨r, x⟩ hr ⟨s, y⟩ hs
        obtain ⟨j, rfl⟩ := Fin.exists_succ_eq.2 (Fin.pos_iff_ne_zero.1 (a.zero_le.trans_lt hab))
        obtain ⟨s', -, rfl⟩ := mem_under.1 hs
        cases a using Fin.cases with
        | zero =>
            obtain ⟨-, rfl⟩ : x ∈ v ∧ r = [] := by cases v <;> simp_all [entriesAt]
            exact List.nil_lt_cons _ _
        | succ i =>
            obtain ⟨r', -, rfl⟩ := mem_under.1 hr
            exact List.cons_lt_cons_iff.2 (.inl (Fin.succ_lt_succ_iff.1 hab))

/-- A tree in normal form has an entry, unless it is empty. -/
lemma entries_eq_nil_iff {t : Tree n β} (h : t.WF) : t.entries = [] ↔ t = nil := by
  refine ⟨fun he => by_contra fun hn => ?_, fun ht => by rw [ht]; rfl⟩
  obtain ⟨r, v, hv⟩ := exists_get h hn
  rw [← mem_entries, he] at hv
  cases hv

/-- Positions without entries can be left out. -/
lemma entriesFrom_eq_flatMap {v : Option β} {kids : Fin n → Tree n β} {P : Fin (n + 1) → Bool}
    (hP : ∀ a, P a = false → entriesAt v (fun i => (kids i).entries) a = []) (a : Fin (n + 1)) :
    (branch v kids).entriesFrom a = ((List.finRange (n + 1)).filter fun b => a ≤ b && P b).flatMap
      (entriesAt v fun i => (kids i).entries) := by
  rw [entriesFrom]
  induction List.finRange (n + 1) with
  | nil => rfl
  | cons b l ih =>
      cases hb : P b with
      | true => by_cases hab : a ≤ b <;> simp [hab, hb, ih]
      | false => by_cases hab : a ≤ b <;> simp [hab, hb, ih, hP b hb]

/-- The positions from a later one on are those that the list has from there on. -/
lemma filter_from_later {P : Fin (n + 1) → Bool} {a c : Fin (n + 1)} {l₀ l : List (Fin (n + 1))}
    (h : ((List.finRange (n + 1)).filter fun x => a ≤ x && P x) = l₀ ++ c :: l) :
    ((List.finRange (n + 1)).filter fun x => c ≤ x && P x) = c :: l := by
  have hs := (List.pairwise_lt_finRange (n + 1)).filter fun x => a ≤ x && P x
  have hc : c ∈ (List.finRange (n + 1)).filter fun x => a ≤ x && P x := by simp [h]
  simp only [List.mem_filter, Bool.and_eq_true, decide_eq_true_eq] at hc
  rw [h] at hs
  obtain ⟨-, hcl, hbefore⟩ := List.pairwise_append.1 hs
  have hfilter : ((List.finRange (n + 1)).filter fun x => c ≤ x && P x) =
      ((List.finRange (n + 1)).filter fun x => a ≤ x && P x).filter (c ≤ ·) := by
    rw [List.filter_filter]
    refine List.filter_congr fun x _ => ?_
    by_cases hx : c ≤ x
    · simp [hx, hc.2.1.trans hx]
    · simp [hx]
  have hfront : l₀.filter (c ≤ ·) = [] := by
    refine List.filter_eq_nil_iff.2 fun x hx => ?_
    simpa using hbefore x hx c (by simp)
  have hback : (c :: l).filter (c ≤ ·) = c :: l := by
    refine List.filter_eq_self.2 fun x hx => ?_
    rcases List.mem_cons.1 hx with rfl | hx
    · simp
    · simpa using ((List.pairwise_cons.1 hcl).1 x hx).le
  rw [hfilter, h, List.filter_append, hfront, hback, List.nil_append]

end Radix.Tree
