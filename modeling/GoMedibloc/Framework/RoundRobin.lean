import Mathlib

/-!
# Round-robin selection

Keys are handed out in turn: the key at the front of the line is returned and goes to its end.  A
key that is excluded waits aside until it is included again or the selector is reset.  No key is in
line twice or both in line and aside.

The selector is fair (`fair`).  While two keys stay in line, no call but `next` changes which of them
is in front of the other, and `next` moves the one in front only if it returns it.  A key that has
been returned is behind every other, and has to be in front of them when it is returned again: in
between, each of them was returned once.
-/

/-- A selector: the keys in line and the keys aside. -/
structure RoundRobin (κ : Type*) where
  incl : List κ
  excl : List κ
  nodup : (incl ++ excl).Nodup

namespace RoundRobin

variable {κ : Type*} {rr rr' : RoundRobin κ} {key k : κ}

/-- A selector without keys. -/
def new : RoundRobin κ := ⟨[], [], List.nodup_nil⟩

/-- The keys that the selector has, in line or aside. -/
def keys (rr : RoundRobin κ) : List κ := rr.incl ++ rr.excl

lemma mem_keys : k ∈ rr.keys ↔ k ∈ rr.incl ∨ k ∈ rr.excl := List.mem_append

lemma nodup_incl (rr : RoundRobin κ) : rr.incl.Nodup := (List.nodup_append.1 rr.nodup).1

lemma nodup_excl (rr : RoundRobin κ) : rr.excl.Nodup := (List.nodup_append.1 rr.nodup).2.1

lemma notMem_excl (h : k ∈ rr.incl) : k ∉ rr.excl := fun hexcl =>
  (List.nodup_append.1 rr.nodup).2.2 k h k hexcl rfl

/-- The key at the front, which goes to the end of the line. -/
def next (rr : RoundRobin κ) : Option (κ × RoundRobin κ) :=
  match rr with
  | ⟨[], _, _⟩ => none
  | ⟨key :: incl, excl, h⟩ => some (key, ⟨incl ++ [key], excl, by
      rw [List.append_assoc]
      exact (List.perm_middle.nodup_iff).2 h⟩)

lemma next_eq_none : rr.next = none ↔ rr.incl = [] := by
  obtain ⟨_ | ⟨key, incl⟩, excl, h⟩ := rr
  · exact ⟨fun _ => rfl, fun _ => rfl⟩
  · exact ⟨nofun, nofun⟩

/-- What `next` does to the line. -/
lemma next_eq_some (h : rr.next = some (key, rr')) :
    ∃ rest, rr.incl = key :: rest ∧ rr'.incl = rest ++ [key] ∧ rr'.excl = rr.excl := by
  obtain ⟨_ | ⟨key', incl⟩, excl, hnodup⟩ := rr
  · cases h
  · cases h
    exact ⟨incl, rfl, rfl, rfl⟩

lemma mem_keys_next (h : rr.next = some (key, rr')) : k ∈ rr'.keys ↔ k ∈ rr.keys := by
  obtain ⟨rest, hincl, hincl', hexcl⟩ := next_eq_some h
  rw [mem_keys, mem_keys, hincl, hincl', hexcl]
  simp only [List.mem_append, List.mem_cons, List.not_mem_nil, or_false]
  tauto

lemma key_mem_next (h : rr.next = some (key, rr')) : key ∈ rr'.incl := by
  obtain ⟨rest, -, hincl', -⟩ := next_eq_some h
  rw [hincl']
  exact List.mem_append_right _ (List.mem_singleton.2 rfl)

lemma length_next (h : rr.next = some (key, rr')) : rr'.incl.length = rr.incl.length := by
  obtain ⟨rest, hincl, hincl', -⟩ := next_eq_some h
  rw [hincl, hincl', List.length_append, List.length_singleton, List.length_cons]

/-- All keys aside go to the end of the line. -/
def reset (rr : RoundRobin κ) : RoundRobin κ :=
  ⟨rr.incl ++ rr.excl, [], by rw [List.append_nil]; exact rr.nodup⟩

lemma incl_reset : rr.reset.incl = rr.incl ++ rr.excl := rfl

lemma mem_keys_reset : k ∈ rr.reset.keys ↔ k ∈ rr.keys := by
  simp only [mem_keys, reset, List.mem_append, List.not_mem_nil, or_false]

variable [DecidableEq κ]

/-- Put a key at the end of the line, if it is not in line. -/
def includeKey (rr : RoundRobin κ) (key : κ) : RoundRobin κ :=
  if h : key ∈ rr.incl then rr
  else ⟨rr.incl ++ [key], rr.excl.erase key, by
    rw [List.append_assoc]
    refine List.perm_middle.nodup_iff.2 (List.nodup_cons.2 ⟨?_, ?_⟩)
    · rw [List.mem_append, not_or]
      exact ⟨h, rr.nodup_excl.not_mem_erase⟩
    · exact rr.nodup.sublist ((List.erase_sublist).append_left _)⟩

/-- Put a key aside, if it is not aside. -/
def excludeKey (rr : RoundRobin κ) (key : κ) : RoundRobin κ :=
  if h : key ∈ rr.excl then rr
  else ⟨rr.incl.erase key, rr.excl ++ [key], by
    rw [← List.append_assoc, List.nodup_append_comm, List.singleton_append, List.nodup_cons,
      List.mem_append, not_or]
    exact ⟨⟨rr.nodup_incl.not_mem_erase, h⟩,
      rr.nodup.sublist ((List.erase_sublist).append_right _)⟩⟩

/-- Forget a key. -/
def remove (rr : RoundRobin κ) (key : κ) : RoundRobin κ :=
  ⟨rr.incl.erase key, rr.excl.erase key,
    rr.nodup.sublist (List.erase_sublist.append List.erase_sublist)⟩

lemma incl_remove : (rr.remove key).incl = rr.incl.erase key := rfl

lemma excl_remove : (rr.remove key).excl = rr.excl.erase key := rfl

lemma incl_includeKey :
    (rr.includeKey key).incl = if key ∈ rr.incl then rr.incl else rr.incl ++ [key] := by
  unfold includeKey
  split_ifs <;> rfl

lemma excl_includeKey :
    (rr.includeKey key).excl = if key ∈ rr.incl then rr.excl else rr.excl.erase key := by
  unfold includeKey
  split_ifs <;> rfl

lemma incl_excludeKey :
    (rr.excludeKey key).incl = if key ∈ rr.excl then rr.incl else rr.incl.erase key := by
  unfold excludeKey
  split_ifs <;> rfl

lemma excl_excludeKey :
    (rr.excludeKey key).excl = if key ∈ rr.excl then rr.excl else rr.excl ++ [key] := by
  unfold excludeKey
  split_ifs <;> rfl

/-! ## The keys of a selector -/

lemma mem_keys_includeKey : k ∈ (rr.includeKey key).keys ↔ k = key ∨ k ∈ rr.keys := by
  unfold includeKey
  split_ifs with h
  · refine ⟨.inr, ?_⟩
    rintro (rfl | hk)
    · exact mem_keys.2 (.inl h)
    · exact hk
  · simp only [mem_keys, List.mem_append, List.mem_singleton, rr.nodup_excl.mem_erase_iff]
    tauto

lemma mem_keys_excludeKey : k ∈ (rr.excludeKey key).keys ↔ k = key ∨ k ∈ rr.keys := by
  unfold excludeKey
  split_ifs with h
  · refine ⟨.inr, ?_⟩
    rintro (rfl | hk)
    · exact mem_keys.2 (.inr h)
    · exact hk
  · simp only [mem_keys, List.mem_append, List.mem_singleton, rr.nodup_incl.mem_erase_iff]
    tauto

lemma mem_keys_remove : k ∈ (rr.remove key).keys ↔ k ≠ key ∧ k ∈ rr.keys := by
  simp only [mem_keys, remove, rr.nodup_incl.mem_erase_iff, rr.nodup_excl.mem_erase_iff]
  tauto

/-- A key that is put aside leaves the line. -/
lemma length_excludeKey (h : key ∈ rr.incl) :
    (rr.excludeKey key).incl.length + 1 = rr.incl.length := by
  rw [excludeKey, dif_neg (notMem_excl h)]
  exact List.length_erase_add_one h

/-! ## Calls in turn -/

/-- A call on a selector. -/
inductive Call (κ : Type*) where
  | next
  | includeKey (key : κ)
  | excludeKey (key : κ)
  | remove (key : κ)
  | reset

/-- The key that the call hands out, if any, and the selector after it.  An empty line hands out the
default key. -/
def act [Inhabited κ] (rr : RoundRobin κ) : Call κ → List κ × RoundRobin κ
  | .next => match rr.next with
    | none => ([default], rr)
    | some (key, rr') => ([key], rr')
  | .includeKey key => ([], rr.includeKey key)
  | .excludeKey key => ([], rr.excludeKey key)
  | .remove key => ([], rr.remove key)
  | .reset => ([], rr.reset)

/-- The keys that the calls hand out, and the selector after them. -/
def run [Inhabited κ] : RoundRobin κ → List (Call κ) → List κ × RoundRobin κ
  | rr, [] => ([], rr)
  | rr, c :: calls =>
    let done := rr.act c
    let rest := run done.2 calls
    (done.1 ++ rest.1, rest.2)

/-! ## Fairness -/

variable {j : κ} {l : List κ}

/-- Keys that stay in line when another one leaves it keep their order. -/
lemma sublist_erase (hl : l.Sublist rr.incl) (hstay : ∀ k ∈ l, k ∈ rr.incl.erase key) :
    l.Sublist (rr.incl.erase key) := by
  have hkey : key ∉ l := fun h => rr.nodup_incl.not_mem_erase (hstay key h)
  have herase := hl.erase key
  rwa [List.erase_of_not_mem hkey] at herase

/-- Keys that stay in line keep their order when the line does not move. -/
lemma sublist_act [Inhabited κ] {c : Call κ} (hc : c ≠ .next) (hl : l.Sublist rr.incl)
    (hstay : ∀ k ∈ l, k ∈ (rr.act c).2.incl) : l.Sublist (rr.act c).2.incl ∧ (rr.act c).1 = [] := by
  refine ⟨?_, ?_⟩
  · cases c with
    | next => exact absurd rfl hc
    | includeKey key =>
        change l.Sublist (rr.includeKey key).incl
        unfold includeKey
        split_ifs
        · exact hl
        · exact hl.trans (List.sublist_append_left _ _)
    | excludeKey key =>
        change ∀ k ∈ l, k ∈ (rr.excludeKey key).incl at hstay
        change l.Sublist (rr.excludeKey key).incl
        unfold excludeKey at hstay ⊢
        split_ifs at hstay ⊢
        · exact hl
        · exact sublist_erase hl hstay
    | remove key => exact sublist_erase hl hstay
    | reset => exact hl.trans (List.sublist_append_left _ _)
  · cases c with
    | next => exact absurd rfl hc
    | includeKey key => rfl
    | excludeKey key => rfl
    | remove key => rfl
    | reset => rfl

lemma act_next [Inhabited κ] {rest : List κ} (h : rr.incl = key :: rest) :
    (rr.act .next).1 = [key] ∧ (rr.act .next).2.incl = rest ++ [key] ∧
      (rr.act .next).2.excl = rr.excl := by
  obtain ⟨incl, excl, hnodup⟩ := rr
  cases h
  exact ⟨rfl, rfl, rfl⟩

/-- **One call.**  Of two keys that are in line before and after a call that does not hand out the
second: if the first is behind, it is not handed out and stays behind; if it is in front, it stays
there or is handed out and goes behind. -/
lemma act_order [Inhabited κ] (hjk : j ≠ k) {c : Call κ} (hk : k ∉ (rr.act c).1)
    (hstay : ∀ x ∈ [j, k], x ∈ (rr.act c).2.incl) :
    ([k, j].Sublist rr.incl → (rr.act c).1.count j = 0 ∧ [k, j].Sublist (rr.act c).2.incl) ∧
      ([j, k].Sublist rr.incl → (rr.act c).1.count j = 0 ∧ [j, k].Sublist (rr.act c).2.incl ∨
        (rr.act c).1.count j = 1 ∧ [k, j].Sublist (rr.act c).2.incl) := by
  by_cases hc : c = .next
  · subst hc
    cases hincl : rr.incl with
    | nil => exact ⟨fun h => absurd h (by simp), fun h => absurd h (by simp)⟩
    | cons f rest =>
        obtain ⟨hreturned, hincl', -⟩ := act_next hincl
        rw [hreturned, List.mem_singleton] at hk
        rw [hreturned, hincl']
        have hnodup := rr.nodup_incl
        rw [hincl, List.nodup_cons] at hnodup
        refine ⟨fun h => ?_, fun h => ?_⟩
        · have hrest : [k, j].Sublist rest := List.Sublist.of_cons_of_ne hk h
          have hfj : f ≠ j := by
            rintro rfl
            exact hnodup.1 (hrest.subset (by simp))
          exact ⟨List.count_singleton.trans (by simp [hfj]),
            hrest.trans (List.sublist_append_left _ _)⟩
        · by_cases hfj : f = j
          · subst hfj
            have hkr : [k].Sublist rest := (List.cons_sublist_cons.1 h)
            exact .inr ⟨by simp, hkr.append (List.Sublist.refl [f])⟩
          · have hrest : [j, k].Sublist rest := List.Sublist.of_cons_of_ne (Ne.symm hfj) h
            exact .inl ⟨List.count_singleton.trans (by simp [hfj]),
              hrest.trans (List.sublist_append_left _ _)⟩
  · refine ⟨fun h => ?_, fun h => .inl ?_⟩
    · obtain ⟨hsub, hnone⟩ := sublist_act hc h fun x hx => hstay x (by simpa [or_comm] using hx)
      exact ⟨by rw [hnone]; rfl, hsub⟩
    · obtain ⟨hsub, hnone⟩ := sublist_act hc h hstay
      exact ⟨by rw [hnone]; rfl, hsub⟩

/-- **Calls in turn.** -/
lemma run_order [Inhabited κ] (hjk : j ≠ k) {calls : List (Call κ)} (hk : k ∉ (rr.run calls).1)
    (hstay : ∀ done, done <+: calls → ∀ x ∈ [j, k], x ∈ (rr.run done).2.incl) :
    ([k, j].Sublist rr.incl → (rr.run calls).1.count j = 0 ∧ [k, j].Sublist (rr.run calls).2.incl) ∧
      ([j, k].Sublist rr.incl → (rr.run calls).1.count j = 0 ∧ [j, k].Sublist (rr.run calls).2.incl ∨
        (rr.run calls).1.count j = 1 ∧ [k, j].Sublist (rr.run calls).2.incl) := by
  induction calls generalizing rr with
  | nil => exact ⟨fun h => ⟨rfl, h⟩, fun h => .inl ⟨rfl, h⟩⟩
  | cons c calls ih =>
      simp only [run, List.mem_append, not_or] at hk
      have hstay₁ := hstay [c] (List.prefix_append [c] calls)
      obtain ⟨hbehind, hfront⟩ := act_order hjk hk.1 hstay₁
      have hrest := ih hk.2 fun done hdone =>
        hstay (c :: done) (List.cons_prefix_cons.2 ⟨rfl, hdone⟩)
      simp only [run, List.count_append]
      refine ⟨fun h => ?_, fun h => ?_⟩
      · obtain ⟨hcount, hline⟩ := hbehind h
        obtain ⟨hcount', hline'⟩ := hrest.1 hline
        exact ⟨by omega, hline'⟩
      · obtain ⟨hcount, hline⟩ | ⟨hcount, hline⟩ := hfront h
        · obtain ⟨hcount', hline'⟩ | ⟨hcount', hline'⟩ := hrest.2 hline
          · exact .inl ⟨by omega, hline'⟩
          · exact .inr ⟨by omega, hline'⟩
        · obtain ⟨hcount', hline'⟩ := hrest.1 hline
          exact .inr ⟨by omega, hline'⟩

/-- **Fairness.**  Between two hand-outs of a key, every other key that is in line all the time is
handed out once. -/
lemma fair [Inhabited κ] (hjk : j ≠ k) {calls : List (Call κ)} (hfirst : (rr.act .next).1 = [k])
    (hk : k ∉ ((rr.act .next).2.run calls).1)
    (hstay : ∀ done, done <+: calls → ∀ x ∈ [j, k], x ∈ ((rr.act .next).2.run done).2.incl)
    (hsecond : (((rr.act .next).2.run calls).2.act .next).1 = [k]) :
    ((rr.act .next).2.run calls).1.count j = 1 := by
  have horder := (run_order hjk hk hstay).2
  have hstart := hstay [] (List.nil_prefix)
  obtain ⟨rr₁, hrr₁⟩ : ∃ rr₁, rr₁ = (rr.act .next).2 := ⟨_, rfl⟩
  rw [← hrr₁] at horder hstart hsecond ⊢
  change ∀ x ∈ [j, k], x ∈ rr₁.incl at hstart
  -- the key is at the end of the line at first
  have hline : [j, k].Sublist rr₁.incl := by
    cases hincl : rr.incl with
    | nil =>
        have hsame : rr₁ = rr := by rw [hrr₁, act, next_eq_none.2 hincl]
        have hnil := hstart k (by simp)
        rw [hsame, hincl] at hnil
        exact absurd hnil List.not_mem_nil
    | cons f rest =>
        obtain ⟨hreturned, hincl', -⟩ := act_next hincl
        rw [hreturned, List.singleton_inj] at hfirst
        subst hfirst
        rw [← hrr₁] at hincl'
        have hj := hstart j (by simp)
        rw [hincl', List.mem_append, List.mem_singleton, or_iff_left hjk] at hj
        rw [hincl']
        exact (List.singleton_sublist.2 hj).append (List.Sublist.refl [f])
  obtain ⟨-, hfront⟩ | ⟨hcount, -⟩ := horder hline
  · -- and in front of it at last
    cases hincl : (rr₁.run calls).2.incl with
    | nil =>
        rw [hincl] at hfront
        exact absurd hfront (by simp)
    | cons f rest =>
        rw [(act_next hincl).1, List.singleton_inj] at hsecond
        subst hsecond
        have hnodup := (rr₁.run calls).2.nodup_incl
        rw [hincl, List.nodup_cons] at hnodup
        rw [hincl] at hfront
        exact absurd ((List.Sublist.of_cons_of_ne hjk hfront).subset (by simp)) hnodup.1
  · exact hcount

end RoundRobin
