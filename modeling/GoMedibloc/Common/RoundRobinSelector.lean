import GoMedibloc.Framework.ObjectHeap
import GoMedibloc.Framework.RoundRobin

/-!
# The round-robin selector

The selector that pending transactions are chosen with, as the code has it: two linked lists of
elements, each of which points to an item with a key and a flag, and a table from keys to elements.
A key that changes its list gets a new element for its item; the table is updated, and the flag of
the item is turned over.

A list of `container/list` is the list of its elements' pointers here.

`Represents` relates a selector to one of `Framework/RoundRobin.lean`, which has the keys themselves
in line and aside: every call does the same to both.  It rests on `Consistent`: each key is in one
list and once there, the table points to its element and the flag names its list.  That the keys are
different is also what keeps a flag from being shared, so that turning it over concerns one key only.
-/

namespace GoMedibloc

/-- What an element of a list points to. -/
structure Item where
  key : String
  included : Bool

/-- A selector: the elements of the two lists, the table of elements, what the elements point to,
and the items. -/
structure RoundRobinSelector where
  incl : List ℕ
  excl : List ℕ
  lookup : Finmap fun _ : String => ℕ
  elements : ObjectHeap ℕ
  items : ObjectHeap Item

namespace RoundRobinSelector

/-! ## The operations -/

/-- `New`. -/
def new : RoundRobinSelector := ⟨[], [], ∅, ⟨fun _ => 0, 0⟩, ⟨fun _ => ⟨"", false⟩, 0⟩⟩

/-- The item of an element. -/
def item (rr : RoundRobinSelector) (e : ℕ) : Item := rr.items.cell (rr.elements.cell e)

/-- `HasNext`. -/
def hasNext (rr : RoundRobinSelector) : Bool := rr.incl.length != 0

/-- `Next`. -/
def next (rr : RoundRobinSelector) : String × RoundRobinSelector :=
  match rr.incl with
  | [] => ("", rr)
  | e :: rest => ((rr.item e).key, { rr with incl := rest ++ [e] })

/-- `swap`. -/
def swap (rr : RoundRobinSelector) (key : String) : RoundRobinSelector :=
  match rr.lookup.lookup key with
  | none => rr
  | some e =>
    let v := rr.elements.cell e
    let e2 := rr.elements.next
    let moved := { rr with
      items := rr.items.modify v fun it => { it with included := !it.included }
      elements := rr.elements.alloc v
      lookup := rr.lookup.insert key e2 }
    if (rr.item e).included then { moved with incl := rr.incl.erase e, excl := rr.excl ++ [e2] }
    else { moved with excl := rr.excl.erase e, incl := rr.incl ++ [e2] }

/-- A new item and a new element for it, which the table points to.  The element is in no list
yet. -/
def create (rr : RoundRobinSelector) (key : String) (included : Bool) : RoundRobinSelector :=
  { rr with
    items := rr.items.alloc ⟨key, included⟩
    elements := rr.elements.alloc rr.items.next
    lookup := rr.lookup.insert key rr.elements.next }

/-- `Include`. -/
def includeKey (rr : RoundRobinSelector) (key : String) : RoundRobinSelector :=
  match rr.lookup.lookup key with
  | none => { rr.create key true with incl := rr.incl ++ [rr.elements.next] }
  | some e => if (rr.item e).included then rr else rr.swap key

/-- `Exclude`. -/
def excludeKey (rr : RoundRobinSelector) (key : String) : RoundRobinSelector :=
  match rr.lookup.lookup key with
  | none => { rr.create key false with excl := rr.excl ++ [rr.elements.next] }
  | some e => if !(rr.item e).included then rr else rr.swap key

/-- `Remove`. -/
def remove (rr : RoundRobinSelector) (key : String) : RoundRobinSelector :=
  match rr.lookup.lookup key with
  | none => rr
  | some e =>
    if (rr.item e).included
    then { rr with incl := rr.incl.erase e, lookup := rr.lookup.erase key }
    else { rr with excl := rr.excl.erase e, lookup := rr.lookup.erase key }

/-- The loop of `Reset`: `none` if it has not ended after the rounds. -/
def resetLoop : ℕ → RoundRobinSelector → Option RoundRobinSelector
  | 0, _ => none
  | rounds + 1, rr =>
    match rr.excl.head? with
    | none => some rr
    | some e => resetLoop rounds (rr.swap (rr.item e).key)

/-- `Reset`, with a round for every excluded element and one to see that there is none left. -/
def reset (rr : RoundRobinSelector) : Option RoundRobinSelector :=
  resetLoop (rr.excl.length + 1) rr

/-- The keys that a call returns, and the selector after it. -/
def act (rr : RoundRobinSelector) : RoundRobin.Call String → Option (List String × RoundRobinSelector)
  | .next => some ([rr.next.1], rr.next.2)
  | .includeKey key => some ([], rr.includeKey key)
  | .excludeKey key => some ([], rr.excludeKey key)
  | .remove key => some ([], rr.remove key)
  | .reset => rr.reset.map fun rr' => ([], rr')

/-- The keys that calls in turn return, and the selector after them. -/
def run : RoundRobinSelector → List (RoundRobin.Call String) →
    Option (List String × RoundRobinSelector)
  | rr, [] => some ([], rr)
  | rr, c :: calls => do
    let done ← rr.act c
    let rest ← run done.2 calls
    return (done.1 ++ rest.1, rest.2)

/-! ## Consistency -/

variable {rr : RoundRobinSelector} {r : RoundRobin String} {e : ℕ} {key : String}

/-- The element is in one of the lists. -/
def Listed (rr : RoundRobinSelector) (e : ℕ) : Prop := e ∈ rr.incl ∨ e ∈ rr.excl

/-- The key of the element. -/
def keyOf (rr : RoundRobinSelector) (e : ℕ) : String := (rr.item e).key

/-- Each key is in one list and once there, the table points to its element, and the flag names its
list. -/
structure Consistent (rr : RoundRobinSelector) : Prop where
  nodup : ((rr.incl ++ rr.excl).map rr.keyOf).Nodup
  lookup : ∀ key e, rr.lookup.lookup key = some e ↔ rr.Listed e ∧ rr.keyOf e = key
  incl : ∀ e ∈ rr.incl, (rr.item e).included = true
  excl : ∀ e ∈ rr.excl, (rr.item e).included = false

/-- The selector has the keys in line and aside.  Its elements and items have been made. -/
structure Represents (rr : RoundRobinSelector) (r : RoundRobin String) : Prop where
  consistent : rr.Consistent
  incl : rr.incl.map rr.keyOf = r.incl
  excl : rr.excl.map rr.keyOf = r.excl
  made : ∀ e, rr.Listed e → e < rr.elements.next ∧ rr.elements.cell e < rr.items.next

lemma represents_new : new.Represents RoundRobin.new where
  consistent :=
    { nodup := List.nodup_nil
      lookup := fun _ _ => ⟨fun h => absurd h (by rw [new, Finmap.lookup_empty]; nofun),
        fun h => absurd h.1 (not_or.2 ⟨List.not_mem_nil, List.not_mem_nil⟩)⟩
      incl := fun _ h => absurd h List.not_mem_nil
      excl := fun _ h => absurd h List.not_mem_nil }
  incl := rfl
  excl := rfl
  made := fun _ h => absurd h (not_or.2 ⟨List.not_mem_nil, List.not_mem_nil⟩)

/-- Elements with the same key are one element. -/
lemma Consistent.eq_of_keyOf (h : rr.Consistent) {e' : ℕ} (he : rr.Listed e) (he' : rr.Listed e')
    (hkey : rr.keyOf e = rr.keyOf e') : e = e' :=
  List.inj_on_of_nodup_map h.nodup (List.mem_append.2 he) (List.mem_append.2 he') hkey

/-- What is left of the keys of a list when an element leaves it, or is not in it. -/
lemma map_erase_of_nodup {l : List ℕ} {f : ℕ → String} (hnodup : (l.map f).Nodup)
    (he : f e ∈ l.map f → e ∈ l) : (l.erase e).map f = (l.map f).erase (f e) := by
  by_cases hmem : e ∈ l
  · obtain ⟨l₁, l₂, -, rfl, herase⟩ := List.exists_erase_eq hmem
    rw [List.map_append, List.map_cons, List.nodup_append] at hnodup
    have hnot : f e ∉ l₁.map f := fun h => hnodup.2.2 _ h _ List.mem_cons_self rfl
    rw [herase, List.map_append, List.map_append, List.map_cons, List.erase_append_right _ hnot,
      List.erase_cons_head]
  · rw [List.erase_of_not_mem hmem, List.erase_of_not_mem fun h => hmem (he h)]

lemma Represents.mem_incl (h : rr.Represents r) : key ∈ r.incl ↔ ∃ e ∈ rr.incl, rr.keyOf e = key := by
  rw [← h.incl, List.mem_map]

lemma Represents.mem_excl (h : rr.Represents r) : key ∈ r.excl ↔ ∃ e ∈ rr.excl, rr.keyOf e = key := by
  rw [← h.excl, List.mem_map]

/-- A key that the table does not have is in no list. -/
lemma Represents.notMem_of_lookup (h : rr.Represents r) (hnone : rr.lookup.lookup key = none) :
    key ∉ r.incl ∧ key ∉ r.excl := by
  have hnot : ∀ e, rr.Listed e → rr.keyOf e ≠ key := fun e he hkey => by
    rw [(h.consistent.lookup key e).2 ⟨he, hkey⟩] at hnone
    cases hnone
  rw [h.mem_incl, h.mem_excl]
  exact ⟨fun ⟨e, he, hkey⟩ => hnot e (.inl he) hkey, fun ⟨e, he, hkey⟩ => hnot e (.inr he) hkey⟩

/-- The element of an included key is in line, and so is the key. -/
lemma Represents.of_included (h : rr.Represents r) (hlookup : rr.lookup.lookup key = some e)
    (hflag : (rr.item e).included = true) : e ∈ rr.incl ∧ rr.keyOf e = key ∧ key ∈ r.incl := by
  obtain ⟨hlisted, hkey⟩ := (h.consistent.lookup key e).1 hlookup
  have he : e ∈ rr.incl := hlisted.resolve_right fun hexcl => by
    rw [h.consistent.excl e hexcl] at hflag
    cases hflag
  exact ⟨he, hkey, h.mem_incl.2 ⟨e, he, hkey⟩⟩

lemma Represents.of_excluded (h : rr.Represents r) (hlookup : rr.lookup.lookup key = some e)
    (hflag : (rr.item e).included = false) : e ∈ rr.excl ∧ rr.keyOf e = key ∧ key ∈ r.excl := by
  obtain ⟨hlisted, hkey⟩ := (h.consistent.lookup key e).1 hlookup
  have he : e ∈ rr.excl := hlisted.resolve_left fun hincl => by
    rw [h.consistent.incl e hincl] at hflag
    cases hflag
  exact ⟨he, hkey, h.mem_excl.2 ⟨e, he, hkey⟩⟩

/-- The lists of keys are what they are in the selector of the framework, so that no key is listed
twice. -/
lemma nodup_of_lists (hincl : rr.incl.map rr.keyOf = r.incl) (hexcl : rr.excl.map rr.keyOf = r.excl) :
    ((rr.incl ++ rr.excl).map rr.keyOf).Nodup := by
  rw [List.map_append, hincl, hexcl]
  exact r.nodup

/-! ## A key leaves -/

/-- An element has been taken out of its list, and its key out of the table. -/
structure Left (rr rr' : RoundRobinSelector) (e : ℕ) (key : String) : Prop where
  incl : rr'.incl = rr.incl.erase e
  excl : rr'.excl = rr.excl.erase e
  lookup : ∀ k, rr'.lookup.lookup k = if k = key then none else rr.lookup.lookup k
  elements : rr'.elements = rr.elements
  items : rr'.items = rr.items

lemma Left.listed {rr' : RoundRobinSelector} (hl : Left rr rr' e key) (h : rr.Consistent) (e' : ℕ) :
    rr'.Listed e' ↔ rr.Listed e' ∧ e' ≠ e := by
  have hnodup := h.nodup
  rw [List.map_append, List.nodup_append] at hnodup
  rw [Listed, hl.incl, hl.excl, (List.Nodup.of_map _ hnodup.1).mem_erase_iff,
    (List.Nodup.of_map _ hnodup.2.1).mem_erase_iff, Listed]
  tauto

/-- The key leaves the keys of the list. -/
lemma Represents.left (h : rr.Represents r) {rr' : RoundRobinSelector} (hl : Left rr rr' e key)
    (hlookup : rr.lookup.lookup key = some e) : rr'.Represents (r.remove key) := by
  obtain ⟨hlisted, hkey⟩ := (h.consistent.lookup key e).1 hlookup
  have hitem : ∀ e', rr'.item e' = rr.item e' := fun e' => by
    rw [item, hl.items, hl.elements, item]
  have hkeyOf : rr'.keyOf = rr.keyOf := funext fun e' => by rw [keyOf, hitem, keyOf]
  have hnodup := h.consistent.nodup
  rw [List.map_append, List.nodup_append] at hnodup
  have hmem : ∀ l : List ℕ, (∀ e' ∈ l, rr.Listed e') → rr.keyOf e ∈ l.map rr.keyOf → e ∈ l := by
    intro l hl hmem
    obtain ⟨e', he', heq⟩ := List.mem_map.1 hmem
    rwa [← h.consistent.eq_of_keyOf (hl e' he') hlisted heq]
  have hincl : rr'.incl.map rr'.keyOf = (r.remove key).incl := by
    rw [hl.incl, hkeyOf, RoundRobin.incl_remove, ← h.incl, ← hkey]
    exact map_erase_of_nodup hnodup.1 (hmem _ fun _ => .inl)
  have hexcl : rr'.excl.map rr'.keyOf = (r.remove key).excl := by
    rw [hl.excl, hkeyOf, RoundRobin.excl_remove, ← h.excl, ← hkey]
    exact map_erase_of_nodup hnodup.2.1 (hmem _ fun _ => .inr)
  have hlisted' := hl.listed h.consistent
  refine ⟨⟨nodup_of_lists hincl hexcl, fun k e' => ?_, fun e' he' => ?_, fun e' he' => ?_⟩, hincl,
    hexcl, fun e' he' => ?_⟩
  · rw [hl.lookup, hlisted', hkeyOf]
    split_ifs with hk
    · refine ⟨nofun, fun ⟨⟨he', hne⟩, hkey'⟩ => absurd ?_ hne⟩
      exact h.consistent.eq_of_keyOf he' hlisted (hkey'.trans (hk.trans hkey.symm))
    · rw [h.consistent.lookup]
      refine ⟨fun ⟨he', hkey'⟩ => ⟨⟨he', ?_⟩, hkey'⟩, fun ⟨⟨he', _⟩, hkey'⟩ => ⟨he', hkey'⟩⟩
      rintro rfl
      exact hk (hkey'.symm.trans hkey)
  · rw [hitem]
    rw [hl.incl] at he'
    exact h.consistent.incl e' (List.mem_of_mem_erase he')
  · rw [hitem]
    rw [hl.excl] at he'
    exact h.consistent.excl e' (List.mem_of_mem_erase he')
  · rw [hl.elements, hl.items]
    exact h.made e' ((hlisted' e').1 he').1

/-- An element in line is not aside, and the other way round. -/
lemma Consistent.notMem_excl (h : rr.Consistent) (he : e ∈ rr.incl) : e ∉ rr.excl := fun hexcl => by
  have hflag := h.incl e he
  rw [h.excl e hexcl] at hflag
  cases hflag

/-- `Remove` of a key in the table. -/
lemma Represents.left_remove (h : rr.Represents r) (hlookup : rr.lookup.lookup key = some e) :
    Left rr (rr.remove key) e key := by
  have hlisted := ((h.consistent.lookup key e).1 hlookup).1
  have htable : ∀ k, (rr.lookup.erase key).lookup k = if k = key then none else rr.lookup.lookup k := by
    intro k
    split_ifs with hk
    · rw [hk, Finmap.lookup_erase]
    · rw [Finmap.lookup_erase_ne hk]
  unfold RoundRobinSelector.remove
  rw [hlookup]
  dsimp only
  split_ifs with hflag
  · have he := (h.of_included hlookup hflag).1
    exact ⟨rfl, (List.erase_of_not_mem (h.consistent.notMem_excl he)).symm, htable, rfl, rfl⟩
  · have he := (h.of_excluded hlookup (Bool.eq_false_of_not_eq_true hflag)).1
    refine ⟨(List.erase_of_not_mem fun hincl => ?_).symm, rfl, htable, rfl, rfl⟩
    exact h.consistent.notMem_excl hincl he

/-- **`Remove`** forgets the key. -/
lemma Represents.remove (h : rr.Represents r) (key : String) :
    (rr.remove key).Represents (r.remove key) := by
  cases hlookup : rr.lookup.lookup key with
  | none =>
      obtain ⟨hincl, hexcl⟩ := h.notMem_of_lookup hlookup
      unfold RoundRobinSelector.remove
      rw [hlookup]
      refine ⟨h.consistent, ?_, ?_, h.made⟩
      · rw [h.incl, RoundRobin.incl_remove, List.erase_of_not_mem hincl]
      · rw [h.excl, RoundRobin.excl_remove, List.erase_of_not_mem hexcl]
  | some e => exact h.left (h.left_remove hlookup) hlookup

/-! ## A key joins -/

/-- An element for the key has been put at the end of a list. -/
structure Joined (rr rr' : RoundRobinSelector) (e : ℕ) (key : String) (included : Bool) : Prop where
  incl : rr'.incl = if included then rr.incl ++ [e] else rr.incl
  excl : rr'.excl = if included then rr.excl else rr.excl ++ [e]
  lookup : ∀ k, rr'.lookup.lookup k = if k = key then some e else rr.lookup.lookup k
  items : ∀ e', rr.Listed e' → rr'.item e' = rr.item e'
  item : rr'.item e = ⟨key, included⟩
  made : ∀ e', rr.Listed e' ∨ e' = e →
    e' < rr'.elements.next ∧ rr'.elements.cell e' < rr'.items.next

lemma Joined.listed {rr' : RoundRobinSelector} {included : Bool}
    (hj : Joined rr rr' e key included) (e' : ℕ) : rr'.Listed e' ↔ rr.Listed e' ∨ e' = e := by
  rw [Listed, Listed, hj.incl, hj.excl]
  cases included <;> simp only [Bool.false_eq_true, if_true, if_false, List.mem_append,
    List.mem_singleton] <;> tauto

/-- The key joins the keys of the list. -/
lemma Represents.joined (h : rr.Represents r) {rr' : RoundRobinSelector} {included : Bool}
    (hj : Joined rr rr' e key included) (hnone : rr.lookup.lookup key = none)
    {r' : RoundRobin String} (hincl : r'.incl = if included then r.incl ++ [key] else r.incl)
    (hexcl : r'.excl = if included then r.excl else r.excl ++ [key]) : rr'.Represents r' := by
  have hkeyOf : ∀ e', rr.Listed e' → rr'.keyOf e' = rr.keyOf e' := fun e' he' => by
    rw [keyOf, hj.items e' he', keyOf]
  have hkey : rr'.keyOf e = key := by rw [keyOf, hj.item]
  have hnot : ∀ e', rr.Listed e' → rr.keyOf e' ≠ key := fun e' he' hk => by
    rw [(h.consistent.lookup key e').2 ⟨he', hk⟩] at hnone
    cases hnone
  have hinclOld : rr.incl.map rr'.keyOf = r.incl := by
    rw [← h.incl]
    exact List.map_congr_left fun e' he' => hkeyOf e' (.inl he')
  have hexclOld : rr.excl.map rr'.keyOf = r.excl := by
    rw [← h.excl]
    exact List.map_congr_left fun e' he' => hkeyOf e' (.inr he')
  have hincl' : rr'.incl.map rr'.keyOf = r'.incl := by
    rw [hj.incl, hincl]
    cases included with
    | false => exact hinclOld
    | true => rw [if_pos rfl, if_pos rfl, List.map_append, List.map_singleton, hkey, hinclOld]
  have hexcl' : rr'.excl.map rr'.keyOf = r'.excl := by
    rw [hj.excl, hexcl]
    cases included with
    | false =>
        rw [if_neg Bool.false_ne_true, if_neg Bool.false_ne_true, List.map_append,
          List.map_singleton, hkey, hexclOld]
    | true => exact hexclOld
  refine ⟨⟨nodup_of_lists hincl' hexcl', fun k e' => ?_, fun e' he' => ?_, fun e' he' => ?_⟩,
    hincl', hexcl', fun e' he' => hj.made e' ((hj.listed e').1 he')⟩
  · rw [hj.lookup, hj.listed]
    split_ifs with hk
    · subst hk
      rw [Option.some_inj]
      constructor
      · rintro rfl
        exact ⟨.inr rfl, hkey⟩
      · rintro ⟨he' | rfl, hk⟩
        · exact absurd ((hkeyOf e' he').symm.trans hk) (hnot e' he')
        · rfl
    · rw [h.consistent.lookup]
      constructor
      · rintro ⟨he', hk'⟩
        exact ⟨.inl he', (hkeyOf e' he').trans hk'⟩
      · rintro ⟨he' | rfl, hk'⟩
        · exact ⟨he', (hkeyOf e' he').symm.trans hk'⟩
        · exact absurd (hk'.symm.trans hkey) hk
  · rw [hj.incl] at he'
    cases included with
    | false => rw [hj.items e' (.inl he'), h.consistent.incl e' he']
    | true =>
        obtain he' | he' := List.mem_append.1 he'
        · rw [hj.items e' (.inl he'), h.consistent.incl e' he']
        · rw [List.mem_singleton.1 he', hj.item]
  · rw [hj.excl] at he'
    cases included with
    | false =>
        obtain he' | he' := List.mem_append.1 he'
        · rw [hj.items e' (.inr he'), h.consistent.excl e' he']
        · rw [List.mem_singleton.1 he', hj.item]
    | true => rw [hj.items e' (.inr he'), h.consistent.excl e' he']

/-- A new element for a key that the table does not have. -/
lemma Represents.joined_create (h : rr.Represents r) {included : Bool} {rr' : RoundRobinSelector}
    (hrr' : rr' = { rr.create key included with
      incl := if included then rr.incl ++ [rr.elements.next] else rr.incl
      excl := if included then rr.excl else rr.excl ++ [rr.elements.next] }) :
    Joined rr rr' rr.elements.next key included := by
  subst hrr'
  have hold : ∀ e', rr.Listed e' → (rr.create key included).elements.cell e' = rr.elements.cell e' :=
    fun e' he' => Function.update_of_ne (h.made e' he').1.ne _ _
  have hnew : (rr.create key included).elements.cell rr.elements.next = rr.items.next :=
    Function.update_self _ _ _
  refine ⟨rfl, rfl, fun k => ?_, fun e' he' => ?_, ?_, fun e' he' => ?_⟩
  · change (rr.lookup.insert key rr.elements.next).lookup k = _
    split_ifs with hk
    · rw [hk, Finmap.lookup_insert]
    · rw [Finmap.lookup_insert_of_ne _ hk]
  · change (rr.create key included).items.cell ((rr.create key included).elements.cell e') = _
    rw [hold e' he']
    exact Function.update_of_ne (h.made e' he').2.ne _ _
  · change (rr.create key included).items.cell
      ((rr.create key included).elements.cell rr.elements.next) = _
    rw [hnew]
    exact Function.update_self _ _ _
  · change e' < rr.elements.next + 1 ∧
      (rr.create key included).elements.cell e' < rr.items.next + 1
    obtain he' | rfl := he'
    · rw [hold e' he']
      have hmade := h.made e' he'
      omega
    · rw [hnew]
      omega

/-- What `swap` does for an element, whichever list it is in. -/
lemma swap_eq (hlookup : rr.lookup.lookup key = some e) :
    (rr.swap key).elements = rr.elements.alloc (rr.elements.cell e) ∧
      (rr.swap key).items = rr.items.modify (rr.elements.cell e)
        (fun it => { it with included := !it.included }) ∧
      (rr.swap key).lookup = rr.lookup.insert key rr.elements.next := by
  unfold RoundRobinSelector.swap
  rw [hlookup]
  dsimp only
  split_ifs <;> exact ⟨rfl, rfl, rfl⟩

/-- `swap` takes the key out of one list and puts it at the end of the other. -/
lemma Represents.joined_swap (h : rr.Represents r) (hlookup : rr.lookup.lookup key = some e) :
    Joined (rr.remove key) (rr.swap key) rr.elements.next key (!(rr.item e).included) := by
  obtain ⟨hlisted, hkey⟩ := (h.consistent.lookup key e).1 hlookup
  have hleft := h.left_remove hlookup
  have hlistedRemove := hleft.listed h.consistent
  obtain ⟨helements, hitems, htable⟩ := swap_eq hlookup
  have hold : ∀ e', rr.Listed e' → (rr.swap key).elements.cell e' = rr.elements.cell e' := by
    intro e' he'
    rw [helements]
    exact Function.update_of_ne (h.made e' he').1.ne _ _
  have hnew : (rr.swap key).elements.cell rr.elements.next = rr.elements.cell e := by
    rw [helements]
    exact Function.update_self _ _ _
  refine ⟨?_, ?_, fun k => ?_, fun e' he' => ?_, ?_, fun e' he' => ?_⟩
  · unfold RoundRobinSelector.swap RoundRobinSelector.remove
    rw [hlookup]
    dsimp only
    cases (rr.item e).included <;> rfl
  · unfold RoundRobinSelector.swap RoundRobinSelector.remove
    rw [hlookup]
    dsimp only
    cases (rr.item e).included <;> rfl
  · rw [htable, hleft.lookup]
    split_ifs with hk
    · rw [hk, Finmap.lookup_insert]
    · rw [Finmap.lookup_insert_of_ne _ hk]
  · -- an element of another key has an item of its own
    obtain ⟨he', hne⟩ := (hlistedRemove e').1 he'
    have hcell : rr.elements.cell e' ≠ rr.elements.cell e := fun heq =>
      hne (h.consistent.eq_of_keyOf he' hlisted (by rw [keyOf, keyOf, item, item, heq]))
    rw [item, item, hold e' he', hitems, hleft.items, hleft.elements]
    exact Function.update_of_ne hcell _ _
  · rw [item, hnew, hitems, ObjectHeap.cell_modify_self, ← hkey]
    rfl
  · rw [helements, hitems]
    change e' < rr.elements.next + 1 ∧ (rr.elements.alloc _).cell e' < rr.items.next
    rw [← helements]
    obtain he' | rfl := he'
    · have he' := ((hlistedRemove e').1 he').1
      have hmade := h.made e' he'
      rw [hold e' he']
      omega
    · have hmade := h.made e hlisted
      rw [hnew]
      omega

/-- **`Include`** puts the key in line. -/
lemma Represents.includeKey (h : rr.Represents r) (key : String) :
    (rr.includeKey key).Represents (r.includeKey key) := by
  cases hlookup : rr.lookup.lookup key with
  | none =>
      obtain ⟨hincl, hexcl⟩ := h.notMem_of_lookup hlookup
      have hjoined : Joined rr (rr.includeKey key) rr.elements.next key true := by
        refine h.joined_create ?_
        rw [RoundRobinSelector.includeKey, hlookup]
        rfl
      refine h.joined hjoined hlookup ?_ ?_
      · rw [RoundRobin.incl_includeKey, if_neg hincl, if_pos rfl]
      · rw [RoundRobin.excl_includeKey, if_neg hincl, List.erase_of_not_mem hexcl, if_pos rfl]
  | some e =>
      rw [RoundRobinSelector.includeKey, hlookup]
      dsimp only
      split_ifs with hflag
      · have hmem := (h.of_included hlookup hflag).2.2
        refine ⟨h.consistent, ?_, ?_, h.made⟩
        · rw [h.incl, RoundRobin.incl_includeKey, if_pos hmem]
        · rw [h.excl, RoundRobin.excl_includeKey, if_pos hmem]
      · rw [Bool.not_eq_true] at hflag
        have hmem := (h.of_excluded hlookup hflag).2.2
        have hnot : key ∉ r.incl := fun hincl => RoundRobin.notMem_excl hincl hmem
        have hjoined := h.joined_swap hlookup
        rw [hflag] at hjoined
        refine (h.remove key).joined hjoined ?_ ?_ ?_
        · rw [(h.left_remove hlookup).lookup, if_pos rfl]
        · rw [RoundRobin.incl_includeKey, if_neg hnot, RoundRobin.incl_remove,
            List.erase_of_not_mem hnot]
          rfl
        · rw [RoundRobin.excl_includeKey, if_neg hnot, RoundRobin.excl_remove]
          rfl

/-- **`Exclude`** puts the key aside. -/
lemma Represents.excludeKey (h : rr.Represents r) (key : String) :
    (rr.excludeKey key).Represents (r.excludeKey key) := by
  cases hlookup : rr.lookup.lookup key with
  | none =>
      obtain ⟨hincl, hexcl⟩ := h.notMem_of_lookup hlookup
      have hjoined : Joined rr (rr.excludeKey key) rr.elements.next key false := by
        refine h.joined_create ?_
        rw [RoundRobinSelector.excludeKey, hlookup]
        rfl
      refine h.joined hjoined hlookup ?_ ?_
      · rw [RoundRobin.incl_excludeKey, if_neg hexcl, List.erase_of_not_mem hincl]
        rfl
      · rw [RoundRobin.excl_excludeKey, if_neg hexcl]
        rfl
  | some e =>
      rw [RoundRobinSelector.excludeKey, hlookup]
      dsimp only
      split_ifs with hflag
      · rw [Bool.not_eq_true'] at hflag
        have hmem := (h.of_excluded hlookup hflag).2.2
        refine ⟨h.consistent, ?_, ?_, h.made⟩
        · rw [h.incl, RoundRobin.incl_excludeKey, if_pos hmem]
        · rw [h.excl, RoundRobin.excl_excludeKey, if_pos hmem]
      · rw [Bool.not_eq_true', Bool.not_eq_false] at hflag
        have hmem := (h.of_included hlookup hflag).2.2
        have hnot : key ∉ r.excl := RoundRobin.notMem_excl hmem
        have hjoined := h.joined_swap hlookup
        rw [hflag] at hjoined
        refine (h.remove key).joined hjoined ?_ ?_ ?_
        · rw [(h.left_remove hlookup).lookup, if_pos rfl]
        · rw [RoundRobin.incl_excludeKey, if_neg hnot, RoundRobin.incl_remove]
          rfl
        · rw [RoundRobin.excl_excludeKey, if_neg hnot, RoundRobin.excl_remove,
            List.erase_of_not_mem hnot]
          rfl

/-! ## The calls -/

/-- **`Next`** returns the first key in line, which goes to the end. -/
lemma Represents.next (h : rr.Represents r) :
    [rr.next.1] = (r.act .next).1 ∧ rr.next.2.Represents (r.act .next).2 := by
  have hkeys := h.incl
  unfold RoundRobinSelector.next
  cases hincl : rr.incl with
  | nil =>
      rw [hincl] at hkeys
      rw [RoundRobin.act, RoundRobin.next_eq_none.2 hkeys.symm]
      exact ⟨rfl, h⟩
  | cons e rest =>
      rw [hincl, List.map_cons] at hkeys
      obtain ⟨hreturned, hline, haside⟩ := RoundRobin.act_next hkeys.symm
      have hmem : ∀ e', e' ∈ rest ++ [e] ↔ e' ∈ rr.incl := fun e' => by
        rw [hincl, List.mem_append, List.mem_singleton, List.mem_cons, or_comm]
      have hincl' : (rest ++ [e]).map rr.keyOf = (r.act .next).2.incl := by
        rw [hline, List.map_append]
        rfl
      have hexcl' : rr.excl.map rr.keyOf = (r.act .next).2.excl := by rw [haside, h.excl]
      have hlisted : ∀ e', { rr with incl := rest ++ [e] }.Listed e' ↔ rr.Listed e' :=
        fun e' => or_congr_left (hmem e')
      refine ⟨hreturned.symm, ⟨nodup_of_lists hincl' hexcl', fun key' e' => ?_, fun e' he' => ?_,
        h.consistent.excl⟩, hincl', hexcl', fun e' he' => h.made e' ((hlisted e').1 he')⟩
      · rw [hlisted]
        exact h.consistent.lookup key' e'
      · exact h.consistent.incl e' ((hmem e').1 he')

/-- The loop of `Reset` ends and brings the keys aside in line, one after the other. -/
lemma Represents.resetLoop (h : rr.Represents r) {rounds : ℕ} (hrounds : rr.excl.length < rounds) :
    ∃ rr', resetLoop rounds rr = some rr' ∧ rr'.Represents r.reset := by
  induction rounds generalizing rr r with
  | zero => exact absurd hrounds (Nat.not_lt_zero _)
  | succ rounds ih =>
      rw [RoundRobinSelector.resetLoop]
      cases hexcl : rr.excl with
      | nil =>
          have haside : r.excl = [] := by rw [← h.excl, hexcl, List.map_nil]
          refine ⟨rr, rfl, h.consistent, ?_, ?_, h.made⟩
          · rw [h.incl, RoundRobin.incl_reset, haside, List.append_nil]
          · rw [h.excl, haside, RoundRobin.reset]
      | cons e rest =>
          have he : e ∈ rr.excl := by rw [hexcl]; exact List.mem_cons_self
          have haside : r.excl = rr.keyOf e :: rest.map rr.keyOf := by
            rw [← h.excl, hexcl, List.map_cons]
          have hnot : rr.keyOf e ∉ r.incl := fun hincl => RoundRobin.notMem_excl hincl (by
            rw [haside]; exact List.mem_cons_self)
          -- the round includes the key of the first element aside
          have hswap : rr.includeKey (rr.keyOf e) = rr.swap (rr.item e).key := by
            rw [RoundRobinSelector.includeKey,
              (h.consistent.lookup _ e).2 ⟨.inr he, rfl⟩]
            dsimp only
            rw [h.consistent.excl e he, if_neg Bool.false_ne_true, keyOf]
          have hround := h.includeKey (rr.keyOf e)
          rw [hswap] at hround
          have haside' : (r.includeKey (rr.keyOf e)).excl = rest.map rr.keyOf := by
            rw [RoundRobin.excl_includeKey, if_neg hnot, haside, List.erase_cons_head]
          have hline' : (r.includeKey (rr.keyOf e)).incl = r.incl ++ [rr.keyOf e] := by
            rw [RoundRobin.incl_includeKey, if_neg hnot]
          have hlength : (rr.swap (rr.item e).key).excl.length < rounds := by
            have hlist := congrArg List.length (hround.excl.trans haside')
            rw [List.length_map, List.length_map] at hlist
            rw [hexcl, List.length_cons] at hrounds
            omega
          obtain ⟨rr', hloop, hrep⟩ := ih hround hlength
          refine ⟨rr', hloop, hrep.consistent, ?_, hrep.excl, hrep.made⟩
          rw [hrep.incl, RoundRobin.incl_reset, RoundRobin.incl_reset, hline', haside', haside,
            List.append_assoc, List.singleton_append]

/-- **Every call** returns, and does what it does to the keys. -/
lemma Represents.act (h : rr.Represents r) (c : RoundRobin.Call String) :
    ∃ rr', rr.act c = some ((r.act c).1, rr') ∧ rr'.Represents (r.act c).2 := by
  cases c with
  | next =>
      obtain ⟨hreturned, hnext⟩ := h.next
      exact ⟨rr.next.2, by rw [← hreturned]; rfl, hnext⟩
  | includeKey key => exact ⟨_, rfl, h.includeKey key⟩
  | excludeKey key => exact ⟨_, rfl, h.excludeKey key⟩
  | remove key => exact ⟨_, rfl, h.remove key⟩
  | reset =>
      obtain ⟨rr', hloop, hrep⟩ := h.resetLoop (Nat.lt_succ_self _)
      exact ⟨rr', by rw [RoundRobinSelector.act, reset, hloop]; rfl, hrep⟩

lemma Represents.run (h : rr.Represents r) (calls : List (RoundRobin.Call String)) :
    ∃ rr', rr.run calls = some ((r.run calls).1, rr') ∧ rr'.Represents (r.run calls).2 := by
  induction calls generalizing rr r with
  | nil => exact ⟨rr, rfl, h⟩
  | cons c calls ih =>
      obtain ⟨rr₁, hact, hrep₁⟩ := h.act c
      obtain ⟨rr', hrun, hrep'⟩ := ih hrep₁
      refine ⟨rr', ?_, hrep'⟩
      rw [RoundRobinSelector.run, hact]
      change (rr₁.run calls).bind _ = _
      rw [hrun]
      rfl

/-! ## Fairness -/

/-- `Next` returns the key, and after calls that do not return it `Next` returns it again. -/
structure Consecutive (rr : RoundRobinSelector) (calls : List (RoundRobin.Call String))
    (key : String) (returned : List String) (rr' : RoundRobinSelector) : Prop where
  first : rr.next.1 = key
  run : rr.next.2.run calls = some (returned, rr')
  others : key ∉ returned
  second : rr'.next.1 = key

/-- The key is in the include list before the calls, after them and between them. -/
def IncludedThroughout (rr : RoundRobinSelector) (calls : List (RoundRobin.Call String))
    (key : String) : Prop :=
  ∀ done, done <+: calls → ∀ returned rr', rr.run done = some (returned, rr') →
    ∃ e ∈ rr'.incl, rr'.keyOf e = key

lemma IncludedThroughout.mem (h : rr.Represents r) {calls : List (RoundRobin.Call String)}
    (hin : rr.IncludedThroughout calls key) {done : List (RoundRobin.Call String)}
    (hdone : done <+: calls) : key ∈ (r.run done).2.incl := by
  obtain ⟨rr', hrun, hrep⟩ := h.run done
  exact hrep.mem_incl.2 (hin done hdone _ _ hrun)

/-- **Round robin is consistent and fair.**  Calls on a new selector return, and leave it consistent.
Between two consecutive returns of a key by `Next` while it stays included, every other key that is
included throughout is returned exactly once. -/
theorem selector_consistent_fair :
    (∀ calls, ∃ returned rr, run new calls = some (returned, rr) ∧ rr.Consistent) ∧
      ∀ before earlier rr, run new before = some (earlier, rr) →
        ∀ calls key returned rr', Consecutive rr calls key returned rr' →
          IncludedThroughout rr.next.2 calls key →
          ∀ other, other ≠ key → IncludedThroughout rr.next.2 calls other →
            returned.count other = 1 := by
  refine ⟨fun calls => ?_, fun before earlier rr hbefore calls key returned rr' hc hkey other hne
    hother => ?_⟩
  · obtain ⟨rr, hrun, hrep⟩ := represents_new.run calls
    exact ⟨_, rr, hrun, hrep.consistent⟩
  · obtain ⟨rr₀, hrun, hrep⟩ := represents_new.run before
    rw [hbefore] at hrun
    cases hrun
    obtain ⟨hfirst, hnext⟩ := hrep.next
    obtain ⟨rr₂, hrun₂, hrep₂⟩ := hnext.run calls
    rw [hc.run] at hrun₂
    cases hrun₂
    refine RoundRobin.fair hne ?_ hc.others (fun done hdone x hx => ?_) ?_
    · rw [← hfirst, hc.first]
    · rw [List.mem_pair] at hx
      obtain rfl | rfl := hx
      · exact hother.mem hnext hdone
      · exact hkey.mem hnext hdone
    · rw [← hrep₂.next.1, hc.second]

/-- Three keys in line, of which one is put aside after the first has been returned, and a fourth
joins: the second key is returned before the first one comes again. -/
theorem second_key_returned_once :
    let calls := [.next, .includeKey "d", .excludeKey "c"]
    ∃ earlier rr returned rr', run new [.includeKey "a", .includeKey "b", .includeKey "c"] =
        some (earlier, rr) ∧ Consecutive rr calls "a" returned rr' ∧
      IncludedThroughout rr.next.2 calls "a" ∧ IncludedThroughout rr.next.2 calls "b" ∧
      returned.count "b" = 1 := by
  intro calls
  obtain ⟨rr, hrr⟩ : ∃ rr, rr = ((new.includeKey "a").includeKey "b").includeKey "c" := ⟨_, rfl⟩
  have hrun : run new [.includeKey "a", .includeKey "b", .includeKey "c"] = some ([], rr) := by
    rw [hrr]
    rfl
  obtain ⟨rr', hrr'⟩ : ∃ rr', rr' = (rr.next.2.next.2.includeKey "d").excludeKey "c" := ⟨_, rfl⟩
  have hconsecutive : Consecutive rr calls "a" [rr.next.2.next.1] rr' := by
    refine ⟨?_, ?_, ?_, ?_⟩
    · rw [hrr]
      decide +kernel
    · rw [hrr']
      rfl
    · rw [hrr]
      decide +kernel
    · rw [hrr', hrr]
      decide +kernel
  have hin : ∀ key, (∀ done ∈ calls.inits, ∀ p ∈ rr.next.2.run done,
      ∃ e ∈ p.2.incl, p.2.keyOf e = key) → IncludedThroughout rr.next.2 calls key :=
    fun key h done hdone returned rr'' hrun =>
      h done ((List.mem_inits _ _).2 hdone) (returned, rr'') hrun
  have ha : IncludedThroughout rr.next.2 calls "a" := hin "a" (by rw [hrr]; decide +kernel)
  have hb : IncludedThroughout rr.next.2 calls "b" := hin "b" (by rw [hrr]; decide +kernel)
  exact ⟨_, rr, _, rr', hrun, hconsecutive, ha, hb,
    selector_consistent_fair.2 _ _ _ hrun _ _ _ _ hconsecutive ha "b" (by decide) hb⟩

end RoundRobinSelector

end GoMedibloc
