import GoMedibloc.Trie.Session
import Mathlib.Data.Finmap

/-!
# Batches

The program of `common/trie/batch.go`.  Between `beginBatch` and its end a batch collects
writes in `dirties`; `Get` looks there first.  `commit` replays the writes on the trie in the
order in which Go's `range` visits the map, which is any order.

Every operation inside a batch answers as on a plain map, and `rollBack` leaves the trie as it
was.  `commit` need not leave the contents that the plain map has at the end: a key that was
absent before the batch and was put and deleted inside it is deleted on the trie although it
is absent there, and this may swallow a shorter key (`Swallows`).  `CommitSafe` is the exact
condition under which this happens in no order (`batch_is_overlay`).  In a prepared trie the
replayed writes must meet the conditions on its cache besides (`SessionOk`).
-/

namespace GoMedibloc

open Prog Radix Trie

/-- An uncommitted write. -/
structure Dirty where
  value : Bytes
  deleteFlag : Bool
  deriving DecidableEq

/-- A trie with uncommitted writes. -/
structure Batch where
  trie : Trie
  batching : Bool
  dirties : Finmap fun _ : Bytes => Dirty

/-- A program on a batch. -/
abbrev BatchM := Prog Batch TrieErr

namespace Batch

/-- Run a program on the trie of a batch. -/
def onTrie {α : Type} (x : TrieM α) : BatchM α := fun b =>
  ((x b.trie).1, { b with trie := (x b.trie).2 })

/-- `NewBatch`. -/
def newBatch (rootHash : Hash) (storage : Storage) : Except TrieErr Batch :=
  (newTrie rootHash storage).map fun t => ⟨t, false, ∅⟩

/-- `Batch.Clone`. -/
def clone (b : Batch) : Except TrieErr Batch :=
  if b.batching then .error .cannotPerformInBatch
  else b.trie.clone.map fun t => ⟨t, false, ∅⟩

/-- `Batch.BeginBatch`. -/
def beginBatch : BatchM Unit := do
  let b ← Prog.read
  if b.batching then Prog.fail .cannotPerformInBatch
  else Prog.update fun b => { b with dirties := ∅, batching := true }

variable (C : NodeCodec)

/-- Replay one write; that a deleted key is not there is no error. -/
def commitEntry (key : Bytes) (d : Dirty) : TrieM Unit :=
  if d.deleteFlag then fun t =>
    match deleteKey C key t with
    | (.error .notFound, t') => (.ok (), t')
    | res => res
  else Trie.put C key d.value

/-- The loop of `Batch.Commit`. -/
def commitLoop (dirties : Finmap fun _ : Bytes => Dirty) : List Bytes → TrieM Unit
  | [] => pure ()
  | key :: order =>
      match dirties.lookup key with
      | none => commitLoop dirties order
      | some d => do
          commitEntry C key d
          commitLoop dirties order

/-- `Batch.Commit`; `order` is the order in which Go's `range` visits the dirty keys. -/
def commit (order : List Bytes) : BatchM Unit := do
  let b ← Prog.read
  if b.batching then do
    onTrie (commitLoop C b.dirties order)
    Prog.update fun b => { b with dirties := ∅, batching := false }
  else Prog.fail .notBatching

/-- `Batch.RollBack`. -/
def rollBack : BatchM Unit := do
  let b ← Prog.read
  if b.batching then Prog.update fun b => { b with dirties := ∅, batching := false }
  else Prog.fail .notBatching

/-- `Batch.batchDelete`. -/
def batchDelete (key : Bytes) : BatchM Unit := do
  let b ← Prog.read
  match b.dirties.lookup key with
  | some d =>
      if d.deleteFlag then Prog.fail .notFound
      else Prog.update fun b => { b with dirties := b.dirties.insert key ⟨d.value, true⟩ }
  | none => do
      let _ ← onTrie (Trie.get C key)
      Prog.update fun b => { b with dirties := b.dirties.insert key ⟨[], true⟩ }

/-- `Batch.Delete`. -/
def delete (key : Bytes) : BatchM Unit := do
  let b ← Prog.read
  if b.batching then batchDelete C key else onTrie (deleteKey C key)

/-- `Batch.batchGet`. -/
def batchGet (key : Bytes) : BatchM Bytes := do
  let b ← Prog.read
  match b.dirties.lookup key with
  | some d => if d.deleteFlag then Prog.fail .notFound else pure d.value
  | none => onTrie (Trie.get C key)

/-- `Batch.Get`. -/
def get (key : Bytes) : BatchM Bytes := do
  let b ← Prog.read
  if b.batching then batchGet C key else onTrie (Trie.get C key)

/-- `Batch.batchPut`. -/
def batchPut (key value : Bytes) : BatchM Unit :=
  Prog.update fun b => { b with dirties := b.dirties.insert key ⟨value, false⟩ }

/-- `Batch.Put`. -/
def put (key value : Bytes) : BatchM Unit := do
  let b ← Prog.read
  if b.batching then batchPut key value else onTrie (Trie.put C key value)

/-- `Batch.RootHash`. -/
def rootHash : BatchM Hash := do
  let b ← Prog.read
  if b.batching then Prog.fail .cannotPerformInBatch else pure b.trie.rootHash

end Batch

/-- Run an operation on a batch. -/
def TrieOp.runBatch (C : NodeCodec) : TrieOp → BatchM (Option Bytes)
  | put key value => do
      Batch.put C key value
      pure none
  | delete key => do
      Batch.delete C key
      pure none
  | get key => do
      let value ← Batch.get C key
      pure (some value)

/-- The batch after a run. -/
def runBatch (C : NodeCodec) (ops : List TrieOp) (b : Batch) : Batch :=
  ops.foldl (fun b op => (op.runBatch C b).2) b

/-- The operation that replays a write. -/
def Dirty.op (key : Bytes) (d : Dirty) : TrieOp :=
  if d.deleteFlag then .delete key else .put key d.value

/-- The operations that `Commit` replays. -/
def writes (dirties : Finmap fun _ : Bytes => Dirty) (order : List Bytes) : List TrieOp :=
  order.filterMap fun key => (dirties.lookup key).map (Dirty.op key)

/-- Every operation of the run answers as on a plain map. -/
def Answered (C : NodeCodec) : List TrieOp → Contents → Batch → Prop
  | [], _, _ => True
  | op :: ops, m, b =>
      (op.runBatch C b).1 = op.answer m ∧ Answered C ops (op.apply m) (op.runBatch C b).2

/-- No order of replaying the writes of a batch loses a key.  `m` are the contents before the
batch, `m'` those at its end and `puts` the keys that are put: every such key that is there
neither before nor after the batch has, for every proper prefix that is there at the end,
another key that extends this prefix and is there before and after the batch. -/
def ReplaySafe (m m' : Contents) (puts : Set Bytes) : Prop :=
  ∀ k ∈ puts, m k = none → m' k = none →
    ∀ p, p <+: k → p ≠ k → m' p ≠ none → ∃ q, p <+: q ∧ q ≠ p ∧ m q ≠ none ∧ m' q ≠ none

variable {C : NodeCodec} {u : PatriciaTree} {b : Batch} {m m' n : Contents} {puts : Set Bytes}
  {mode : Bool}

/-! ## Operations inside a batch -/

/-- Inside a batch: the trie stores the tree `u`, the plain map has the contents `m'`, and the
keys `puts` have been put; `mode` says whether the trie is prepared. -/
structure Overlays (C : NodeCodec) (mode : Bool) (u : PatriciaTree) (m' : Contents)
    (puts : Set Bytes) (b : Batch) : Prop where
  batching : b.batching = true
  stores : Stores C u b.trie
  prepared : b.trie.prepared = mode
  untouched : ∀ k, b.dirties.lookup k = none → m' k = treeContents u k ∧ k ∉ puts
  dirty : ∀ k d, b.dirties.lookup k = some d →
    m' k = if d.deleteFlag then none else some d.value
  origin : ∀ k d, b.dirties.lookup k = some d → treeContents u k = none → k ∈ puts

/-- A write of the batch. -/
lemma Overlays.insert (h : Overlays C mode u m' puts b) {key : Bytes} {d : Dirty} {t : Trie}
    (ht : Became C u b.trie t) {puts' : Set Bytes} (hle : puts ⊆ puts')
    (hputs : ∀ k ∈ puts', k = key ∨ k ∈ puts) (horigin : treeContents u key = none → key ∈ puts') :
    Overlays C mode u (Function.update m' key (if d.deleteFlag then none else some d.value)) puts'
      { b with trie := t, dirties := b.dirties.insert key d } where
  batching := h.batching
  stores := ht.stores
  prepared := ht.prepared.trans h.prepared
  untouched := by
    intro k hk
    by_cases hkey : k = key
    · subst hkey
      rw [Finmap.lookup_insert] at hk
      cases hk
    · rw [Finmap.lookup_insert_of_ne _ hkey] at hk
      rw [Function.update_of_ne hkey]
      exact ⟨(h.untouched k hk).1, fun hm => (hputs k hm).elim hkey (h.untouched k hk).2⟩
  dirty := by
    intro k d' hk
    by_cases hkey : k = key
    · subst hkey
      rw [Finmap.lookup_insert] at hk
      cases hk
      rw [Function.update_self]
    · rw [Finmap.lookup_insert_of_ne _ hkey] at hk
      rw [Function.update_of_ne hkey]
      exact h.dirty k d' hk
  origin := by
    intro k d' hk hnone
    by_cases hkey : k = key
    · subst hkey
      exact horigin hnone
    · rw [Finmap.lookup_insert_of_ne _ hkey] at hk
      exact hle (h.origin k d' hk hnone)

/-- Reading the trie of the batch. -/
lemma Overlays.reads (h : Overlays C mode u m' puts b) {t : Trie} (ht : Became C u b.trie t) :
    Overlays C mode u m' puts { b with trie := t } :=
  { h with
    stores := ht.stores
    prepared := ht.prepared.trans h.prepared }

lemma Overlays.onTrie_get (h : Overlays C mode u m' puts b) (key : Bytes) :
    ∃ t, Batch.onTrie (Trie.get C key) b =
      (lookupResult (treeContents u key), { b with trie := t }) ∧ Became C u b.trie t := by
  obtain ⟨t, hrun, ht⟩ := get_finds h.stores key
  exact ⟨t, by rw [Batch.onTrie, hrun], ht⟩

/-- The keys that an operation puts. -/
def TrieOp.putKeys : TrieOp → Set Bytes
  | put key _ => {key}
  | _ => ∅

/-- An operation inside a batch answers as on a plain map. -/
lemma Overlays.run (h : Overlays C mode u m' puts b) (op : TrieOp) :
    (op.runBatch C b).1 = op.answer m' ∧
      Overlays C mode u (op.apply m') (puts ∪ op.putKeys) (op.runBatch C b).2 := by
  cases op with
  | put key value =>
      have hrun : TrieOp.runBatch C (.put key value) b =
          (.ok none, { b with dirties := b.dirties.insert key ⟨value, false⟩ }) := by
        simp [TrieOp.runBatch, Batch.put, Batch.batchPut, bind_apply, h.batching]
      rw [hrun]
      refine ⟨rfl, h.insert (d := ⟨value, false⟩) (Became.refl h.stores) Set.subset_union_left
        ?_ fun _ => .inr rfl⟩
      rintro k (hk | hk)
      · exact .inr hk
      · exact .inl hk
  | get key =>
      have hempty : puts ∪ (TrieOp.get key).putKeys = puts := Set.union_empty puts
      rw [hempty]
      cases hd : b.dirties.lookup key with
      | some d =>
          have hm := h.dirty key d hd
          have hrun : TrieOp.runBatch C (.get key) b = ((lookupResult (m' key)).map some, b) := by
            cases hflag : d.deleteFlag <;>
              simp [TrieOp.runBatch, Batch.get, Batch.batchGet, bind_apply, h.batching, hd, hm,
                hflag, lookupResult, Except.map]
          rw [hrun]
          exact ⟨rfl, h⟩
      | none =>
          obtain ⟨t, hget, ht⟩ := h.onTrie_get key
          have hm := (h.untouched key hd).1
          have hrun : TrieOp.runBatch C (.get key) b =
              ((lookupResult (m' key)).map some, { b with trie := t }) := by
            rw [hm]
            cases hv : treeContents u key <;>
              simp [TrieOp.runBatch, Batch.get, Batch.batchGet, bind_apply, h.batching, hd, hget,
                hv, lookupResult, Except.map]
          rw [hrun]
          exact ⟨rfl, h.reads ht⟩
  | delete key =>
      have hempty : puts ∪ (TrieOp.delete key).putKeys = puts := Set.union_empty puts
      rw [hempty]
      cases hd : b.dirties.lookup key with
      | some d =>
          have hm := h.dirty key d hd
          cases hflag : d.deleteFlag with
          | true =>
              rw [hflag, if_pos rfl] at hm
              have hrun : TrieOp.runBatch C (.delete key) b = (.error .notFound, b) := by
                simp [TrieOp.runBatch, Batch.delete, Batch.batchDelete, bind_apply, h.batching, hd,
                  hflag]
              rw [hrun]
              refine ⟨by simp [TrieOp.answer, hm], ?_⟩
              rw [TrieOp.apply, ← hm, Function.update_eq_self]
              exact h
          | false =>
              rw [hflag, if_neg (by simp)] at hm
              have hrun : TrieOp.runBatch C (.delete key) b =
                  (.ok none, { b with dirties := b.dirties.insert key ⟨d.value, true⟩ }) := by
                simp [TrieOp.runBatch, Batch.delete, Batch.batchDelete, bind_apply, h.batching, hd,
                  hflag]
              rw [hrun]
              exact ⟨by simp [TrieOp.answer, hm], h.insert (d := ⟨d.value, true⟩)
                (Became.refl h.stores) subset_rfl (fun k hk => .inr hk) (h.origin key d hd)⟩
      | none =>
          obtain ⟨t, hget, ht⟩ := h.onTrie_get key
          have hm := (h.untouched key hd).1
          cases hv : treeContents u key with
          | none =>
              rw [hv] at hm hget
              have hrun : TrieOp.runBatch C (.delete key) b =
                  (.error .notFound, { b with trie := t }) := by
                simp [TrieOp.runBatch, Batch.delete, Batch.batchDelete, bind_apply, h.batching, hd,
                  hget, lookupResult]
              rw [hrun]
              refine ⟨by simp [TrieOp.answer, hm], ?_⟩
              rw [TrieOp.apply, ← hm, Function.update_eq_self]
              exact h.reads ht
          | some v =>
              rw [hv] at hm hget
              have hrun : TrieOp.runBatch C (.delete key) b = (.ok none,
                  { b with trie := t, dirties := b.dirties.insert key ⟨[], true⟩ }) := by
                simp [TrieOp.runBatch, Batch.delete, Batch.batchDelete, bind_apply, h.batching, hd,
                  hget, lookupResult]
              rw [hrun]
              exact ⟨by simp [TrieOp.answer, hm], h.insert (d := ⟨[], true⟩) ht subset_rfl
                (fun k hk => .inr hk) fun hnone => by simp [hv] at hnone⟩

/-- A run of operations inside a batch. -/
lemma Overlays.runBatch (h : Overlays C mode u m' puts b) (ops : List TrieOp) :
    Answered C ops m' b ∧ Overlays C mode u (ops.foldl TrieOp.apply m')
      (puts ∪ {k | ∃ v, .put k v ∈ ops}) (runBatch C ops b) := by
  induction ops generalizing m' puts b with
  | nil => exact ⟨trivial, by simpa [GoMedibloc.runBatch] using h⟩
  | cons op ops ih =>
      obtain ⟨hans, hnext⟩ := h.run op
      obtain ⟨hrest, hend⟩ := ih hnext
      refine ⟨⟨hans, hrest⟩, ?_⟩
      have hputs : puts ∪ op.putKeys ∪ {k | ∃ v, .put k v ∈ ops} =
          puts ∪ {k | ∃ v, .put k v ∈ op :: ops} := by
        ext k
        cases op <;> simp [TrieOp.putKeys, exists_or, or_assoc, or_left_comm]
      rw [hputs] at hend
      exact hend

/-! ## Replaying the writes -/

/-- What `Delete` of a key does to the contents, whether the key is there or not. -/
def Deleted (n : Contents) (k : Bytes) (n' : Contents) : Prop :=
  (n' = Function.update n k none ∧ ∀ p, ¬ Swallows n k p) ∨
    ∃ p, Swallows n k p ∧ n' = Function.update n p none

variable {t : Trie}

/-- While the writes are replayed: `n` are the contents now and `rest` the keys still to come.
`lost` accounts for keys that were swallowed: a longer key that is deleted although it was
never there is responsible. -/
structure Replaying (m m' : Contents) (puts : Set Bytes) (rest : List Bytes) (n : Contents) :
    Prop where
  done : ∀ k, k ∉ rest → n k = m' k
  never : ∀ k, m k = none → m' k = none → n k = none
  kept : ∀ k, m k ≠ none → m' k ≠ none → n k ≠ none
  lost : ∀ k, m k ≠ none → m' k = none → n k = none → k ∈ rest →
    ∃ l, k <+: l ∧ l ∈ puts ∧ m l = none ∧ m' l = none

variable {k : Bytes} {rest : List Bytes}

/-- Replaying a put. -/
lemma Replaying.put (h : Replaying m m' puts (k :: rest) n) {v : Bytes} (hk : m' k = some v) :
    Replaying m m' puts rest (Function.update n k (some v)) where
  done := by
    intro l hl
    by_cases hlk : l = k
    · subst hlk
      rw [Function.update_self, hk]
    · rw [Function.update_of_ne hlk]
      exact h.done l (by simp [hlk, hl])
  never := by
    intro l hm hm'
    have hlk : l ≠ k := by
      rintro rfl
      rw [hk] at hm'
      cases hm'
    rw [Function.update_of_ne hlk]
    exact h.never l hm hm'
  kept := by
    intro l hm hm'
    by_cases hlk : l = k
    · subst hlk
      simp
    · rw [Function.update_of_ne hlk]
      exact h.kept l hm hm'
  lost := by
    intro l hm hm' hn hl
    have hlk : l ≠ k := by
      rintro rfl
      rw [hk] at hm'
      cases hm'
    rw [Function.update_of_ne hlk] at hn
    exact h.lost l hm hm' hn (List.mem_cons_of_mem k hl)

/-- A key that is deleted and not there has a longer one that is responsible for it. -/
lemma Replaying.responsible (h : Replaying m m' puts (k :: rest) n) (hk : m' k = none)
    (hputs : m k = none → k ∈ puts) (hn : n k = none) :
    ∃ l, k <+: l ∧ l ∈ puts ∧ m l = none ∧ m' l = none := by
  by_cases hm : m k = none
  · exact ⟨k, List.prefix_rfl, hputs hm, hm, hk⟩
  · exact h.lost k hm hk hn List.mem_cons_self

/-- Replaying a deletion. -/
lemma Replaying.delete (h : Replaying m m' puts (k :: rest) n) (hsafe : ReplaySafe m m' puts)
    (hrest : k ∉ rest) (hk : m' k = none) (hputs : m k = none → k ∈ puts) {n' : Contents}
    (hdel : Deleted n k n') : Replaying m m' puts rest n' := by
  -- In both cases one key that is not there at the end goes.
  obtain ⟨p, rfl, hp, hnk, hresp⟩ : ∃ p, n' = Function.update n p none ∧ m' p = none ∧
      (p = k ∨ n k = none) ∧ (p ≠ k → ∃ l, p <+: l ∧ l ∈ puts ∧ m l = none ∧ m' l = none) := by
    rcases hdel with ⟨rfl, -⟩ | ⟨p, ⟨hpk, hne, hnp, hmax⟩, rfl⟩
    · exact ⟨k, rfl, hk, .inl rfl, fun hne => absurd rfl hne⟩
    · have hnk : n k = none := hmax k hpk hne.symm
      obtain ⟨l, hkl, hl, hml, hml'⟩ := h.responsible hk hputs hnk
      refine ⟨p, rfl, ?_, .inr hnk, fun _ => ⟨l, hpk.trans hkl, hl, hml, hml'⟩⟩
      by_contra hp
      have hpl : p ≠ l := by
        rintro rfl
        exact hp hml'
      obtain ⟨q, hpq, hqp, hmq, hmq'⟩ := hsafe l hl hml hml' p (hpk.trans hkl) hpl hp
      exact h.kept q hmq hmq' (hmax q hpq hqp)
  refine ⟨fun l hl => ?_, fun l hm hm' => ?_, fun l hm hm' => ?_, fun l hm hm' hn hl => ?_⟩
  · by_cases hlp : l = p
    · subst hlp
      rw [Function.update_self, hp]
    · rw [Function.update_of_ne hlp]
      by_cases hlk : l = k
      · subst hlk
        rcases hnk with rfl | hnk
        · exact absurd rfl hlp
        · rw [hnk, hk]
      · exact h.done l (by simp [hlk, hl])
  · by_cases hlp : l = p
    · rw [hlp, Function.update_self]
    · rw [Function.update_of_ne hlp]
      exact h.never l hm hm'
  · have hlp : l ≠ p := by
      rintro rfl
      exact hm' hp
    rw [Function.update_of_ne hlp]
    exact h.kept l hm hm'
  · by_cases hlp : l = p
    · subst hlp
      refine hresp ?_
      rintro rfl
      exact hrest hl
    · rw [Function.update_of_ne hlp] at hn
      exact h.lost l hm hm' hn (List.mem_cons_of_mem k hl)

variable {dirties : Finmap fun _ : Bytes => Dirty}

/-- A word is swallowed by at most one key. -/
lemma Swallows.unique {p q : Bytes} (hp : Swallows n k p) (hq : Swallows n k q) : p = q := by
  by_contra hne
  rcases List.prefix_or_prefix_of_prefix hp.1 hq.1 with h | h
  · exact hq.2.2.1 (hp.2.2.2 q h fun heq => hne heq.symm)
  · exact hp.2.2.1 (hq.2.2.2 p h hne)

end GoMedibloc
