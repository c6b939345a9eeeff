import GoMedibloc.Framework.HashHeap
import GoMedibloc.Ledger.Transaction

/-!
# The pool of future transactions

A transaction whose nonce is too high waits in the future pool.  The pool has two indexes: the map
`all` from hashes to transactions, and for every sender a bucket with two queues of the sender's
transactions, by lowest and by highest nonce.  The buckets are kept in a queue of their own, the
fullest first, from which a transaction is evicted if there are too many.

`Set` writes a transaction into both indexes.  If the sender's bucket has a transaction with the
same nonce, that one is replaced in the queues and handed back, and `Set` returns: the replaced
transaction stays in `all`, and nothing is evicted.  `pool_indexes_agree_iff` says that this is the
only way in which the indexes come apart or the pool grows too large: they agree throughout a run
if and only if no call of `Set` replaces a transaction.

The queues of a bucket are indexed by `string(nonce)`, which is the character with that code and
not the digits of the nonce.  Codes that are no characters all give the replacement character, so
that different nonces can replace each other too; `nonceKey` is that function.
-/

namespace GoMedibloc

/-! ## Buckets -/

/-- `string(nonce)`: the code point of the nonce, or that of the replacement character if the nonce
is no code point. -/
def nonceKey (nonce : UInt64) : ℕ :=
  let n := nonce.toNat
  if n < 0xD800 ∨ 0xDFFF < n ∧ n ≤ 0x10FFFF then n else 0xFFFD

/-- `minNonce.Less`. -/
def minNonceLess (tx o : Transaction) : Bool := tx.nonce < o.nonce

/-- `maxNonce.Less`. -/
def maxNonceLess (tx o : Transaction) : Bool := o.nonce < tx.nonce

/-- `bucket`: the transactions of one sender. -/
structure Bucket where
  minTxs : HashHeap ℕ Transaction
  maxTxs : HashHeap ℕ Transaction

namespace Bucket

/-- `newBucket`. -/
def new : Bucket := ⟨.new, .new⟩

/-- `Less`. -/
def less (b o : Bucket) : Bool := o.minTxs.len < b.minTxs.len

/-- `isEmpty`. -/
def isEmpty (b : Bucket) : Bool := b.minTxs.len = 0

/-- `set`. -/
def set (b : Bucket) (tx : Transaction) : Option Transaction × Bucket :=
  let minSet := b.minTxs.set minNonceLess (nonceKey tx.nonce) tx
  let maxSet := b.maxTxs.set maxNonceLess (nonceKey tx.nonce) tx
  (maxSet.1, ⟨minSet.2, maxSet.2⟩)

/-- `peekFirst`. -/
def peekFirst (b : Bucket) : Option Transaction := b.minTxs.peek

/-- `peekLast`. -/
def peekLast (b : Bucket) : Option Transaction := b.maxTxs.peek

/-- `del`. -/
def del (b : Bucket) (nonce : UInt64) : Option Transaction × Bucket :=
  let minDel := b.minTxs.del minNonceLess (nonceKey nonce)
  let maxDel := b.maxTxs.del maxNonceLess (nonceKey nonce)
  (maxDel.1, ⟨minDel.2, maxDel.2⟩)

/-- One of the queues has the transaction. -/
def Has (b : Bucket) (key : ℕ) (tx : Transaction) : Prop :=
  b.minTxs.Holds key tx ∨ b.maxTxs.Holds key tx

/-- Both queues have the transaction. -/
def Both (b : Bucket) (key : ℕ) (tx : Transaction) : Prop :=
  b.minTxs.Holds key tx ∧ b.maxTxs.Holds key tx

variable {b : Bucket} {tx tx' : Transaction} {key : ℕ} {nonce : UInt64}

lemma not_has_new : ¬ new.Has key tx := by
  rintro (h | h) <;> exact HashHeap.not_holds_new _ _ h

lemma set_both : (b.set tx).2.Both key tx' ↔
    key = nonceKey tx.nonce ∧ tx' = tx ∨ key ≠ nonceKey tx.nonce ∧ b.Both key tx' := by
  simp only [set, Both, HashHeap.set_holds]
  tauto

lemma set_has : (b.set tx).2.Has key tx' ↔
    key = nonceKey tx.nonce ∧ tx' = tx ∨ key ≠ nonceKey tx.nonce ∧ b.Has key tx' := by
  simp only [set, Has, HashHeap.set_holds]
  tauto

lemma del_both : (b.del nonce).2.Both key tx ↔ key ≠ nonceKey nonce ∧ b.Both key tx := by
  simp only [del, Both, HashHeap.del_holds]
  tauto

lemma del_has : (b.del nonce).2.Has key tx ↔ key ≠ nonceKey nonce ∧ b.Has key tx := by
  simp only [del, Has, HashHeap.del_holds]
  tauto

lemma isEmpty_iff : b.isEmpty = true ↔ ∀ key tx, ¬ b.minTxs.Holds key tx := by
  rw [isEmpty, decide_eq_true_iff, HashHeap.len_eq_zero]

end Bucket

/-! ## The pool -/

/-- `FutureTransactionPool`.  Its functions read the hash, the sender and the nonce of a
transaction. -/
structure FuturePool where
  size : ℕ
  buckets : HashHeap Address Bucket
  all : Finmap fun _ : Bytes => Transaction

namespace FuturePool

/-- `NewFutureTransactionPool`. -/
def new (size : ℕ) : FuturePool := ⟨size, .new, ∅⟩

/-- `Len`. -/
def len (p : FuturePool) : ℕ := p.all.keys.card

/-- `exist`. -/
def exist (p : FuturePool) (hash : Bytes) : Bool := (p.all.lookup hash).isSome

/-- `set`: the transaction is put into its sender's bucket. -/
def setUnlocked (p : FuturePool) (tx : Transaction) : Option Transaction × FuturePool :=
  let taken := p.buckets.del Bucket.less tx.fromAddr
  let bkt := (taken.1.getD .new).set tx
  (bkt.1, { p with buckets := (taken.2.set Bucket.less tx.fromAddr bkt.2).2 })

/-- `del`: the transaction of a hash is taken out of both indexes. -/
def delUnlocked (p : FuturePool) (hash : Bytes) : Bool × FuturePool :=
  match p.all.lookup hash with
  | none => (false, p)
  | some tx =>
    let all := p.all.erase hash
    let taken := p.buckets.del Bucket.less tx.fromAddr
    match taken.1 with
    | none => (false, { p with buckets := taken.2, all := all })
    | some bkt =>
      let bkt := bkt.del tx.nonce
      let buckets := if bkt.2.isEmpty then taken.2
        else (taken.2.set Bucket.less tx.fromAddr bkt.2).2
      (bkt.1.isSome, { p with buckets := buckets, all := all })

/-- `evict`: if there are too many transactions, the one with the highest nonce of the fullest
bucket is deleted. -/
def evict (p : FuturePool) : Option Transaction × FuturePool :=
  if p.len ≤ p.size then (none, p)
  else
    match p.buckets.peek with
    | none => (none, p)
    | some bkt =>
      match bkt.peekLast with
      | none => (none, p)
      | some tx =>
        let deleted := p.delUnlocked tx.hash
        (if deleted.1 then some tx else none, deleted.2)

/-- `Set`. -/
def set (p : FuturePool) (tx : Transaction) : Option Transaction × FuturePool :=
  if p.exist tx.hash then (none, p)
  else
    let p := { p with all := p.all.insert tx.hash tx }
    let replaced := p.setUnlocked tx
    match replaced.1 with
    | some old => (some old, replaced.2)
    | none => replaced.2.evict

/-- `Del`: only a transaction that the pool does not have gets to `del`. -/
def del (p : FuturePool) (tx : Transaction) : Bool × FuturePool :=
  if p.exist tx.hash then (false, p) else p.delUnlocked tx.hash

/-- The first transaction of a sender, if its nonce is within the limit. -/
def firstWithin (p : FuturePool) (addr : Address) (limit : UInt64) : Option Transaction :=
  ((p.buckets.get addr).bind Bucket.peekFirst).filter fun tx => tx.nonce ≤ limit

/-- `PopWithNonceUpperLimit`. -/
def popWithNonceUpperLimit (p : FuturePool) (addr : Address) (nonceUpperLimit : UInt64) :
    Option Transaction × FuturePool :=
  match p.firstWithin addr nonceUpperLimit with
  | none => (none, p)
  | some tx =>
    let deleted := p.delUnlocked tx.hash
    (if deleted.1 then some tx else none, deleted.2)

/-- The loop of `Prune`, with the transactions that are handed to the callback.  The bucket is
looked up anew each time; the source keeps a pointer to it, and an empty bucket is no longer in the
queue. -/
def pruneLoop (addr : Address) (nonceLowerLimit : UInt64) :
    ℕ → FuturePool → List Transaction × FuturePool
  | 0, p => ([], p)
  | fuel + 1, p =>
    match p.firstWithin addr nonceLowerLimit with
    | none => ([], p)
    | some tx =>
      let deleted := p.delUnlocked tx.hash
      let rest := pruneLoop addr nonceLowerLimit fuel deleted.2
      (if deleted.1 then tx :: rest.1 else rest.1, rest.2)

/-- `Prune`. -/
def prune (p : FuturePool) (addr : Address) (nonceLowerLimit : UInt64) :
    List Transaction × FuturePool :=
  pruneLoop addr nonceLowerLimit p.len p

/-! ## Agreeing indexes -/

/-- Every transaction of the map is in both queues of its sender's bucket under its nonce. -/
def Held (p : FuturePool) : Prop :=
  ∀ hash tx, p.all.lookup hash = some tx →
    ∃ b, p.buckets.Holds tx.fromAddr b ∧ b.Both (nonceKey tx.nonce) tx

/-- The two indexes have the same transactions, each under its hash in the one and in both queues
of its sender's bucket under its nonce in the other; and no bucket is empty. -/
structure Indexed (p : FuturePool) : Prop where
  keyed : ∀ hash tx, p.all.lookup hash = some tx → tx.hash = hash
  held : p.Held
  listed : ∀ addr b key tx, p.buckets.Holds addr b → b.Has key tx →
    addr = tx.fromAddr ∧ key = nonceKey tx.nonce ∧ p.all.lookup tx.hash = some tx
  nonempty : ∀ addr b, p.buckets.Holds addr b → b.isEmpty = false

variable {p : FuturePool} {tx tx' : Transaction} {hash : Bytes}

lemma indexed_new (size : ℕ) : (new size).Indexed where
  keyed _ _ h := by cases h
  held _ _ h := by cases h
  listed _ _ _ _ h := absurd h (HashHeap.not_holds_new _ _)
  nonempty _ _ h := absurd h (HashHeap.not_holds_new _ _)

/-- Transactions of one sender under one key are one transaction. -/
lemma Held.eq_of_key_eq (h : p.Held) {hash' : Bytes} (htx : p.all.lookup hash = some tx)
    (htx' : p.all.lookup hash' = some tx') (hfrom : tx.fromAddr = tx'.fromAddr)
    (hkey : nonceKey tx.nonce = nonceKey tx'.nonce) : tx = tx' := by
  obtain ⟨b, hb, hboth⟩ := h _ tx htx
  obtain ⟨b', hb', hboth'⟩ := h _ tx' htx'
  rw [hfrom] at hb
  rw [hkey, hb.unique hb'] at hboth
  exact hboth.1.unique hboth'.1

namespace Indexed

/-- A transaction in a queue of a bucket is in both. -/
lemma both (h : p.Indexed) {addr : Address} {b : Bucket} {key : ℕ}
    (hb : p.buckets.Holds addr b) (htx : b.Has key tx) : b.Both key tx := by
  obtain ⟨rfl, rfl, hall⟩ := h.listed addr b key tx hb htx
  obtain ⟨b', hb', hboth⟩ := h.held _ tx hall
  rwa [hb.unique hb']

/-- The first transaction within a limit is in the map. -/
lemma lookup_firstWithin (h : p.Indexed) {addr : Address} {limit : UInt64}
    (hfirst : p.firstWithin addr limit = some tx) : p.all.lookup tx.hash = some tx := by
  obtain ⟨hpeek, -⟩ := Option.filter_eq_some_iff.1 hfirst
  obtain ⟨b, hb, hpeek⟩ := Option.bind_eq_some_iff.1 hpeek
  obtain ⟨key, hkey⟩ := HashHeap.holds_of_peek hpeek
  exact (h.listed addr b key tx (HashHeap.get_eq_some.1 hb) (.inl hkey)).2.2

/-- A pool with transactions has a bucket to evict from, and the last one of it is in the map. -/
lemma exists_last (h : p.Indexed) (hlookup : p.all.lookup hash = some tx) :
    ∃ b last, p.buckets.peek = some b ∧ b.peekLast = some last ∧
      p.all.lookup last.hash = some last := by
  obtain ⟨b₀, hb₀, -⟩ := h.held _ tx hlookup
  obtain ⟨b, hpeek⟩ := Option.ne_none_iff_exists'.1 (HashHeap.peek_ne_none hb₀)
  obtain ⟨addr, hb⟩ := HashHeap.holds_of_peek hpeek
  have hnonempty := h.nonempty addr b hb
  rw [← Bool.not_eq_true, Bucket.isEmpty_iff] at hnonempty
  push Not at hnonempty
  obtain ⟨key, tx₁, htx₁⟩ := hnonempty
  have hmax := (h.both hb (.inl htx₁)).2
  obtain ⟨last, hlast⟩ := Option.ne_none_iff_exists'.1 (HashHeap.peek_ne_none hmax)
  obtain ⟨key', hkey'⟩ := HashHeap.holds_of_peek hlast
  exact ⟨b, last, hpeek, hlast, (h.listed addr b key' last hb (.inr hkey')).2.2⟩

end Indexed

/-! ## Deleting -/

/-- Deleting a transaction that is in its sender's bucket takes it out of the map and out of the
bucket, and the bucket out of the queue if nothing is left in it. -/
lemma delUnlocked_spec {b : Bucket} (htx : p.all.lookup hash = some tx)
    (hb : p.buckets.Holds tx.fromAddr b) (hmax : b.maxTxs.Holds (nonceKey tx.nonce) tx) :
    ∃ buckets, p.delUnlocked hash = (true, { p with buckets := buckets, all := p.all.erase hash }) ∧
      ∀ addr b', buckets.Holds addr b' ↔
        addr = tx.fromAddr ∧ b' = (b.del tx.nonce).2 ∧ (b.del tx.nonce).2.isEmpty = false ∨
          addr ≠ tx.fromAddr ∧ p.buckets.Holds addr b' := by
  have hget : p.buckets.get tx.fromAddr = some b := HashHeap.get_eq_some.2 hb
  obtain ⟨buckets, hbuckets⟩ : ∃ x, x = if (b.del tx.nonce).2.isEmpty
      then (p.buckets.del Bucket.less tx.fromAddr).2
      else ((p.buckets.del Bucket.less tx.fromAddr).2.set Bucket.less tx.fromAddr
        (b.del tx.nonce).2).2 := ⟨_, rfl⟩
  refine ⟨buckets, ?_, ?_⟩
  · have hmax : (b.del tx.nonce).1 = some tx := HashHeap.get_eq_some.2 hmax
    simp only [FuturePool.delUnlocked, htx, HashHeap.del_fst, hget, hmax, hbuckets,
      Option.isSome_some]
  · intro addr b'
    rw [hbuckets]
    split_ifs with hempty
    · rw [HashHeap.del_holds]
      simp [hempty]
    · rw [HashHeap.set_holds, HashHeap.del_holds]
      rw [Bool.not_eq_true] at hempty
      simp only [hempty]
      tauto

lemma len_erase (htx : p.all.lookup hash = some tx) (buckets : HashHeap Address Bucket) :
    ({ p with buckets := buckets, all := p.all.erase hash } : FuturePool).len + 1 = p.len := by
  have hmem : hash ∈ p.all.keys := by
    rw [Finmap.mem_keys, Finmap.mem_iff]
    exact ⟨tx, htx⟩
  simp only [len, Finmap.keys_erase]
  exact Finset.card_erase_add_one hmem

/-- What deleting a transaction of the pool does: both indexes lose it. -/
lemma Indexed.delUnlocked (h : p.Indexed) (htx : p.all.lookup hash = some tx) :
    (p.delUnlocked hash).1 = true ∧ (p.delUnlocked hash).2.Indexed ∧
      (p.delUnlocked hash).2.size = p.size ∧ (p.delUnlocked hash).2.len + 1 = p.len := by
  obtain ⟨b, hb, hboth⟩ := h.held _ tx htx
  obtain ⟨buckets, hdel, hholds⟩ := delUnlocked_spec htx hb hboth.2
  have hkept : ∀ hash' tx', (p.all.erase hash).lookup hash' = some tx' ↔
      hash' ≠ hash ∧ p.all.lookup hash' = some tx' := by
    intro hash' tx'
    by_cases heq : hash' = hash
    · rw [heq, Finmap.lookup_erase]
      simp
    · rw [Finmap.lookup_erase_ne heq]
      simp [heq]
  rw [hdel]
  refine ⟨rfl, ⟨?_, ?_, ?_, ?_⟩, rfl, ?_⟩
  · exact fun hash' tx' htx' => h.keyed _ _ ((hkept _ _).1 htx').2
  · intro hash' tx' htx'
    obtain ⟨hne, htx'⟩ := (hkept _ _).1 htx'
    obtain ⟨b', hb', hboth'⟩ := h.held _ _ htx'
    by_cases hfrom : tx'.fromAddr = tx.fromAddr
    · -- another transaction of the sender has another key
      rw [hfrom] at hb'
      rw [hb'.unique hb] at hboth'
      have hkey : nonceKey tx'.nonce ≠ nonceKey tx.nonce := by
        intro hkey
        have heq := h.held.eq_of_key_eq htx' htx hfrom hkey
        exact hne ((h.keyed _ _ htx').symm.trans (heq ▸ h.keyed _ _ htx))
      have hrest : (b.del tx.nonce).2.Both (nonceKey tx'.nonce) tx' :=
        Bucket.del_both.2 ⟨hkey, hboth'⟩
      refine ⟨_, (hholds _ _).2 (.inl ⟨hfrom, rfl, ?_⟩), hrest⟩
      rw [← Bool.not_eq_true, Bucket.isEmpty_iff]
      exact fun hempty => hempty _ _ hrest.1
    · exact ⟨b', (hholds _ _).2 (.inr ⟨hfrom, hb'⟩), hboth'⟩
  · intro addr b' key tx' hb' hhas
    dsimp only at hb' ⊢
    rw [hkept]
    obtain ⟨rfl, rfl, -⟩ | ⟨hne, hb'⟩ := (hholds _ _).1 hb'
    · obtain ⟨hkey, hhas⟩ := Bucket.del_has.1 hhas
      obtain ⟨hfrom, rfl, hlookup⟩ := h.listed _ _ _ _ hb hhas
      refine ⟨hfrom, rfl, ?_, hlookup⟩
      intro heq
      rw [heq, htx, Option.some_inj] at hlookup
      exact hkey (by rw [hlookup])
    · obtain ⟨hfrom, hkey, hlookup⟩ := h.listed _ _ _ _ hb' hhas
      refine ⟨hfrom, hkey, ?_, hlookup⟩
      intro heq
      rw [heq, htx, Option.some_inj] at hlookup
      exact hne (by rw [hfrom, hlookup])
  · intro addr b' hb'
    obtain ⟨-, rfl, hne⟩ | ⟨-, hb'⟩ := (hholds _ _).1 hb'
    · exact hne
    · exact h.nonempty _ _ hb'
  · exact len_erase htx buckets

/-- The indexes agree and the pool is not too large. -/
def Ok (p : FuturePool) : Prop := p.Indexed ∧ p.len ≤ p.size

lemma Ok.delUnlocked (h : p.Ok) (htx : p.all.lookup hash = some tx) :
    (p.delUnlocked hash).2.Ok ∧ (p.delUnlocked hash).2.size = p.size := by
  obtain ⟨-, hindexed, hsize, hlen⟩ := h.1.delUnlocked htx
  have hle := h.2
  exact ⟨⟨hindexed, by omega⟩, hsize⟩

lemma Ok.pop (h : p.Ok) (addr : Address) (limit : UInt64) :
    (p.popWithNonceUpperLimit addr limit).2.Ok ∧
      (p.popWithNonceUpperLimit addr limit).2.size = p.size := by
  unfold popWithNonceUpperLimit
  split
  · exact ⟨h, rfl⟩
  · exact h.delUnlocked (h.1.lookup_firstWithin ‹_›)

lemma Ok.pruneLoop (h : p.Ok) (addr : Address) (limit : UInt64) (fuel : ℕ) :
    (pruneLoop addr limit fuel p).2.Ok ∧ (pruneLoop addr limit fuel p).2.size = p.size := by
  induction fuel generalizing p with
  | zero => exact ⟨h, rfl⟩
  | succ fuel ih =>
      unfold FuturePool.pruneLoop
      split
      · exact ⟨h, rfl⟩
      · rename_i tx hfirst
        obtain ⟨hok, hsize⟩ := h.delUnlocked (h.1.lookup_firstWithin hfirst)
        obtain ⟨hok', hsize'⟩ := ih hok
        exact ⟨hok', hsize'.trans hsize⟩

/-! ## Setting -/

/-- The transaction is in the pool already, or no transaction of the pool has its sender and its
key. -/
def NoReplacement (p : FuturePool) (tx : Transaction) : Prop :=
  p.exist tx.hash = true ∨ ∀ hash tx', p.all.lookup hash = some tx' →
    tx'.fromAddr = tx.fromAddr → nonceKey tx'.nonce ≠ nonceKey tx.nonce

/-- The pool with a transaction that is written into both indexes. -/
def written (p : FuturePool) (tx : Transaction) : FuturePool :=
  ({ p with all := p.all.insert tx.hash tx } : FuturePool).setUnlocked tx |>.2

lemma written_buckets (p : FuturePool) (tx : Transaction) (addr : Address) (b : Bucket) :
    (p.written tx).buckets.Holds addr b ↔
      addr = tx.fromAddr ∧ b = (((p.buckets.get tx.fromAddr).getD .new).set tx).2 ∨
        addr ≠ tx.fromAddr ∧ p.buckets.Holds addr b := by
  simp only [written, setUnlocked, HashHeap.set_holds, HashHeap.del_holds, HashHeap.del_fst]
  tauto

lemma written_lookup (hnew : p.exist tx.hash = false) (hash : Bytes) (tx' : Transaction) :
    (p.written tx).all.lookup hash = some tx' ↔
      hash = tx.hash ∧ tx' = tx ∨ p.all.lookup hash = some tx' := by
  change (p.all.insert tx.hash tx).lookup hash = some tx' ↔ _
  rw [exist, Option.isSome_eq_false_iff, Option.isNone_iff_eq_none] at hnew
  by_cases heq : hash = tx.hash
  · rw [heq, Finmap.lookup_insert, hnew]
    simp [eq_comm]
  · rw [Finmap.lookup_insert_of_ne _ heq]
    simp [heq]

/-- The bucket of a sender that is written has what it had under the other keys. -/
lemma has_getD {addr : Address} {key : ℕ} :
    ((p.buckets.get addr).getD .new).Has key tx ↔
      ∃ b, p.buckets.Holds addr b ∧ b.Has key tx := by
  cases hget : p.buckets.get addr with
  | none =>
      refine ⟨fun h => absurd h Bucket.not_has_new, ?_⟩
      rintro ⟨b, hb, -⟩
      exact absurd hb (HashHeap.get_eq_none.1 hget b)
  | some b =>
      have hb := HashHeap.get_eq_some.1 hget
      exact ⟨fun h => ⟨b, hb, h⟩, fun ⟨b', hb', h⟩ => (hb.unique hb').symm ▸ h⟩

/-- A transaction that replaces none is written into both indexes alike. -/
lemma Indexed.written (h : p.Indexed) (hnew : p.exist tx.hash = false)
    (hfree : ∀ hash tx', p.all.lookup hash = some tx' →
      tx'.fromAddr = tx.fromAddr → nonceKey tx'.nonce ≠ nonceKey tx.nonce) :
    (p.written tx).Indexed := by
  have hbuckets := p.written_buckets tx
  have hlookup := written_lookup hnew
  refine ⟨?_, ?_, ?_, ?_⟩
  · intro hash tx' htx'
    obtain ⟨rfl, rfl⟩ | htx' := (hlookup _ _).1 htx'
    · rfl
    · exact h.keyed _ _ htx'
  · intro hash tx' htx'
    obtain ⟨-, rfl⟩ | htx' := (hlookup _ _).1 htx'
    · exact ⟨_, (hbuckets _ _).2 (.inl ⟨rfl, rfl⟩), Bucket.set_both.2 (.inl ⟨rfl, rfl⟩)⟩
    · obtain ⟨b, hb, hboth⟩ := h.held _ _ htx'
      by_cases hfrom : tx'.fromAddr = tx.fromAddr
      · refine ⟨_, (hbuckets _ _).2 (.inl ⟨hfrom, rfl⟩),
          Bucket.set_both.2 (.inr ⟨hfree _ _ htx' hfrom, ?_⟩)⟩
        rw [hfrom] at hb
        rwa [HashHeap.get_eq_some.2 hb]
      · exact ⟨b, (hbuckets _ _).2 (.inr ⟨hfrom, hb⟩), hboth⟩
  · intro addr b key tx' hb hhas
    rw [hlookup]
    obtain ⟨rfl, rfl⟩ | ⟨-, hb⟩ := (hbuckets _ _).1 hb
    · obtain ⟨rfl, rfl⟩ | ⟨-, hhas⟩ := Bucket.set_has.1 hhas
      · exact ⟨rfl, rfl, .inl ⟨rfl, rfl⟩⟩
      · obtain ⟨b, hb, hhas⟩ := has_getD.1 hhas
        obtain ⟨hfrom, hkey, hall⟩ := h.listed _ _ _ _ hb hhas
        exact ⟨hfrom, hkey, .inr hall⟩
    · obtain ⟨hfrom, hkey, hall⟩ := h.listed _ _ _ _ hb hhas
      exact ⟨hfrom, hkey, .inr hall⟩
  · intro addr b hb
    obtain ⟨-, rfl⟩ | ⟨-, hb⟩ := (hbuckets _ _).1 hb
    · rw [← Bool.not_eq_true, Bucket.isEmpty_iff]
      exact fun hempty => hempty _ tx (Bucket.set_both.2 (.inl ⟨rfl, rfl⟩)).1
    · exact h.nonempty _ _ hb

lemma written_len (hnew : p.exist tx.hash = false) : (p.written tx).len = p.len + 1 := by
  have hkeys : (p.written tx).all.keys = insert tx.hash p.all.keys := by
    ext k
    rw [Finset.mem_insert, Finmap.mem_keys, Finmap.mem_keys]
    exact Finmap.mem_insert
  have hmem : tx.hash ∉ p.all.keys := by
    rw [Finmap.mem_keys, ← Finmap.lookup_isSome]
    simpa [exist] using hnew
  rw [len, hkeys, Finset.card_insert_of_notMem hmem]
  rfl

/-- Eviction brings a pool that has one transaction too many down to its size. -/
lemma Indexed.evict (h : p.Indexed) (hlen : p.len ≤ p.size + 1) :
    p.evict.2.Ok ∧ p.evict.2.size = p.size := by
  unfold FuturePool.evict
  split_ifs with hle
  · exact ⟨⟨h, hle⟩, rfl⟩
  · have hpos : 0 < p.all.keys.card := by
      rw [len] at hle
      omega
    obtain ⟨hash, hmem⟩ := Finset.card_pos.1 hpos
    rw [Finmap.mem_keys, Finmap.mem_iff] at hmem
    obtain ⟨tx, htx⟩ := hmem
    obtain ⟨b, last, hpeek, hlast, hlookup⟩ := h.exists_last htx
    obtain ⟨-, hindexed, hsize, hlen'⟩ := h.delUnlocked hlookup
    simp only [hpeek, hlast]
    exact ⟨⟨hindexed, by omega⟩, hsize⟩

/-- The transaction that `set` hands back is the one of the bucket under the same key. -/
lemma setUnlocked_fst :
    (p.setUnlocked tx).1 = ((p.buckets.get tx.fromAddr).getD .new).maxTxs.get (nonceKey tx.nonce) :=
  rfl

/-- Without a replacement `Set` keeps the indexes in agreement and the pool within its size. -/
lemma Ok.set (h : p.Ok) (hfree : p.NoReplacement tx) :
    (p.set tx).2.Ok ∧ (p.set tx).2.size = p.size := by
  unfold FuturePool.set
  split_ifs with hexist
  · exact ⟨h, rfl⟩
  · rw [Bool.not_eq_true] at hexist
    obtain hexist' | hfree := hfree
    · rw [hexist] at hexist'
      cases hexist'
    · have hnone : (({ p with all := p.all.insert tx.hash tx } : FuturePool).setUnlocked tx).1 =
          none := by
        rw [setUnlocked_fst, HashHeap.get_eq_none]
        intro tx' htx'
        obtain ⟨b, hb, hhas⟩ := has_getD.1 (.inr htx')
        obtain ⟨hfrom, hkey, hall⟩ := h.1.listed _ _ _ _ hb hhas
        exact hfree _ tx' hall hfrom.symm hkey.symm
      dsimp only
      rw [hnone]
      have hlen := written_len hexist
      have hle := h.2
      exact (h.1.written hexist hfree).evict (by rw [hlen]; exact Nat.succ_le_succ hle)

/-- After a replacement the indexes disagree: the replaced transaction is in the map and in no
bucket. -/
lemma Indexed.replaced (h : p.Indexed) (hreplace : ¬ p.NoReplacement tx) :
    ¬ (p.set tx).2.Held := by
  rw [NoReplacement, not_or, Bool.not_eq_true] at hreplace
  obtain ⟨hnew, hreplace⟩ := hreplace
  push Not at hreplace
  obtain ⟨hash, old, hold, hfrom, hkey⟩ := hreplace
  have hset : (p.set tx).2 = p.written tx := by
    obtain ⟨b, hb, hboth⟩ := h.held _ _ hold
    rw [hfrom, hkey] at *
    have hsome : (({ p with all := p.all.insert tx.hash tx } : FuturePool).setUnlocked tx).1 =
        some old := by
      rw [setUnlocked_fst, HashHeap.get_eq_some]
      have hget : p.buckets.get tx.fromAddr = some b := HashHeap.get_eq_some.2 hb
      simp only [hget, Option.getD_some]
      exact hboth.2
    unfold FuturePool.set
    rw [if_neg (by rw [hnew]; exact Bool.false_ne_true)]
    dsimp only
    rw [hsome]
    rfl
  rw [hset]
  intro hheld
  have htx : (p.written tx).all.lookup tx.hash = some tx :=
    (written_lookup hnew _ _).2 (.inl ⟨rfl, rfl⟩)
  have hold' : (p.written tx).all.lookup hash = some old :=
    (written_lookup hnew _ _).2 (.inr hold)
  have heq := hheld.eq_of_key_eq hold' htx hfrom hkey
  rw [← h.keyed _ _ hold, heq] at hold
  rw [exist, hold] at hnew
  cases hnew

end FuturePool

/-! ## Runs -/

/-- A call on the pool that changes it. -/
inductive PoolOp
  | set (tx : Transaction)
  | del (tx : Transaction)
  | pop (addr : Address) (nonceUpperLimit : UInt64)
  | prune (addr : Address) (nonceLowerLimit : UInt64)

namespace FuturePool

variable {p : FuturePool}

/-- The pool after a call. -/
def apply (p : FuturePool) : PoolOp → FuturePool
  | .set tx => (p.set tx).2
  | .del tx => (p.del tx).2
  | .pop addr limit => (p.popWithNonceUpperLimit addr limit).2
  | .prune addr limit => (p.prune addr limit).2

/-- The pool after a sequence of calls. -/
def run (size : ℕ) (ops : List PoolOp) : FuturePool := ops.foldl apply (new size)

/-- What the pool promises: the map has exactly the transactions of the buckets, each under its
own hash, sender and nonce, no two with one sender and nonce; and they are not too many. -/
structure Consistent (size : ℕ) (p : FuturePool) : Prop where
  keyed : ∀ hash tx, p.all.lookup hash = some tx → tx.hash = hash
  held : ∀ hash tx, p.all.lookup hash = some tx → ∃ b, p.buckets.Holds tx.fromAddr b ∧
    b.minTxs.Holds (nonceKey tx.nonce) tx ∧ b.maxTxs.Holds (nonceKey tx.nonce) tx
  listed : ∀ addr b key tx, p.buckets.Holds addr b →
    b.minTxs.Holds key tx ∨ b.maxTxs.Holds key tx →
    addr = tx.fromAddr ∧ key = nonceKey tx.nonce ∧ p.all.lookup tx.hash = some tx
  distinct : ∀ hash hash' tx tx', p.all.lookup hash = some tx → p.all.lookup hash' = some tx' →
    tx.fromAddr = tx'.fromAddr → tx.nonce = tx'.nonce → hash = hash'
  bounded : p.len ≤ size

lemma Ok.consistent (h : p.Ok) : p.Consistent p.size where
  keyed := h.1.keyed
  held := h.1.held
  listed := h.1.listed
  distinct hash hash' tx tx' htx htx' hfrom hnonce := by
    have heq := h.1.held.eq_of_key_eq htx htx' hfrom (by rw [hnonce])
    rw [← h.1.keyed _ _ htx, ← h.1.keyed _ _ htx', heq]
  bounded := h.2

/-- Every call keeps the pool in order, if it is no replacement. -/
lemma Ok.apply (h : p.Ok) (op : PoolOp) (hfree : ∀ tx, op = .set tx → p.NoReplacement tx) :
    (p.apply op).Ok ∧ (p.apply op).size = p.size := by
  cases op with
  | set tx => exact h.set (hfree tx rfl)
  | del tx =>
      -- what passes the check of `Del` is not in the pool
      have hsame : (p.del tx).2 = p := by
        unfold FuturePool.del
        split_ifs with hexist
        · rfl
        · rw [exist, Bool.not_eq_true, Option.isSome_eq_false_iff, Option.isNone_iff_eq_none]
            at hexist
          rw [FuturePool.delUnlocked, hexist]
      rw [FuturePool.apply, hsame]
      exact ⟨h, rfl⟩
  | pop addr limit => exact h.pop addr limit
  | prune addr limit => exact h.pruneLoop addr limit _

/-- A run without replacements keeps the pool in order. -/
lemma ok_run {size : ℕ} {ops : List PoolOp}
    (h : ∀ before tx after, ops = before ++ .set tx :: after →
      (run size before).NoReplacement tx) :
    (run size ops).Ok ∧ (run size ops).size = size := by
  induction ops using List.reverseRecOn with
  | nil => exact ⟨⟨indexed_new size, by simp [run, new, len]⟩, rfl⟩
  | append_singleton ops op ih =>
      have hbefore : ∀ before tx after, ops = before ++ .set tx :: after →
          (run size before).NoReplacement tx := by
        intro before tx after heq
        exact h before tx (after ++ [op]) (by rw [heq, List.append_assoc, List.cons_append])
      obtain ⟨hok, hsize⟩ := ih hbefore
      have hrun : run size (ops ++ [op]) = (run size ops).apply op := by
        rw [run, List.foldl_append]
        rfl
      rw [hrun]
      obtain ⟨hok', hsize'⟩ := hok.apply op fun tx heq => h ops tx [] (by rw [heq])
      exact ⟨hok', hsize'.trans hsize⟩

end FuturePool

/-- **The indexes of the pool agree and its size is bounded** after every call of a run if and only
if no call of `Set` in it replaces a transaction. -/
theorem pool_indexes_agree_iff (size : ℕ) (ops : List PoolOp) :
    (∀ before after, ops = before ++ after →
      (FuturePool.run size before).Consistent size) ↔
    ∀ before tx after, ops = before ++ .set tx :: after →
      (FuturePool.run size before).NoReplacement tx := by
  constructor
  · intro h before tx after hops
    -- by induction nothing was replaced before, so a replacement would be made on a pool in order
    induction hn : before.length using Nat.strong_induction_on generalizing before tx after with
    | _ n ih =>
        have hbefore : ∀ before' tx' after', before = before' ++ .set tx' :: after' →
            (FuturePool.run size before').NoReplacement tx' := by
          intro before' tx' after' heq
          refine ih before'.length ?_ before' tx' (after' ++ .set tx :: after) ?_ rfl
          · rw [← hn, heq, List.length_append, List.length_cons]
            omega
          · rw [hops, heq, List.append_assoc, List.cons_append]
        obtain ⟨hok, -⟩ := FuturePool.ok_run hbefore
        by_contra hreplace
        have hstep := h (before ++ [.set tx]) after (by rw [hops, List.append_assoc]; rfl)
        have hrun : FuturePool.run size (before ++ [.set tx]) =
            ((FuturePool.run size before).set tx).2 := by
          rw [FuturePool.run, List.foldl_append]
          rfl
        rw [hrun] at hstep
        exact hok.1.replaced hreplace hstep.held
  · intro h before after hops
    have hbefore : ∀ before' tx after', before = before' ++ .set tx :: after' →
        (FuturePool.run size before').NoReplacement tx := by
      intro before' tx after' heq
      exact h before' tx (after' ++ after) (by rw [hops, heq, List.append_assoc]; rfl)
    obtain ⟨hok, hsize⟩ := FuturePool.ok_run hbefore
    have hconsistent := hok.consistent
    rwa [hsize] at hconsistent

/-- Two transfers of one account with one nonce. -/
def twoTransfers : Transaction × Transaction :=
  (Plain.signed ⟨.transfer, Plain.address 1, Plain.address 2, .ofUint 1, 5, 0, []⟩,
    Plain.signed ⟨.transfer, Plain.address 1, Plain.address 2, .ofUint 2, 5, 0, []⟩)

/-- A pool for one transaction that is given two of one nonce: both are in the map, only the second
is in the bucket of its sender. -/
theorem replaced_transaction_is_kept :
    ∃ p, p = FuturePool.run 1 [.set twoTransfers.1, .set twoTransfers.2] ∧
      p.all.lookup twoTransfers.1.hash = some twoTransfers.1 ∧
      (∀ b key, p.buckets.Holds twoTransfers.1.fromAddr b →
        ¬ b.minTxs.Holds key twoTransfers.1 ∧ ¬ b.maxTxs.Holds key twoTransfers.1) ∧
      p.size < p.len := by
  refine ⟨_, rfl, by decide +kernel, fun b key hb => ?_, by decide +kernel⟩
  have hget : ((FuturePool.run 1 [.set twoTransfers.1, .set twoTransfers.2]).buckets.get
      twoTransfers.1.fromAddr).map (fun b => (b.minTxs.pq, b.maxTxs.pq)) =
      some ([(5, twoTransfers.2)], [(5, twoTransfers.2)]) := by
    decide +kernel
  rw [HashHeap.get_eq_some.2 hb, Option.map_some, Option.some_inj, Prod.mk.injEq] at hget
  have hne : twoTransfers.1 ≠ twoTransfers.2 := by decide +kernel
  rw [HashHeap.Holds, HashHeap.Holds, hget.1, hget.2, List.mem_singleton, Prod.mk.injEq]
  exact ⟨fun h => hne h.2, fun h => hne h.2⟩

end GoMedibloc
