import GoMedibloc.Chain.FuturePool
import GoMedibloc.Framework.HeapOrder

/-!
# What waits in the future pool

A transaction that replaced another one leaves that one in the map of the future pool, so that the
indexes of the pool do not agree in every state.  `Listed` is what is left and holds in every
state: what is in a bucket is in the map, under its own sender and nonce, the two queues of a bucket
have the same transactions, and the queue by lowest nonce is ordered.

It is enough for `Prune`: the transaction that comes first in a bucket has the lowest nonce, so the
loop takes exactly the transactions up to the limit out of the bucket and out of the map.
-/

namespace GoMedibloc

namespace FuturePool

/-- The pool has the transaction. -/
def Has (p : FuturePool) (tx : Transaction) : Prop := p.all.lookup tx.hash = some tx

/-- The transaction is in a bucket of the sender. -/
def Queued (p : FuturePool) (tx : Transaction) : Prop :=
  ∃ b key, p.buckets.Holds tx.fromAddr b ∧ b.Has key tx

/-- What is in a bucket is in the map under its own hash, sender and nonce and in both queues, no
bucket is empty, and the transactions of a bucket are in order. -/
structure Listed (p : FuturePool) : Prop where
  keyed : ∀ hash tx, p.all.lookup hash = some tx → tx.hash = hash
  listed : ∀ addr b key tx, p.buckets.Holds addr b → b.Has key tx →
    addr = tx.fromAddr ∧ key = nonceKey tx.nonce ∧ p.Has tx
  both : ∀ addr b key tx, p.buckets.Holds addr b → b.Has key tx → b.Both key tx
  nonempty : ∀ addr b, p.buckets.Holds addr b → b.isEmpty = false
  ordered : ∀ addr b, p.buckets.Holds addr b → HashHeap.Ordered minNonceLess b.minTxs.pq

variable {p : FuturePool} {tx tx' t : Transaction} {hash : Bytes} {addr : Address} {b : Bucket}
  {limit : UInt64}

lemma weakOrder_minNonceLess : HashHeap.WeakOrder minNonceLess where
  asymm x y h := by
    simp only [minNonceLess, decide_eq_true_eq, decide_eq_false_iff_not] at h ⊢
    exact UInt64.lt_asymm h
  cotrans x y z h := by
    simp only [minNonceLess, decide_eq_true_eq] at h ⊢
    by_cases hxy : x.nonce < y.nonce
    · exact .inl hxy
    · exact .inr (UInt64.lt_of_le_of_lt (UInt64.not_lt.1 hxy) h)

lemma listed_new (size : ℕ) : (new size).Listed where
  keyed _ _ h := by cases h
  listed _ _ _ _ h := absurd h (HashHeap.not_holds_new _ _)
  both _ _ _ _ h := absurd h (HashHeap.not_holds_new _ _)
  nonempty _ _ h := absurd h (HashHeap.not_holds_new _ _)
  ordered _ _ h := absurd h (HashHeap.not_holds_new _ _)

lemma Listed.queued (h : p.Listed) {key : ℕ} (hb : p.buckets.Holds addr b) (htx : b.Has key tx) :
    p.Queued tx ∧ tx.fromAddr = addr := by
  obtain ⟨rfl, -, -⟩ := h.listed _ _ _ _ hb htx
  exact ⟨⟨b, key, hb, htx⟩, rfl⟩

lemma Listed.has (h : p.Listed) (htx : p.Queued tx) : p.Has tx := by
  obtain ⟨b, key, hb, hhas⟩ := htx
  exact (h.listed _ _ _ _ hb hhas).2.2

/-! ## Deleting -/

/-- Deleting a transaction that is in a bucket takes it out of the bucket and out of the map. -/
lemma Listed.delUnlocked (h : p.Listed) (htx : p.Queued tx) :
    (p.delUnlocked tx.hash).1 = true ∧ (p.delUnlocked tx.hash).2.Listed ∧
      (p.delUnlocked tx.hash).2.len + 1 = p.len ∧
      (p.delUnlocked tx.hash).2.all = p.all.erase tx.hash ∧
      ∀ t, (p.delUnlocked tx.hash).2.Queued t ↔ p.Queued t ∧ t ≠ tx := by
  obtain ⟨b, key, hb, hhas⟩ := htx
  obtain ⟨-, rfl, hall⟩ := h.listed _ _ _ _ hb hhas
  have hboth := h.both _ _ _ _ hb hhas
  obtain ⟨buckets, hdel, hholds⟩ := delUnlocked_spec hall hb hboth.2
  rw [hdel]
  -- another transaction in a bucket has another hash and, with the same sender, another key
  have hhash : ∀ addr b key t, p.buckets.Holds addr b → b.Has key t → t ≠ tx →
      t.hash ≠ tx.hash := by
    intro addr b key t hb ht hne heq
    have hlookup : p.all.lookup t.hash = some t := (h.listed _ _ _ _ hb ht).2.2
    rw [heq, hall, Option.some_inj] at hlookup
    exact hne hlookup.symm
  have hkept : ∀ t, t.hash ≠ tx.hash → p.Has t →
      (p.all.erase tx.hash).lookup t.hash = some t :=
    fun t hne ht => (Finmap.lookup_erase_ne hne).trans ht
  have hrest : ∀ key t, (b.del tx.nonce).2.Has key t → b.Has key t ∧ t ≠ tx := by
    intro key t ht
    obtain ⟨hkey, hbefore⟩ := Bucket.del_has.1 ht
    refine ⟨hbefore, ?_⟩
    rintro rfl
    exact hkey (h.listed _ _ _ _ hb hbefore).2.1
  refine ⟨rfl, ⟨?_, ?_, ?_, ?_, ?_⟩, len_erase hall buckets, rfl, ?_⟩
  · intro hash t ht
    dsimp only at ht
    by_cases heq : hash = tx.hash
    · rw [heq, Finmap.lookup_erase] at ht
      cases ht
    · rw [Finmap.lookup_erase_ne heq] at ht
      exact h.keyed _ _ ht
  · intro addr b' key t hb' ht
    obtain ⟨rfl, rfl, -⟩ | ⟨haddr, hb'⟩ := (hholds _ _).1 hb'
    · obtain ⟨ht, hne⟩ := hrest _ _ ht
      obtain ⟨hfrom, hkey, hlookup⟩ := h.listed _ _ _ _ hb ht
      exact ⟨hfrom, hkey, hkept _ (hhash _ _ _ _ hb ht hne) hlookup⟩
    · obtain ⟨hfrom, hkey, hlookup⟩ := h.listed _ _ _ _ hb' ht
      refine ⟨hfrom, hkey, hkept _ (hhash _ _ _ _ hb' ht ?_) hlookup⟩
      rintro rfl
      exact haddr hfrom
  · intro addr b' key t hb' ht
    obtain ⟨rfl, rfl, -⟩ | ⟨-, hb'⟩ := (hholds _ _).1 hb'
    · obtain ⟨hkey, ht⟩ := Bucket.del_has.1 ht
      exact Bucket.del_both.2 ⟨hkey, h.both _ _ _ _ hb ht⟩
    · exact h.both _ _ _ _ hb' ht
  · intro addr b' hb'
    obtain ⟨-, rfl, hne⟩ | ⟨-, hb'⟩ := (hholds _ _).1 hb'
    · exact hne
    · exact h.nonempty _ _ hb'
  · intro addr b' hb'
    obtain ⟨-, rfl, -⟩ | ⟨-, hb'⟩ := (hholds _ _).1 hb'
    · exact HashHeap.ordered_del weakOrder_minNonceLess (h.ordered _ _ hb) _
    · exact h.ordered _ _ hb'
  · intro t
    constructor
    · rintro ⟨b', key, hb', ht⟩
      obtain ⟨hfrom, rfl, -⟩ | ⟨haddr, hb'⟩ := (hholds _ _).1 hb'
      · obtain ⟨ht, hne⟩ := hrest _ _ ht
        rw [← hfrom] at hb
        exact ⟨⟨b, key, hb, ht⟩, hne⟩
      · refine ⟨⟨b', key, hb', ht⟩, ?_⟩
        rintro rfl
        exact haddr rfl
    · rintro ⟨⟨b', key, hb', ht⟩, hne⟩
      by_cases hfrom : t.fromAddr = tx.fromAddr
      · rw [hfrom] at hb'
        obtain rfl := hb'.unique hb
        have hkey : key ≠ nonceKey tx.nonce := by
          rintro rfl
          exact hne ((h.both _ _ _ _ hb ht).1.unique hboth.1)
        have ht' := Bucket.del_has.2 ⟨hkey, ht⟩
        refine ⟨_, key, (hholds _ _).2 (.inl ⟨hfrom, rfl, ?_⟩), ht'⟩
        rw [← Bool.not_eq_true, Bucket.isEmpty_iff]
        exact fun hempty => hempty _ _ (Bucket.del_both.2 ⟨hkey, h.both _ _ _ _ hb ht⟩).1
      · exact ⟨b', key, (hholds _ _).2 (.inr ⟨hfrom, hb'⟩), ht⟩

/-! ## Pruning -/

/-- The first transaction within a limit is in a bucket of the sender, and within the limit. -/
lemma Listed.firstWithin_eq_some (h : p.Listed) (hfirst : p.firstWithin addr limit = some tx) :
    p.Queued tx ∧ tx.fromAddr = addr ∧ tx.nonce ≤ limit := by
  obtain ⟨hpeek, hle⟩ := Option.filter_eq_some_iff.1 hfirst
  obtain ⟨b, hb, hpeek⟩ := Option.bind_eq_some_iff.1 hpeek
  obtain ⟨key, hkey⟩ := HashHeap.holds_of_peek hpeek
  obtain ⟨hqueued, hfrom⟩ := h.queued (HashHeap.get_eq_some.1 hb) (.inl hkey)
  exact ⟨hqueued, hfrom, of_decide_eq_true hle⟩

/-- If the first transaction is beyond the limit, then all are. -/
lemma Listed.firstWithin_eq_none (h : p.Listed) (hfirst : p.firstWithin addr limit = none)
    (ht : p.Queued t) (hfrom : t.fromAddr = addr) : limit < t.nonce := by
  obtain ⟨b, key, hb, hhas⟩ := ht
  rw [hfrom] at hb
  have hmin := (h.both _ _ _ _ hb hhas).1
  obtain ⟨first, hpeek⟩ := Option.ne_none_iff_exists'.1 (HashHeap.peek_ne_none hmin)
  have hbeyond : limit < first.nonce := by
    rw [firstWithin, HashHeap.get_eq_some.2 hb, Option.bind_some, Bucket.peekFirst, hpeek,
      Option.filter_eq_none_iff] at hfirst
    have hnot := hfirst first rfl
    rwa [decide_eq_true_eq, UInt64.not_le] at hnot
  have hle := HashHeap.peek_first weakOrder_minNonceLess (h.ordered _ _ hb) hpeek hmin
  simp only [minNonceLess, decide_eq_false_iff_not] at hle
  exact UInt64.lt_of_lt_of_le hbeyond (UInt64.not_lt.1 hle)

/-- `Prune` takes out of the buckets, and so out of the map, the transactions of the sender up to
the limit. -/
lemma Listed.prune (h : p.Listed) (addr : Address) (limit : UInt64) :
    (p.prune addr limit).2.Listed ∧
      ∀ t, (p.prune addr limit).2.Has t ↔
        p.Has t ∧ ¬ (p.Queued t ∧ t.fromAddr = addr ∧ t.nonce ≤ limit) := by
  suffices hloop : ∀ fuel (p : FuturePool), p.Listed → p.len ≤ fuel →
      (pruneLoop addr limit fuel p).2.Listed ∧ ∀ t, (pruneLoop addr limit fuel p).2.Has t ↔
        p.Has t ∧ ¬ (p.Queued t ∧ t.fromAddr = addr ∧ t.nonce ≤ limit) from
    hloop _ p h le_rfl
  intro fuel
  induction fuel with
  | zero =>
      intro p h hlen
      refine ⟨h, fun t => ⟨fun ht => ⟨ht, fun hqueued => ?_⟩, fun ht => ht.1⟩⟩
      have hlen' := (h.delUnlocked hqueued.1).2.2.1
      change p.len ≤ 0 at hlen
      omega
  | succ fuel ih =>
      intro p h hlen
      unfold pruneLoop
      split
      · rename_i hfirst
        refine ⟨h, fun t => ⟨fun ht => ⟨ht, fun hqueued => ?_⟩, fun ht => ht.1⟩⟩
        exact UInt64.not_le.2 (h.firstWithin_eq_none hfirst hqueued.1 hqueued.2.1) hqueued.2.2
      · rename_i tx hfirst
        obtain ⟨hqueued, hfrom, hle⟩ := h.firstWithin_eq_some hfirst
        obtain ⟨-, hlisted, hlen', hall, hqueued'⟩ := h.delUnlocked hqueued
        obtain ⟨hlisted', hhas⟩ := ih _ hlisted (by omega)
        refine ⟨hlisted', fun t => (hhas t).trans ?_⟩
        have hmap : (p.delUnlocked tx.hash).2.Has t ↔ p.Has t ∧ t ≠ tx := by
          rw [Has, hall]
          by_cases heq : t.hash = tx.hash
          · rw [heq, Finmap.lookup_erase]
            refine ⟨nofun, fun ⟨ht, hne⟩ => absurd ?_ hne⟩
            have hlookup : p.all.lookup tx.hash = some tx := h.has hqueued
            rw [Has, heq, hlookup, Option.some_inj] at ht
            exact ht.symm
          · rw [Finmap.lookup_erase_ne heq]
            refine ⟨fun ht => ⟨ht, ?_⟩, fun ht => ht.1⟩
            rintro rfl
            exact heq rfl
        rw [hmap, hqueued']
        constructor
        · rintro ⟨⟨ht, hne⟩, hout⟩
          exact ⟨ht, fun ⟨hq, hlow⟩ => hout ⟨⟨hq, hne⟩, hlow⟩⟩
        · rintro ⟨ht, hout⟩
          refine ⟨⟨ht, ?_⟩, fun ⟨hq, hlow⟩ => hout ⟨hq.1, hlow⟩⟩
          rintro rfl
          exact hout ⟨hqueued, hfrom, hle⟩

/-! ## Setting -/

/-- A transaction that is written into both indexes, in the place of another one or not. -/
lemma Listed.written (h : p.Listed) (hnew : p.exist tx.hash = false) : (p.written tx).Listed := by
  have hbuckets := p.written_buckets tx
  have hlookup := written_lookup hnew
  -- what the sender's bucket had is listed as before
  have hold : ∀ key t, ((p.buckets.get tx.fromAddr).getD .new).Has key t →
      ∃ b, p.buckets.Holds tx.fromAddr b ∧ b.Has key t := fun key t => has_getD.1
  have horder : HashHeap.Ordered minNonceLess
      ((p.buckets.get tx.fromAddr).getD .new).minTxs.pq := by
    cases hget : p.buckets.get tx.fromAddr with
    | none => exact HashHeap.ordered_new
    | some b => exact h.ordered _ _ (HashHeap.get_eq_some.1 hget)
  refine ⟨?_, ?_, ?_, ?_, ?_⟩
  · intro hash t ht
    obtain ⟨rfl, rfl⟩ | ht := (hlookup _ _).1 ht
    · rfl
    · exact h.keyed _ _ ht
  · intro addr b key t hb hhas
    rw [Has, hlookup]
    obtain ⟨rfl, rfl⟩ | ⟨-, hb⟩ := (hbuckets _ _).1 hb
    · obtain ⟨rfl, rfl⟩ | ⟨-, hhas⟩ := Bucket.set_has.1 hhas
      · exact ⟨rfl, rfl, .inl ⟨rfl, rfl⟩⟩
      · obtain ⟨b, hb, hhas⟩ := hold _ _ hhas
        obtain ⟨hfrom, hkey, hall⟩ := h.listed _ _ _ _ hb hhas
        exact ⟨hfrom, hkey, .inr hall⟩
    · obtain ⟨hfrom, hkey, hall⟩ := h.listed _ _ _ _ hb hhas
      exact ⟨hfrom, hkey, .inr hall⟩
  · intro addr b key t hb hhas
    obtain ⟨rfl, rfl⟩ | ⟨-, hb⟩ := (hbuckets _ _).1 hb
    · rw [Bucket.set_both]
      refine (Bucket.set_has.1 hhas).imp_right fun ⟨hkey, hhas⟩ => ⟨hkey, ?_⟩
      obtain ⟨b, hb, hhas⟩ := hold _ _ hhas
      rw [HashHeap.get_eq_some.2 hb]
      exact h.both _ _ _ _ hb hhas
    · exact h.both _ _ _ _ hb hhas
  · intro addr b hb
    obtain ⟨-, rfl⟩ | ⟨-, hb⟩ := (hbuckets _ _).1 hb
    · rw [← Bool.not_eq_true, Bucket.isEmpty_iff]
      exact fun hempty => hempty _ tx (Bucket.set_both.2 (.inl ⟨rfl, rfl⟩)).1
    · exact h.nonempty _ _ hb
  · intro addr b hb
    obtain ⟨-, rfl⟩ | ⟨-, hb⟩ := (hbuckets _ _).1 hb
    · exact HashHeap.ordered_set weakOrder_minNonceLess horder _ _
    · exact h.ordered _ _ hb

lemma Listed.evict (h : p.Listed) : p.evict.2.Listed := by
  unfold FuturePool.evict
  split_ifs
  · exact h
  · cases hpeek : p.buckets.peek with
    | none => exact h
    | some b =>
        dsimp only
        cases hlast : b.peekLast with
        | none => exact h
        | some tx =>
            obtain ⟨addr, hb⟩ := HashHeap.holds_of_peek hpeek
            obtain ⟨key, hkey⟩ := HashHeap.holds_of_peek hlast
            exact (h.delUnlocked (h.queued hb (.inr hkey)).1).2.1

/-- `Set` keeps what is listed, also if it replaces a transaction. -/
lemma Listed.set (h : p.Listed) (tx : Transaction) : (p.set tx).2.Listed := by
  unfold FuturePool.set
  split_ifs with hexist
  · exact h
  · rw [Bool.not_eq_true] at hexist
    have hwritten := h.written hexist
    dsimp only
    split
    · exact hwritten
    · exact hwritten.evict

/-- `Del` deletes nothing: it gives up on the transactions that the pool has. -/
lemma del_eq (p : FuturePool) (tx : Transaction) : p.del tx = (false, p) := by
  unfold del
  split_ifs with hexist
  · rfl
  · rw [Bool.not_eq_true, exist, Option.isSome_eq_false_iff, Option.isNone_iff_eq_none] at hexist
    rw [FuturePool.delUnlocked, hexist]

end FuturePool

end GoMedibloc
