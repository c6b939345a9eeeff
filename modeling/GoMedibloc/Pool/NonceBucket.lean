import GoMedibloc.Chain.FuturePool
import GoMedibloc.Framework.HeapOrder

/-!
# A bucket of the future pool as a map of nonces

The bucket of a sender is meant to hold one transaction for each nonce: `set` returns the one it
replaces, `del` the one it removes, and `peekFirst` and `peekLast` look at the lowest and the highest
nonce.  `NonceMap` is that map.

The two queues of the bucket are indexed by `string(nonce)`, and all nonces that are no code points
share the index of the replacement character, as does its own code.  So a call whose nonce has this
index takes a held transaction of another such nonce for its own.  `bucket_is_map_iff` says that
this is the only way in which a bucket differs from a map: a sequence of calls behaves as on a map
if and only if no call comes upon a held transaction of another nonce that shares its index.
-/

namespace GoMedibloc

open Finmap

/-! ## Nonces that share an index -/

/-- The index of the nonce is that of the replacement character: the nonce is a surrogate, it is
beyond the last code point, or it is the code of the replacement character. -/
def Replaced (nonce : UInt64) : Prop :=
  0xD800 ≤ nonce ∧ nonce ≤ 0xDFFF ∨ 0x10FFFF < nonce ∨ nonce = 0xFFFD

instance (nonce : UInt64) : Decidable (Replaced nonce) :=
  inferInstanceAs (Decidable (_ ∧ _ ∨ _ ∨ _))

lemma nonceKey_of_replaced {n : UInt64} (h : Replaced n) : nonceKey n = 0xFFFD := by
  unfold nonceKey
  dsimp only
  obtain ⟨hlow, hhigh⟩ | hbeyond | rfl := h
  · rw [UInt64.le_iff_toNat_le] at hlow hhigh
    change 0xD800 ≤ n.toNat at hlow
    change n.toNat ≤ 0xDFFF at hhigh
    exact if_neg (by omega)
  · rw [UInt64.lt_iff_toNat_lt] at hbeyond
    change 0x10FFFF < n.toNat at hbeyond
    exact if_neg (by omega)
  · rfl

lemma nonceKey_of_not {n : UInt64} (h : ¬ Replaced n) :
    nonceKey n = n.toNat ∧ nonceKey n ≠ 0xFFFD := by
  rw [Replaced, not_or, not_or, not_and_or, UInt64.le_iff_toNat_le, UInt64.le_iff_toNat_le,
    UInt64.lt_iff_toNat_lt, ← UInt64.toNat_inj] at h
  obtain ⟨hsurrogate, hbeyond, hcode⟩ := h
  change ¬ 0xD800 ≤ n.toNat ∨ ¬ n.toNat ≤ 0xDFFF at hsurrogate
  change ¬ 0x10FFFF < n.toNat at hbeyond
  change n.toNat ≠ 0xFFFD at hcode
  have hkey : nonceKey n = n.toNat := if_pos (by omega)
  exact ⟨hkey, hkey ▸ hcode⟩

/-- Two nonces have one index if and only if they are equal or both have that of the replacement
character. -/
lemma nonceKey_eq_iff {n n' : UInt64} :
    nonceKey n = nonceKey n' ↔ n = n' ∨ Replaced n ∧ Replaced n' := by
  constructor
  · intro heq
    by_cases hn : Replaced n
    · by_cases hn' : Replaced n'
      · exact .inr ⟨hn, hn'⟩
      · rw [nonceKey_of_replaced hn] at heq
        exact absurd heq.symm (nonceKey_of_not hn').2
    · by_cases hn' : Replaced n'
      · rw [nonceKey_of_replaced hn'] at heq
        exact absurd heq (nonceKey_of_not hn).2
      · rw [(nonceKey_of_not hn).1, (nonceKey_of_not hn').1, UInt64.toNat_inj] at heq
        exact .inl heq
  · rintro (rfl | ⟨hn, hn'⟩)
    · rfl
    · rw [nonceKey_of_replaced hn, nonceKey_of_replaced hn']

/-! ## The map -/

/-- Transactions by nonce. -/
structure NonceMap where
  txs : Finmap fun _ : UInt64 => Transaction
  keyed : ∀ n t, txs.lookup n = some t → t.nonce = n

namespace NonceMap

variable {m : NonceMap} {t tx : Transaction} {n : UInt64}

/-- No transactions. -/
def empty : NonceMap := ⟨∅, fun _ _ h => by rw [lookup_empty] at h; cases h⟩

/-- A transaction replaces the one of its nonce, which is returned. -/
def set (m : NonceMap) (tx : Transaction) : Option Transaction × NonceMap :=
  (m.txs.lookup tx.nonce, ⟨m.txs.insert tx.nonce tx, fun n t h => by
    by_cases hn : n = tx.nonce
    · rw [hn, lookup_insert, Option.some_inj] at h
      rw [hn, h]
    · rw [lookup_insert_of_ne _ hn] at h
      exact m.keyed n t h⟩)

/-- The transaction of a nonce is removed and returned. -/
def del (m : NonceMap) (nonce : UInt64) : Option Transaction × NonceMap :=
  (m.txs.lookup nonce, ⟨m.txs.erase nonce, fun n t h => by
    by_cases hn : n = nonce
    · rw [hn, lookup_erase] at h
      cases h
    · rw [lookup_erase_ne hn] at h
      exact m.keyed n t h⟩)

/-- The transaction is held. -/
def Has (m : NonceMap) (t : Transaction) : Prop := m.txs.lookup t.nonce = some t

lemma has_set : (m.set tx).2.Has t ↔ t = tx ∨ t.nonce ≠ tx.nonce ∧ m.Has t := by
  change (m.txs.insert tx.nonce tx).lookup t.nonce = some t ↔ _
  by_cases hn : t.nonce = tx.nonce
  · rw [hn, lookup_insert, Option.some_inj]
    exact ⟨fun h => .inl h.symm, fun h => (h.resolve_right fun h => h.1 rfl).symm⟩
  · rw [lookup_insert_of_ne _ hn]
    refine ⟨fun h => .inr ⟨hn, h⟩, ?_⟩
    rintro (rfl | ⟨-, h⟩)
    · exact absurd rfl hn
    · exact h

lemma has_del : (m.del n).2.Has t ↔ t.nonce ≠ n ∧ m.Has t := by
  change (m.txs.erase n).lookup t.nonce = some t ↔ _
  by_cases hn : t.nonce = n
  · rw [hn, lookup_erase]
    exact ⟨nofun, fun h => absurd rfl h.1⟩
  · rw [lookup_erase_ne hn]
    exact ⟨fun h => ⟨hn, h⟩, fun h => h.2⟩

lemma lookup_eq_some : m.txs.lookup n = some t ↔ m.Has t ∧ t.nonce = n := by
  constructor
  · intro h
    have hn := m.keyed n t h
    exact ⟨by rw [Has, hn, h], hn⟩
  · rintro ⟨h, rfl⟩
    exact h

/-- Another held transaction shares the index of the nonce. -/
def Clashes (m : NonceMap) (nonce : UInt64) : Prop :=
  ∃ t, m.Has t ∧ t.nonce ≠ nonce ∧ Replaced t.nonce ∧ Replaced nonce

end NonceMap

/-! ## One queue -/

section Queue

open NonceMap

variable {less : Transaction → Transaction → Bool} {q : HashHeap ℕ Transaction} {m : NonceMap}
  {t tx : Transaction} {n : UInt64}

/-- The queue holds the transactions of the map, each at the index of its nonce, in order. -/
structure Queues (less : Transaction → Transaction → Bool) (q : HashHeap ℕ Transaction)
    (m : NonceMap) : Prop where
  holds : ∀ key t, q.Holds key t ↔ key = nonceKey t.nonce ∧ m.Has t
  ordered : HashHeap.Ordered less q.pq

/-- Held transactions at one index have one nonce. -/
lemma Queues.nonce_eq (h : Queues less q m) (ht : m.Has t) (htx : m.Has tx)
    (hkey : nonceKey t.nonce = nonceKey tx.nonce) : t = tx :=
  HashHeap.Holds.unique ((h.holds _ t).2 ⟨rfl, ht⟩) ((h.holds _ tx).2 ⟨hkey, htx⟩)

/-- What is looked up at the index of a nonce is what the map has, if and only if no other held
transaction shares the index. -/
lemma Queues.get_iff (h : Queues less q m) :
    q.get (nonceKey n) = m.txs.lookup n ↔ ¬ m.Clashes n := by
  constructor
  · rintro hget ⟨t, ht, hne, hreplaced, hn⟩
    have hkey : nonceKey n = nonceKey t.nonce := nonceKey_eq_iff.2 (.inr ⟨hn, hreplaced⟩)
    rw [HashHeap.get_eq_some.2 ((h.holds _ t).2 ⟨hkey, ht⟩)] at hget
    exact hne (lookup_eq_some.1 hget.symm).2
  · intro hfree
    refine Option.ext fun t => ?_
    rw [HashHeap.get_eq_some, h.holds, lookup_eq_some]
    constructor
    · rintro ⟨hkey, ht⟩
      refine ⟨ht, ?_⟩
      by_contra hne
      obtain heq | ⟨hn, hreplaced⟩ := nonceKey_eq_iff.1 hkey
      · exact hne heq.symm
      · exact hfree ⟨t, ht, hne, hreplaced, hn⟩
    · rintro ⟨ht, rfl⟩
      exact ⟨rfl, ht⟩

/-- Without a clash the index of a held transaction of another nonce is another one. -/
lemma NonceMap.nonceKey_ne (hfree : ¬ m.Clashes n) (ht : m.Has t) (hne : t.nonce ≠ n) :
    nonceKey t.nonce ≠ nonceKey n := by
  intro hkey
  obtain heq | ⟨hreplaced, hn⟩ := nonceKey_eq_iff.1 hkey
  · exact hne heq
  · exact hfree ⟨t, ht, hne, hreplaced, hn⟩

lemma queues_new : Queues less .new .empty where
  holds _ _ := ⟨fun h => absurd h (HashHeap.not_holds_new _ _), fun h => nomatch h.2⟩
  ordered := HashHeap.ordered_new

lemma Queues.set (h : Queues less q m) (ho : HashHeap.WeakOrder less)
    (hfree : ¬ m.Clashes tx.nonce) :
    Queues less (q.set less (nonceKey tx.nonce) tx).2 (m.set tx).2 where
  holds key t := by
    rw [HashHeap.set_holds, has_set, h.holds]
    constructor
    · rintro (⟨rfl, rfl⟩ | ⟨hkey, rfl, ht⟩)
      · exact ⟨rfl, .inl rfl⟩
      · exact ⟨rfl, .inr ⟨fun hn => hkey (by rw [hn]), ht⟩⟩
    · rintro ⟨rfl, rfl | ⟨hne, ht⟩⟩
      · exact .inl ⟨rfl, rfl⟩
      · exact .inr ⟨nonceKey_ne hfree ht hne, rfl, ht⟩
  ordered := HashHeap.ordered_set ho h.ordered _ _

lemma Queues.del (h : Queues less q m) (ho : HashHeap.WeakOrder less) (hfree : ¬ m.Clashes n) :
    Queues less (q.del less (nonceKey n)).2 (m.del n).2 where
  holds key t := by
    rw [HashHeap.del_holds, has_del, h.holds]
    constructor
    · rintro ⟨hkey, rfl, ht⟩
      exact ⟨rfl, fun hn => hkey (by rw [hn]), ht⟩
    · rintro ⟨rfl, hne, ht⟩
      exact ⟨nonceKey_ne hfree ht hne, rfl, ht⟩
  ordered := HashHeap.ordered_del ho h.ordered _

/-- What a queue hands out is held, and no held transaction comes before it. -/
lemma Queues.peek (h : Queues less q m) (ho : HashHeap.WeakOrder less) (hpeek : q.peek = some t) :
    m.Has t ∧ ∀ t', m.Has t' → less t' t = false := by
  obtain ⟨key, hkey⟩ := HashHeap.holds_of_peek hpeek
  refine ⟨((h.holds _ _).1 hkey).2, fun t' ht' => ?_⟩
  exact HashHeap.peek_first ho h.ordered hpeek ((h.holds _ t').2 ⟨rfl, ht'⟩)

lemma Queues.peek_eq_none (h : Queues less q m) : q.peek = none ↔ ∀ t, ¬ m.Has t := by
  constructor
  · exact fun hnone t ht => HashHeap.peek_ne_none ((h.holds _ t).2 ⟨rfl, ht⟩) hnone
  · intro hempty
    refine Option.eq_none_iff_forall_ne_some.2 fun t hpeek => ?_
    obtain ⟨key, hkey⟩ := HashHeap.holds_of_peek hpeek
    exact hempty t ((h.holds _ _).1 hkey).2

end Queue

/-! ## Sequences of calls -/

/-- A call on a bucket that changes it. -/
inductive Bucket.Call
  | set (tx : Transaction)
  | del (nonce : UInt64)

/-- The nonce that a call is about. -/
def Bucket.Call.nonce : Bucket.Call → UInt64
  | .set tx => tx.nonce
  | .del nonce => nonce

/-- What a call returns, and the map after it. -/
def NonceMap.call (m : NonceMap) : Bucket.Call → Option Transaction × NonceMap
  | .set tx => m.set tx
  | .del nonce => m.del nonce

/-- The empty map after a sequence of calls. -/
def NonceMap.after (calls : List Bucket.Call) : NonceMap :=
  calls.foldl (fun m c => (m.call c).2) .empty

lemma NonceMap.after_concat (done : List Bucket.Call) (c : Bucket.Call) :
    NonceMap.after (done ++ [c]) = ((NonceMap.after done).call c).2 := List.foldl_concat _ _ _ _

namespace Bucket

/-- What a call returns, and the bucket after it. -/
def call (b : Bucket) : Call → Option Transaction × Bucket
  | .set tx => b.set tx
  | .del nonce => b.del nonce

/-- A new bucket after a sequence of calls. -/
def after (calls : List Call) : Bucket := calls.foldl (fun b c => (b.call c).2) new

/-- The bucket has the transactions of the map, and looks at the lowest and the highest nonce. -/
structure ActsAs (b : Bucket) (m : NonceMap) : Prop where
  held : ∀ t, (∃ key, b.Has key t) ↔ m.Has t
  first : ∀ t, b.peekFirst = some t ↔ m.Has t ∧ ∀ t', m.Has t' → t.nonce ≤ t'.nonce
  last : ∀ t, b.peekLast = some t ↔ m.Has t ∧ ∀ t', m.Has t' → t'.nonce ≤ t.nonce

/-- Both queues hold the transactions of the map. -/
structure Indexes (b : Bucket) (m : NonceMap) : Prop where
  min : Queues minNonceLess b.minTxs m
  max : Queues maxNonceLess b.maxTxs m

variable {b : Bucket} {m : NonceMap} {t t' : Transaction}

lemma weakOrder_minNonceLess : HashHeap.WeakOrder minNonceLess where
  asymm x y h := by
    simp only [minNonceLess, decide_eq_true_eq, decide_eq_false_iff_not, UInt64.lt_iff_toNat_lt]
      at h ⊢
    omega
  cotrans x y z h := by
    simp only [minNonceLess, decide_eq_true_eq, UInt64.lt_iff_toNat_lt] at h ⊢
    omega

lemma weakOrder_maxNonceLess : HashHeap.WeakOrder maxNonceLess where
  asymm x y h := weakOrder_minNonceLess.asymm y x h
  cotrans x y z h := (weakOrder_minNonceLess.cotrans z y x h).symm

lemma indexes_new : Indexes new .empty where
  min := queues_new
  max := queues_new

/-- A call returns what it returns on the map if and only if it meets no clash. -/
lemma Indexes.call_fst (h : b.Indexes m) (c : Call) :
    (b.call c).1 = (m.call c).1 ↔ ¬ m.Clashes c.nonce := by
  cases c with
  | set tx => exact h.max.get_iff
  | del nonce => exact h.max.get_iff

/-- A call that meets no clash keeps the queues and the map together. -/
lemma Indexes.call_snd (h : b.Indexes m) {c : Call} (hfree : ¬ m.Clashes c.nonce) :
    (b.call c).2.Indexes (m.call c).2 := by
  cases c with
  | set tx =>
      exact ⟨h.min.set weakOrder_minNonceLess hfree, h.max.set weakOrder_maxNonceLess hfree⟩
  | del nonce =>
      exact ⟨h.min.del weakOrder_minNonceLess hfree, h.max.del weakOrder_maxNonceLess hfree⟩

/-- The queues determine what the bucket holds and looks at. -/
lemma Indexes.actsAs (h : b.Indexes m) : b.ActsAs m where
  held t := by
    constructor
    · rintro ⟨key, hmin | hmax⟩
      · exact ((h.min.holds key t).1 hmin).2
      · exact ((h.max.holds key t).1 hmax).2
    · exact fun ht => ⟨_, .inl ((h.min.holds _ t).2 ⟨rfl, ht⟩)⟩
  first t := by
    have hle : ∀ {t t'}, minNonceLess t' t = false ↔ t.nonce ≤ t'.nonce := by
      intro t t'
      rw [minNonceLess, decide_eq_false_iff_not, UInt64.not_lt]
    constructor
    · intro hpeek
      obtain ⟨ht, hleast⟩ := h.min.peek weakOrder_minNonceLess hpeek
      exact ⟨ht, fun t' ht' => hle.1 (hleast t' ht')⟩
    · rintro ⟨ht, hleast⟩
      cases hpeek : b.minTxs.peek with
      | none => exact absurd ht (h.min.peek_eq_none.1 hpeek t)
      | some t' =>
          obtain ⟨ht', hleast'⟩ := h.min.peek weakOrder_minNonceLess hpeek
          have hnonce := UInt64.le_antisymm (hle.1 (hleast' t ht)) (hleast t' ht')
          rw [peekFirst, hpeek, h.min.nonce_eq ht' ht (by rw [hnonce])]
  last t := by
    have hle : ∀ {t t'}, maxNonceLess t' t = false ↔ t'.nonce ≤ t.nonce := by
      intro t t'
      rw [maxNonceLess, decide_eq_false_iff_not, UInt64.not_lt]
    constructor
    · intro hpeek
      obtain ⟨ht, hleast⟩ := h.max.peek weakOrder_maxNonceLess hpeek
      exact ⟨ht, fun t' ht' => hle.1 (hleast t' ht')⟩
    · rintro ⟨ht, hleast⟩
      cases hpeek : b.maxTxs.peek with
      | none => exact absurd ht (h.max.peek_eq_none.1 hpeek t)
      | some t' =>
          obtain ⟨ht', hleast'⟩ := h.max.peek weakOrder_maxNonceLess hpeek
          have hnonce := UInt64.le_antisymm (hle.1 (hleast' t ht)) (hleast t' ht')
          rw [peekLast, hpeek, h.max.nonce_eq ht' ht (by rw [hnonce])]

lemma after_concat (done : List Call) (c : Call) :
    after (done ++ [c]) = ((after done).call c).2 := List.foldl_concat _ _ _ _

/-- The queues and the map stay together along calls without a clash. -/
lemma indexes_after {calls : List Call} (hfree : ∀ done c, done ++ [c] <+: calls →
    ¬ (NonceMap.after done).Clashes c.nonce) : (after calls).Indexes (NonceMap.after calls) := by
  induction calls using List.reverseRecOn with
  | nil => exact indexes_new
  | append_singleton done c ih =>
      have hdone := ih fun done' c' hbefore =>
        hfree done' c' (hbefore.trans (List.prefix_append _ _))
      rw [after_concat, NonceMap.after_concat]
      exact hdone.call_snd (hfree done c List.prefix_rfl)

/-- **A bucket is a map of nonces, unless indexes clash.**  Every call of a sequence returns what it
returns on a map, and the bucket has the contents of the map and looks at its lowest and its highest
nonce all the time, if and only if no call comes upon a held transaction of another nonce that
shares the index of its nonce. -/
theorem bucket_is_map_iff (calls : List Call) :
    ((∀ done c, done ++ [c] <+: calls →
        ((after done).call c).1 = ((NonceMap.after done).call c).1) ∧
      ∀ done, done <+: calls → (after done).ActsAs (NonceMap.after done)) ↔
    ∀ done c, done ++ [c] <+: calls → ¬ (NonceMap.after done).Clashes c.nonce := by
  constructor
  · rintro ⟨hreturns, -⟩ done
    -- up to the first clash the bucket is a map, so that the call would show it
    induction hlength : done.length using Nat.strong_induction_on generalizing done with
    | _ n ih =>
        intro c hbefore
        have hindexes : (after done).Indexes (NonceMap.after done) := by
          refine indexes_after fun done' c' hbefore' => ih done'.length ?_ done' rfl c' ?_
          · have hle := hbefore'.length_le
            rw [List.length_append, List.length_singleton] at hle
            omega
          · exact hbefore'.trans ((List.prefix_append done [c]).trans hbefore)
        exact (hindexes.call_fst c).1 (hreturns done c hbefore)
  · intro hfree
    have hindexes : ∀ done, done <+: calls → (after done).Indexes (NonceMap.after done) :=
      fun done hdone => indexes_after fun done' c hbefore => hfree done' c (hbefore.trans hdone)
    refine ⟨fun done c hbefore => ?_, fun done hdone => (hindexes done hdone).actsAs⟩
    have hdone : done <+: calls := (List.prefix_append done [c]).trans hbefore
    exact ((hindexes done hdone).call_fst c).2 (hfree done c hbefore)

/-- Two nonces beyond the last code point: the second transaction takes the place of the first, and
deleting its nonce leaves nothing. -/
theorem nonces_beyond_code_points_clash :
    let tx := Plain.signed ⟨.transfer, Plain.address 1, Plain.address 2, .ofUint 1, 2000000, 0, []⟩
    let tx' := Plain.signed ⟨.transfer, Plain.address 1, Plain.address 2, .ofUint 1, 2000001, 0, []⟩
    ((after [.set tx]).set tx').1 = some tx ∧ tx.nonce ≠ tx'.nonce ∧
      ((NonceMap.after [.set tx]).set tx').1 = none ∧
      ((after [.set tx]).del 3000000).1 = some tx := by
  decide +kernel

end Bucket

end GoMedibloc
