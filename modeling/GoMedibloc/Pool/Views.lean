import GoMedibloc.Pool.Pending

/-!
# The views of the pending pool agree

What the pending pool is for: it is a set of transactions.  Its four maps are indexes of one set,
by hash, by sender and nonce, by payer, and by sender for the points (`Views`).  `push` adds a
transaction to the set, `replace` exchanges the one with the same sender and nonce, and `Prune`
takes out those of a sender up to a nonce; all other calls leave the set as it is.

`enter` and `withdraw` are what happens to the views when one transaction comes or goes.  `push` is
an `enter`, and `replace` is a `withdraw` followed by an `enter` (`replace_eq`): the entry of a
payer that is deleted and made anew and the entry that stays are the same.  The sender's entry may
be empty in between, and until `Prune` forgets it, so that no entry of a sender is empty and that
the selector has the senders are not part of `Views` but of `Ok`.

The bandwidth of a payer is a sum of 64 bits.  It is the sum of the bandwidths modulo `2 ^ 64`,
whatever they are, and the sum itself as long as that fits, which all transactions that are in
memory together do.
-/

namespace GoMedibloc

open Except Finmap

variable {env : Env}

namespace PendingPool

/-- The four maps of the pool are views of one set of transactions; no payer's entry and no point
entry is empty. -/
structure Views (p : PendingPool env) (S : Set (TxContext env)) : Prop where
  all : Indexes p.all.lookup TxContext.hash S
  sender : Indexes (fun k => p.accFrom.find AccountFrom.nonceToTx k.1 k.2)
    TxContext.addrNonceKey S
  payer : Indexes (fun k => p.accPayer.find Tally.items k.1 k.2)
    (fun t => (t.payerOrFrom, t.addrNonceKey)) S
  point : Indexes (fun k => p.accPoint.find Tally.items k.1 k.2)
    (fun t => (t.fromAddr, t.addrNonceKey)) S
  payer_ne : p.accPayer.NoneEmpty Tally.items
  point_ne : p.accPoint.NoneEmpty Tally.items

variable {p p' : PendingPool env} {S : Set (TxContext env)} {t tx old : TxContext env}
  {addr : Address} {accState payerState : Account} {price : Price} {now : ℤ}

namespace Views

/-- A transaction of the pool has an entry with its sender. -/
lemma lookup_sender (h : p.Views S) (ht : t ∈ S) :
    ∃ af, p.accFrom.lookup t.fromAddr = some af ∧ af.nonceToTx.lookup t.nonce = some t :=
  find_eq_some.1 (h.sender.find ht)

lemma lookup_payer (h : p.Views S) (ht : t ∈ S) :
    ∃ ap, p.accPayer.lookup t.payerOrFrom = some ap ∧ ap.items.lookup t.addrNonceKey = some t :=
  find_eq_some.1 (h.payer.find ht)

lemma lookup_point (h : p.Views S) (ht : t ∈ S) :
    ∃ apo, p.accPoint.lookup t.fromAddr = some apo ∧ apo.items.lookup t.addrNonceKey = some t :=
  find_eq_some.1 (h.point.find ht)

/-- What a sender's entry has is in the pool, with this sender and nonce. -/
lemma mem_sender (h : p.Views S) {af : AccountFrom env} {n : UInt64}
    (haf : p.accFrom.lookup addr = some af) (ht : af.nonceToTx.lookup n = some t) :
    t ∈ S ∧ t.fromAddr = addr ∧ t.nonce = n := by
  have hfind : p.accFrom.find AccountFrom.nonceToTx addr n = some t :=
    find_eq_some.2 ⟨af, haf, ht⟩
  have hkey : t.addrNonceKey = (addr, n) := h.sender.key_eq (k := (addr, n)) hfind
  exact ⟨h.sender.mem (k := (addr, n)) hfind, congrArg Prod.fst hkey, congrArg Prod.snd hkey⟩

/-- An entry with a sender's transactions is found wherever the set has one. -/
lemma empty_of_lookup (h : p.Views S) {af : AccountFrom env}
    (haf : p.accFrom.lookup addr = some af) (hempty : af.nonceToTx = ∅) (ht : t ∈ S) :
    t.fromAddr ≠ addr := by
  rintro rfl
  obtain ⟨af', haf', ht'⟩ := h.lookup_sender ht
  obtain rfl : af' = af := Option.some_inj.1 (haf'.symm.trans haf)
  exact ne_empty_of_lookup ht' hempty

end Views

/-! ## A transaction comes or goes -/

/-- A transaction with a new hash and a free nonce comes into all four views. -/
lemma Views.enter (h : p.Views S) (hhash : ∀ v ∈ S, v.hash ≠ tx.hash)
    (hkey : ∀ v ∈ S, v.addrNonceKey ≠ tx.addrNonceKey) : (p.enter tx).Views (insert tx S) where
  all := h.all.insert hhash fun k => by
    change (p.all.insert tx.hash tx).lookup k = _
    split_ifs with hk
    · rw [hk, lookup_insert]
    · exact lookup_insert_of_ne _ hk
  sender := h.sender.insert hkey fun k => by
    obtain ⟨a, n⟩ := k
    change (p.accFrom.insert tx.fromAddr _).find AccountFrom.nonceToTx a n = _
    by_cases ha : a = tx.fromAddr
    · subst ha
      have hold : ((p.accFrom.lookup tx.fromAddr).getD .new).nonceToTx.lookup n =
          p.accFrom.find AccountFrom.nonceToTx tx.fromAddr n := by
        unfold find
        cases p.accFrom.lookup tx.fromAddr <;> rfl
      rw [find_insert_self, AccountFrom.set_nonceToTx, ← hold]
      by_cases hn : n = tx.nonce
      · subst hn
        exact (lookup_insert _).trans (if_pos rfl).symm
      · rw [if_neg fun heq => hn (congrArg Prod.snd heq), lookup_insert_of_ne _ hn]
    · rw [find_insert_of_ne ha, if_neg fun heq => ha (congrArg Prod.fst heq)]
  payer := h.payer.insert (fun v hv heq => hkey v hv (congrArg Prod.snd heq)) fun k => by
    change (Tally.put _ _ _ _).find Tally.items k.1 k.2 = _
    rw [Tally.find_put]
    simp only [Prod.ext_iff]
  point := h.point.insert (fun v hv heq => hkey v hv (congrArg Prod.snd heq)) fun k => by
    change (Tally.put _ _ _ _).find Tally.items k.1 k.2 = _
    rw [Tally.find_put]
    simp only [Prod.ext_iff]
  payer_ne := Tally.noneEmpty_put h.payer_ne
  point_ne := Tally.noneEmpty_put h.point_ne

/-- What taking out a transaction changes of the rest of the pool. -/
structure Withdrawn (tx : TxContext env) (p p' : PendingPool env) : Prop where
  selector : p'.selector = p.selector
  nonceCache : p'.nonceCache = p.nonceCache
  others : ∀ a, a ≠ tx.fromAddr → p'.accFrom.lookup a = p.accFrom.lookup a
  entry : p'.accFrom.lookup tx.fromAddr =
    (p.accFrom.lookup tx.fromAddr).map (·.remove tx.nonce)

/-- A transaction of the pool goes out of all four views. -/
lemma Views.withdraw (h : p.Views S) (ht : t ∈ S) :
    ∃ p', p.withdraw t = .ok p' ∧ p'.Views (S \ {t}) ∧ Withdrawn t p p' := by
  obtain ⟨af, haf, -⟩ := h.lookup_sender ht
  obtain ⟨ap, hap, -⟩ := h.lookup_payer ht
  obtain ⟨apo, hapo, -⟩ := h.lookup_point ht
  unfold PendingPool.withdraw
  rw [hap, hapo, modify_of_some haf]
  refine ⟨_, rfl, ⟨?_, ?_, ?_, ?_, ?_, ?_⟩, rfl, rfl, fun a ha => lookup_insert_of_ne _ ha, ?_⟩
  · refine h.all.diff ht fun k => ?_
    split_ifs with hk
    · rw [hk]
      exact lookup_erase _ _
    · exact lookup_erase_ne hk
  · refine h.sender.diff ht fun k => ?_
    obtain ⟨a, n⟩ := k
    dsimp only
    by_cases ha : a = t.fromAddr
    · subst ha
      rw [find_insert_self, AccountFrom.remove_nonceToTx, find_of_lookup haf]
      by_cases hn : n = t.nonce
      · subst hn
        exact (lookup_erase _ _).trans (if_pos rfl).symm
      · rw [if_neg fun heq => hn (congrArg Prod.snd heq), lookup_erase_ne hn]
    · rw [find_insert_of_ne ha, if_neg fun heq => ha (congrArg Prod.fst heq)]
  · refine h.payer.diff ht fun k => ?_
    dsimp only
    rw [Tally.find_drop hap]
    simp only [Prod.ext_iff]
  · refine h.point.diff ht fun k => ?_
    dsimp only
    rw [Tally.find_drop hapo]
    simp only [Prod.ext_iff]
  · exact Tally.noneEmpty_drop h.payer_ne
  · exact Tally.noneEmpty_drop h.point_ne
  · rw [haf]
    exact lookup_insert _

/-- A replacement takes the old transaction out and puts the new one in. -/
lemma replace_eq (h : p.Views S) (hold : old ∈ S) (hkey : old.addrNonceKey = tx.addrNonceKey)
    (hreplace : p.replace tx accState payerState price now = .ok p') :
    ∃ p₁, p.withdraw old = .ok p₁ ∧ p' = p₁.enter tx := by
  obtain ⟨hfrom, hnonce⟩ : old.fromAddr = tx.fromAddr ∧ old.nonce = tx.nonce :=
    ⟨congrArg Prod.fst hkey, congrArg Prod.snd hkey⟩
  obtain ⟨af, haf, hget⟩ := h.lookup_sender hold
  obtain ⟨ap, hap, -⟩ := h.lookup_payer hold
  obtain ⟨apo, hapo, -⟩ := h.lookup_point hold
  rw [hfrom] at haf hapo
  rw [hnonce] at hget
  unfold PendingPool.replace at hreplace
  obtain ⟨_, -, hreplace⟩ := bind_eq_ok_iff.1 hreplace
  obtain ⟨_, -, hreplace⟩ := bind_eq_ok_iff.1 hreplace
  obtain ⟨_, -, hreplace⟩ := bind_eq_ok_iff.1 hreplace
  obtain ⟨old', hold', hreplace⟩ := bind_eq_ok_iff.1 hreplace
  obtain ⟨ap', hap', hreplace⟩ := bind_eq_ok_iff.1 hreplace
  rw [haf, Option.getD_some, ofOption_eq_ok, AccountFrom.get, hget, Option.some_inj] at hold'
  subst hold'
  rw [ofOption_eq_ok, hap, Option.some_inj] at hap'
  subst hap'
  obtain rfl := Except.ok.inj hreplace
  unfold PendingPool.withdraw
  rw [hfrom, hap, hapo]
  refine ⟨_, rfl, ?_⟩
  -- the entries that the two ways write are equal map by map
  have haccFrom : (p.accFrom.modify tx.fromAddr fun af => (af.remove tx.nonce).set tx) =
      (p.accFrom.modify tx.fromAddr (·.remove old.nonce)).insert tx.fromAddr
        ((((p.accFrom.modify tx.fromAddr (·.remove old.nonce)).lookup tx.fromAddr).getD .new).set
          tx) := by
    rw [modify_of_some haf, modify_of_some haf, lookup_insert, Option.getD_some, hnonce]
    exact (insert_congr (fun a ha => lookup_insert_of_ne _ ha) _).symm
  have haccPayer : (if tx.payerOrFrom = old.payerOrFrom then ap.remove old.addrNonceKey
      else (p.accPayer.lookup tx.payerOrFrom).getD .new) =
      ((Tally.drop p.accPayer old.payerOrFrom ap old.addrNonceKey).lookup
        tx.payerOrFrom).getD .new := by
    split_ifs with hpayer
    · rw [hpayer, Tally.getD_drop_self]
    · rw [Tally.lookup_drop_of_ne hpayer]
  have haccPoint : (p.accPoint.modify tx.fromAddr fun apo =>
        (apo.remove old.addrNonceKey).set tx.addrNonceKey tx) =
      Tally.put (Tally.drop p.accPoint tx.fromAddr apo old.addrNonceKey) tx.fromAddr
        tx.addrNonceKey tx := by
    rw [modify_of_some hapo, Tally.put, Tally.getD_drop_self]
    exact (insert_congr (fun a ha => Tally.lookup_drop_of_ne ha) _).symm
  rw [haccFrom, haccPayer, haccPoint]
  rfl

/-! ## The pool as a whole -/

/-- The maps are views of one set of transactions, no entry is empty, and the selector has the
senders. -/
structure Ok (p : PendingPool env) (S : Set (TxContext env)) : Prop extends p.Views S where
  sender_ne : p.accFrom.NoneEmpty AccountFrom.nonceToTx
  selector : ∀ a, a ∈ p.selector.keys ↔ (p.accFrom.lookup a).isSome = true

lemma ok_new : (new : PendingPool env).Ok ∅ where
  all _ _ := ⟨nofun, nofun⟩
  sender _ _ := ⟨nofun, nofun⟩
  payer _ _ := ⟨nofun, nofun⟩
  point _ _ := ⟨nofun, nofun⟩
  payer_ne _ _ h := nomatch h
  point_ne _ _ h := nomatch h
  sender_ne _ _ h := nomatch h
  selector _ := ⟨nofun, nofun⟩

/-- The transactions with the sender and the nonce of another one. -/
def sameSlot (S : Set (TxContext env)) (tx : TxContext env) : Set (TxContext env) :=
  {t ∈ S | t.addrNonceKey = tx.addrNonceKey}

/-- The transactions of a sender up to a nonce. -/
def upTo (S : Set (TxContext env)) (addr : Address) (limit : UInt64) : Set (TxContext env) :=
  {t ∈ S | t.fromAddr = addr ∧ t.nonce ≤ limit}

/-- The entries of the senders after a transaction came in. -/
lemma sender_ne_enter (h : ∀ a af, a ≠ tx.fromAddr → p.accFrom.lookup a = some af →
    af.nonceToTx ≠ ∅) : (p.enter tx).accFrom.NoneEmpty AccountFrom.nonceToTx := by
  intro a af haf
  change (p.accFrom.insert _ _).lookup a = some af at haf
  by_cases ha : a = tx.fromAddr
  · rw [ha, lookup_insert, Option.some_inj] at haf
    subst haf
    exact ne_empty_of_lookup (lookup_insert _)
  · rw [lookup_insert_of_ne _ ha] at haf
    exact h a af ha haf

lemma isSome_lookup_enter (a : Address) : ((p.enter tx).accFrom.lookup a).isSome = true ↔
    a = tx.fromAddr ∨ (p.accFrom.lookup a).isSome = true := by
  change ((p.accFrom.insert _ _).lookup a).isSome = true ↔ _
  by_cases ha : a = tx.fromAddr
  · rw [ha, lookup_insert]
    simp
  · rw [lookup_insert_of_ne _ ha]
    simp [ha]

/-- `push` adds a transaction. -/
lemma Ok.push (h : p.Ok S) (hhash : p.all.lookup tx.hash = none)
    (hslot : sameSlot S tx = ∅) (hpush : p.push tx accState payerState price = .ok p') :
    p'.Ok (insert tx S) := by
  unfold PendingPool.push at hpush
  obtain ⟨_, -, hpush⟩ := bind_eq_ok_iff.1 hpush
  obtain ⟨_, -, hpush⟩ := bind_eq_ok_iff.1 hpush
  obtain rfl := Except.ok.inj hpush
  have hviews := h.toViews.enter (fun v hv => h.all.key_ne hhash hv) fun v hv hkey =>
    (Set.eq_empty_iff_forall_notMem.1 hslot v) ⟨hv, hkey⟩
  refine ⟨⟨hviews.all, hviews.sender, hviews.payer, hviews.point, hviews.payer_ne,
    hviews.point_ne⟩, sender_ne_enter fun a af _ => h.sender_ne a af, fun a => ?_⟩
  change a ∈ (p.selector.includeKey tx.fromAddr).keys ↔ _
  rw [RoundRobin.mem_keys_includeKey, h.selector, ← isSome_lookup_enter]

/-- `replace` exchanges the transaction with the same sender and nonce. -/
lemma Ok.replace (h : p.Ok S) (hhash : p.all.lookup tx.hash = none) (hold : old ∈ S)
    (hkey : old.addrNonceKey = tx.addrNonceKey)
    (hreplace : p.replace tx accState payerState price now = .ok p') :
    p'.Ok (insert tx (S \ {old})) := by
  obtain ⟨p₁, hp₁, rfl⟩ := replace_eq h.toViews hold hkey hreplace
  obtain ⟨p₂, hp₂, hviews, hwithdrawn⟩ := h.toViews.withdraw hold
  obtain rfl : p₁ = p₂ := Except.ok.inj (hp₁.symm.trans hp₂)
  have hfrom : old.fromAddr = tx.fromAddr := congrArg Prod.fst hkey
  refine ⟨hviews.enter (fun v hv => h.all.key_ne hhash hv.1) fun v hv heq => ?_,
    sender_ne_enter fun a af ha haf => ?_, fun a => ?_⟩
  · exact hv.2 (h.sender.injOn hv.1 hold (heq.trans hkey.symm))
  · rw [hwithdrawn.others a (hfrom ▸ ha)] at haf
    exact h.sender_ne a af haf
  · change a ∈ p₁.selector.keys ↔ _
    rw [hwithdrawn.selector, h.selector, isSome_lookup_enter]
    -- the sender has had an entry before
    obtain ⟨af, haf, -⟩ := h.lookup_sender hold
    rw [hfrom] at haf
    by_cases ha : a = tx.fromAddr
    · rw [ha, haf]
      exact ⟨fun _ => .inl rfl, fun _ => rfl⟩
    · rw [hwithdrawn.others a (hfrom ▸ ha)]
      exact ⟨.inr, fun h => h.resolve_left ha⟩

/-- The old transaction of a replacement is found. -/
lemma Views.exists_sameSlot (h : p.Views S)
    (hdup : (p.accFrom.lookup tx.fromAddr).any (·.isDuplicateNonce tx.nonce) = true) :
    ∃ old ∈ S, old.addrNonceKey = tx.addrNonceKey := by
  obtain ⟨af, haf, hdup⟩ := (Option.any_eq_true _ _).1 hdup
  obtain ⟨old, hold⟩ := Option.isSome_iff_exists.1 hdup
  obtain ⟨hmem, hfrom, hnonce⟩ := h.mem_sender haf hold
  exact ⟨old, hmem, Prod.ext hfrom hnonce⟩

lemma Views.sameSlot_eq_empty (h : p.Views S)
    (hdup : ¬ (p.accFrom.lookup tx.fromAddr).any (·.isDuplicateNonce tx.nonce) = true) :
    sameSlot S tx = ∅ := by
  refine Set.eq_empty_iff_forall_notMem.2 fun t ht => hdup ?_
  obtain ⟨af, haf, hlookup⟩ := h.lookup_sender ht.1
  have hfrom : t.fromAddr = tx.fromAddr := congrArg Prod.fst ht.2
  have hnonce : t.nonce = tx.nonce := congrArg Prod.snd ht.2
  rw [hfrom] at haf
  rw [hnonce] at hlookup
  rw [haf, Option.any_some, AccountFrom.isDuplicateNonce, hlookup]
  rfl

/-- A transaction that is accepted takes the place of those with its sender and nonce. -/
lemma Ok.pushOrReplace (h : p.Ok S)
    (hpush : p.pushOrReplace tx accState payerState price now = .ok p') :
    p'.Ok (insert tx (S \ sameSlot S tx)) := by
  unfold PendingPool.pushOrReplace at hpush
  split_ifs at hpush with hhash hdup
  · rw [Bool.not_eq_true, Option.isSome_eq_false_iff, Option.isNone_iff_eq_none] at hhash
    obtain ⟨old, hold, hkey⟩ := h.toViews.exists_sameSlot hdup
    have hslot : sameSlot S tx = {old} := by
      refine Set.eq_singleton_iff_unique_mem.2 ⟨⟨hold, hkey⟩, fun t ht => ?_⟩
      exact h.sender.injOn ht.1 hold (ht.2.trans hkey.symm)
    rw [hslot]
    exact h.replace hhash hold hkey hpush
  · rw [Bool.not_eq_true, Option.isSome_eq_false_iff, Option.isNone_iff_eq_none] at hhash
    have hslot := h.toViews.sameSlot_eq_empty hdup
    rw [hslot, Set.sdiff_empty]
    exact h.push hhash hslot hpush

/-- The entry of the sender after a transaction is accepted. -/
lemma lookup_pushOrReplace (hpush : p.pushOrReplace tx accState payerState price now = .ok p') :
    p'.accFrom.lookup tx.fromAddr =
      some ((((p.accFrom.lookup tx.fromAddr).getD .new).remove tx.nonce).set tx) := by
  unfold PendingPool.pushOrReplace at hpush
  split_ifs at hpush with hhash hdup
  · obtain ⟨af, haf, -⟩ := (Option.any_eq_true _ _).1 hdup
    unfold PendingPool.replace at hpush
    obtain ⟨_, -, hpush⟩ := bind_eq_ok_iff.1 hpush
    obtain ⟨_, -, hpush⟩ := bind_eq_ok_iff.1 hpush
    obtain ⟨_, -, hpush⟩ := bind_eq_ok_iff.1 hpush
    obtain ⟨_, -, hpush⟩ := bind_eq_ok_iff.1 hpush
    obtain ⟨_, -, hpush⟩ := bind_eq_ok_iff.1 hpush
    obtain rfl := Except.ok.inj hpush
    dsimp only
    rw [modify_of_some haf, lookup_insert, haf, Option.getD_some]
  · unfold PendingPool.push at hpush
    obtain ⟨_, -, hpush⟩ := bind_eq_ok_iff.1 hpush
    obtain ⟨_, -, hpush⟩ := bind_eq_ok_iff.1 hpush
    obtain rfl := Except.ok.inj hpush
    have hfree : ((p.accFrom.lookup tx.fromAddr).getD .new).nonceToTx.lookup tx.nonce = none := by
      cases haf : p.accFrom.lookup tx.fromAddr with
      | none => exact lookup_empty _
      | some af =>
          rw [haf, Option.any_some, Bool.not_eq_true, AccountFrom.isDuplicateNonce,
            Option.isSome_eq_false_iff, Option.isNone_iff_eq_none] at hdup
          exact hdup
    rw [AccountFrom.remove_of_none hfree]
    exact lookup_insert _

/-- No nil pointer is followed. -/
lemma Ok.pushOrReplace_ne_nil (h : p.Ok S) :
    p.pushOrReplace tx accState payerState price now ≠ .error .nilPointer := by
  have hpoints : ∀ x : Except Err Unit, x.mapError PendingErr.points ≠ .error .nilPointer := by
    intro x
    cases x <;> exact nofun
  unfold PendingPool.pushOrReplace
  split_ifs with hhash hdup
  · exact nofun
  · obtain ⟨old, hold, hkey⟩ := h.toViews.exists_sameSlot hdup
    obtain ⟨af, haf, hget⟩ := h.lookup_sender hold
    obtain ⟨ap, hap, -⟩ := h.lookup_payer hold
    rw [show old.fromAddr = tx.fromAddr from congrArg Prod.fst hkey] at haf
    rw [show old.nonce = tx.nonce from congrArg Prod.snd hkey] at hget
    unfold PendingPool.replace
    rw [haf, Option.getD_some]
    refine bind_ne_error (failIf_ne_error nofun) fun _ => bind_ne_error (failIf_ne_error nofun)
      fun _ => bind_ne_error (hpoints _) fun _ => ?_
    rw [AccountFrom.get, hget, bind_of_ok (ofOption_eq_ok.2 rfl), hap,
      bind_of_ok (ofOption_eq_ok.2 rfl)]
    exact nofun
  · unfold PendingPool.push
    exact bind_ne_error (failIf_ne_error nofun) fun _ => bind_ne_error (hpoints _) fun _ => nofun

/-! ## Pruning -/

/-- What the loop of `Prune` leaves of the rest of the pool. -/
structure Pruned (addr : Address) (p p' : PendingPool env) : Prop where
  selector : p'.selector = p.selector
  nonceCache : p'.nonceCache = p.nonceCache
  others : ∀ a, a ≠ addr → p'.accFrom.lookup a = p.accFrom.lookup a
  entry : (p'.accFrom.lookup addr).isSome = true
  maxNonce : ∀ af af', p.accFrom.lookup addr = some af → p'.accFrom.lookup addr = some af' →
    af'.nonceToTx ≠ ∅ → af'.maxNonce = af.maxNonce

/-- The loop of `Prune` takes out the transactions of the sender up to the limit, one in each
round, the lowest first. -/
lemma Views.pruneLoop (h : p.Views S) {af : AccountFrom env} {limit : UInt64} {fuel : ℕ}
    (haf : p.accFrom.lookup addr = some af) (hfuel : af.size < fuel) :
    ∃ p', pruneLoop addr limit fuel p = .ok p' ∧ p'.Views (S \ upTo S addr limit) ∧
      Pruned addr p p' := by
  induction fuel generalizing p S af with
  | zero => exact absurd hfuel (Nat.not_lt_zero _)
  | succ fuel ih =>
      have hdone : (∀ t ∈ S, t.fromAddr = addr → limit < t.nonce) →
          p.Views (S \ upTo S addr limit) ∧ Pruned addr p p := by
        intro hnone
        have hempty : upTo S addr limit = ∅ := by
          refine Set.eq_empty_iff_forall_notMem.2 fun t ⟨ht, hfrom, hle⟩ => ?_
          exact UInt64.not_lt.2 hle (hnone t ht hfrom)
        rw [hempty, Set.sdiff_empty]
        refine ⟨h, rfl, rfl, fun _ _ => rfl, by rw [haf]; rfl, fun af af' haf haf' _ => ?_⟩
        rw [Option.some_inj.1 (haf'.symm.trans haf)]
      unfold PendingPool.pruneLoop
      rw [haf, Option.bind_some]
      cases hpeek : af.peekFirst with
      | none =>
          refine ⟨p, rfl, hdone fun t ht hfrom => ?_⟩
          exact absurd hfrom (h.empty_of_lookup haf (AccountFrom.peekFirst_eq_none hpeek) ht)
      | some first =>
          obtain ⟨n, hlookup, hleast⟩ := AccountFrom.peekFirst_eq_some hpeek
          obtain ⟨hmem, hfrom, rfl⟩ := h.mem_sender haf hlookup
          dsimp only
          split_ifs with hlimit
          · refine ⟨p, rfl, hdone fun t ht htfrom => ?_⟩
            obtain ⟨af', haf', ht'⟩ := h.lookup_sender ht
            rw [htfrom, haf, Option.some_inj] at haf'
            subst haf'
            exact UInt64.lt_of_lt_of_le hlimit (hleast _ _ ht')
          · obtain ⟨p₁, hp₁, hviews, hwithdrawn⟩ := h.withdraw hmem
            have haf₁ : p₁.accFrom.lookup addr = some (af.remove first.nonce) := by
              rw [← hfrom, hwithdrawn.entry, hfrom, haf, Option.map_some]
            have hsize : (af.remove first.nonce).size + 1 = af.size :=
              AccountFrom.size_remove hlookup
            obtain ⟨p', hp', hviews', hpruned⟩ := ih hviews haf₁ (by omega)
            have hset : (S \ {first}) \ upTo (S \ {first}) addr limit =
                S \ upTo S addr limit := by
              ext t
              simp only [upTo, Set.mem_sdiff, Set.mem_singleton_iff, Set.mem_ofPred_eq]
              have hle := UInt64.not_lt.1 hlimit
              constructor
              · rintro ⟨⟨ht, hne⟩, hout⟩
                exact ⟨ht, fun ⟨_, hlow⟩ => hout ⟨⟨ht, hne⟩, hlow⟩⟩
              · rintro ⟨ht, hout⟩
                refine ⟨⟨ht, ?_⟩, fun ⟨_, hlow⟩ => hout ⟨ht, hlow⟩⟩
                rintro rfl
                exact hout ⟨ht, hfrom, hle⟩
            have hviews'₁ := hviews'
            rw [hset] at hviews'
            refine ⟨p', ?_, hviews', ?_⟩
            · rw [bind_of_ok hp₁, hp']
            · refine ⟨hpruned.selector.trans hwithdrawn.selector,
                hpruned.nonceCache.trans hwithdrawn.nonceCache,
                fun a ha => (hpruned.others a ha).trans (hwithdrawn.others a (hfrom ▸ ha)),
                hpruned.entry, fun af' af'' haf' haf'' hne => ?_⟩
              obtain rfl : af = af' := Option.some_inj.1 (haf.symm.trans haf')
              rw [hpruned.maxNonce _ _ haf₁ haf'' hne]
              -- what is left after the lowest nonce is above it
              obtain ⟨n, t, ht⟩ := exists_lookup_of_ne_empty hne
              obtain ⟨⟨⟨hS, hfirst⟩, -⟩, htfrom, rfl⟩ := hviews'₁.mem_sender haf'' ht
              obtain ⟨af₂, haf₂, ht₂⟩ := h.lookup_sender hS
              rw [htfrom, haf, Option.some_inj] at haf₂
              subst haf₂
              refine AccountFrom.remove_maxNonce ht₂ (UInt64.lt_of_le_of_ne (hleast _ _ ht₂) ?_)
              rintro heq
              rw [← heq, hlookup, Option.some_inj] at ht₂
              exact hfirst ht₂.symm

/-- The upper bound of a sender's nonces after pruning, if there is still an entry. -/
def maxNonceAbove (p : PendingPool env) (addr : Address) (limit : UInt64) : Option UInt64 :=
  (p.accFrom.lookup addr).bind fun af =>
    if ∃ n ∈ af.nonceToTx.keys, limit < n then some af.maxNonce else none

/-- `Prune` takes out the transactions of the sender up to the limit. -/
lemma Ok.prune (h : p.Ok S) (addr : Address) (limit : UInt64) :
    ∃ p', p.prune addr limit = .ok p' ∧ p'.Ok (S \ upTo S addr limit) ∧
      (p'.accFrom.lookup addr).map AccountFrom.maxNonce = p.maxNonceAbove addr limit := by
  unfold PendingPool.prune
  cases haf : p.accFrom.lookup addr with
  | none =>
      have hempty : upTo S addr limit = ∅ := by
        refine Set.eq_empty_iff_forall_notMem.2 fun t ⟨ht, hfrom, _⟩ => ?_
        obtain ⟨af, haf', -⟩ := h.lookup_sender ht
        rw [hfrom, haf] at haf'
        cases haf'
      rw [hempty, Set.sdiff_empty]
      refine ⟨p, rfl, h, ?_⟩
      rw [maxNonceAbove, haf]
      rfl
  | some af =>
      have hloop : ∃ p', PendingPool.pruneLoop addr limit (af.size + 1) p = .ok p' ∧
          p'.Views (S \ upTo S addr limit) ∧ Pruned addr p p' :=
        h.toViews.pruneLoop haf (Nat.lt_succ_self _)
      obtain ⟨p', hp', hviews, hpruned⟩ := hloop
      dsimp only
      rw [hp']
      refine ⟨p'.forget addr, rfl, ?_⟩
      obtain ⟨af', haf'⟩ := Option.isSome_iff_exists.1 hpruned.entry
      have hdomain : ∀ a, (p'.accFrom.lookup a).isSome = true ↔
          (p.accFrom.lookup a).isSome = true := by
        intro a
        by_cases ha : a = addr
        · rw [ha, haf, haf']
          rfl
        · rw [hpruned.others a ha]
      have hleft : af'.nonceToTx ≠ ∅ ↔ ∃ n ∈ af.nonceToTx.keys, limit < n := by
        constructor
        · intro hne
          obtain ⟨n, t, ht⟩ := exists_lookup_of_ne_empty hne
          obtain ⟨⟨hS, hout⟩, hfrom, rfl⟩ := hviews.mem_sender haf' ht
          obtain ⟨af₂, haf₂, ht₂⟩ := h.lookup_sender hS
          rw [hfrom, haf, Option.some_inj] at haf₂
          subst haf₂
          refine ⟨t.nonce, mem_keys.2 (mem_iff.2 ⟨t, ht₂⟩), UInt64.not_le.1 fun hle => ?_⟩
          exact hout ⟨hS, hfrom, hle⟩
        · rintro ⟨n, hn, hlt⟩
          obtain ⟨t, ht⟩ := mem_iff.1 (mem_keys.1 hn)
          obtain ⟨hS, hfrom, rfl⟩ := h.mem_sender haf ht
          have hS' : t ∈ S \ upTo S addr limit :=
            ⟨hS, fun hlow => UInt64.not_lt.2 hlow.2.2 hlt⟩
          exact fun hempty => hviews.empty_of_lookup haf' hempty hS' hfrom
      unfold forget
      rw [maxNonceAbove, haf, haf', Option.any_some, Option.bind_some]
      split_ifs with hsize hkeys hkeys
      · rw [decide_eq_true_iff, AccountFrom.size_eq_zero] at hsize
        exact absurd hsize (hleft.2 hkeys)
      · rw [decide_eq_true_iff, AccountFrom.size_eq_zero] at hsize
        refine ⟨?_, by rw [lookup_erase]; rfl⟩
        refine ⟨⟨hviews.all, fun k t => ?_, hviews.payer, hviews.point, hviews.payer_ne,
          hviews.point_ne⟩, ?_, ?_⟩
        · rw [← hviews.sender]
          by_cases hk : k.1 = addr
          · dsimp only
            rw [hk, find_erase_self, find_of_lookup haf', hsize, lookup_empty]
          · dsimp only
            rw [find_erase_of_ne hk]
        · intro a af ha
          dsimp only at ha
          by_cases haddr : a = addr
          · rw [haddr, lookup_erase] at ha
            cases ha
          · rw [lookup_erase_ne haddr, hpruned.others a haddr] at ha
            exact h.sender_ne a af ha
        · intro a
          dsimp only
          rw [RoundRobin.mem_keys_remove, hpruned.selector, h.selector, ← hdomain]
          by_cases haddr : a = addr
          · rw [haddr, lookup_erase]
            simp
          · rw [lookup_erase_ne haddr]
            simp [haddr]
      · rw [decide_eq_true_iff, AccountFrom.size_eq_zero] at hsize
        refine ⟨⟨hviews, fun a af ha => ?_, fun a => by rw [hpruned.selector, h.selector, hdomain]⟩,
          ?_⟩
        · by_cases haddr : a = addr
          · rw [haddr, haf', Option.some_inj] at ha
            subst ha
            exact hsize
          · rw [hpruned.others a haddr] at ha
            exact h.sender_ne a af ha
        · rw [haf', Option.map_some, hpruned.maxNonce af af' haf haf' hsize]
      · rw [decide_eq_true_iff, AccountFrom.size_eq_zero] at hsize
        exact absurd (hleft.1 hsize) hkeys

/-! ## Selecting -/

/-- The pool with another selector that has the same senders. -/
lemma Ok.congr_selector (h : p.Ok S) {selector : RoundRobin Address}
    {nonceCache : Finmap fun _ : Address => UInt64}
    (hkeys : ∀ a, a ∈ selector.keys ↔ a ∈ p.selector.keys) :
    Ok { p with selector := selector, nonceCache := nonceCache } S :=
  ⟨⟨h.all, h.sender, h.payer, h.point, h.payer_ne, h.point_ne⟩, h.sender_ne,
    fun a => (hkeys a).trans (h.selector a)⟩

lemma Ok.nextLoop (h : p.Ok S) (fuel : ℕ) : (nextLoop fuel p).2.Ok S := by
  induction fuel generalizing p with
  | zero => exact h
  | succ fuel ih =>
      unfold PendingPool.nextLoop
      cases hnext : p.selector.next with
      | none => exact h
      | some result =>
          obtain ⟨addr, selector⟩ := result
          have hmoved : Ok { p with selector := selector } S :=
            h.congr_selector fun a => RoundRobin.mem_keys_next hnext
          dsimp only
          cases p.accFrom.lookup addr with
          | none => exact hmoved
          | some accFrom =>
              dsimp only
              cases p.nonceCache.lookup addr with
              | none => exact hmoved
              | some requiredNonce =>
                  dsimp only
                  cases accFrom.get requiredNonce with
                  | some tx => exact hmoved
                  | none =>
                      refine ih (hmoved.congr_selector fun a => ?_)
                      rw [RoundRobin.mem_keys_excludeKey]
                      refine ⟨?_, .inr⟩
                      rintro (rfl | ha)
                      · exact RoundRobin.mem_keys.2 (.inl (RoundRobin.key_mem_next hnext))
                      · exact ha

end PendingPool

/-! ## Sums -/

/-- A usage of 64 bits that is added up is the sum modulo `2 ^ 64`. -/
lemma Bandwidth.toNat_sum {κ : Type*} (usage : Bandwidth → UInt64) (hzero : usage 0 = 0)
    (hadd : ∀ b obj, usage (b + obj) = usage b + usage obj) (s : Finset κ) (f : κ → Bandwidth) :
    (usage (∑ k ∈ s, f k)).toNat = (∑ k ∈ s, (usage (f k)).toNat) % 2 ^ 64 := by
  classical
  induction s using Finset.induction_on with
  | empty =>
      rw [Finset.sum_empty, Finset.sum_empty, hzero]
      rfl
  | insert k s hk ih =>
      rw [Finset.sum_insert hk, Finset.sum_insert hk, hadd, UInt64.toNat_add, ih, Nat.add_mod_mod]

namespace PendingPool

/-- The transactions that an account pays for. -/
def paidBy (S : Set (TxContext env)) (addr : Address) : Set (TxContext env) :=
  {t ∈ S | t.payerOrFrom = addr}

/-- The transactions of a sender. -/
def sentBy (S : Set (TxContext env)) (addr : Address) : Set (TxContext env) :=
  {t ∈ S | t.fromAddr = addr}

/-- A bandwidth is the sum of those of the transactions modulo `2 ^ 64`; and if the sum fits into
64 bits it is the sum, and taking the usage of one of the transactions away does not underflow. -/
def AddsUp (usage : Bandwidth → UInt64) (bw : Bandwidth) (paid : Set (TxContext env)) : Prop :=
  (usage bw).toNat = (∑ᶠ t ∈ paid, (usage t.bandwidth).toNat) % 2 ^ 64 ∧
    (∑ᶠ t ∈ paid, (usage t.bandwidth).toNat < 2 ^ 64 →
      (usage bw).toNat = ∑ᶠ t ∈ paid, (usage t.bandwidth).toNat ∧
        ∀ t ∈ paid, usage t.bandwidth ≤ usage bw)

variable {p p' : PendingPool env} {S : Set (TxContext env)} {addr : Address}

lemma Views.addsUp (h : p.Views S) {ap : AccountPayer env}
    (hap : p.accPayer.lookup addr = some ap) (usage : Bandwidth → UInt64) (hzero : usage 0 = 0)
    (hadd : ∀ b obj, usage (b + obj) = usage b + usage obj) :
    AddsUp usage ap.sum (paidBy S addr) := by
  have hentry : Indexes ap.items.lookup TxContext.addrNonceKey (paidBy S addr) := h.payer.entry hap
  have htotal := hentry.weigh_eq fun t => (usage t.bandwidth).toNat
  have hmod : (usage ap.sum).toNat =
      ap.items.weigh (fun t => (usage t.bandwidth).toNat) % 2 ^ 64 := by
    rw [ap.sum_eq, weigh, Bandwidth.toNat_sum usage hzero hadd]
    refine congrArg (· % 2 ^ 64) (Finset.sum_congr rfl fun k _ => ?_)
    cases ap.items.lookup k with
    | none =>
        rw [Option.elim_none, Option.elim_none, hzero]
        rfl
    | some t => rfl
  rw [AddsUp, ← htotal]
  refine ⟨hmod, fun hlt => ?_⟩
  rw [Nat.mod_eq_of_lt hlt] at hmod
  refine ⟨hmod, fun t ht => ?_⟩
  rw [UInt64.le_iff_toNat_le, hmod]
  exact le_total (hentry.find ht) fun t => (usage t.bandwidth).toNat

/-! ## Runs -/

/-- What the pool promises, for a set of transactions. -/
structure Consistent (p : PendingPool env) (S : Set (TxContext env)) : Prop where
  all : ∀ hash t, p.all.lookup hash = some t ↔ t.hash = hash ∧ t ∈ S
  sender : ∀ addr nonce t,
    (∃ af, p.accFrom.lookup addr = some af ∧ af.nonceToTx.lookup nonce = some t) ↔
      (t.fromAddr, t.nonce) = (addr, nonce) ∧ t ∈ S
  payer : ∀ addr key t,
    (∃ ap, p.accPayer.lookup addr = some ap ∧ ap.items.lookup key = some t) ↔
      (t.payerOrFrom, t.addrNonceKey) = (addr, key) ∧ t ∈ S
  point : ∀ addr key t,
    (∃ apo, p.accPoint.lookup addr = some apo ∧ apo.items.lookup key = some t) ↔
      (t.fromAddr, t.addrNonceKey) = (addr, key) ∧ t ∈ S
  cpuUsage : ∀ addr ap, p.accPayer.lookup addr = some ap →
    AddsUp Bandwidth.cpuUsage ap.sum (paidBy S addr)
  netUsage : ∀ addr ap, p.accPayer.lookup addr = some ap →
    AddsUp Bandwidth.netUsage ap.sum (paidBy S addr)
  pointChange : ∀ addr apo, p.accPoint.lookup addr = some apo →
    apo.sum = ∑ᶠ t ∈ sentBy S addr, t.pointChange
  sender_ne : ∀ addr af, p.accFrom.lookup addr = some af → af.nonceToTx ≠ ∅
  payer_ne : ∀ addr ap, p.accPayer.lookup addr = some ap → ap.items ≠ ∅
  point_ne : ∀ addr apo, p.accPoint.lookup addr = some apo → apo.items ≠ ∅
  selector : ∀ addr, addr ∈ p.selector.keys ↔ (p.accFrom.lookup addr).isSome = true
  nonces : ∀ addr af nonce t, p.accFrom.lookup addr = some af →
    af.nonceToTx.lookup nonce = some t → af.minNonce ≤ nonce ∧ nonce ≤ af.maxNonce
  first : ∀ addr af, p.accFrom.lookup addr = some af →
    ∃ t ∈ sentBy S addr, af.peekFirst = some t ∧ ∀ t' ∈ sentBy S addr, t.nonce ≤ t'.nonce

lemma Ok.consistent (h : p.Ok S) : p.Consistent S where
  all := h.all
  sender addr nonce t := find_eq_some.symm.trans (h.sender (addr, nonce) t)
  payer addr key t := find_eq_some.symm.trans (h.payer (addr, key) t)
  point addr key t := find_eq_some.symm.trans (h.point (addr, key) t)
  cpuUsage _ _ hap := h.addsUp hap _ rfl fun _ _ => rfl
  netUsage _ _ hap := h.addsUp hap _ rfl fun _ _ => rfl
  pointChange _ apo hapo := apo.sum_eq.trans ((h.point.entry hapo).weigh_eq _)
  sender_ne := h.sender_ne
  payer_ne := h.payer_ne
  point_ne := h.point_ne
  selector := h.selector
  nonces _ af nonce t _ ht := af.within nonce t ht
  first addr af haf := by
    obtain ⟨nonce, t, ht⟩ := exists_lookup_of_ne_empty (h.sender_ne addr af haf)
    obtain ⟨n, first, hpeek, hfirst, hleast⟩ := AccountFrom.peekFirst_spec ht
    obtain ⟨hmem, hfrom, rfl⟩ := h.mem_sender haf hfirst
    refine ⟨first, ⟨hmem, hfrom⟩, hpeek, fun t' ht' => ?_⟩
    obtain ⟨af', haf', hlookup⟩ := h.lookup_sender ht'.1
    rw [ht'.2, haf, Option.some_inj] at haf'
    subst haf'
    exact hleast _ _ hlookup

/-- A call on the pool that changes it. -/
inductive Op (env : Env)
  | pushOrReplace (tx : TxContext env) (accState payerState : Account) (price : Price) (now : ℤ)
  | prune (addr : Address) (nonceLowerLimit : UInt64)
  | next
  | setRequiredNonce (addr : Address) (nonce : UInt64)
  | resetSelector

/-- The pool after a call, unless the call followed a nil pointer.  A transaction that is refused
leaves the pool as it is. -/
def apply (p : PendingPool env) : Op env → Option (PendingPool env)
  | .pushOrReplace tx accState payerState price now =>
    match p.pushOrReplace tx accState payerState price now with
    | .ok p' => some p'
    | .error e => if e = .nilPointer then none else some p
  | .prune addr nonceLowerLimit => (p.prune addr nonceLowerLimit).toOption
  | .next => some p.next.2
  | .setRequiredNonce addr nonce => some (p.setRequiredNonce addr nonce)
  | .resetSelector => some p.resetSelector

/-- The pool after a sequence of calls. -/
def run (ops : List (Op env)) : Option (PendingPool env) := ops.foldlM apply new

/-- Every call returns and keeps the views in agreement. -/
lemma Ok.apply (h : p.Ok S) (op : Op env) : ∃ p' S', p.apply op = some p' ∧ p'.Ok S' := by
  cases op with
  | pushOrReplace tx accState payerState price now =>
      simp only [PendingPool.apply]
      cases hpush : p.pushOrReplace tx accState payerState price now with
      | ok p' => exact ⟨p', _, rfl, h.pushOrReplace hpush⟩
      | error e =>
          refine ⟨p, S, if_neg ?_, h⟩
          rintro rfl
          exact h.pushOrReplace_ne_nil hpush
  | prune addr nonceLowerLimit =>
      obtain ⟨p', hp', hok, -⟩ := h.prune addr nonceLowerLimit
      exact ⟨p', _, by rw [PendingPool.apply, hp']; rfl, hok⟩
  | next => exact ⟨_, S, rfl, h.nextLoop _⟩
  | setRequiredNonce addr nonce => exact ⟨_, S, rfl, h.congr_selector fun _ => Iff.rfl⟩
  | resetSelector => exact ⟨_, S, rfl, h.congr_selector fun _ => RoundRobin.mem_keys_reset⟩

/-- Every sequence of calls returns and keeps the views in agreement. -/
lemma run_ok (ops : List (Op env)) : ∃ p S, run ops = some p ∧ p.Ok S := by
  suffices hrun : ∀ (p : PendingPool env) S, p.Ok S →
      ∃ p' S', ops.foldlM PendingPool.apply p = some p' ∧ p'.Ok S' from hrun new ∅ ok_new
  induction ops with
  | nil => exact fun p S h => ⟨p, S, rfl, h⟩
  | cons op ops ih =>
      intro p S h
      obtain ⟨p₁, S₁, hp₁, hok₁⟩ := h.apply op
      obtain ⟨p', S', hp', hok⟩ := ih p₁ S₁ hok₁
      refine ⟨p', S', ?_, hok⟩
      rw [List.foldlM_cons, hp₁]
      exact hp'

/-- **The views agree.**  After every sequence of calls the pool is there, and its maps, sums, bounds
and selector are those of one set of transactions. -/
theorem views_of_one_set (ops : List (Op env)) : ∃ p S, run ops = some p ∧ p.Consistent S := by
  obtain ⟨p, S, hp, hok⟩ := run_ok ops
  exact ⟨p, S, hp, hok.consistent⟩

end PendingPool

end GoMedibloc
