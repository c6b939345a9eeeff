import GoMedibloc.Ledger.MakeBlock
import GoMedibloc.Ledger.Nonces
import GoMedibloc.Pool.Replacement

/-!
# Filling a block from the pool

The loop of `makeBlock` asks the pool for the next transaction.  If its nonce is not the next one of
its sender, the pool is told which nonce is; otherwise the pool is told the nonce after it, and the
transaction is executed and included.  The pool hands out the transactions of a sender by the nonce
it was told, and puts a sender aside who has no transaction of that nonce.

The nonce after the one in turn is set before it is known whether the nonce of the sender goes up.
If the transaction is refused, or if its sender pays for it and the nonce is lost, then the next one
of the sender comes too early, the pool is told the old nonce again, and the same transaction is
executed once more: the two take turns until the deadline.  This needs a next one in the pool.  So
in a run in which a transaction in turn that has a follower is executable, is not paid for by its
sender as payer, and does not have the last nonce, every transaction is executed at most once and
the pool has nothing more to hand out after at most two rounds for a transaction
(`each_executed_once`).
-/

namespace GoMedibloc

open Except Finmap

variable {env : Env}

/-! ## The loop -/

/-- The loop of `makeBlock`: the pool, the height and the state of the block, the transactions that
have been executed and those that have been included, the newest first, and whether `makeBlock` has
returned an error.  The receipt of a transaction in the pool is not tracked, as the loop does not
read it. -/
structure Filling (env : Env) where
  pool : PendingPool env
  height : ℕ
  state : BlockState
  executed : List (TxContext env)
  included : List (TxContext env)
  failed : Bool

namespace Filling

/-- The loop is entered with a reset selector. -/
def start (pool : PendingPool env) (height : ℕ) (state : BlockState) : Filling env :=
  ⟨pool.resetSelector, height, state, [], [], false⟩

/-- One round of the loop. -/
def round (f : Filling env) : Filling env :=
  if f.failed then f
  else match f.pool.next with
  | (none, pool) => { f with pool := pool }
  | (some t, pool) =>
    match f.state.getAccount t.fromAddr with
    | .error _ => { f with pool := pool, failed := true }
    | .ok acc =>
      if acc.nonce + 1 ≠ t.nonce then
        { f with pool := pool.setRequiredNonce t.fromAddr (acc.nonce + 1) }
      else
        let f := { f with
          pool := pool.setRequiredNonce t.fromAddr (acc.nonce + 2)
          executed := t :: f.executed }
        match executeTransaction env f.height t.tx f.state with
        | .error _ => f
        | .ok (receipt, state) =>
          match acceptTransaction (t.tx.setReceipt receipt) state with
          | .error _ => { f with failed := true }
          | .ok state => { f with state := state, included := t :: f.included }

/-- The loop after some rounds. -/
def after (f : Filling env) (k : ℕ) : Filling env := round^[k] f

lemma after_succ (f : Filling env) (k : ℕ) : f.after (k + 1) = (f.after k).round :=
  Function.iterate_succ_apply' round k f

/-- The checks of `ExecuteTransaction` besides that of the nonce: the bandwidth of the transaction
fits into the block, and the account that pays for it has the points. -/
def fits (s : BlockState) (t : TxContext env) : Except Err Unit := do
  checkBandwidthLimit s t.bandwidth
  let usage ← t.bandwidth.calcPoints s
  checkAvailablePoint s t.tx t.exec.op usage

/-- If the transaction in turn has the next nonce of its sender, and the pool has the one after it
as well, then it passes the checks, it is not paid for by its sender as payer, and its nonce is not
the last one. -/
def Steady (f : Filling env) : Prop :=
  ∀ t ∈ f.pool.next.1, checkNonce f.state t.tx = .ok () →
    (f.pool.accFrom.find AccountFrom.nonceToTx t.fromAddr (t.nonce + 1)).isSome = true →
    fits f.state t = .ok () ∧ t.tx.PayerApart ∧ t.nonce + 1 ≠ 0

instance (f : Filling env) : Decidable f.Steady :=
  inferInstanceAs (Decidable (∀ t ∈ f.pool.next.1, _ → _ → _ ∧ _ ∧ _))

end Filling

/-! ## What the pool hands out -/

namespace PendingPool

variable {p p' : PendingPool env} {S : Set (TxContext env)} {t : TxContext env}

/-- `Next` moves the selector only.  It returns a transaction of the pool, with the required nonce
of its sender if one is set, or nothing, and then no sender is left in line. -/
lemma Ok.nextLoop_cases (h : p.Ok S) {fuel : ℕ} (hfuel : p.selector.incl.length < fuel) :
    ∃ selector,
      (PendingPool.nextLoop fuel p = (none, { p with selector := selector }) ∧
        selector.incl = []) ∨
      ∃ t ∈ S, PendingPool.nextLoop fuel p = (some t, { p with selector := selector }) ∧
        ∀ r, p.nonceCache.lookup t.fromAddr = some r → t.nonce = r := by
  induction fuel generalizing p with
  | zero => exact absurd hfuel (Nat.not_lt_zero _)
  | succ fuel ih =>
      unfold PendingPool.nextLoop
      cases hnext : p.selector.next with
      | none => exact ⟨p.selector, .inl ⟨rfl, RoundRobin.next_eq_none.1 hnext⟩⟩
      | some result =>
          obtain ⟨addr, selector⟩ := result
          have hmem := RoundRobin.key_mem_next hnext
          have hkey : addr ∈ p.selector.keys :=
            (RoundRobin.mem_keys_next hnext).1 (RoundRobin.mem_keys.2 (.inl hmem))
          obtain ⟨af, haf⟩ := Option.isSome_iff_exists.1 ((h.selector addr).1 hkey)
          simp only [haf]
          cases hcache : p.nonceCache.lookup addr with
          | none =>
              cases hpeek : af.peekFirst with
              | none => exact absurd (AccountFrom.peekFirst_eq_none hpeek) (h.sender_ne addr af haf)
              | some t =>
                  obtain ⟨m, hm, -⟩ := AccountFrom.peekFirst_eq_some hpeek
                  obtain ⟨ht, hfrom, -⟩ := h.mem_sender haf hm
                  refine ⟨selector, .inr ⟨t, ht, rfl, fun r hr => ?_⟩⟩
                  rw [hfrom, hcache] at hr
                  cases hr
          | some r =>
              cases hget : af.get r with
              | some t =>
                  obtain ⟨ht, hfrom, hnonce⟩ := h.mem_sender haf hget
                  refine ⟨selector, .inr ⟨t, ht, by simp only [hget], fun r' hr' => ?_⟩⟩
                  rw [hfrom, hcache, Option.some_inj] at hr'
                  exact hnonce.trans hr'
              | none =>
                  -- the sender is put aside, and the line is shorter
                  have hmoved : Ok { p with selector := selector.excludeKey addr } S := by
                    refine h.congr_selector fun a => ?_
                    rw [RoundRobin.mem_keys_excludeKey, ← RoundRobin.mem_keys_next hnext]
                    refine ⟨?_, .inr⟩
                    rintro (rfl | ha)
                    · exact RoundRobin.mem_keys.2 (.inl hmem)
                    · exact ha
                  have hlen := RoundRobin.length_excludeKey hmem
                  rw [RoundRobin.length_next hnext] at hlen
                  simp only [hget]
                  exact ih hmoved (by dsimp only; omega)

lemma Ok.next_cases (h : p.Ok S) :
    ∃ selector,
      (p.next = (none, { p with selector := selector }) ∧ selector.incl = []) ∨
      ∃ t ∈ S, p.next = (some t, { p with selector := selector }) ∧
        ∀ r, p.nonceCache.lookup t.fromAddr = some r → t.nonce = r :=
  h.nextLoop_cases (Nat.lt_succ_self _)

/-- Without a sender in line `Next` does nothing. -/
lemma next_of_incl_eq_nil (h : p.selector.incl = []) : p.next = (none, p) := by
  rw [next, nextLoop, RoundRobin.next_eq_none.2 h]

end PendingPool

namespace Filling

/-! ## What a round does -/

variable {f f' : Filling env} {S : Set (TxContext env)} {t : TxContext env}
  {pool : PendingPool env}

/-- What a round does with the transaction that the pool has handed out. -/
inductive Turn (t : TxContext env) (pool : PendingPool env) (f : Filling env) : Filling env → Prop
  /-- The account of the sender cannot be read. -/
  | unread : Turn t pool f { f with pool := pool, failed := true }
  /-- The nonce is not the next one of the sender. -/
  | early {acc : Account} (hacc : f.state.getAccount t.fromAddr = .ok acc)
      (hne : acc.nonce + 1 ≠ t.nonce) :
      Turn t pool f { f with pool := pool.setRequiredNonce t.fromAddr (acc.nonce + 1) }
  /-- The transaction is refused. -/
  | refused {e : Err} (hnonce : checkNonce f.state t.tx = .ok ())
      (hexec : executeTransaction env f.height t.tx f.state = .error e) :
      Turn t pool f { f with
        pool := pool.setRequiredNonce t.fromAddr (t.nonce + 1)
        executed := t :: f.executed }
  /-- The transaction is executed and cannot be accepted. -/
  | failed (hnonce : checkNonce f.state t.tx = .ok ()) :
      Turn t pool f { f with
        pool := pool.setRequiredNonce t.fromAddr (t.nonce + 1)
        executed := t :: f.executed
        failed := true }
  /-- The transaction is executed and included. -/
  | included {l : Ledger} (hnonce : checkNonce f.state t.tx = .ok ())
      (haccept : Ledger.accept env t.tx ⟨f.height, f.state, none, []⟩ = .ok l) :
      Turn t pool f { f with
        pool := pool.setRequiredNonce t.fromAddr (t.nonce + 1)
        state := l.state
        executed := t :: f.executed
        included := t :: f.included }

/-- A round with a transaction. -/
lemma round_turn (hfailed : f.failed = false) (hnext : f.pool.next = (some t, pool)) :
    Turn t pool f f.round := by
  unfold round
  rw [if_neg (Bool.eq_false_iff.1 hfailed), hnext]
  dsimp only
  cases hacc : f.state.getAccount t.fromAddr with
  | error e => exact .unread
  | ok acc =>
      dsimp only
      split_ifs with hne
      · exact .early hacc hne
      · rw [not_not] at hne
        have hnonce : checkNonce f.state t.tx = .ok () := by
          rw [TxContext.fromAddr] at hacc
          rw [checkNonce, bind_of_ok hacc, failIf_eq_ok, not_not]
          exact hne.symm
        have hrequired : acc.nonce + 2 = t.nonce + 1 := by rw [← hne, add_assoc]; rfl
        rw [hrequired]
        cases hexec : executeTransaction env f.height t.tx f.state with
        | error e => exact .refused hnonce hexec
        | ok result =>
            obtain ⟨receipt, s₁⟩ := result
            dsimp only
            cases haccept : acceptTransaction (t.tx.setReceipt receipt) s₁ with
            | error e => exact .failed hnonce
            | ok s =>
                refine .included (l := ⟨f.height, s, none, [t.tx.setReceipt receipt]⟩) hnonce ?_
                rw [Ledger.accept, bind_of_ok hexec]
                dsimp only
                rw [bind_of_ok haccept]
                rfl

/-- A transaction of the next nonce that passes the other checks is not refused. -/
lemma executable_of_fits {e : Err} (hnonce : checkNonce f.state t.tx = .ok ())
    (hfits : fits f.state t = .ok ()) :
    executeTransaction env f.height t.tx f.state ≠ .error e := by
  obtain ⟨_, hbandwidth, hfits⟩ := bind_eq_ok_iff.1 hfits
  obtain ⟨usage, husage, hpoint⟩ := bind_eq_ok_iff.1 hfits
  intro hexec
  rw [executeTransaction, bind_of_ok t.exec_eq, bind_of_ok hnonce] at hexec
  rw [TxContext.bandwidth] at hbandwidth husage
  rw [bind_of_ok hbandwidth, bind_of_ok husage, bind_of_ok hpoint] at hexec
  cases hexec

/-- A failed loop stays as it is. -/
lemma round_of_failed (h : f.failed = true) : f.round = f := by
  rw [round, if_pos h]

/-- Without a sender in line a round does nothing. -/
lemma round_of_incl_eq_nil (h : f.pool.selector.incl = []) : f.round = f := by
  unfold round
  split_ifs
  · rfl
  · rw [PendingPool.next_of_incl_eq_nil h]

lemma after_of_incl_eq_nil {N k : ℕ} (h : (f.after N).pool.selector.incl = []) (hk : N ≤ k) :
    f.after k = f.after N := by
  induction k, hk using Nat.le_induction with
  | base => rfl
  | succ k hk ih => rw [after_succ, ih, round_of_incl_eq_nil h]

/-! ## The invariant -/

/-- Earlier of the two lies the transaction with the lower nonce, if they have one sender. -/
def Above (later earlier : TxContext env) : Prop :=
  later.fromAddr = earlier.fromAddr → earlier.nonce < later.nonce

/-- What holds after every round.  A transaction in the pool with the required nonce of its sender
is the next one of the sender, and all executed ones of the sender lie below it. -/
structure Inv (S : Set (TxContext env)) (f : Filling env) : Prop where
  ok : f.pool.Ok S
  cached : ∀ a ∈ f.pool.nonceCache.keys, ∃ t ∈ S, t.fromAddr = a
  due : f.failed = false → ∀ t ∈ S, f.pool.nonceCache.lookup t.fromAddr = some t.nonce →
    ∃ n : UInt64, f.state.nonceOf t.fromAddr = n.toNat ∧ t.nonce = n + 1
  pending : ∀ t ∈ f.executed, t ∈ S
  below : ∀ t ∈ f.executed, ∃ r, f.pool.nonceCache.lookup t.fromAddr = some r ∧
    ∀ u ∈ S, u.fromAddr = t.fromAddr → u.nonce = r → t.nonce < r
  nodup : f.executed.Nodup
  included : ∀ t ∈ f.included, t ∈ f.executed
  order : f.included.Pairwise Above

/-- The loop is entered with nothing required and nothing executed. -/
lemma inv_start {p : PendingPool env} (h : p.Ok S) (height : ℕ) (state : BlockState) :
    Inv S (start p height state) where
  ok := h.congr_selector fun _ => RoundRobin.mem_keys_reset
  cached _ ha := absurd (Finmap.mem_keys.1 ha) Finmap.notMem_empty
  due _ _ _ hcache :=
    absurd ((Finmap.lookup_empty _).symm.trans hcache) (Option.some_ne_none _).symm
  pending _ ht := absurd ht List.not_mem_nil
  below _ ht := absurd ht List.not_mem_nil
  nodup := List.nodup_nil
  included _ ht := absurd ht List.not_mem_nil
  order := List.Pairwise.nil

/-- A transaction in turn: it is in the pool, has the required nonce if one is set, and `Next`
returns it. -/
structure InTurn (S : Set (TxContext env)) (f : Filling env) (t : TxContext env)
    (pool : PendingPool env) : Prop where
  mem : t ∈ S
  required : ∀ r, f.pool.nonceCache.lookup t.fromAddr = some r → t.nonce = r
  next : f.pool.next = (some t, pool)
  ok : pool.Ok S
  nonceCache : pool.nonceCache = f.pool.nonceCache

/-- The executed transactions of its sender lie below the one in turn. -/
lemma Inv.below_turn (h : f.Inv S) (hturn : InTurn S f t pool) {u : TxContext env}
    (hu : u ∈ f.executed) (hfrom : u.fromAddr = t.fromAddr) : u.nonce < t.nonce := by
  obtain ⟨r, hr, hbelow⟩ := h.below u hu
  rw [hfrom] at hr
  have hnonce := hturn.required r hr
  rw [hnonce]
  exact hbelow t hturn.mem hfrom.symm hnonce

lemma Inv.cached_set (h : f.Inv S) (hturn : InTurn S f t pool) (nonce : UInt64) :
    ∀ a ∈ (pool.setRequiredNonce t.fromAddr nonce).nonceCache.keys, ∃ u ∈ S, u.fromAddr = a := by
  intro a ha
  rw [Finmap.mem_keys, PendingPool.setRequiredNonce, Finmap.mem_insert, hturn.nonceCache] at ha
  obtain rfl | ha := ha
  · exact ⟨t, hturn.mem, rfl⟩
  · exact h.cached a (Finmap.mem_keys.2 ha)

/-- The invariant after the nonce of the one in turn was too early. -/
lemma Inv.early (h : f.Inv S) (hfailed : f.failed = false) (hturn : InTurn S f t pool)
    {acc : Account} (hacc : f.state.getAccount t.fromAddr = .ok acc)
    (hne : acc.nonce + 1 ≠ t.nonce) :
    f.pool.nonceCache.lookup t.fromAddr = none ∧
      Inv S { f with pool := pool.setRequiredNonce t.fromAddr (acc.nonce + 1) } := by
  have hread : f.state.nonceOf t.fromAddr = acc.nonce.toNat := by
    rw [← BlockState.address_of_getAccount hacc]
    exact (Edit.of_getAccount hacc acc rfl).nonceOf_read
  -- with a required nonce the one in turn would have been the next one
  have hnone : f.pool.nonceCache.lookup t.fromAddr = none := by
    refine Option.eq_none_iff_forall_ne_some.2 fun r hr => ?_
    obtain rfl := hturn.required r hr
    obtain ⟨n, hn, hnonce⟩ := h.due hfailed t hturn.mem hr
    rw [hread, UInt64.toNat_inj] at hn
    rw [hn, hnonce] at hne
    exact hne rfl
  refine ⟨hnone, hturn.ok.congr_selector fun _ => Iff.rfl, h.cached_set hturn _, ?_, h.pending, ?_,
    h.nodup, h.included, h.order⟩
  · intro _ u hu hcache
    change ((pool.nonceCache.insert t.fromAddr _).lookup u.fromAddr) = _ at hcache
    by_cases hfrom : u.fromAddr = t.fromAddr
    · rw [hfrom, lookup_insert, Option.some_inj] at hcache
      exact ⟨acc.nonce, by rw [hfrom]; exact hread, hcache.symm⟩
    · rw [lookup_insert_of_ne _ hfrom, hturn.nonceCache] at hcache
      exact h.due hfailed u hu hcache
  · intro u hu
    obtain ⟨r, hr, hbelow⟩ := h.below u hu
    have hfrom : u.fromAddr ≠ t.fromAddr := by
      intro hfrom
      rw [hfrom, hnone] at hr
      cases hr
    refine ⟨r, ?_, hbelow⟩
    change ((pool.nonceCache.insert t.fromAddr _).lookup u.fromAddr) = _
    rw [lookup_insert_of_ne _ hfrom, hturn.nonceCache, hr]

/-- The invariant after the one in turn has been executed, if the nonces of the accounts fit and no
follower wraps around. -/
lemma Inv.execute (h : f.Inv S) (hfailed : f.failed = false) (hturn : InTurn S f t pool)
    (hpool : f'.pool = pool.setRequiredNonce t.fromAddr (t.nonce + 1))
    (hexecuted : f'.executed = t :: f.executed)
    (hincluded : f'.included = f.included ∨ f'.included = t :: f.included)
    (hfollower : ∀ u ∈ S, u.fromAddr = t.fromAddr → u.nonce = t.nonce + 1 →
      t.nonce + 1 ≠ 0 ∧ (f'.failed = false → f'.state.nonceOf t.fromAddr = t.nonce.toNat))
    (hothers : ∀ a, a ≠ t.fromAddr → f'.state.nonceOf a = f.state.nonceOf a) : f'.Inv S := by
  have hself : f'.pool.nonceCache.lookup t.fromAddr = some (t.nonce + 1) := by
    rw [hpool]
    exact lookup_insert _
  have hne : ∀ a, a ≠ t.fromAddr →
      f'.pool.nonceCache.lookup a = f.pool.nonceCache.lookup a := by
    intro a ha
    rw [hpool, ← hturn.nonceCache]
    exact lookup_insert_of_ne _ ha
  have hsub : ∀ u ∈ f'.included, u ∈ f'.executed := by
    intro u hu
    rw [hexecuted]
    obtain heq | heq := hincluded
    · rw [heq] at hu
      exact List.mem_cons_of_mem _ (h.included u hu)
    · rw [heq, List.mem_cons] at hu
      obtain rfl | hu := hu
      · exact List.mem_cons_self
      · exact List.mem_cons_of_mem _ (h.included u hu)
  refine ⟨?_, ?_, ?_, ?_, ?_, ?_, hsub, ?_⟩
  · rw [hpool]
    exact hturn.ok.congr_selector fun _ => Iff.rfl
  · rw [hpool]
    exact h.cached_set hturn _
  · intro hfailed' u hu hcache
    by_cases hfrom : u.fromAddr = t.fromAddr
    · rw [hfrom, hself, Option.some_inj] at hcache
      rw [hfrom]
      exact ⟨t.nonce, (hfollower u hu hfrom hcache.symm).2 hfailed', hcache.symm⟩
    · rw [hne _ hfrom] at hcache
      rw [hothers _ hfrom]
      exact h.due hfailed u hu hcache
  · intro u hu
    rw [hexecuted, List.mem_cons] at hu
    obtain rfl | hu := hu
    · exact hturn.mem
    · exact h.pending u hu
  · intro u hu
    by_cases hfrom : u.fromAddr = t.fromAddr
    · refine ⟨t.nonce + 1, by rw [hfrom, hself], fun v hv hfrom' hnonce => ?_⟩
      obtain ⟨hwrap, -⟩ := hfollower v hv (hfrom'.trans hfrom) hnonce
      have hsucc := toNat_succ_iff.2 hwrap
      have hle : u.nonce ≤ t.nonce := by
        rw [hexecuted, List.mem_cons] at hu
        obtain rfl | hu := hu
        · exact UInt64.le_refl _
        · exact UInt64.le_of_lt (h.below_turn hturn hu hfrom)
      rw [UInt64.le_iff_toNat_le] at hle
      rw [UInt64.lt_iff_toNat_lt]
      omega
    · rw [hexecuted, List.mem_cons] at hu
      obtain rfl | hu := hu
      · exact absurd rfl hfrom
      · rw [hne _ hfrom]
        exact h.below u hu
  · rw [hexecuted, List.nodup_cons]
    exact ⟨fun hmem => absurd (h.below_turn hturn hmem rfl) (UInt64.lt_irrefl _), h.nodup⟩
  · obtain heq | heq := hincluded
    · rw [heq]
      exact h.order
    · rw [heq, List.pairwise_cons]
      exact ⟨fun u hu hfrom => h.below_turn hturn (h.included u hu) hfrom.symm, h.order⟩

/-- A follower of the one in turn is seen by `Steady`. -/
lemma InTurn.steady (hturn : InTurn S f t pool) (hok : f.pool.Ok S) (hsteady : f.Steady)
    (hnonce : checkNonce f.state t.tx = .ok ()) {u : TxContext env} (hu : u ∈ S)
    (hfrom : u.fromAddr = t.fromAddr) (hfollows : u.nonce = t.nonce + 1) :
    fits f.state t = .ok () ∧ t.tx.PayerApart ∧ t.nonce + 1 ≠ 0 := by
  refine hsteady t ?_ hnonce ?_
  · rw [hturn.next]
    rfl
  · obtain ⟨af, haf, hlookup⟩ := hok.lookup_sender hu
    rw [hfrom] at haf
    rw [hfollows] at hlookup
    rw [find_eq_some.2 ⟨af, haf, hlookup⟩]
    rfl

/-- How far the loop has come: the senders with a required nonce and the executed transactions. -/
def progress (f : Filling env) : ℕ := f.pool.nonceCache.keys.card + f.executed.length

/-- A round with a transaction keeps the invariant and makes progress, unless it fails. -/
lemma Inv.turn (h : f.Inv S) (hfailed : f.failed = false) (hsteady : f.Steady)
    (hturn : InTurn S f t pool) (hcase : Turn t pool f f') :
    f'.Inv S ∧ (f'.failed = true ∨ f.progress < f'.progress) := by
  have hkeys : ∀ nonce, f.pool.nonceCache.keys ⊆
      (pool.setRequiredNonce t.fromAddr nonce).nonceCache.keys := by
    intro nonce a ha
    rw [Finmap.mem_keys] at ha ⊢
    rw [PendingPool.setRequiredNonce, Finmap.mem_insert, hturn.nonceCache]
    exact .inr ha
  have hcard := fun nonce => Finset.card_le_card (hkeys nonce)
  cases hcase with
  | unread =>
      refine ⟨⟨hturn.ok, ?_, nofun, h.pending, ?_, h.nodup, h.included, h.order⟩, .inl rfl⟩
      · rw [hturn.nonceCache]
        exact h.cached
      · rw [hturn.nonceCache]
        exact h.below
  | @early acc hacc hne =>
      obtain ⟨hnone, hinv⟩ := h.early hfailed hturn hacc hne
      refine ⟨hinv, .inr ?_⟩
      have hnew : t.fromAddr ∉ f.pool.nonceCache.keys := by
        rw [Finmap.mem_keys, ← Finmap.lookup_eq_none]
        exact hnone
      have hmem : t.fromAddr ∈
          (pool.setRequiredNonce t.fromAddr (acc.nonce + 1)).nonceCache.keys := by
        rw [Finmap.mem_keys, PendingPool.setRequiredNonce, Finmap.mem_insert]
        exact .inl rfl
      have hlt : f.pool.nonceCache.keys.card <
          (pool.setRequiredNonce t.fromAddr (acc.nonce + 1)).nonceCache.keys.card :=
        Finset.card_lt_card ⟨hkeys _, fun hsub => hnew (hsub hmem)⟩
      exact Nat.add_lt_add_right hlt _
  | refused hnonce hexec =>
      refine ⟨h.execute hfailed hturn rfl rfl (.inl rfl) ?_ fun _ _ => rfl,
        .inr (Nat.add_lt_add_of_le_of_lt (hcard _) (Nat.lt_succ_self _))⟩
      intro u hu hfrom hfollows
      obtain ⟨hfits, -⟩ := hturn.steady h.ok hsteady hnonce hu hfrom hfollows
      exact absurd hexec (executable_of_fits hnonce hfits)
  | failed hnonce =>
      refine ⟨h.execute hfailed hturn rfl rfl (.inl rfl) ?_ fun _ _ => rfl, .inl rfl⟩
      intro u hu hfrom hfollows
      obtain ⟨-, -, hwrap⟩ := hturn.steady h.ok hsteady hnonce hu hfrom hfollows
      exact ⟨hwrap, nofun⟩
  | included hnonce haccept =>
      obtain ⟨⟨n, -, -, hsender⟩, hothers⟩ := Ledger.accept_nonceOf haccept
      refine ⟨h.execute hfailed hturn rfl rfl (.inr rfl) ?_ hothers,
        .inr (Nat.add_lt_add_of_le_of_lt (hcard _) (Nat.lt_succ_self _))⟩
      intro u hu hfrom hfollows
      obtain ⟨-, hapart, hwrap⟩ := hturn.steady h.ok hsteady hnonce hu hfrom hfollows
      rw [if_pos hapart] at hsender
      exact ⟨hwrap, fun _ => hsender⟩

/-! ## Whole runs -/

/-- Nothing more happens: `makeBlock` has returned an error, or `Next` returns nothing. -/
def Done (f : Filling env) : Prop := f.failed = true ∨ f.pool.next.1 = none

/-- A round keeps the invariant; it makes progress, or nothing more happens after it. -/
lemma Inv.round (h : f.Inv S) (hsteady : f.Steady) :
    f.round.Inv S ∧ (f.round.Done ∨ ¬ f.Done ∧ f.progress < f.round.progress) := by
  by_cases hfailed : f.failed = true
  · rw [round_of_failed hfailed]
    exact ⟨h, .inl (.inl hfailed)⟩
  · rw [Bool.not_eq_true] at hfailed
    have hok : f.pool.next.2.Ok S := h.ok.nextLoop _
    obtain ⟨selector, ⟨hnext, hincl⟩ | ⟨t, ht, hnext, hrequired⟩⟩ := h.ok.next_cases
    · have hround : f.round = { f with pool := { f.pool with selector := selector } } := by
        rw [Filling.round, if_neg (Bool.eq_false_iff.1 hfailed), hnext]
      rw [hnext] at hok
      rw [hround]
      refine ⟨⟨hok, h.cached, h.due, h.pending, h.below, h.nodup, h.included, h.order⟩,
        .inl (.inr ?_)⟩
      rw [PendingPool.next_of_incl_eq_nil hincl]
    · rw [hnext] at hok
      have hturn : InTurn S f t { f.pool with selector := selector } :=
        ⟨ht, hrequired, hnext, hok, rfl⟩
      obtain ⟨hinv, hfail | hlt⟩ := h.turn hfailed hsteady hturn (round_turn hfailed hnext)
      · exact ⟨hinv, .inl (.inl hfail)⟩
      · refine ⟨hinv, .inr ⟨?_, hlt⟩⟩
        rintro (hfail | hnone)
        · rw [hfailed] at hfail
          cases hfail
        · rw [hnext] at hnone
          cases hnone

/-- There are at most two rounds of progress for a transaction of the pool. -/
lemma Inv.progress_le (h : f.Inv S) : f.progress ≤ 2 * S.ncard := by
  classical
  have hfinite := h.ok.all.finite
  have hcached : f.pool.nonceCache.keys.card ≤ S.ncard := by
    have hsub : (f.pool.nonceCache.keys : Set Address) ⊆ TxContext.fromAddr '' S := h.cached
    rw [← Set.ncard_coe_finset]
    exact (Set.ncard_le_ncard hsub (hfinite.image _)).trans (Set.ncard_image_le hfinite)
  have hexecuted : f.executed.length ≤ S.ncard := by
    have hsub : (f.executed.toFinset : Set (TxContext env)) ⊆ S :=
      fun t ht => h.pending t (List.mem_toFinset.1 ht)
    rw [← List.toFinset_card_of_nodup h.nodup, ← Set.ncard_coe_finset]
    exact Set.ncard_le_ncard hsub hfinite
  rw [progress]
  omega

/-- The invariant and the progress along a run of steady rounds. -/
lemma Inv.after (h : f.Inv S) (hsteady : ∀ k, (f.after k).Steady) (k : ℕ) :
    (f.after k).Inv S ∧ ((f.after k).Done ∨ k ≤ (f.after k).progress) := by
  induction k with
  | zero => exact ⟨h, .inr (Nat.zero_le _)⟩
  | succ k ih =>
      obtain ⟨hinv, hdone⟩ := ih
      rw [after_succ]
      obtain ⟨hinv', hdone' | ⟨hnot, hlt⟩⟩ := hinv.round (hsteady k)
      · exact ⟨hinv', .inl hdone'⟩
      · exact ⟨hinv', .inr (by have := hdone.resolve_left hnot; omega)⟩

/-- **A block is filled without spinning.**  In a run of the loop in which every round is steady,
every pending transaction is executed at most once, those of one sender are included in the order
of their nonces, and after finitely many rounds `Next` returns nothing and keeps doing so, unless
`makeBlock` has returned an error. -/
theorem each_executed_once {ops : List (PendingPool.Op env)} {p : PendingPool env}
    (hp : PendingPool.run ops = some p) {height : ℕ} {state : BlockState}
    (hsteady : ∀ k, ((start p height state).after k).Steady) :
    (∀ k, (((start p height state).after k).executed.map TxContext.hash).Nodup ∧
      (∀ t ∈ ((start p height state).after k).executed, p.get t.hash = some t) ∧
      ((start p height state).after k).included.Pairwise fun later earlier =>
        later.fromAddr = earlier.fromAddr → earlier.nonce < later.nonce) ∧
    ∃ N, ∀ k ≥ N, ((start p height state).after k).failed = true ∨
      ((start p height state).after k).pool.next.1 = none := by
  obtain ⟨p', S, hp', hok⟩ := PendingPool.run_ok ops
  obtain rfl : p' = p := Option.some_inj.1 (hp'.symm.trans hp)
  have hrun := (inv_start hok height state).after hsteady
  refine ⟨fun k => ?_, 2 * S.ncard + 1, fun k hk => ?_⟩
  · obtain ⟨hinv, -⟩ := hrun k
    refine ⟨List.Nodup.map_on ?_ hinv.nodup, fun t ht => hok.all.find (hinv.pending t ht),
      hinv.order⟩
    exact fun t ht u hu heq => hok.all.injOn (hinv.pending t ht) (hinv.pending u hu) heq
  · obtain ⟨hinv, hdone | hle⟩ := hrun k
    · exact hdone
    · have hbound := hinv.progress_le
      omega

/-! ## A sender with two transactions -/

section Pair

open Plain

/-- The account of the sender when its transactions are pushed. -/
def sender : Account := { newAccount (address 1) with points := .ofUint 100000 }

/-- Two transfers of one sender come into the pool. -/
def pushes : List (PendingPool.Op .plain) :=
  [.pushOrReplace (transfer 1) sender sender price 0,
    .pushOrReplace (transfer 2) sender sender price 0]

/-- The state of a block with the given points of the sender and one point for a unit of
bandwidth. -/
def blockState (points : ℕ) : BlockState :=
  { BlockState.genesis.putAccount { sender with points := .ofUint points.toUInt64 } with
    cpuPrice := price.cpuPrice
    netPrice := price.netPrice }

/-- Both transfers are executed and included if the sender has the points for them. -/
theorem two_transfers_executed_once : ∃ p, PendingPool.run pushes = some p ∧
    (∀ k, ((start p 2 (blockState 100000)).after k).Steady) ∧
    (∀ k, (((start p 2 (blockState 100000)).after k).executed.map TxContext.hash).Nodup ∧
      (∀ t ∈ ((start p 2 (blockState 100000)).after k).executed, p.get t.hash = some t) ∧
      ((start p 2 (blockState 100000)).after k).included.Pairwise fun later earlier =>
        later.fromAddr = earlier.fromAddr → earlier.nonce < later.nonce) ∧
    (∃ N, ∀ k ≥ N, ((start p 2 (blockState 100000)).after k).failed = true ∨
      ((start p 2 (blockState 100000)).after k).pool.next.1 = none) ∧
    ((start p 2 (blockState 100000)).after 3).included.map TxContext.nonce = [2, 1] := by
  have hrun : ((PendingPool.run pushes).map fun p =>
      (decide (((start p 2 (blockState 100000)).after 0).Steady ∧
          ((start p 2 (blockState 100000)).after 1).Steady ∧
          ((start p 2 (blockState 100000)).after 2).Steady),
        ((start p 2 (blockState 100000)).after 3).pool.selector.incl.isEmpty,
        ((start p 2 (blockState 100000)).after 3).included.map TxContext.nonce)) =
      some (true, true, [2, 1]) := by decide +kernel
  obtain ⟨p, hp, hvals⟩ := Option.map_eq_some_iff.1 hrun
  simp only [Prod.mk.injEq, decide_eq_true_eq, List.isEmpty_iff] at hvals
  obtain ⟨⟨h₀, h₁, h₂⟩, hincl, hincluded⟩ := hvals
  have hsteady : ∀ k, ((start p 2 (blockState 100000)).after k).Steady
    | 0 => h₀
    | 1 => h₁
    | 2 => h₂
    | k + 3 => by
      rw [after_of_incl_eq_nil hincl (Nat.le_add_left 3 k)]
      intro t ht
      rw [PendingPool.next_of_incl_eq_nil hincl] at ht
      cases ht
  obtain ⟨honce, hend⟩ := each_executed_once hp hsteady
  exact ⟨p, hp, hsteady, honce, hend, hincluded⟩

/-- A sender without the points for the first of two transfers: it is executed again and again. -/
theorem refused_transfer_executed_again : ∃ p, PendingPool.run pushes = some p ∧
    ((start p 2 (blockState 0)).after 3).executed.map TxContext.nonce = [1, 1] ∧
    ¬ (((start p 2 (blockState 0)).after 3).executed.map TxContext.hash).Nodup ∧
    ((start p 2 (blockState 0)).after 9).executed.length = 5 := by
  have hrun : ((PendingPool.run pushes).map fun p =>
      (((start p 2 (blockState 0)).after 3).executed.map TxContext.nonce,
        decide (((start p 2 (blockState 0)).after 3).executed.map TxContext.hash).Nodup,
        ((start p 2 (blockState 0)).after 9).executed.length)) =
      some ([1, 1], false, 5) := by decide +kernel
  obtain ⟨p, hp, hvals⟩ := Option.map_eq_some_iff.1 hrun
  simp only [Prod.mk.injEq, decide_eq_false_iff_not] at hvals
  exact ⟨p, hp, hvals⟩

end Pair

end Filling

end GoMedibloc
