import GoMedibloc.Pool.Views

/-!
# Replacing a pending transaction

A transaction with the sender and the nonce of a pending one replaces it.  What the payer has to pay
for with the new transaction is counted without the old one: `requiredPointUsage` takes the old
bandwidth away.  The points that pending stakes and unstakes will bring or cost are not:
`modifiedPointUsage` uses the sum of the payer's entry as it is, and if the payer is the sender the
old transaction is part of that sum.

So a replacement is judged with the points that the stake it removes would have brought, or without
those that the unstake it removes would have cost.  `replacement_judged_as_push_iff` says when this
makes a difference: the sender pays, and the points that are lacking for the new transaction lie
between zero and the point change of the old one.
-/

namespace GoMedibloc

open Except Finmap

variable {env : Env}

namespace PendingPool

/-- The points that a transaction is paid with: those of the payer, or those that the sender is
expected to have after the execution. -/
def payingPoints (tx : TxContext env) (accState payerState : Account) : Except Err Uint128 :=
  if tx.tx.hasPayer then .ok payerState.points else availablePoint accState tx.exec.op

/-- The transactions of the set that do not have the sender and the nonce of the given one. -/
def beside (S : Set (TxContext env)) (tx : TxContext env) : Set (TxContext env) :=
  {t ∈ S | t.addrNonceKey ≠ tx.addrNonceKey}

/-- The bandwidth that the payer of a transaction has to pay for, with it and without another one
of its sender and nonce. -/
noncomputable def requiredBandwidth (S : Set (TxContext env)) (tx : TxContext env) : Bandwidth :=
  (∑ᶠ t ∈ paidBy (beside S tx) tx.payerOrFrom, t.bandwidth) + tx.bandwidth

/-- The points that the transactions of an account will bring it. -/
noncomputable def expectedPoints (S : Set (TxContext env)) (addr : Address) : ℤ :=
  ∑ᶠ t ∈ sentBy S addr, t.pointChange

variable {p p₁ : PendingPool env} {S : Set (TxContext env)} {tx old : TxContext env}
  {accState payerState : Account} {price : Price}

/-! ## What the point check computes -/

/-- A usage is covered after its modification if and only if it is covered together with the
expected points; that the modified usage is cut off at zero and bounded does not matter. -/
lemma modifiedPointUsage_le (apo : AccountPoint env) (usage points : Uint128) :
    (∃ modified, apo.modifiedPointUsage usage = .ok modified ∧ modified.val ≤ points.val) ↔
      (usage.val : ℤ) ≤ points.val + apo.sum := by
  have hpoints := points.lt
  unfold AccountPoint.modifiedPointUsage
  dsimp only
  split_ifs with hneg
  · refine ⟨fun _ => by omega, fun _ => ⟨.zero, rfl, Nat.zero_le _⟩⟩
  · constructor
    · rintro ⟨modified, hmodified, hle⟩
      rw [Uint128.ofNat_eq_ok] at hmodified
      omega
    · intro hle
      obtain ⟨z, hz, hval⟩ := Uint128.exists_ofNat
        (n := ((usage.val : ℤ) - apo.sum).toNat) (by omega)
      exact ⟨z, hz, by omega⟩

/-- The account check, for the payer or for the sender. -/
lemma accountCheck_eq_ok {modified : Uint128} {u : Unit} :
    (if tx.tx.hasPayer then checkPayerAccountPoint payerState modified
      else checkFromAccountPoint accState tx.exec.op modified) = .ok u ↔
    ∃ points, payingPoints tx accState payerState = .ok points ∧
      modified.val ≤ points.val := by
  unfold payingPoints checkPayerAccountPoint checkFromAccountPoint
  split_ifs
  · simp only [failIf_eq_ok, not_lt, Except.ok.injEq, exists_eq_left']
  · simp only [bind_eq_ok_iff, failIf_eq_ok, not_lt]

/-- The entry of a payer, or a new one, adds up to what the payer pays for. -/
lemma Views.sumWithout_payer (h : p.Views S) (addr : Address) (tx : TxContext env) :
    ((p.accPayer.lookup addr).getD .new).sumWithout tx.addrNonceKey =
      ∑ᶠ t ∈ paidBy (beside S tx) addr, t.bandwidth := by
  cases hap : p.accPayer.lookup addr with
  | none =>
      have hempty : paidBy (beside S tx) addr = ∅ := by
        refine Set.eq_empty_iff_forall_notMem.2 fun t ⟨⟨ht, _⟩, hpayer⟩ => ?_
        obtain ⟨ap, hap', -⟩ := h.lookup_payer ht
        rw [hpayer, hap] at hap'
        cases hap'
      rw [hempty, finsum_mem_empty]
      rfl
  | some ap =>
      have hremoved : Indexes (ap.remove tx.addrNonceKey).items.lookup TxContext.addrNonceKey
          (paidBy (beside S tx) addr) := by
        intro k t
        have hentry := h.payer.entry hap k t
        change (ap.items.erase tx.addrNonceKey).lookup k = some t ↔ _
        simp only [paidBy, beside, Set.mem_ofPred_eq] at hentry ⊢
        by_cases hk : k = tx.addrNonceKey
        · rw [hk, lookup_erase]
          refine ⟨nofun, fun ⟨hkey, ⟨_, hne⟩, _⟩ => absurd hkey hne⟩
        · rw [lookup_erase_ne hk, hentry]
          constructor
          · rintro ⟨rfl, ht, hpayer⟩
            exact ⟨rfl, ⟨ht, hk⟩, hpayer⟩
          · rintro ⟨rfl, ⟨ht, -⟩, hpayer⟩
            exact ⟨rfl, ht, hpayer⟩
      exact (ap.remove tx.addrNonceKey).sum_eq.trans (hremoved.weigh_eq _)

/-- The point entry of an account, or a new one, adds up to what the account can expect. -/
lemma Views.sum_point (h : p.Views S) (addr : Address) :
    ((p.accPoint.lookup addr).getD .new).sum = expectedPoints S addr := by
  cases hapo : p.accPoint.lookup addr with
  | none =>
      have hempty : sentBy S addr = ∅ := by
        refine Set.eq_empty_iff_forall_notMem.2 fun t ⟨ht, hfrom⟩ => ?_
        obtain ⟨apo, hapo', -⟩ := h.lookup_point ht
        rw [hfrom, hapo] at hapo'
        cases hapo'
      rw [expectedPoints, hempty, finsum_mem_empty]
      rfl
  | some apo => exact apo.sum_eq.trans ((h.point.entry hapo).weigh_eq _)

/-- What the point check decides, in terms of the set of transactions: the required bandwidth is
paid for by the points of the account and those it can expect. -/
lemma Views.checkPoints_isOk (h : p.Views S) :
    (p.checkPoints tx accState payerState price).isOk = true ↔
      ∃ usage points, (requiredBandwidth S tx).calcPointsAt price = .ok usage ∧
        payingPoints tx accState payerState = .ok points ∧
        (usage.val : ℤ) ≤ points.val + expectedPoints S tx.payerOrFrom := by
  unfold checkPoints AccountPayer.requiredPointUsage
  dsimp only
  rw [isOk_iff, h.sumWithout_payer, ← requiredBandwidth]
  constructor
  · rintro ⟨_, hcheck⟩
    obtain ⟨usage, husage, hcheck⟩ := bind_eq_ok_iff.1 hcheck
    obtain ⟨modified, hmodified, hcheck⟩ := bind_eq_ok_iff.1 hcheck
    obtain ⟨points, hpoints, hle⟩ := accountCheck_eq_ok.1 hcheck
    refine ⟨usage, points, husage, hpoints, ?_⟩
    rw [← h.sum_point]
    exact (modifiedPointUsage_le _ _ _).1 ⟨modified, hmodified, hle⟩
  · rintro ⟨usage, points, husage, hpoints, hle⟩
    rw [← h.sum_point] at hle
    obtain ⟨modified, hmodified, hle⟩ := (modifiedPointUsage_le _ _ _).2 hle
    refine ⟨(), ?_⟩
    rw [bind_of_ok husage, bind_of_ok hmodified]
    exact accountCheck_eq_ok.2 ⟨points, hpoints, hle⟩

/-! ## With and without the old transaction -/

/-- The required bandwidth does not count the old transaction. -/
lemma requiredBandwidth_diff (hkey : old.addrNonceKey = tx.addrNonceKey) :
    requiredBandwidth (S \ {old}) tx = requiredBandwidth S tx := by
  have hbeside : beside (S \ {old}) tx = beside S tx := by
    ext t
    simp only [beside, Set.mem_ofPred_eq, Set.mem_sdiff, Set.mem_singleton_iff]
    refine ⟨fun ⟨⟨ht, _⟩, hne⟩ => ⟨ht, hne⟩, fun ⟨ht, hne⟩ => ⟨⟨ht, ?_⟩, hne⟩⟩
    rintro rfl
    exact hne hkey
  rw [requiredBandwidth, requiredBandwidth, hbeside]

/-- The expected points of the sender do. -/
lemma expectedPoints_diff (hfinite : S.Finite) (hold : old ∈ S) (addr : Address) :
    expectedPoints S addr =
      expectedPoints (S \ {old}) addr + if old.fromAddr = addr then old.pointChange else 0 := by
  unfold expectedPoints
  split_ifs with hfrom
  · have hinsert : sentBy S addr = insert old (sentBy (S \ {old}) addr) := by
      ext t
      simp only [sentBy, Set.mem_insert_iff, Set.mem_ofPred_eq, Set.mem_sdiff,
        Set.mem_singleton_iff]
      refine ⟨fun ⟨ht, hsent⟩ => ?_, ?_⟩
      · by_cases heq : t = old
        · exact .inl heq
        · exact .inr ⟨⟨ht, heq⟩, hsent⟩
      · rintro (rfl | ⟨⟨ht, -⟩, hsent⟩)
        · exact ⟨hold, hfrom⟩
        · exact ⟨ht, hsent⟩
    have hnot : old ∉ sentBy (S \ {old}) addr := fun hmem => hmem.1.2 rfl
    rw [hinsert, finsum_mem_insert _ hnot (hfinite.subset fun t ht => ht.1.1), add_comm]
  · have hsame : sentBy (S \ {old}) addr = sentBy S addr := by
      ext t
      simp only [sentBy, Set.mem_ofPred_eq, Set.mem_sdiff, Set.mem_singleton_iff]
      refine ⟨fun ⟨⟨ht, _⟩, hsent⟩ => ⟨ht, hsent⟩, fun ⟨ht, hsent⟩ => ⟨⟨ht, ?_⟩, hsent⟩⟩
      rintro rfl
      exact hfrom hsent
    rw [hsame, add_zero]

lemma Consistent.views (h : p.Consistent S) : p.Views S where
  all := h.all
  sender k t := find_eq_some.trans (h.sender k.1 k.2 t)
  payer k t := find_eq_some.trans (h.payer k.1 k.2 t)
  point k t := find_eq_some.trans (h.point k.1 k.2 t)
  payer_ne := h.payer_ne
  point_ne := h.point_ne

/-- **When replacing is judged like pushing.**  Let `old` be the pending transaction with the sender
and the nonce of `tx`.  The point check of the replacement decides as the point check of a push on
the pool without `old`, unless the sender pays for `tx` and the points that are lacking for `tx`,
besides those that the other pending transactions of the sender will bring, lie between zero and the
point change of `old`. -/
theorem replacement_judged_as_push_iff (h : p.Consistent S) (hold : old ∈ S)
    (hkey : old.addrNonceKey = tx.addrNonceKey) :
    ∃ p₁, p.withdraw old = .ok p₁ ∧
      (((p.checkPoints tx accState payerState price).isOk = true ↔
          (p₁.checkPoints tx accState payerState price).isOk = true) ↔
        ¬ (tx.payerOrFrom = tx.fromAddr ∧ ∃ usage points,
          (requiredBandwidth S tx).calcPointsAt price = .ok usage ∧
          payingPoints tx accState payerState = .ok points ∧
          (usage.val : ℤ) - points.val - expectedPoints (S \ {old}) tx.fromAddr ∈
            Set.uIoc 0 old.pointChange)) := by
  obtain ⟨p₁, hp₁, hviews₁, -⟩ := h.views.withdraw hold
  refine ⟨p₁, hp₁, ?_⟩
  have hfrom : old.fromAddr = tx.fromAddr := congrArg Prod.fst hkey
  rw [h.views.checkPoints_isOk, hviews₁.checkPoints_isOk, requiredBandwidth_diff hkey,
    expectedPoints_diff h.views.all.finite hold, hfrom]
  by_cases hpays : tx.payerOrFrom = tx.fromAddr
  · rw [if_pos hpays.symm, hpays]
    -- both checks read the same usage and points, if there are any
    by_cases hread : ∃ usage points, (requiredBandwidth S tx).calcPointsAt price = .ok usage ∧
        payingPoints tx accState payerState = .ok points
    · obtain ⟨usage, points, husage, hpoints⟩ := hread
      simp only [husage, hpoints, Except.ok.injEq, exists_and_left, exists_eq_left', Set.mem_uIoc,
        true_and]
      omega
    · push Not at hread
      refine iff_of_true (iff_of_false ?_ ?_) ?_
      · rintro ⟨usage, points, husage, hpoints, -⟩
        exact hread usage points husage hpoints
      · rintro ⟨usage, points, husage, hpoints, -⟩
        exact hread usage points husage hpoints
      · rintro ⟨-, usage, points, husage, hpoints, -⟩
        exact hread usage points husage hpoints
  · rw [if_neg fun heq => hpays heq.symm, add_zero]
    simp only [hpays, false_and, not_false_eq_true]

/-! ## A stake that is replaced -/

end PendingPool

namespace Plain

/-- A stake of an account without points, which pays for itself with the points it brings. -/
def pendingStake : TxContext .plain where
  tx := signed ⟨.stake, address 1, .none, .ofUint 1000000, 1, 0, []⟩
  exec := ⟨.stake (address 1) (.ofUint 1000000), 300⟩
  exec_eq := rfl
  incomeTime := 0
  broadcast := false

/-- One point for a unit of bandwidth. -/
def price : Price := ⟨.ofUint 1, .ofUint 1⟩

end Plain

namespace PendingPool

open Plain

/-- The condition for a transfer that replaces a stake. -/
theorem replacement_of_stake_judged_iff : ∃ (p : PendingPool .plain) (S : _), p.Consistent S ∧
    pendingStake ∈ S ∧ pendingStake.addrNonceKey = (transfer 1).addrNonceKey ∧
    ∃ p₁, p.withdraw pendingStake = .ok p₁ ∧
      (((p.checkPoints (transfer 1) (newAccount (address 1)) (newAccount (address 1))
            price).isOk = true ↔
          (p₁.checkPoints (transfer 1) (newAccount (address 1)) (newAccount (address 1))
            price).isOk = true) ↔
        ¬ ((transfer 1).payerOrFrom = (transfer 1).fromAddr ∧ ∃ usage points,
          (requiredBandwidth S (transfer 1)).calcPointsAt price = .ok usage ∧
          payingPoints (transfer 1) (newAccount (address 1)) (newAccount (address 1)) =
            .ok points ∧
          (usage.val : ℤ) - points.val -
              expectedPoints (S \ {pendingStake}) (transfer 1).fromAddr ∈
            Set.uIoc 0 pendingStake.pointChange)) := by
  have hok : (new.pushOrReplace pendingStake (newAccount (address 1)) (newAccount (address 1))
      price 0).isOk = true := by decide +kernel
  obtain ⟨p, hp⟩ := isOk_iff.1 hok
  have hcons := (ok_new.pushOrReplace hp).consistent
  have hkey : pendingStake.addrNonceKey = (transfer 1).addrNonceKey := by decide +kernel
  exact ⟨p, _, hcons, Set.mem_insert _ _, hkey,
    replacement_judged_as_push_iff hcons (Set.mem_insert _ _) hkey⟩

/-- A transfer that replaces a stake is accepted from a sender without points, who could not have
pushed it. -/
theorem replacement_counts_removed_stake :
    ∃ p p₁, new.pushOrReplace pendingStake (newAccount (address 1)) (newAccount (address 1))
        price 0 = .ok p ∧
      p.withdraw pendingStake = .ok p₁ ∧
      (p.pushOrReplace (transfer 1) (newAccount (address 1)) (newAccount (address 1)) price
        (allowReplacePendingDuration + 1)).isOk = true ∧
      (p.checkPoints (transfer 1) (newAccount (address 1)) (newAccount (address 1))
        price).isOk = true ∧
      (p₁.checkPoints (transfer 1) (newAccount (address 1)) (newAccount (address 1))
        price).isOk = false := by
  have hrun : (do
      let p ← new.pushOrReplace pendingStake (newAccount (address 1)) (newAccount (address 1)) price 0
      let p₁ ← p.withdraw pendingStake
      return ((p.pushOrReplace (transfer 1) (newAccount (address 1)) (newAccount (address 1))
          price (allowReplacePendingDuration + 1)).isOk,
        (p.checkPoints (transfer 1) (newAccount (address 1)) (newAccount (address 1)) price).isOk,
        (p₁.checkPoints (transfer 1) (newAccount (address 1)) (newAccount (address 1))
          price).isOk)) = Except.ok (ε := PendingErr) (true, true, false) := by decide +kernel
  obtain ⟨p, hp, hrun⟩ := bind_eq_ok_iff.1 hrun
  obtain ⟨p₁, hp₁, hrun⟩ := bind_eq_ok_iff.1 hrun
  simp only [pure, Except.pure, Except.ok.injEq, Prod.mk.injEq] at hrun
  exact ⟨p, p₁, hp, hp₁, hrun⟩

end PendingPool

end GoMedibloc
