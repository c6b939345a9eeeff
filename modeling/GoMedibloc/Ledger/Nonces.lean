import GoMedibloc.Ledger.Run

/-!
# Nonces and replays

A transaction is executed only if its nonce is the next one of its sender, and accepting it
raises the nonce of the sender.  This is the only check against replays: `PutTx` overwrites.

It fails for a transaction whose payer is its own sender.  `AcceptTransaction` reads the sender
and the payer as two copies of one account, raises the nonce in the first and charges the
second, and puts the second over the first; the nonce stays, and the same transaction can be
accepted again.  Where the payer is absent or another account, and the nonce does not wrap
around, the nonce goes up by one, no other nonce changes, and no hash is accepted twice.
-/

namespace GoMedibloc

open Except

variable {env : Env} {height : ℕ} {s s' : BlockState}

/-- The stored nonce of an address. -/
def BlockState.nonceOf (s : BlockState) (a : Address) : ℕ :=
  (s.account? a).elim 0 fun acc => acc.nonce.toNat

/-- The next nonce is one more unless it wraps around. -/
lemma toNat_succ_iff {n : UInt64} : (n + 1).toNat = n.toNat + 1 ↔ n + 1 ≠ 0 := by
  have hlt := n.toNat_lt
  have hadd : (n + 1).toNat = (n.toNat + 1) % 2 ^ 64 := UInt64.toNat_add n 1
  have hzero : n + 1 = 0 ↔ (n + 1).toNat = 0 := by rw [← UInt64.toNat_inj]; rfl
  rw [Ne, hzero, hadd]
  omega

/-! ## Edits and nonces -/

section Edits

variable {acc acc' : Account}

/-- The nonce that is read is the stored one. -/
lemma Edit.nonceOf_read (h : Edit s acc acc' s') : s.nonceOf acc.address = acc.nonce.toNat := by
  unfold BlockState.nonceOf
  obtain ⟨hnone, hnew⟩ | ⟨stored, hstored, hr⟩ := h.fresh_or_refreshed
  · rw [hnone, hnew]
    rfl
  · rw [hstored, hr.nonce]
    rfl

/-- The nonce that is put is stored. -/
lemma Edit.nonceOf_put (h : Edit s acc acc' s') : s'.nonceOf acc.address = acc'.nonce.toNat := by
  rw [BlockState.nonceOf, h.account?_self]
  rfl

lemma Edit.nonceOf_of_ne (h : Edit s acc acc' s') {a : Address} (ha : a ≠ acc.address) :
    s'.nonceOf a = s.nonceOf a := by
  rw [BlockState.nonceOf, h.account?_of_ne ha]
  rfl

/-- An edit that leaves the nonce of its account leaves all nonces. -/
lemma Edit.nonceOf_eq (h : Edit s acc acc' s') (hnonce : acc'.nonce = acc.nonce) (a : Address) :
    s'.nonceOf a = s.nonceOf a := by
  by_cases ha : a = acc.address
  · rw [ha, h.nonceOf_put, h.nonceOf_read, hnonce]
  · exact h.nonceOf_of_ne ha

lemma LightEdits.nonceOf_eq {d : ℤ} (h : LightEdits s s' d) (a : Address) :
    s'.nonceOf a = s.nonceOf a := by
  induction h with
  | refl => rfl
  | edit _ hedit hlight ih => exact (hedit.nonceOf_eq hlight.nonce a).trans ih
  | setAliases _ _ haccounts ih =>
      rw [← ih]
      unfold BlockState.nonceOf BlockState.account?
      rw [haccounts]

lemma DposChange.nonce {ts : ℤ} {ds ds' : DposState} {op : Operation}
    (h : DposChange ts ds acc op acc' ds') : acc'.nonce = acc.nonce := by
  cases h <;> rfl

/-- No execution changes a nonce. -/
lemma Effect.nonceOf_eq {op : Operation} (h : Effect height s op s') (a : Address) :
    s'.nonceOf a = s.nonceOf a := by
  cases h with
  | light hop h => exact h.nonceOf_eq a
  | distribute hheight h hsupply => exact h.nonceOf_eq a
  | dpos hedit h => exact hedit.nonceOf_eq h.nonce a

end Edits

/-! ## Accepting -/

section Accepting

variable {tx : Transaction} {r : Receipt} {l l' : Ledger}

/-- The sender is not its own payer. -/
def Transaction.PayerApart (tx : Transaction) : Prop := tx.hasPayer → tx.payer ≠ tx.fromAddr

instance (tx : Transaction) : Decidable tx.PayerApart := inferInstanceAs (Decidable (_ → _))

/-- Other nonces stay. -/
lemma Accepted.nonceOf_of_ne (h : Accepted tx r s s') {a : Address} (ha : a ≠ tx.fromAddr) :
    s'.nonceOf a = s.nonceOf a := by
  cases h with
  | sender hpayer haddr hedit hpoints => exact hedit.nonceOf_of_ne (haddr ▸ ha)
  | payer hpayer haddr hpaddr hne hedit hedit₁ hpoints =>
      exact (hedit₁.nonceOf_eq rfl a).trans (hedit.nonceOf_of_ne (haddr ▸ ha))
  | self hpayer haddr heq hedit hpoints => exact hedit.nonceOf_of_ne (haddr ▸ ha)

/-- The nonce of the sender goes up, unless the sender is its own payer. -/
lemma Accepted.nonceOf_sender (h : Accepted tx r s s') {n : UInt64}
    (hn : s.nonceOf tx.fromAddr = n.toNat) :
    s'.nonceOf tx.fromAddr = if tx.PayerApart then (n + 1).toNat else n.toNat := by
  cases h with
  | @sender acc points s₁ hpayer haddr hedit hpoints =>
      obtain rfl : acc.nonce = n := by
        rw [← UInt64.toNat_inj, ← hn, ← haddr, hedit.nonceOf_read]
      have hapart : tx.PayerApart := fun h => absurd h hpayer
      rw [if_pos hapart, ← haddr]
      exact hedit.nonceOf_put
  | @payer acc payer points s₁ s₂ hpayer haddr hpaddr hne hedit hedit₁ hpoints =>
      obtain rfl : acc.nonce = n := by
        rw [← UInt64.toNat_inj, ← hn, ← haddr, hedit.nonceOf_read]
      have hapart : tx.PayerApart := fun _ => hne
      rw [if_pos hapart, ← haddr]
      exact (hedit₁.nonceOf_eq rfl _).trans hedit.nonceOf_put
  | @self acc points s₁ hpayer haddr heq hedit hpoints =>
      have hapart : ¬ tx.PayerApart := fun h => h hpayer heq
      rw [if_neg hapart, ← hn]
      exact hedit.nonceOf_eq rfl _

/-- What an accepted transaction does to nonces. -/
lemma Ledger.accept_nonceOf (h : l.accept env tx = .ok l') :
    (∃ n : UInt64, l.state.nonceOf tx.fromAddr = n.toNat ∧ tx.nonce = n + 1 ∧
      l'.state.nonceOf tx.fromAddr = if tx.PayerApart then tx.nonce.toNat else n.toNat) ∧
    ∀ a, a ≠ tx.fromAddr → l'.state.nonceOf a = l.state.nonceOf a := by
  obtain ⟨r, s₁, exeTx, usage, haccepts⟩ := Ledger.accept_spec h
  have hexec : ∀ a, s₁.nonceOf a = l.state.nonceOf a := by
    intro a
    obtain heq | heffect := haccepts.executed.effect
    · rw [heq]
    · exact heffect.nonceOf_eq a
  obtain ⟨acc, hacc, hnonce⟩ := haccepts.executed.nonce
  have hread : l.state.nonceOf tx.fromAddr = acc.nonce.toNat := by
    rw [← BlockState.address_of_getAccount hacc]
    exact (Edit.of_getAccount hacc acc rfl).nonceOf_read
  refine ⟨⟨acc.nonce, hread, hnonce, ?_⟩, fun a ha => ?_⟩
  · rw [hnonce]
    exact haccepts.accepted.nonceOf_sender ((hexec _).trans hread)
  · exact (haccepts.accepted.nonceOf_of_ne ha).trans (hexec a)

end Accepting

/-! ## Replays -/

section Replays

variable {tick : ℤ → ℤ → Prop} {rule : ℕ → Transaction → Prop} {l l' : Ledger}
  {tx : Transaction}

/-- The hash is the one that `SignThis` or, for the genesis types, `SignGenesis` computes; the
latter hashes an empty sender. -/
def Transaction.WellHashed (env : Env) (tx : Transaction) : Prop :=
  tx.Hashed env ∨
    tx.txType.IsGenesis ∧ tx.hash = env.txHash { tx.hashTarget with fromAddr := Address.none }

instance (env : Env) (tx : Transaction) : Decidable (tx.WellHashed env) :=
  inferInstanceAs (Decidable (_ = _ ∨ _ ∧ _ = _))

/-- The transactions that blocks hold, with right hashes in the genesis configuration, with no
sender as its own payer, and with nonces that have not wrapped around. -/
def NonceSafe (env : Env) (chainID : UInt32) (height : ℕ) (tx : Transaction) : Prop :=
  Admitted env chainID height tx ∧ (height = genesisHeight → tx.WellHashed env) ∧
    tx.PayerApart ∧ tx.nonce ≠ 0

instance (env : Env) (chainID : UInt32) (height : ℕ) (tx : Transaction) :
    Decidable (NonceSafe env chainID height tx) :=
  inferInstanceAs (Decidable (_ ∧ (_ → _) ∧ _ ∧ _))

lemma Transaction.WellHashed.target (h : tx.WellHashed env) :
    ∃ a, tx.hash = env.txHash { tx.hashTarget with fromAddr := a } ∧
      (¬ tx.txType.IsGenesis → a = tx.fromAddr) := by
  obtain h | ⟨htype, h⟩ := h
  · exact ⟨tx.fromAddr, h, fun _ => rfl⟩
  · exact ⟨Address.none, h, fun hnot => absurd htype hnot⟩

/-- Well hashed transactions of one hash have the same sender and nonce. -/
lemma Transaction.WellHashed.inj {tx₁ tx₂ : Transaction} (h₁ : tx₁.WellHashed env)
    (h₂ : tx₂.WellHashed env) (hg₁ : tx₁.txType.IsGenesis → tx₁.fromAddr = genesisCoinbase)
    (hg₂ : tx₂.txType.IsGenesis → tx₂.fromAddr = genesisCoinbase) (heq : tx₁.hash = tx₂.hash) :
    tx₁.fromAddr = tx₂.fromAddr ∧ tx₁.nonce = tx₂.nonce := by
  obtain ⟨a₁, hash₁, ha₁⟩ := h₁.target
  obtain ⟨a₂, hash₂, ha₂⟩ := h₂.target
  rw [hash₁, hash₂] at heq
  have htarget := env.txHash_injective heq
  simp only [Transaction.hashTarget, TxHashTarget.mk.injEq] at htarget
  obtain ⟨htype, haddr, -, -, hnonce, -⟩ := htarget
  refine ⟨?_, hnonce⟩
  by_cases hg : tx₁.txType.IsGenesis
  · rw [hg₁ hg, hg₂ (htype ▸ hg)]
  · rw [← ha₁ hg, haddr, ha₂ (htype ▸ hg)]

/-- The transactions accepted so far are below the nonces of their senders, and differ in their
hashes. -/
structure NoReplay (env : Env) (l : Ledger) : Prop where
  hashed : ∀ tx ∈ l.accepted, tx.WellHashed env
  sender : ∀ tx ∈ l.accepted, tx.txType.IsGenesis → tx.fromAddr = genesisCoinbase
  nonce : ∀ tx ∈ l.accepted, tx.nonce.toNat ≤ l.state.nonceOf tx.fromAddr
  nodup : (l.accepted.map fun tx => tx.hash).Nodup

lemma NoReplay.accept {chainID : UInt32} (h : NoReplay env l)
    (hsafe : NonceSafe env chainID l.height tx) (haccept : l.accept env tx = .ok l') :
    NoReplay env l' := by
  obtain ⟨hadmitted, hgenesis, hapart, hzero⟩ := hsafe
  obtain ⟨⟨n, hn, hnonce, hsender⟩, hother⟩ := Ledger.accept_nonceOf haccept
  obtain ⟨r, s₁, exeTx, usage, haccepts⟩ := Ledger.accept_spec haccept
  have haccepted : l'.accepted = tx.setReceipt r :: l.accepted := by rw [haccepts.next]
  have hhashed : tx.WellHashed env := by
    by_cases hheight : l.height = genesisHeight
    · exact hgenesis hheight
    · exact .inl (Transaction.verifyIntegrity_spec (hadmitted.2 hheight)).2.2.2
  rw [if_pos hapart] at hsender
  -- the nonce is one more than before, since it has not wrapped around
  have hsucc : tx.nonce.toNat = l.state.nonceOf tx.fromAddr + 1 := by
    rw [hn, hnonce, toNat_succ_iff, ← hnonce]
    exact hzero
  refine ⟨?_, ?_, ?_, ?_⟩
  · rw [haccepted]
    exact List.forall_mem_cons.2 ⟨hhashed, h.hashed⟩
  · rw [haccepted]
    exact List.forall_mem_cons.2 ⟨hadmitted.genesis_sender, h.sender⟩
  · rw [haccepted]
    refine List.forall_mem_cons.2 ⟨hsender.ge, fun tx' htx' => ?_⟩
    have hle := h.nonce tx' htx'
    by_cases hfrom : tx'.fromAddr = tx.fromAddr
    · rw [hfrom] at hle ⊢
      omega
    · rwa [hother _ hfrom]
  · rw [haccepted, List.map_cons, List.nodup_cons]
    refine ⟨fun hmem => ?_, h.nodup⟩
    obtain ⟨tx', htx', heq⟩ := List.mem_map.1 hmem
    obtain ⟨hfrom, hsame⟩ := (h.hashed tx' htx').inj hhashed (h.sender tx' htx')
      hadmitted.genesis_sender heq
    have hle := h.nonce tx' htx'
    rw [hfrom, hsame] at hle
    omega

lemma NoReplay.step {chainID : UInt32} (h : NoReplay env l)
    (hstep : LedgerStep env tick (NonceSafe env chainID) l l') : NoReplay env l' := by
  cases hstep with
  | accept hrule haccept => exact h.accept hrule haccept
  | reward hdue hpay =>
      obtain ⟨reward, supply, s₁, hedits, -, rfl⟩ := payReward_spec hpay
      exact ⟨h.hashed, h.sender, fun tx htx => (hedits.nonceOf_eq _).symm ▸ h.nonce tx htx, h.nodup⟩
  | dynasty addrs => exact ⟨h.hashed, h.sender, h.nonce, h.nodup⟩
  | child htick hchild =>
      rw [initChild_spec hchild]
      exact ⟨h.hashed, h.sender, h.nonce, h.nodup⟩

lemma Reachable.noReplay {chainID : UInt32} (h : Reachable env tick (NonceSafe env chainID) l) :
    NoReplay env l := by
  induction h with
  | refl =>
      refine ⟨?_, ?_, ?_, List.nodup_nil⟩ <;> exact fun tx htx => absurd htx List.not_mem_nil
  | tail _ hstep ih => exact ih.step hstep

/-- **Nonces and replays.**  An accepted transaction raises the nonce of its sender by one and
changes no other nonce if and only if the sender is not its own payer and the nonce has not
wrapped around.  In a run of such transactions no hash is accepted twice. -/
theorem nonce_goes_up (env : Env) (tick : ℤ → ℤ → Prop) (chainID : UInt32) :
    (∀ (l l' : Ledger) (tx : Transaction), l.accept env tx = .ok l' →
      ((l'.state.nonceOf tx.fromAddr = l.state.nonceOf tx.fromAddr + 1 ∧
          ∀ a, a ≠ tx.fromAddr → l'.state.nonceOf a = l.state.nonceOf a) ↔
        (tx.hasPayer → tx.payer ≠ tx.fromAddr) ∧ tx.nonce ≠ 0)) ∧
    (∀ l, Reachable env tick (NonceSafe env chainID) l →
      (l.accepted.map fun tx => tx.hash).Nodup) := by
  refine ⟨fun l l' tx haccept => ?_, fun l h => h.noReplay.nodup⟩
  obtain ⟨⟨n, hn, hnonce, hsender⟩, hother⟩ := Ledger.accept_nonceOf haccept
  rw [and_iff_left hother, hsender, hn]
  by_cases hapart : tx.PayerApart
  · rw [if_pos hapart, hnonce, toNat_succ_iff]
    exact (and_iff_right hapart).symm
  · rw [if_neg hapart]
    exact iff_of_false (Nat.succ_ne_self _).symm fun h => hapart h.1

/-- A stake in the genesis block raises the nonce of its sender. -/
theorem stake_raises_nonce :
    ∃ l l' : Ledger, Reachable .plain (· < ·) (NonceSafe .plain 0) l ∧
      l.accept .plain (Plain.signed ⟨.stake, Plain.address 1, .none, .ofUint 400, 1, 0, []⟩) =
        .ok l' ∧
      l'.state.nonceOf (Plain.address 1) = l.state.nonceOf (Plain.address 1) + 1 ∧
      (l.accepted.map fun tx => tx.hash).Nodup := by
  have hrule : ∀ tx ∈ [Plain.distribution 1 (Plain.address 1) (.ofUint 1000)],
      NonceSafe .plain 0 genesisHeight tx := by
    decide +kernel
  have hrun : (Ledger.start.acceptAll .plain
      [Plain.distribution 1 (Plain.address 1) (.ofUint 1000)]).map (fun l => (l.accept .plain
        (Plain.signed ⟨.stake, Plain.address 1, .none, .ofUint 400, 1, 0, []⟩)).isOk) =
      .ok true := by
    decide +kernel
  obtain ⟨hstep, hreplay⟩ := nonce_goes_up .plain (· < ·) 0
  obtain ⟨l, hl, hok⟩ := Reachable.of_acceptAll hrule hrun
  obtain ⟨l', hl'⟩ := isOk_iff.1 hok
  have hup := ((hstep _ _ _ hl').2 ⟨by decide, by decide⟩).1
  exact ⟨l, l', hl, hl', hup, hreplay l hl⟩

/-- A transfer of address 1 to address 2, with address 1 as its payer too. -/
def selfPaid : Transaction :=
  { Plain.signed ⟨.transfer, Plain.address 1, Plain.address 2, .ofUint 1, 1, 0, []⟩ with
    payerSign := (Plain.address 1).toList
    payer := Plain.address 1 }

/-- The self-paid transfer is accepted twice in the second block, and leaves the nonce of its
sender. -/
theorem self_paid_accepted_twice :
    ∃ l l' : Ledger, Reachable .plain (· < ·) (Admitted .plain 0) l ∧ l.height = genesisHeight + 1 ∧
      Admitted .plain 0 l.height selfPaid ∧ l.accept .plain selfPaid = .ok l' ∧
      l'.state.nonceOf selfPaid.fromAddr = l.state.nonceOf selfPaid.fromAddr ∧
      ∃ l'' : Ledger, l'.accept .plain selfPaid = .ok l'' ∧
        ¬ (l''.accepted.map fun tx => tx.hash).Nodup := by
  have hgenesis : ∀ tx ∈ [Plain.distribution 1 (Plain.address 1) (.ofUint 1000)],
      Admitted .plain 0 genesisHeight tx := by
    decide +kernel
  have hrun : (Ledger.start.acceptAll .plain
      [Plain.distribution 1 (Plain.address 1) (.ofUint 1000)] >>= fun l =>
        l.beginChild 3 >>= fun l => l.acceptAll .plain []).map (fun l => (l.height,
          (l.accept .plain selfPaid).map fun l' =>
            (decide (l'.state.nonceOf selfPaid.fromAddr = l.state.nonceOf selfPaid.fromAddr),
              (l'.accept .plain selfPaid).map fun l'' =>
                decide (l''.accepted.map fun tx => tx.hash).Nodup))) =
      .ok (genesisHeight + 1, .ok (true, .ok false)) := by
    decide +kernel
  have htick : (0 : ℤ) < 3 := by decide
  obtain ⟨l, hl, heq⟩ := Reachable.of_second_block hgenesis htick (by simp) hrun
  rw [Prod.mk.injEq, map_eq_ok_iff] at heq
  obtain ⟨hheight, l', hl', heq⟩ := heq
  rw [Prod.mk.injEq, decide_eq_true_iff, map_eq_ok_iff] at heq
  obtain ⟨hsame, l'', hl'', hnot⟩ := heq
  refine ⟨l, l', hl, hheight, ?_, hl', hsame, l'', hl'', of_decide_eq_false hnot⟩
  rw [hheight]
  decide +kernel

end Replays

end GoMedibloc
