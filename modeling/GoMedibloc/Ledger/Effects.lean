import GoMedibloc.Ledger.Execute

/-!
# What a transaction can do

One inversion lemma for the execution of all transaction types (`execute_effect`), so that an
invariant is checked against a handful of effects and no proof unfolds an `execute` function
again.  Most types only move balances and data around (`LightEdits`): the amounts that they add
to and take from balances and alias records add up, and stakes, points, votes, candidates and
nonces stay.  The others (staking, unstaking, voting, and becoming and quitting to be a
candidate) have an effect of their own.
-/

namespace GoMedibloc

open Except

variable {s s' : BlockState} {acc acc' : Account}

/-! ## Light edits -/

/-- The collateral in the alias record of an account. -/
def Account.aliasCollateral (acc : Account) : ℕ :=
  acc.aliasRecord.elim 0 fun r => r.aliasCollateral.val

/-- The balance and the alias collateral of an account. -/
def Account.held (acc : Account) : ℕ := acc.balance.val + acc.aliasCollateral

/-- The accounts differ in balance and data only. -/
def Account.Light (acc acc' : Account) : Prop :=
  acc' = { acc with
    balance := acc'.balance
    records := acc'.records
    certReceived := acc'.certReceived
    certIssued := acc'.certIssued
    aliasRecord := acc'.aliasRecord }

namespace Account.Light

lemma address (h : Light acc acc') : acc'.address = acc.address := by rw [h]
lemma nonce (h : Light acc acc') : acc'.nonce = acc.nonce := by rw [h]
lemma staking (h : Light acc acc') : acc'.staking = acc.staking := by rw [h]
lemma voted (h : Light acc acc') : acc'.voted = acc.voted := by rw [h]
lemma candidateID (h : Light acc acc') : acc'.candidateID = acc.candidateID := by rw [h]
lemma points (h : Light acc acc') : acc'.points = acc.points := by rw [h]
lemma unstaking (h : Light acc acc') : acc'.unstaking = acc.unstaking := by rw [h]

lemma idle {ts : ℤ} (h : Light acc acc') (hidle : Idle ts acc) : Idle ts acc' := by
  rw [h]
  exact ⟨hidle.points, hidle.unstaking⟩

end Account.Light

/-- A sequence of light edits and changes of aliases, and what it adds to balances and alias
records. -/
inductive LightEdits (s : BlockState) : BlockState → ℤ → Prop
  | refl : LightEdits s s 0
  | edit {s₁ s₂ : BlockState} {acc acc' : Account} {d : ℤ} (h : LightEdits s s₁ d)
      (hedit : Edit s₁ acc acc' s₂) (hlight : acc.Light acc') :
      LightEdits s s₂ (d + acc'.held - acc.held)
  | setAliases {s₁ : BlockState} {d : ℤ} (h : LightEdits s s₁ d) (accState : AccountState)
      (haccounts : accState.accounts = s₁.accState.accounts) :
      LightEdits s { s₁ with accState := accState } d

namespace LightEdits

/-- Light edits change nothing but the account state. -/
lemma frame {d : ℤ} (h : LightEdits s s' d) : s' = { s with accState := s'.accState } := by
  induction h with
  | refl => rfl
  | edit _ hedit _ ih =>
      rw [hedit.put, ih]
      rfl
  | setAliases _ _ _ ih => rw [ih]

/-- One light edit. -/
lemma single (hedit : Edit s acc acc' s') (hlight : acc.Light acc') {d : ℤ}
    (hd : d = acc'.held - acc.held) : LightEdits s s' d := by
  have h := LightEdits.edit .refl hedit hlight
  rwa [hd, ← zero_add (acc'.held : ℤ)]

/-- Two light edits. -/
lemma pair {s₁ : BlockState} {acc₁ acc₁' : Account} (hedit : Edit s acc acc' s₁)
    (hlight : acc.Light acc') (hedit₁ : Edit s₁ acc₁ acc₁' s') (hlight₁ : acc₁.Light acc₁')
    {d : ℤ} (hd : d = (acc'.held - acc.held) + (acc₁'.held - acc₁.held)) :
    LightEdits s s' d := by
  have h := LightEdits.edit (LightEdits.edit .refl hedit hlight) hedit₁ hlight₁
  rwa [hd, ← zero_add (acc'.held : ℤ), ← add_sub_assoc]

end LightEdits

/-! ## Specifications of the light types -/

@[simp] lemma subBalance_eq_ok {x y z : Uint128} :
    subBalance x y = .ok z ↔ z.val + y.val = x.val := by
  rw [subBalance, rename_eq_ok, Uint128.sub_eq_ok]

lemma executeTransfer_spec {sender receiver : Address} {value : Uint128}
    (h : executeTransfer sender receiver value s = .ok s') : LightEdits s s' 0 := by
  obtain ⟨acc, hacc, h⟩ := bind_eq_ok_iff.1 h
  obtain ⟨balance, hbalance, h⟩ := bind_eq_ok_iff.1 h
  obtain ⟨acc₁, hacc₁, h⟩ := bind_eq_ok_iff.1 h
  obtain ⟨balance₁, hbalance₁, h⟩ := bind_eq_ok_iff.1 h
  rw [subBalance_eq_ok] at hbalance
  rw [Uint128.add_eq_ok] at hbalance₁
  rw [← Except.ok.inj h]
  refine .pair (.of_getAccount hacc { acc with balance := balance } rfl) rfl
    (.of_getAccount hacc₁ { acc₁ with balance := balance₁ } rfl) rfl ?_
  simp only [Account.held, Account.aliasCollateral]
  omega

lemma executeAddRecord_spec {owner : Address} {recordHash : Bytes}
    (h : executeAddRecord owner recordHash s = .ok s') : LightEdits s s' 0 := by
  obtain ⟨acc, hacc, h⟩ := bind_eq_ok_iff.1 h
  obtain ⟨-, -, h⟩ := bind_eq_ok_iff.1 h
  rw [← Except.ok.inj h]
  refine .single (.of_getAccount hacc _ ?_) ?_ ?_
  · rfl
  · rfl
  · simp [Account.held, Account.aliasCollateral]

lemma executeAddCertification_spec {issuer certified : Address} {certificateHash : Bytes}
    {issueTime expirationTime : ℤ}
    (h : executeAddCertification issuer certified certificateHash issueTime expirationTime s =
      .ok s') : LightEdits s s' 0 := by
  obtain ⟨certAcc, hcert, h⟩ := bind_eq_ok_iff.1 h
  obtain ⟨-, -, h⟩ := bind_eq_ok_iff.1 h
  obtain ⟨issuerAcc₀, -, h⟩ := bind_eq_ok_iff.1 h
  obtain ⟨-, -, h⟩ := bind_eq_ok_iff.1 h
  obtain ⟨issuerAcc, hissuer, h⟩ := bind_eq_ok_iff.1 h
  rw [← Except.ok.inj h]
  refine .pair (.of_getAccount hcert _ ?_) ?_ (.of_getAccount hissuer _ ?_) ?_ ?_
  · rfl
  · rfl
  · rfl
  · rfl
  · simp [Account.held, Account.aliasCollateral]

lemma executeRevokeCertification_spec {revoker : Address} {certificateHash : Bytes}
    (h : executeRevokeCertification revoker certificateHash s = .ok s') : LightEdits s s' 0 := by
  obtain ⟨issuerAcc, hissuer, h⟩ := bind_eq_ok_iff.1 h
  obtain ⟨cert, -, h⟩ := bind_eq_ok_iff.1 h
  obtain ⟨-, -, h⟩ := bind_eq_ok_iff.1 h
  obtain ⟨-, -, h⟩ := bind_eq_ok_iff.1 h
  obtain ⟨-, -, h⟩ := bind_eq_ok_iff.1 h
  obtain ⟨certAcc, hcert, h⟩ := bind_eq_ok_iff.1 h
  rw [← Except.ok.inj h]
  refine .pair (.of_getAccount hissuer _ ?_) ?_ (.of_getAccount hcert _ ?_) ?_ ?_
  · rfl
  · rfl
  · rfl
  · rfl
  · simp [Account.held, Account.aliasCollateral]

lemma executeRegisterAlias_spec {addr : Address} {collateral : Uint128} {aliasName : Bytes}
    (h : executeRegisterAlias addr collateral aliasName s = .ok s') : LightEdits s s' 0 := by
  obtain ⟨-, -, h⟩ := bind_eq_ok_iff.1 h
  obtain ⟨acc, hacc, h⟩ := bind_eq_ok_iff.1 h
  obtain ⟨_, hnone, h⟩ := bind_eq_ok_iff.1 h
  obtain ⟨-, -, h⟩ := bind_eq_ok_iff.1 h
  obtain ⟨balance, hbalance, h⟩ := bind_eq_ok_iff.1 h
  rw [failIf_eq_ok, Bool.not_eq_true, Option.isSome_eq_false_iff, Option.isNone_iff_eq_none]
    at hnone
  rw [subBalance_eq_ok] at hbalance
  rw [← Except.ok.inj h]
  refine .setAliases (.single (.of_getAccount hacc
    { acc with balance := balance, aliasRecord := some ⟨aliasName, collateral⟩ } rfl) rfl ?_) _ rfl
  simp only [Account.held, Account.aliasCollateral, hnone, Option.elim]
  omega

lemma executeDeregisterAlias_spec {addr : Address}
    (h : executeDeregisterAlias addr s = .ok s') : LightEdits s s' 0 := by
  obtain ⟨acc, hacc, h⟩ := bind_eq_ok_iff.1 h
  obtain ⟨record, hrecord, h⟩ := bind_eq_ok_iff.1 h
  obtain ⟨-, -, h⟩ := bind_eq_ok_iff.1 h
  obtain ⟨balance, hbalance, h⟩ := bind_eq_ok_iff.1 h
  obtain ⟨accState, hdel, h⟩ := bind_eq_ok_iff.1 h
  rw [ofOption_eq_ok] at hrecord
  rw [Uint128.add_eq_ok] at hbalance
  have haccounts : accState.accounts = s.accState.accounts := by
    obtain ⟨owner, -, hdel⟩ := bind_eq_ok_iff.1 hdel
    obtain ⟨-, -, hdel⟩ := bind_eq_ok_iff.1 hdel
    rw [← Except.ok.inj hdel]
  have hread : ({ s with accState := accState } : BlockState).getAccount addr = .ok acc := by
    rw [← hacc]
    exact BlockState.getAccount_congr (congrArg (Finmap.lookup addr) haccounts) rfl
  rw [← Except.ok.inj h]
  have hedit := LightEdits.edit (.setAliases .refl accState haccounts)
    (.of_getAccount hread { acc with balance := balance, aliasRecord := none } rfl) rfl
  convert hedit using 1
  simp only [Account.held, Account.aliasCollateral, hrecord, Option.elim]
  omega

/-! ## Vote power -/

/-- The vote power of each candidate goes up by `up` and down by `down`; nothing else in the
dpos state changes. -/
structure PowerShift (ds ds' : DposState) (up down : Bytes → ℕ) : Prop where
  dynasty : ds'.dynasty = ds.dynasty
  none_iff : ∀ id, ds'.candidates.lookup id = none ↔ ds.candidates.lookup id = none
  power : ∀ id c c', ds.candidates.lookup id = some c → ds'.candidates.lookup id = some c' →
    c' = { c with votePower := c'.votePower } ∧
    c'.votePower.val + down id = c.votePower.val + up id

namespace PowerShift

variable {ds ds₁ ds₂ : DposState} {up up₁ down down₁ : Bytes → ℕ}

lemma refl (ds : DposState) : PowerShift ds ds 0 0 := by
  refine ⟨rfl, fun _ => Iff.rfl, fun id c c' hc hc' => ?_⟩
  obtain rfl := Option.some_inj.1 (hc.symm.trans hc')
  exact ⟨rfl, rfl⟩

lemma trans (h : PowerShift ds ds₁ up down) (h₁ : PowerShift ds₁ ds₂ up₁ down₁) :
    PowerShift ds ds₂ (up + up₁) (down + down₁) := by
  refine ⟨h₁.dynasty.trans h.dynasty, fun id => (h₁.none_iff id).trans (h.none_iff id), ?_⟩
  intro id c c₂ hc hc₂
  cases hmid : ds₁.candidates.lookup id with
  | none =>
      rw [(h₁.none_iff id).2 hmid] at hc₂
      cases hc₂
  | some c₁ =>
      obtain ⟨hsame, hpower⟩ := h.power id c c₁ hc hmid
      obtain ⟨hsame₁, hpower₁⟩ := h₁.power id c₁ c₂ hmid hc₂
      refine ⟨by rw [hsame₁, hsame], ?_⟩
      simp only [Pi.add_apply]
      omega

/-- The quantities matter at existing candidates only. -/
lemma congr {up' down' : Bytes → ℕ} (h : PowerShift ds ds₁ up down)
    (heq : ∀ id, ds.candidates.lookup id ≠ none → up' id = up id ∧ down' id = down id) :
    PowerShift ds ds₁ up' down' := by
  refine ⟨h.dynasty, h.none_iff, fun id c c' hc hc' => ?_⟩
  obtain ⟨hsame, hpower⟩ := h.power id c c' hc hc'
  obtain ⟨hup, hdown⟩ := heq id (by rw [hc]; simp)
  exact ⟨hsame, by rw [hup, hdown, hpower]⟩

/-- A new vote power for one candidate. -/
lemma single {id : Bytes} {c : Candidate} {p : Uint128} (hc : ds.candidates.lookup id = some c)
    (hp : p.val + down id = c.votePower.val + up id)
    (hother : ∀ x, x ≠ id → up x = 0 ∧ down x = 0) :
    PowerShift ds (ds.putCandidate id { c with votePower := p }) up down := by
  refine ⟨rfl, fun x => ?_, fun x c₁ c₁' hc₁ hc₁' => ?_⟩ <;> by_cases hx : x = id
  · subst hx
    simp [DposState.putCandidate, hc]
  · rw [DposState.putCandidate, Finmap.lookup_insert_of_ne _ hx]
  · subst hx
    rw [DposState.putCandidate, Finmap.lookup_insert, Option.some_inj] at hc₁'
    obtain rfl := Option.some_inj.1 (hc.symm.trans hc₁)
    rw [← hc₁']
    exact ⟨rfl, hp⟩
  · rw [DposState.putCandidate, Finmap.lookup_insert_of_ne _ hx, hc₁, Option.some_inj] at hc₁'
    obtain ⟨hup, hdown⟩ := hother x hx
    rw [← hc₁', hup, hdown]
    exact ⟨rfl, rfl⟩

/-- A quantity of candidates that the vote power has no part in keeps its sum. -/
lemma total (h : PowerShift ds ds₁ up down) {f : Candidate → ℕ}
    (hf : ∀ (c : Candidate) p, f { c with votePower := p } = f c) :
    ds₁.candidates.total f = ds.candidates.total f := by
  refine Finmap.total_eq_of_lookup fun id => ?_
  cases hc : ds.candidates.lookup id with
  | none => rw [(h.none_iff id).2 hc]
  | some c =>
      cases hc₁ : ds₁.candidates.lookup id with
      | none =>
          rw [(h.none_iff id).1 hc₁] at hc
          cases hc
      | some c₁ =>
          rw [(h.power id c c₁ hc hc₁).1]
          exact hf c _

end PowerShift

section Loops

variable {ds ds' : DposState} {id : Bytes} {ids : List Bytes} {amount : Uint128}

lemma addVotePower_spec (h : ds.addVotePowerToCandidate id amount = .ok ds') :
    ds.candidates.lookup id ≠ none ∧
      PowerShift ds ds' (fun x => [id].count x * amount.val) 0 := by
  obtain ⟨c, hc, h⟩ := bind_eq_ok_iff.1 h
  obtain ⟨p, hp, h⟩ := bind_eq_ok_iff.1 h
  rw [DposState.getCandidate_eq_ok] at hc
  rw [Uint128.add_eq_ok] at hp
  rw [← Except.ok.inj h]
  refine ⟨by rw [hc]; simp, .single hc ?_ fun x hx => ⟨?_, rfl⟩⟩
  · simpa using hp
  · simp [Ne.symm hx]

lemma subVotePower_spec (h : ds.subVotePowerToCandidate id amount = .ok ds') :
    PowerShift ds ds' 0 (fun x => [id].count x * amount.val) := by
  obtain ⟨c, hc, h⟩ := bind_eq_ok_iff.1 h
  obtain ⟨p, hp, h⟩ := bind_eq_ok_iff.1 h
  rw [DposState.getCandidate_eq_ok] at hc
  rw [Uint128.sub_eq_ok] at hp
  rw [← Except.ok.inj h]
  refine .single hc ?_ fun x hx => ⟨rfl, ?_⟩
  · simpa using hp
  · simp [Ne.symm hx]

lemma addVotePower_missing (h : ds.addVotePowerToCandidate id amount = .error .notFound) :
    ds.candidates.lookup id = none := by
  by_contra hne
  obtain ⟨c, hc⟩ := Option.ne_none_iff_exists'.1 hne
  rw [DposState.addVotePowerToCandidate, bind_of_ok (DposState.getCandidate_eq_ok.2 hc)] at h
  cases hp : c.votePower.add amount with
  | ok p =>
      rw [bind_of_ok hp] at h
      cases h
  | error e =>
      rw [bind_of_error hp, Uint128.ofNat_eq_error hp] at h
      cases h

lemma subVotePower_missing (h : ds.subVotePowerToCandidate id amount = .error .notFound) :
    ds.candidates.lookup id = none := by
  by_contra hne
  obtain ⟨c, hc⟩ := Option.ne_none_iff_exists'.1 hne
  rw [DposState.subVotePowerToCandidate, bind_of_ok (DposState.getCandidate_eq_ok.2 hc)] at h
  cases hp : c.votePower.sub amount with
  | ok p =>
      rw [bind_of_ok hp] at h
      cases h
  | error e =>
      rw [bind_of_error hp, Uint128.sub_eq_error hp] at h
      cases h

/-- A loop over the voted candidates whose steps shift vote power shifts it at each id as often
as the id occurs. -/
lemma forVoted_spec {f : DposState → Bytes → Except Err DposState} {up down : ℕ}
    (hf : ∀ {ds id ds'}, f ds id = .ok ds' →
      PowerShift ds ds' (fun x => [id].count x * up) (fun x => [id].count x * down))
    (hmissing : ∀ {ds id}, f ds id = .error .notFound → ds.candidates.lookup id = none)
    (h : forVoted f ids ds = .ok ds') :
    PowerShift ds ds' (fun x => ids.count x * up) (fun x => ids.count x * down) := by
  induction ids generalizing ds with
  | nil =>
      rw [← Except.ok.inj h]
      exact (PowerShift.refl ds).congr fun _ _ => by simp
  | cons id ids ih =>
      -- a shift at the first id followed by one at the rest
      have hcons : ∀ {n : ℕ} (x : Bytes),
          (id :: ids).count x * n = [id].count x * n + ids.count x * n := by
        intro n x
        rw [← Nat.add_mul, ← List.singleton_append, List.count_append]
      rw [forVoted] at h
      split at h
      · refine ((hf ‹_›).trans (ih h)).congr fun x _ => ?_
        simp only [hcons, Pi.add_apply, and_self]
      · split_ifs at h with he
        subst he
        refine (ih h).congr fun x hx => ?_
        have hne : id ≠ x := by
          rintro rfl
          exact hx (hmissing ‹_›)
        simp [hne]

lemma forVoted_add
    (h : forVoted (fun ds id => ds.addVotePowerToCandidate id amount) ids ds = .ok ds') :
    PowerShift ds ds' (fun x => ids.count x * amount.val) 0 := by
  have hshift : PowerShift ds ds' (fun x => ids.count x * amount.val) (fun x => ids.count x * 0) :=
    forVoted_spec (fun h => (addVotePower_spec h).2.congr fun _ _ => by simp)
      addVotePower_missing h
  exact hshift.congr fun _ _ => by simp

lemma forVoted_sub
    (h : forVoted (fun ds id => ds.subVotePowerToCandidate id amount) ids ds = .ok ds') :
    PowerShift ds ds' 0 (fun x => ids.count x * amount.val) := by
  have hshift : PowerShift ds ds' (fun x => ids.count x * 0) (fun x => ids.count x * amount.val) :=
    forVoted_spec (fun h => (subVotePower_spec h).congr fun _ _ => by simp)
      subVotePower_missing h
  exact hshift.congr fun _ _ => by simp

/-- The loop of a vote over the new candidates: all of them exist. -/
lemma foldlM_add (h : ids.foldlM (fun ds id =>
      rename .notFound .notCandidate (ds.addVotePowerToCandidate id amount)) ds = .ok ds') :
    (∀ id ∈ ids, ds.candidates.lookup id ≠ none) ∧
      PowerShift ds ds' (fun x => ids.count x * amount.val) 0 := by
  induction ids generalizing ds with
  | nil =>
      rw [← Except.ok.inj h]
      exact ⟨by simp, (PowerShift.refl ds).congr fun _ _ => by simp⟩
  | cons id ids ih =>
      obtain ⟨ds₁, hadd, h⟩ := bind_eq_ok_iff.1 h
      rw [rename_eq_ok] at hadd
      obtain ⟨hid, hshift⟩ := addVotePower_spec hadd
      obtain ⟨hids, hrest⟩ := ih h
      refine ⟨?_, (hshift.trans hrest).congr fun x _ => ⟨?_, by simp⟩⟩
      · intro x hx
        rcases List.mem_cons.1 hx with rfl | hx
        · exact hid
        · exact fun hnone => hids x hx ((hshift.none_iff x).2 hnone)
      · rw [Pi.add_apply, ← Nat.add_mul, ← List.count_append, List.singleton_append]

end Loops

/-! ## The effects -/

/-- What the types that touch stakes, votes and candidates do to the account of their sender and
to the dpos state. -/
inductive DposChange (ts : ℤ) (ds : DposState) (acc : Account) :
    Operation → Account → DposState → Prop
  | stake {amount balance staking points : Uint128} {ds' : DposState}
      (hbalance : balance.val + amount.val = acc.balance.val)
      (hstaking : staking.val = acc.staking.val + amount.val)
      (hpoints : points.val = acc.points.val + amount.val)
      (hds : PowerShift ds ds' (fun x => acc.voted.keys.count x * amount.val) 0) :
      DposChange ts ds acc (.stake acc.address amount)
        { acc with balance := balance, staking := staking, points := points } ds'
  | unstake {amount staking unstaking : Uint128} {ds' : DposState}
      (hstaking : staking.val + amount.val = acc.staking.val)
      (hunstaking : unstaking.val = acc.unstaking.val + amount.val)
      (hds : PowerShift ds ds' 0 (fun x => acc.voted.keys.count x * amount.val)) :
      DposChange ts ds acc (.unstake acc.address amount)
        { acc with
          staking := staking
          unstaking := unstaking
          lastUnstakingTs := ts
          points := if staking.val < acc.points.val then staking else acc.points } ds'
  | become {txHash : Bytes} {collateral balance : Uint128} {url : Bytes}
      (hnone : acc.candidateID = []) (halias : acc.aliasRecord ≠ none)
      (hbalance : balance.val + collateral.val = acc.balance.val) :
      DposChange ts ds acc (.becomeCandidate txHash acc.address collateral url)
        { acc with balance := balance, candidateID := txHash }
        (ds.putCandidate txHash ⟨txHash, acc.address, collateral, .zero, url, ts⟩)
  | quit {c : Candidate} {balance : Uint128} (hid : acc.candidateID ≠ [])
      (hc : ds.candidates.lookup acc.candidateID = some c)
      (hbalance : balance.val = acc.balance.val + c.collateral.val) :
      DposChange ts ds acc (.quitCandidacy acc.address)
        { acc with balance := balance, candidateID := [] }
        { ds with candidates := ds.candidates.erase acc.candidateID }
  | vote {candidateIDs : List Bytes} {newVoted : Voted} {ds' : DposState}
      (hmem : ∀ id ∈ newVoted.keys, ds.candidates.lookup id ≠ none)
      (hds : PowerShift ds ds' (fun x => newVoted.keys.count x * acc.staking.val)
        (fun x => acc.voted.keys.count x * acc.staking.val)) :
      DposChange ts ds acc (.vote acc.address candidateIDs) { acc with voted := newVoted } ds'

/-- The types that only move balances and data around. -/
def Operation.isLight : Operation → Bool
  | .genesis | .transfer _ _ _ | .addRecord _ _ | .addCertification _ _ _ _ _
  | .revokeCertification _ _ | .registerAlias _ _ _ | .deregisterAlias _ => true
  | _ => false

/-- What an execution that succeeds does to the block state. -/
inductive Effect (height : ℕ) (s : BlockState) : Operation → BlockState → Prop
  | light {op : Operation} {s' : BlockState} (hop : op.isLight = true)
      (h : LightEdits s s' 0) : Effect height s op s'
  | distribute {target : Address} {balance supply : Uint128} {s₁ : BlockState}
      (hheight : height = genesisHeight) (h : LightEdits s s₁ balance.val)
      (hsupply : supply.val = s.supply.val + balance.val) :
      Effect height s (.genesisDistribution target balance) { s₁ with supply := supply }
  | dpos {op : Operation} {acc acc' : Account} {ds' : DposState} {s₁ : BlockState}
      (hedit : Edit s acc acc' s₁) (h : DposChange s.timestamp s.dposState acc op acc' ds') :
      Effect height s op { s₁ with dposState := ds' }

lemma executeGenesisDistribution_spec {height : ℕ} {target : Address} {balance : Uint128}
    (h : executeGenesisDistribution height target balance s = .ok s') :
    Effect height s (.genesisDistribution target balance) s' := by
  obtain ⟨_, hheight, h⟩ := bind_eq_ok_iff.1 h
  obtain ⟨acc, hacc, h⟩ := bind_eq_ok_iff.1 h
  obtain ⟨-, -, h⟩ := bind_eq_ok_iff.1 h
  obtain ⟨newBalance, hbalance, h⟩ := bind_eq_ok_iff.1 h
  obtain ⟨supply, hsupply, h⟩ := bind_eq_ok_iff.1 h
  rw [failIf_eq_ok, not_not] at hheight
  rw [Uint128.add_eq_ok] at hbalance hsupply
  rw [← Except.ok.inj h]
  refine .distribute hheight
    (.single (.of_getAccount hacc { acc with balance := newBalance } rfl) rfl ?_) hsupply
  simp only [Account.held, Account.aliasCollateral]
  omega

lemma executeStake_spec {height : ℕ} {user : Address} {amount : Uint128}
    (h : executeStake user amount s = .ok s') : Effect height s (.stake user amount) s' := by
  obtain ⟨acc, hacc, h⟩ := bind_eq_ok_iff.1 h
  obtain ⟨balance, hbalance, h⟩ := bind_eq_ok_iff.1 h
  obtain ⟨staking, hstaking, h⟩ := bind_eq_ok_iff.1 h
  obtain ⟨points, hpoints, h⟩ := bind_eq_ok_iff.1 h
  obtain ⟨ds, hds, h⟩ := bind_eq_ok_iff.1 h
  rw [subBalance_eq_ok] at hbalance
  rw [Uint128.add_eq_ok] at hstaking hpoints
  rw [← Except.ok.inj h, ← BlockState.address_of_getAccount hacc]
  exact .dpos (.of_getAccount hacc _ rfl) (.stake hbalance hstaking hpoints (forVoted_add hds))

lemma executeUnstake_spec {height : ℕ} {user : Address} {amount : Uint128}
    (h : executeUnstake user amount s = .ok s') : Effect height s (.unstake user amount) s' := by
  obtain ⟨acc, hacc, h⟩ := bind_eq_ok_iff.1 h
  obtain ⟨staking, hstaking, h⟩ := bind_eq_ok_iff.1 h
  obtain ⟨unstaking, hunstaking, h⟩ := bind_eq_ok_iff.1 h
  obtain ⟨ds, hds, h⟩ := bind_eq_ok_iff.1 h
  rw [rename_eq_ok, Uint128.sub_eq_ok] at hstaking
  rw [Uint128.add_eq_ok] at hunstaking
  rw [← Except.ok.inj h, ← BlockState.address_of_getAccount hacc]
  exact .dpos (.of_getAccount hacc _ rfl) (.unstake hstaking hunstaking (forVoted_sub hds))

lemma executeBecomeCandidate_spec {height : ℕ} {txHash : Bytes} {candidateAddr : Address}
    {collateral : Uint128} {url : Bytes}
    (h : executeBecomeCandidate txHash candidateAddr collateral url s = .ok s') :
    Effect height s (.becomeCandidate txHash candidateAddr collateral url) s' := by
  obtain ⟨acc, hacc, h⟩ := bind_eq_ok_iff.1 h
  obtain ⟨_, hnone, h⟩ := bind_eq_ok_iff.1 h
  obtain ⟨_, halias, h⟩ := bind_eq_ok_iff.1 h
  obtain ⟨-, -, h⟩ := bind_eq_ok_iff.1 h
  obtain ⟨balance, hbalance, h⟩ := bind_eq_ok_iff.1 h
  rw [failIf_eq_ok, not_not] at hnone
  rw [failIf_eq_ok] at halias
  rw [subBalance_eq_ok] at hbalance
  rw [← Except.ok.inj h, ← BlockState.address_of_getAccount hacc]
  exact .dpos (.of_getAccount hacc _ rfl) (.become hnone halias hbalance)

lemma executeQuitCandidacy_spec {height : ℕ} {candidateAddr : Address}
    (h : executeQuitCandidacy candidateAddr s = .ok s') :
    Effect height s (.quitCandidacy candidateAddr) s' := by
  obtain ⟨acc, hacc, h⟩ := bind_eq_ok_iff.1 h
  obtain ⟨_, hid, h⟩ := bind_eq_ok_iff.1 h
  obtain ⟨c, hc, h⟩ := bind_eq_ok_iff.1 h
  obtain ⟨balance, hbalance, h⟩ := bind_eq_ok_iff.1 h
  obtain ⟨ds, hds, h⟩ := bind_eq_ok_iff.1 h
  obtain ⟨-, -, hds⟩ := bind_eq_ok_iff.1 hds
  rw [failIf_eq_ok] at hid
  rw [rename_eq_ok, DposState.getCandidate_eq_ok] at hc
  rw [Uint128.add_eq_ok] at hbalance
  rw [← Except.ok.inj h, ← Except.ok.inj hds, ← BlockState.address_of_getAccount hacc]
  exact .dpos (.of_getAccount hacc _ rfl) (.quit hid hc hbalance)

lemma executeVote_spec {height : ℕ} {voter : Address} {candidateIDs : List Bytes}
    (h : executeVote voter candidateIDs s = .ok s') :
    Effect height s (.vote voter candidateIDs) s' := by
  obtain ⟨-, -, h⟩ := bind_eq_ok_iff.1 h
  obtain ⟨acc, hacc, h⟩ := bind_eq_ok_iff.1 h
  obtain ⟨newVoted, -, h⟩ := bind_eq_ok_iff.1 h
  obtain ⟨ds₁, hadd, h⟩ := bind_eq_ok_iff.1 h
  obtain ⟨ds₂, hsub, h⟩ := bind_eq_ok_iff.1 h
  obtain ⟨hmem, hup⟩ := foldlM_add hadd
  have hshift : PowerShift s.dposState ds₂ (fun x => newVoted.keys.count x * acc.staking.val)
      (fun x => acc.voted.keys.count x * acc.staking.val) :=
    (hup.trans (forVoted_sub hsub)).congr fun _ _ => by simp
  rw [← Except.ok.inj h, ← BlockState.address_of_getAccount hacc]
  exact .dpos (.of_getAccount hacc { acc with voted := newVoted } rfl) (.vote hmem hshift)

/-- **What an execution can do**, for every transaction type. -/
theorem execute_effect {height : ℕ} {op : Operation} (h : op.execute height s = .ok s') :
    Effect height s op s' := by
  cases op with
  | genesis =>
      obtain ⟨-, -, h⟩ := bind_eq_ok_iff.1 h
      rw [← Except.ok.inj h]
      exact .light rfl .refl
  | genesisDistribution => exact executeGenesisDistribution_spec h
  | transfer => exact .light rfl (executeTransfer_spec h)
  | addRecord => exact .light rfl (executeAddRecord_spec h)
  | stake => exact executeStake_spec h
  | unstake => exact executeUnstake_spec h
  | addCertification => exact .light rfl (executeAddCertification_spec h)
  | revokeCertification => exact .light rfl (executeRevokeCertification_spec h)
  | registerAlias => exact .light rfl (executeRegisterAlias_spec h)
  | deregisterAlias => exact .light rfl (executeDeregisterAlias_spec h)
  | becomeCandidate => exact executeBecomeCandidate_spec h
  | quitCandidacy => exact executeQuitCandidacy_spec h
  | vote => exact executeVote_spec h

end GoMedibloc
