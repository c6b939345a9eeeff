import GoMedibloc.Ledger.Run

/-!
# The registries of candidates, aliases and certificates

Three things are stored twice: that an account is a candidate (in the account and as a candidate
record of the dpos state), its alias (in its data trie and as an entry of the account state), and
a certificate (with its issuer and with the certified account).  `Registry` is what one wants to
know of a block state here, as plain functions, and `RegistryStep` says what a transaction does
to it.  Executions of all types refine it (`execute_registry`), and accepting, rewards, dynasties
and children leave it alone (`LedgerStep.registry`).

That both copies of each fact agree is then a matter of the registry alone.
-/

namespace GoMedibloc

open Except

variable {env : Env} {height : ℕ} {s s' : BlockState}

/-! ## The abstract registry -/

/-- What an account is registered with. -/
@[ext]
structure AccountData where
  candidateID : Bytes
  aliasRecord : Option Alias
  certReceived : Bytes → Option Certification
  certIssued : Bytes → Option Certification

/-- An account that has nothing. -/
instance : Inhabited AccountData := ⟨⟨[], none, fun _ => none, fun _ => none⟩⟩

/-- The registries: the data of all accounts, the owners of aliases, and the ids and addresses
in the candidate records. -/
@[ext]
structure Registry where
  data : Address → AccountData
  aliases : Bytes → Option Address
  candidates : Bytes → Option (Bytes × Address)

namespace Registry

/-- The registry of an empty chain. -/
def empty : Registry := ⟨fun _ => default, fun _ => none, fun _ => none⟩

variable (g : Registry)

/-- The data of one account is replaced. -/
def setData (a : Address) (d : AccountData) : Registry :=
  { g with data := Function.update g.data a d }

/-- A certificate is stored with its receiver. -/
def receive (a : Address) (hash : Bytes) (cert : Certification) : Registry :=
  g.setData a { g.data a with
    certReceived := Function.update (g.data a).certReceived hash (some cert) }

/-- A certificate is stored with its issuer. -/
def issue (a : Address) (hash : Bytes) (cert : Certification) : Registry :=
  g.setData a { g.data a with
    certIssued := Function.update (g.data a).certIssued hash (some cert) }

variable {g}

@[simp] lemma setData_self {a : Address} {d : AccountData} : (g.setData a d).data a = d :=
  Function.update_self _ _ _

lemma setData_of_ne {a b : Address} {d : AccountData} (h : b ≠ a) :
    (g.setData a d).data b = g.data b :=
  Function.update_of_ne h _ _

/-- What the new data has in common with the old stays everywhere. -/
lemma setData_proj {β : Type} {f : AccountData → β} {a : Address} {d : AccountData}
    (h : f d = f (g.data a)) (b : Address) : f ((g.setData a d).data b) = f (g.data b) := by
  by_cases hb : b = a
  · rw [hb, setData_self, h]
  · rw [setData_of_ne hb]

section Certificates

variable {a : Address} {hash : Bytes} {cert : Certification} (b : Address)

@[simp] lemma receive_candidateID :
    ((g.receive a hash cert).data b).candidateID = (g.data b).candidateID := by
  refine setData_proj (f := AccountData.candidateID) ?_ b
  rfl

@[simp] lemma receive_aliasRecord :
    ((g.receive a hash cert).data b).aliasRecord = (g.data b).aliasRecord := by
  refine setData_proj (f := AccountData.aliasRecord) ?_ b
  rfl

@[simp] lemma issue_candidateID :
    ((g.issue a hash cert).data b).candidateID = (g.data b).candidateID := by
  refine setData_proj (f := AccountData.candidateID) ?_ b
  rfl

@[simp] lemma issue_aliasRecord :
    ((g.issue a hash cert).data b).aliasRecord = (g.data b).aliasRecord := by
  refine setData_proj (f := AccountData.aliasRecord) ?_ b
  rfl

end Certificates

end Registry

/-- The types that register something. -/
def Operation.registers : Operation → Bool
  | .addCertification _ _ _ _ _ | .revokeCertification _ _ | .registerAlias _ _ _
  | .deregisterAlias _ | .becomeCandidate _ _ _ _ | .quitCandidacy _ => true
  | _ => false

/-- What an execution that succeeds at a timestamp does to the registries. -/
inductive RegistryStep (ts : ℤ) (g : Registry) : Operation → Registry → Prop
  | keep {op : Operation} (hop : op.registers = false) : RegistryStep ts g op g
  | registerAlias {addr : Address} {collateral : Uint128} {aliasName : Bytes}
      (hnone : (g.data addr).aliasRecord = none) (hfree : g.aliases aliasName = none) :
      RegistryStep ts g (.registerAlias addr collateral aliasName)
        { g.setData addr { g.data addr with aliasRecord := some ⟨aliasName, collateral⟩ } with
          aliases := Function.update g.aliases aliasName (some addr) }
  | deregisterAlias {addr : Address} {record : Alias}
      (hrecord : (g.data addr).aliasRecord = some record)
      (howner : g.aliases record.aliasName = some addr) :
      RegistryStep ts g (.deregisterAlias addr)
        { g.setData addr { g.data addr with aliasRecord := none } with
          aliases := Function.update g.aliases record.aliasName none }
  | addCertification {issuer certified : Address} {hash : Bytes} {issueTime expirationTime : ℤ}
      (hreceived : (g.data certified).certReceived hash = none)
      (hissued : (g.data issuer).certIssued hash = none) :
      RegistryStep ts g (.addCertification issuer certified hash issueTime expirationTime)
        ((g.receive certified hash
          ⟨hash, issuer, certified, issueTime, expirationTime, -1⟩).issue issuer hash
            ⟨hash, issuer, certified, issueTime, expirationTime, -1⟩)
  | revokeCertification {revoker : Address} {hash : Bytes} {cert : Certification}
      (hcert : (g.data revoker).certIssued hash = some cert) (hissuer : cert.issuer = revoker)
      (hrevoked : cert.revocationTime ≤ -1) (hexpired : ts ≤ cert.expirationTime) :
      RegistryStep ts g (.revokeCertification revoker hash)
        ((g.issue revoker hash { cert with revocationTime := ts }).receive cert.certified hash
          { cert with revocationTime := ts })
  | becomeCandidate {txHash : Bytes} {addr : Address} {collateral : Uint128} {url : Bytes}
      (hnone : (g.data addr).candidateID = []) (halias : (g.data addr).aliasRecord ≠ none) :
      RegistryStep ts g (.becomeCandidate txHash addr collateral url)
        { g.setData addr { g.data addr with candidateID := txHash } with
          candidates := Function.update g.candidates txHash (some (txHash, addr)) }
  | quitCandidacy {addr : Address} (hid : (g.data addr).candidateID ≠ [])
      (hc : g.candidates (g.data addr).candidateID ≠ none) :
      RegistryStep ts g (.quitCandidacy addr)
        { g.setData addr { g.data addr with candidateID := [] } with
          candidates := Function.update g.candidates (g.data addr).candidateID none }

/-! ## The registry of a block state -/

/-- The data of an account. -/
def Account.data (acc : Account) : AccountData :=
  ⟨acc.candidateID, acc.aliasRecord, fun hash => acc.certReceived.lookup hash,
    fun hash => acc.certIssued.lookup hash⟩

/-- The registries of a block state. -/
def BlockState.registry (s : BlockState) : Registry where
  data a := (s.account? a).elim default Account.data
  aliases aliasName := s.accState.aliases.lookup aliasName
  candidates id := (s.candidate? id).map fun c => (c.id, c.addr)

lemma Account.Refreshed.data {ts : ℤ} {acc acc' : Account} (h : Refreshed ts acc acc') :
    acc'.data = acc.data := by
  rw [h.same]
  rfl

namespace Edit

variable {acc acc' : Account}

/-- The data that is read is the registered one. -/
lemma registry_read (h : Edit s acc acc' s') : s.registry.data acc.address = acc.data := by
  unfold BlockState.registry
  obtain ⟨hnone, hnew⟩ | ⟨stored, hstored, hr⟩ := h.fresh_or_refreshed
  · rw [hnew] at hnone ⊢
    simp only [hnone]
    rfl
  · simp only [hstored, Option.elim_some, hr.data]

/-- The data that is put is registered. -/
lemma registry_put (h : Edit s acc acc' s') :
    s'.registry = s.registry.setData acc.address acc'.data := by
  have hdata : s'.registry.data = Function.update s.registry.data acc.address acc'.data := by
    funext a
    by_cases ha : a = acc.address
    · rw [ha, Function.update_self]
      simp only [BlockState.registry, h.account?_self, Option.elim_some]
    · rw [Function.update_of_ne ha]
      simp only [BlockState.registry, h.account?_of_ne ha]
  refine Registry.ext hdata ?_ ?_
  · rw [h.put]
    rfl
  · rw [h.put]
    rfl

/-- An edit that leaves the data leaves the registries. -/
lemma registry_eq (h : Edit s acc acc' s') (hdata : acc'.data = acc.data) :
    s'.registry = s.registry := by
  rw [h.registry_put, hdata, ← h.registry_read, Registry.setData, Function.update_eq_self]

end Edit

/-- The data of an account that is read is the registered one. -/
lemma BlockState.registry_getAccount {a : Address} {acc : Account}
    (h : s.getAccount a = .ok acc) : s.registry.data a = acc.data := by
  have hread := (Edit.of_getAccount h acc rfl).registry_read
  rwa [address_of_getAccount h] at hread

lemma BlockState.registry_putAccount {a : Address} {acc acc' : Account}
    (h : s.getAccount a = .ok acc) (haddr : acc'.address = acc.address) :
    (s.putAccount acc').registry = s.registry.setData a acc'.data := by
  have hput := (Edit.of_getAccount h acc' haddr).registry_put
  rwa [address_of_getAccount h] at hput

/-- A certificate is put to the received ones. -/
lemma BlockState.registry_receive {a : Address} {acc : Account} (h : s.getAccount a = .ok acc)
    (hash : Bytes) (cert : Certification) :
    (s.putAccount { acc with certReceived := acc.certReceived.insert hash cert }).registry =
      s.registry.receive a hash cert := by
  rw [registry_putAccount h, Registry.receive, registry_getAccount h]
  · refine congrArg (s.registry.setData a) (AccountData.ext rfl rfl ?_ rfl)
    exact Finmap.lookup_insert_eq_update acc.certReceived hash cert
  · rfl

/-- A certificate is put to the issued ones. -/
lemma BlockState.registry_issue {a : Address} {acc : Account} (h : s.getAccount a = .ok acc)
    (hash : Bytes) (cert : Certification) :
    (s.putAccount { acc with certIssued := acc.certIssued.insert hash cert }).registry =
      s.registry.issue a hash cert := by
  rw [registry_putAccount h, Registry.issue, registry_getAccount h]
  · refine congrArg (s.registry.setData a) (AccountData.ext rfl rfl rfl ?_)
    exact Finmap.lookup_insert_eq_update acc.certIssued hash cert
  · rfl

/-- What is registered of a stored account. -/
lemma BlockState.registry_data {a : Address} {acc : Account} (h : s.account? a = some acc) :
    s.registry.data a = acc.data := by
  simp only [registry, h, Option.elim_some]

/-- An account with a candidate id or an alias is stored. -/
lemma BlockState.account?_of_registry {a : Address} (h : s.registry.data a ≠ default) :
    ∃ acc, s.account? a = some acc ∧ s.registry.data a = acc.data := by
  cases hacc : s.account? a with
  | none =>
      simp only [registry, hacc, Option.elim_none] at h
      exact absurd rfl h
  | some acc => exact ⟨acc, rfl, registry_data hacc⟩

/-- A shift of vote power keeps ids and addresses of candidates. -/
lemma PowerShift.registered {ds ds' : DposState} {up down : Bytes → ℕ}
    (h : PowerShift ds ds' up down) (id : Bytes) :
    (ds'.candidates.lookup id).map (fun c => (c.id, c.addr)) =
      (ds.candidates.lookup id).map fun c => (c.id, c.addr) := by
  cases hc : ds.candidates.lookup id with
  | none => rw [(h.none_iff id).2 hc]
  | some c =>
      obtain ⟨c', hc'⟩ := Option.ne_none_iff_exists'.1 fun hnone =>
        Option.some_ne_none c (hc.symm.trans ((h.none_iff id).1 hnone))
      rw [hc', (h.power id c c' hc hc').1]
      rfl

/-- Other aliases. -/
lemma BlockState.registry_setAliases {accState : AccountState}
    (h : accState.accounts = s.accState.accounts) :
    ({ s with accState := accState } : BlockState).registry =
      { s.registry with aliases := fun aliasName => accState.aliases.lookup aliasName } := by
  refine Registry.ext ?_ rfl rfl
  funext a
  simp only [registry, account?, h]

/-- An edit and other aliases. -/
lemma Edit.registry_setAliases {acc acc' : Account} (h : Edit s acc acc' s')
    {accState : AccountState} (haccounts : accState.accounts = s'.accState.accounts) :
    ({ s' with accState := accState } : BlockState).registry =
      { s.registry.setData acc.address acc'.data with
        aliases := fun aliasName => accState.aliases.lookup aliasName } := by
  rw [BlockState.registry_setAliases haccounts, h.registry_put]

/-- An edit and another dpos state. -/
lemma Edit.registry_setDpos {acc acc' : Account} (h : Edit s acc acc' s') {ds : DposState} :
    ({ s' with dposState := ds } : BlockState).registry =
      { s.registry.setData acc.address acc'.data with
        candidates := fun id => (ds.candidates.lookup id).map fun c => (c.id, c.addr) } := by
  rw [← h.registry_put]
  rfl

/-! ## Executions -/

section Executions

lemma executeGenesisDistribution_registry {target : Address} {balance : Uint128}
    (h : executeGenesisDistribution height target balance s = .ok s') :
    s'.registry = s.registry := by
  obtain ⟨-, -, h⟩ := bind_eq_ok_iff.1 h
  obtain ⟨acc, hacc, h⟩ := bind_eq_ok_iff.1 h
  obtain ⟨-, -, h⟩ := bind_eq_ok_iff.1 h
  obtain ⟨newBalance, -, h⟩ := bind_eq_ok_iff.1 h
  obtain ⟨supply, -, h⟩ := bind_eq_ok_iff.1 h
  rw [← Except.ok.inj h]
  exact (Edit.of_getAccount hacc { acc with balance := newBalance } rfl).registry_eq rfl

lemma executeTransfer_registry {sender receiver : Address} {value : Uint128}
    (h : executeTransfer sender receiver value s = .ok s') : s'.registry = s.registry := by
  obtain ⟨acc, hacc, h⟩ := bind_eq_ok_iff.1 h
  obtain ⟨balance, -, h⟩ := bind_eq_ok_iff.1 h
  obtain ⟨acc₁, hacc₁, h⟩ := bind_eq_ok_iff.1 h
  obtain ⟨balance₁, -, h⟩ := bind_eq_ok_iff.1 h
  have hfirst := (Edit.of_getAccount hacc { acc with balance := balance } rfl).registry_eq rfl
  have hsecond :=
    (Edit.of_getAccount hacc₁ { acc₁ with balance := balance₁ } rfl).registry_eq rfl
  rw [← Except.ok.inj h, hsecond, hfirst]

lemma executeAddRecord_registry {owner : Address} {recordHash : Bytes}
    (h : executeAddRecord owner recordHash s = .ok s') : s'.registry = s.registry := by
  obtain ⟨acc, hacc, h⟩ := bind_eq_ok_iff.1 h
  obtain ⟨-, -, h⟩ := bind_eq_ok_iff.1 h
  rw [← Except.ok.inj h]
  refine (Edit.of_getAccount hacc _ ?_).registry_eq ?_
  · rfl
  · rfl

/-- An alias that nobody has is not registered. -/
lemma checkAliasNotTaken_spec {aliasName : Bytes} {u : Unit}
    (h : checkAliasNotTaken s aliasName = .ok u) : s.registry.aliases aliasName = none := by
  cases halias : s.accState.aliases.lookup aliasName with
  | none => exact halias
  | some a =>
      -- the owner is read, or reading it fails with an error of its own
      have hread : s.getAccountByAlias aliasName = s.getAccount a :=
        bind_of_ok (ofOption_eq_ok.2 halias) _
      unfold checkAliasNotTaken at h
      rw [hread] at h
      split at h
      · cases h
      · rename_i e he
        rw [failIf_eq_ok, not_not] at h
        exact absurd (h ▸ he) BlockState.getAccount_ne_notFound

lemma executeRegisterAlias_registry {addr : Address} {collateral : Uint128} {aliasName : Bytes}
    (h : executeRegisterAlias addr collateral aliasName s = .ok s') :
    RegistryStep s.timestamp s.registry (.registerAlias addr collateral aliasName)
      s'.registry := by
  obtain ⟨-, -, h⟩ := bind_eq_ok_iff.1 h
  obtain ⟨acc, hacc, h⟩ := bind_eq_ok_iff.1 h
  obtain ⟨_, hhave, h⟩ := bind_eq_ok_iff.1 h
  obtain ⟨_, htaken, h⟩ := bind_eq_ok_iff.1 h
  obtain ⟨balance, -, h⟩ := bind_eq_ok_iff.1 h
  obtain rfl := BlockState.address_of_getAccount hacc
  have hedit := Edit.of_getAccount hacc
    { acc with balance := balance, aliasRecord := some ⟨aliasName, collateral⟩ } rfl
  have hread := hedit.registry_read
  rw [failIf_eq_ok, Bool.not_eq_true, Option.isSome_eq_false_iff, Option.isNone_iff_eq_none]
    at hhave
  have hnone : (s.registry.data acc.address).aliasRecord = none := by
    rw [hread]
    exact hhave
  have hstep : RegistryStep s.timestamp s.registry
      (.registerAlias acc.address collateral aliasName) _ :=
    .registerAlias hnone (checkAliasNotTaken_spec htaken)
  rw [hread] at hstep
  rw [← Except.ok.inj h, hedit.registry_setAliases]
  · convert hstep using 1
    exact Registry.ext rfl (Finmap.lookup_insert_eq_update s.accState.aliases _ _) rfl
  · rfl

lemma executeDeregisterAlias_registry {addr : Address}
    (h : executeDeregisterAlias addr s = .ok s') :
    RegistryStep s.timestamp s.registry (.deregisterAlias addr) s'.registry := by
  obtain ⟨acc, hacc, h⟩ := bind_eq_ok_iff.1 h
  obtain ⟨record, hrecord, h⟩ := bind_eq_ok_iff.1 h
  obtain ⟨-, -, h⟩ := bind_eq_ok_iff.1 h
  obtain ⟨balance, -, h⟩ := bind_eq_ok_iff.1 h
  obtain ⟨accState, hdel, h⟩ := bind_eq_ok_iff.1 h
  obtain ⟨owner, howner, hdel⟩ := bind_eq_ok_iff.1 hdel
  obtain ⟨_, hsame, hdel⟩ := bind_eq_ok_iff.1 hdel
  rw [failIf_eq_ok, not_not] at hsame
  rw [ofOption_eq_ok] at hrecord
  rw [ofOption_eq_ok, hsame] at howner
  have haddr := BlockState.address_of_getAccount hacc
  have haccounts : accState.accounts = s.accState.accounts := by rw [← Except.ok.inj hdel]
  have hread : ({ s with accState := accState } : BlockState).getAccount addr = .ok acc := by
    rw [← hacc]
    exact BlockState.getAccount_congr (congrArg (Finmap.lookup addr) haccounts) rfl
  have hedit := Edit.of_getAccount hread { acc with balance := balance, aliasRecord := none } rfl
  have hdata : s.registry.data addr = acc.data := by
    rw [← haddr]
    exact (Edit.of_getAccount hacc acc rfl).registry_read
  have hrecord' : (s.registry.data addr).aliasRecord = some record := by
    rw [hdata]
    exact hrecord
  have hstep : RegistryStep s.timestamp s.registry _ _ := .deregisterAlias hrecord' howner
  rw [hdata] at hstep
  rw [← Except.ok.inj h, hedit.registry_put, BlockState.registry_setAliases haccounts, haddr]
  convert hstep using 1
  rw [← Except.ok.inj hdel]
  exact Registry.ext rfl (Finmap.lookup_erase_eq_update s.accState.aliases _) rfl

lemma executeAddCertification_registry {issuer certified : Address} {hash : Bytes}
    {issueTime expirationTime : ℤ}
    (h : executeAddCertification issuer certified hash issueTime expirationTime s = .ok s') :
    RegistryStep s.timestamp s.registry
      (.addCertification issuer certified hash issueTime expirationTime) s'.registry := by
  obtain ⟨certAcc, hcert, h⟩ := bind_eq_ok_iff.1 h
  obtain ⟨_, hreceived, h⟩ := bind_eq_ok_iff.1 h
  obtain ⟨issuerAcc₀, hissuer₀, h⟩ := bind_eq_ok_iff.1 h
  obtain ⟨_, hissued, h⟩ := bind_eq_ok_iff.1 h
  obtain ⟨issuerAcc, hissuer, h⟩ := bind_eq_ok_iff.1 h
  rw [failIf_eq_ok, Bool.not_eq_true, Option.isSome_eq_false_iff, Option.isNone_iff_eq_none]
    at hreceived hissued
  have hreceived' : (s.registry.data certified).certReceived hash = none := by
    rw [BlockState.registry_getAccount hcert]
    exact hreceived
  have hissued' : (s.registry.data issuer).certIssued hash = none := by
    rw [BlockState.registry_getAccount hissuer₀]
    exact hissued
  rw [← Except.ok.inj h, BlockState.registry_issue hissuer, BlockState.registry_receive hcert]
  exact .addCertification hreceived' hissued'

lemma executeRevokeCertification_registry {revoker : Address} {hash : Bytes}
    (h : executeRevokeCertification revoker hash s = .ok s') :
    RegistryStep s.timestamp s.registry (.revokeCertification revoker hash) s'.registry := by
  obtain ⟨issuerAcc, hissuer, h⟩ := bind_eq_ok_iff.1 h
  obtain ⟨cert, hcert, h⟩ := bind_eq_ok_iff.1 h
  obtain ⟨_, hrevoker, h⟩ := bind_eq_ok_iff.1 h
  obtain ⟨_, hrevoked, h⟩ := bind_eq_ok_iff.1 h
  obtain ⟨_, hexpired, h⟩ := bind_eq_ok_iff.1 h
  obtain ⟨certAcc, hcertAcc, h⟩ := bind_eq_ok_iff.1 h
  rw [ofOption_eq_ok] at hcert
  rw [failIf_eq_ok, not_not] at hrevoker
  rw [failIf_eq_ok, not_lt] at hrevoked hexpired
  have hcert' : (s.registry.data revoker).certIssued hash = some cert := by
    rw [BlockState.registry_getAccount hissuer]
    exact hcert
  rw [← Except.ok.inj h, BlockState.registry_receive hcertAcc, BlockState.registry_issue hissuer]
  exact .revokeCertification hcert' hrevoker hrevoked hexpired

/-- An edit that leaves the data, with a shift of vote power. -/
lemma Edit.registry_shift {acc acc' : Account} {s₁ : BlockState} (h : Edit s acc acc' s₁)
    (hdata : acc'.data = acc.data) {ds' : DposState} {up down : Bytes → ℕ}
    (hds : PowerShift s.dposState ds' up down) :
    ({ s₁ with dposState := ds' } : BlockState).registry = s.registry := by
  rw [h.registry_setDpos, hdata, ← h.registry_read, Registry.setData, Function.update_eq_self]
  refine Registry.ext rfl rfl ?_
  funext id
  exact hds.registered id

lemma DposChange.registry {acc acc' : Account} {s₁ : BlockState} {op : Operation}
    {ds' : DposState} (hedit : Edit s acc acc' s₁)
    (h : DposChange s.timestamp s.dposState acc op acc' ds') :
    RegistryStep s.timestamp s.registry op ({ s₁ with dposState := ds' } : BlockState).registry := by
  have hread := hedit.registry_read
  cases h with
  | stake hbalance hstaking hpoints hds =>
      rw [hedit.registry_shift rfl hds]
      exact .keep rfl
  | unstake hstaking hunstaking hds =>
      rw [hedit.registry_shift rfl hds]
      exact .keep rfl
  | vote hmem hds =>
      rw [hedit.registry_shift rfl hds]
      exact .keep rfl
  | @become txHash collateral balance url hnone halias hbalance =>
      have hstep : RegistryStep s.timestamp s.registry
          (.becomeCandidate txHash acc.address collateral url) _ :=
        .becomeCandidate (by rw [hread]; exact hnone) (by rw [hread]; exact halias)
      rw [hread] at hstep
      rw [hedit.registry_setDpos]
      convert hstep using 1
      exact Registry.ext rfl rfl (Finmap.map_lookup_insert s.dposState.candidates _ _ _)
  | @quit c balance hid hc hbalance =>
      have hregistered : s.registry.candidates (s.registry.data acc.address).candidateID ≠ none := by
        rw [hread]
        simp only [BlockState.registry, BlockState.candidate?, Account.data, hc]
        exact Option.some_ne_none _
      have hstep : RegistryStep s.timestamp s.registry (.quitCandidacy acc.address) _ :=
        .quitCandidacy (by rw [hread]; exact hid) hregistered
      rw [hread] at hstep
      rw [hedit.registry_setDpos]
      convert hstep using 1
      exact Registry.ext rfl rfl (Finmap.map_lookup_erase s.dposState.candidates _ _)

/-- Executions of all types refine the registry. -/
theorem execute_registry {op : Operation} (h : op.execute height s = .ok s') :
    RegistryStep s.timestamp s.registry op s'.registry := by
  have hkeep : op.registers = false → s'.registry = s.registry →
      RegistryStep s.timestamp s.registry op s'.registry := by
    intro hop heq
    rw [heq]
    exact .keep hop
  cases op with
  | genesis =>
      obtain ⟨-, -, h⟩ := bind_eq_ok_iff.1 h
      exact hkeep rfl (by rw [Except.ok.inj h])
  | genesisDistribution target balance => exact hkeep rfl (executeGenesisDistribution_registry h)
  | transfer sender receiver value => exact hkeep rfl (executeTransfer_registry h)
  | addRecord owner recordHash => exact hkeep rfl (executeAddRecord_registry h)
  | addCertification issuer certified hash issueTime expirationTime =>
      exact executeAddCertification_registry h
  | revokeCertification revoker hash => exact executeRevokeCertification_registry h
  | registerAlias addr collateral aliasName => exact executeRegisterAlias_registry h
  | deregisterAlias addr => exact executeDeregisterAlias_registry h
  | stake _ _ | unstake _ _ | becomeCandidate _ _ _ _ | quitCandidacy _ | vote _ _ =>
      cases execute_effect h with
      | light hop _ => cases hop
      | dpos hedit hchange => exact hchange.registry hedit

end Executions

/-! ## Runs -/

section Runs

variable {tick : ℤ → ℤ → Prop} {rule : ℕ → Transaction → Prop} {l l' : Ledger}

lemma Accepted.registry {tx : Transaction} {r : Receipt} (h : Accepted tx r s s') :
    s'.registry = s.registry := by
  refine h.preserves (P := fun t => t.registry = s.registry) ?_ (fun _ ht => ht) rfl
  intro s₁ acc acc' s₂ hedit hcharged ht
  rw [hedit.registry_eq, ht]
  rw [hcharged.same]
  rfl

lemma payReward_registry {coinbase : Address} {parentSupply : Uint128}
    (h : payReward coinbase parentSupply s = .ok s') : s'.registry = s.registry := by
  obtain ⟨-, -, h⟩ := bind_eq_ok_iff.1 h
  obtain ⟨reward, -, h⟩ := bind_eq_ok_iff.1 h
  obtain ⟨supply, -, h⟩ := bind_eq_ok_iff.1 h
  obtain ⟨acc, hacc, h⟩ := bind_eq_ok_iff.1 h
  obtain ⟨balance, -, h⟩ := bind_eq_ok_iff.1 h
  rw [← Except.ok.inj h]
  exact (Edit.of_getAccount hacc { acc with balance := balance } rfl).registry_eq rfl

/-- What a step of a run does to the registries: a transaction is accepted, and has failed or
done its step, or nothing happens. -/
inductive RegistryMove (env : Env) (rule : ℕ → Transaction → Prop) (l l' : Ledger) : Prop
  | still (haccepted : l'.accepted = l.accepted) (hregistry : l'.state.registry = l.state.registry)
  | accept {tx : Transaction} {r : Receipt} {exeTx : ExecutableTx} (hrule : rule l.height tx)
      (haccept : l.accept env tx = .ok l') (haccepted : l'.accepted = tx.setReceipt r :: l.accepted)
      (hfrom : Operation.From env tx exeTx)
      (hregistry : l'.state.registry = l.state.registry ∨
        RegistryStep l.state.timestamp l.state.registry exeTx.op l'.state.registry)

/-- A step of a run, by the registries: nothing happens to them, or a transaction is accepted that
is converted to an operation and has failed or done its step. -/
lemma LedgerStep.registry_cases (h : LedgerStep env tick rule l l') :
    (l'.accepted = l.accepted ∧ l'.state.registry = l.state.registry) ∨
      ∃ tx r exeTx, rule l.height tx ∧ l.accept env tx = .ok l' ∧
        l'.accepted = tx.setReceipt r :: l.accepted ∧ txConv env tx = .ok exeTx ∧
        (l'.state.registry = l.state.registry ∨
          RegistryStep l.state.timestamp l.state.registry exeTx.op l'.state.registry) := by
  cases h with
  | @accept _ tx hrule haccept =>
      obtain ⟨r, s₁, exeTx, usage, haccepts⟩ := Ledger.accept_spec haccept
      have haccepted : l'.accepted = tx.setReceipt r :: l.accepted := by rw [haccepts.next]
      refine .inr ⟨tx, r, exeTx, hrule, haccept, haccepted, haccepts.executed.conv, ?_⟩
      rw [haccepts.accepted.registry]
      obtain ⟨hexec, -⟩ | ⟨e, -, rfl, -⟩ := haccepts.executed.result
      · exact .inr (execute_registry hexec)
      · exact .inl rfl
  | reward hdue hpay => exact .inl ⟨rfl, payReward_registry hpay⟩
  | dynasty addrs =>
      refine .inl ⟨rfl, Registry.ext rfl rfl ?_⟩
      funext id
      simp only [BlockState.registry, BlockState.candidate?, DposState.setDynasty_candidates]
  | child htick hchild =>
      refine .inl ⟨rfl, ?_⟩
      rw [initChild_spec hchild]
      rfl

lemma LedgerStep.registry (h : LedgerStep env tick rule l l') : RegistryMove env rule l l' := by
  obtain ⟨haccepted, hregistry⟩ | ⟨tx, r, exeTx, hrule, haccept, haccepted, hconv, hregistry⟩ :=
    h.registry_cases
  · exact .still haccepted hregistry
  · exact .accept hrule haccept haccepted (txConv_spec hconv) hregistry

end Runs

end GoMedibloc
