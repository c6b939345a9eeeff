import GoMedibloc.Ledger.Transaction

/-!
# The state of a block

The tries of a block state are taken as finite maps: the accounts and aliases, the accepted
transactions, the candidates and the dynasty.  `Atomic` begins a batch on every trie and
commits or rolls it back, so that a function that fails leaves the state as it was; a function
on states here returns the new state or an error.

Transactions and rewards change accounts in one way only: an account is read with `getAccount`,
which brings it up to the block's timestamp, is changed, and is put back.  `Edit` is that step.
A quantity that reading does not change (`Account.Stable`) then changes by the difference
between the account that was read and the one that was put (`Edit.total`), and a property that
reading keeps holds of all stored accounts if it holds of the one that was put
(`Edit.forall_accounts`).
-/

namespace GoMedibloc

open Except

/-! ## Candidates and the dynasty -/

/-- A candidate. -/
structure Candidate where
  id : Bytes
  addr : Address
  collateral : Uint128
  votePower : Uint128
  url : Bytes
  timestamp : ℤ
deriving DecidableEq

/-- The dpos state. -/
structure DposState where
  candidates : Finmap fun _ : Bytes => Candidate
  dynasty : Finmap fun _ : ℕ => Address

namespace DposState

/-- The dpos state of an empty chain. -/
def empty : DposState := ⟨∅, ∅⟩

/-- `GetCandidate`. -/
def getCandidate (ds : DposState) (id : Bytes) : Except Err Candidate :=
  ofOption .notFound (ds.candidates.lookup id)

@[simp] lemma getCandidate_eq_ok {ds : DposState} {id : Bytes} {c : Candidate} :
    ds.getCandidate id = .ok c ↔ ds.candidates.lookup id = some c := ofOption_eq_ok

/-- `PutCandidate`. -/
def putCandidate (ds : DposState) (id : Bytes) (c : Candidate) : DposState :=
  { ds with candidates := ds.candidates.insert id c }

/-- `DelCandidate`. -/
def delCandidate (ds : DposState) (id : Bytes) : Except Err DposState := do
  let _ ← ds.getCandidate id
  return { ds with candidates := ds.candidates.erase id }

/-- `AddVotePowerToCandidate`. -/
def addVotePowerToCandidate (ds : DposState) (id : Bytes) (amount : Uint128) :
    Except Err DposState := do
  let c ← ds.getCandidate id
  let votePower ← c.votePower.add amount
  return ds.putCandidate id { c with votePower := votePower }

/-- `SubVotePowerToCandidate`. -/
def subVotePowerToCandidate (ds : DposState) (id : Bytes) (amount : Uint128) :
    Except Err DposState := do
  let c ← ds.getCandidate id
  let votePower ← c.votePower.sub amount
  return ds.putCandidate id { c with votePower := votePower }

/-- `GetProposer`. -/
def getProposer (ds : DposState) (index : ℕ) : Except Err Address :=
  ofOption .notFound (ds.dynasty.lookup index)

/-- `PutProposer`. -/
def putProposer (ds : DposState) (index : ℕ) (addr : Address) : DposState :=
  { ds with dynasty := ds.dynasty.insert index addr }

/-- `SetDynasty`. -/
def setDynasty (ds : DposState) (dynasty : List Address) : DposState :=
  dynasty.zipIdx.foldl (fun ds p => ds.putProposer p.2 p.1) ds

@[simp] lemma setDynasty_candidates (ds : DposState) (dynasty : List Address) :
    (ds.setDynasty dynasty).candidates = ds.candidates := by
  unfold setDynasty
  induction dynasty.zipIdx generalizing ds with
  | nil => rfl
  | cons p l ih => exact (ih _).trans rfl

end DposState

/-! ## Block states -/

/-- The state of a block. -/
structure BlockState where
  timestamp : ℤ
  reward : Uint128
  supply : Uint128
  cpuPrice : Uint128
  cpuUsage : UInt64
  netPrice : Uint128
  netUsage : UInt64
  accState : AccountState
  txState : Finmap fun _ : Bytes => Transaction
  dposState : DposState

namespace BlockState

/-- The state of `genesisTemplate`: empty tries, nothing supplied, zero prices. -/
def genesis : BlockState where
  timestamp := 0
  reward := .zero
  supply := .zero
  cpuPrice := .zero
  cpuUsage := 0
  netPrice := .zero
  netUsage := 0
  accState := .empty
  txState := ∅
  dposState := .empty

/-- `GetAccount`. -/
def getAccount (s : BlockState) (addr : Address) : Except Err Account :=
  s.accState.getAccount addr s.timestamp

/-- `PutAccount`. -/
def putAccount (s : BlockState) (acc : Account) : BlockState :=
  { s with accState := s.accState.putAccount acc }

/-- `GetAccountByAlias`. -/
def getAccountByAlias (s : BlockState) (aliasName : Bytes) : Except Err Account :=
  s.accState.getAccountByAlias aliasName s.timestamp

/-- `PutTx`. -/
def putTx (s : BlockState) (tx : Transaction) : BlockState :=
  { s with txState := s.txState.insert tx.hash tx }

/-- The stored account of an address. -/
def account? (s : BlockState) (a : Address) : Option Account := s.accState.accounts.lookup a

/-- The candidate of an id. -/
def candidate? (s : BlockState) (id : Bytes) : Option Candidate :=
  s.dposState.candidates.lookup id

variable {s s' : BlockState} {a : Address} {acc acc' : Account}

lemma address_of_account? (h : s.account? a = some acc) : acc.address = a :=
  s.accState.keyed a acc h

@[simp] lemma account?_putAccount_self : (s.putAccount acc).account? acc.address = some acc :=
  Finmap.lookup_insert _

lemma account?_putAccount_of_ne (h : a ≠ acc.address) :
    (s.putAccount acc).account? a = s.account? a :=
  Finmap.lookup_insert_of_ne _ h

@[simp] lemma putAccount_timestamp : (s.putAccount acc).timestamp = s.timestamp := rfl
@[simp] lemma putAccount_supply : (s.putAccount acc).supply = s.supply := rfl
@[simp] lemma putAccount_dposState : (s.putAccount acc).dposState = s.dposState := rfl

/-! ## Reading an account -/

/-- An account that is read is a fresh one, or a stored one brought up to the timestamp. -/
lemma getAccount_cases (h : s.getAccount a = .ok acc) :
    (s.account? a = none ∧ acc = newAccount a) ∨
      ∃ stored, s.account? a = some stored ∧ stored.refresh s.timestamp = .ok acc := by
  unfold getAccount AccountState.getAccount at h
  split at h
  · exact .inl ⟨‹_›, (Except.ok.inj h).symm⟩
  · exact .inr ⟨_, ‹_›, h⟩

lemma getAccount_ne_notFound : s.getAccount a ≠ .error .notFound := by
  unfold getAccount AccountState.getAccount
  split
  · exact nofun
  · exact Account.refresh_ne_notFound

lemma address_of_getAccount (h : s.getAccount a = .ok acc) : acc.address = a := by
  obtain ⟨-, rfl⟩ | ⟨stored, hstored, hr⟩ := getAccount_cases h
  · rfl
  · exact (Account.refresh_spec hr).address.trans (address_of_account? hstored)

/-- Reading depends on the stored account and the timestamp only. -/
lemma getAccount_congr (h : s'.account? a = s.account? a) (hts : s'.timestamp = s.timestamp) :
    s'.getAccount a = s.getAccount a := by
  unfold account? at h
  unfold getAccount AccountState.getAccount
  rw [h, hts]

lemma getAccount_putAccount_of_ne (h : a ≠ acc.address) :
    (s.putAccount acc).getAccount a = s.getAccount a :=
  getAccount_congr (account?_putAccount_of_ne h) rfl

lemma getAccount_of_account? (h : s.account? a = some acc) :
    s.getAccount a = acc.refresh s.timestamp := by
  unfold account? at h
  unfold getAccount AccountState.getAccount
  rw [h]

end BlockState

/-! ## Edits -/

/-- A quantity of accounts that reading does not change. -/
structure Account.Stable (f : Account → ℕ) : Prop where
  fresh : ∀ a, f (newAccount a) = 0
  refreshed : ∀ {ts acc acc'}, Account.Refreshed ts acc acc' → f acc' = f acc

/-- An account is read, changed and put back. -/
structure Edit (s : BlockState) (acc acc' : Account) (s' : BlockState) : Prop where
  read : s.getAccount acc.address = .ok acc
  address : acc'.address = acc.address
  put : s' = s.putAccount acc'

namespace Edit

open BlockState

variable {s s' : BlockState} {acc acc' : Account}

lemma of_getAccount {a : Address} (h : s.getAccount a = .ok acc) (acc' : Account)
    (haddr : acc'.address = acc.address) : Edit s acc acc' (s.putAccount acc') :=
  ⟨by rwa [address_of_getAccount h], haddr, rfl⟩

/-- A stable quantity changes by the difference between the account that was put and the one
that was read. -/
lemma total (h : Edit s acc acc' s') {f : Account → ℕ} (hf : Account.Stable f) :
    s'.accState.accounts.total f + f acc = s.accState.accounts.total f + f acc' := by
  have hread : (s.accState.accounts.lookup acc'.address).elim 0 f = f acc := by
    rw [h.address]
    obtain ⟨hnone, hnew⟩ | ⟨stored, hstored, hr⟩ := getAccount_cases h.read
    · rw [account?] at hnone
      rw [hnone, hnew, hf.fresh]
      rfl
    · rw [account?] at hstored
      rw [hstored, hf.refreshed (Account.refresh_spec hr)]
      rfl
  rw [h.put, ← hread]
  exact Finmap.total_insert _ _ _ _

/-- A property of all stored accounts is kept if the account that is put has it. -/
lemma forall_accounts (h : Edit s acc acc' s') {P : Account → Prop}
    (hs : ∀ a x, s.account? a = some x → P x) (hacc : P acc') :
    ∀ a x, s'.account? a = some x → P x := by
  intro a x hx
  rw [h.put] at hx
  by_cases ha : a = acc'.address
  · subst ha
    rw [account?_putAccount_self, Option.some_inj] at hx
    exact hx ▸ hacc
  · rw [account?_putAccount_of_ne ha] at hx
    exact hs a x hx

/-- Other accounts stay. -/
lemma account?_of_ne (h : Edit s acc acc' s') {a : Address} (ha : a ≠ acc.address) :
    s'.account? a = s.account? a := by
  rw [h.put]
  exact account?_putAccount_of_ne (by rwa [h.address])

lemma account?_self (h : Edit s acc acc' s') : s'.account? acc.address = some acc' := by
  rw [h.put, ← h.address]
  exact account?_putAccount_self

/-- Something of the accounts that neither reading nor the edit changes is kept. -/
lemma kept {β : Type} {g : Account → β} (h : Edit s acc acc' s')
    (hg : ∀ {ts acc acc'}, Account.Refreshed ts acc acc' → g acc' = g acc)
    (heq : g acc' = g acc) {a : Address} {x : Account} (hx : s.account? a = some x) :
    ∃ x', s'.account? a = some x' ∧ g x' = g x := by
  by_cases ha : a = acc.address
  · subst ha
    refine ⟨acc', h.account?_self, heq.trans ?_⟩
    obtain ⟨hnone, -⟩ | ⟨stored, hstored, hr⟩ := getAccount_cases h.read
    · rw [hx] at hnone
      cases hnone
    · obtain rfl := Option.some_inj.1 (hx.symm.trans hstored)
      exact hg (Account.refresh_spec hr)
  · exact ⟨x, (h.account?_of_ne ha).trans hx, rfl⟩

/-- An account that is read is fresh or was stored, up to what reading changes. -/
lemma fresh_or_refreshed (h : Edit s acc acc' s') :
    (s.account? acc.address = none ∧ acc = newAccount acc.address) ∨
      ∃ stored, s.account? acc.address = some stored ∧
        Account.Refreshed s.timestamp stored acc := by
  obtain hnew | ⟨stored, hstored, hr⟩ := getAccount_cases h.read
  · exact .inl hnew
  · exact .inr ⟨stored, hstored, Account.refresh_spec hr⟩

end Edit

end GoMedibloc
