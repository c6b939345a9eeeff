import GoMedibloc.Ledger.Basic

/-!
# Accounts

An account has a balance, a stake, points that regenerate from the stake over seven days, and
an amount that is being unstaked and returns to the balance after seven days.  Neither of the
two happens on its own: whoever reads an account with `getAccount` gets it brought up to the
timestamp of the block, and only if the account is put back is the change kept.

`Refreshed` says what such a reading can change, once for all later proofs: the sum of balance
and unstaking stays, the points never pass the stake, everything else is as stored, and a
second reading at the same timestamp changes nothing.
-/

namespace GoMedibloc

open Except

/-- The keys of a trie of candidate ids, in the order of its iterator. -/
structure Voted where
  keys : List Bytes
  nodup : keys.Nodup
deriving DecidableEq, Repr

instance : Inhabited Voted := ⟨⟨[], List.nodup_nil⟩⟩

/-- Put a key into a trie of candidate ids, unless it is there. -/
def Voted.add (v : Voted) (id : Bytes) : Except Err Voted :=
  if h : id ∈ v.keys then .error .duplicateVote
  else .ok ⟨v.keys.orderedInsert (· ≤ ·) id,
    (List.perm_orderedInsert _ id v.keys).nodup_iff.2 (List.nodup_cons.2 ⟨h, v.nodup⟩)⟩

/-- A medical record, `corepb.Record`. -/
structure Record where
  owner : Address
  recordHash : Bytes
  timestamp : ℤ
deriving DecidableEq

/-- A certification, `corepb.Certification`. -/
structure Certification where
  certificateHash : Bytes
  issuer : Address
  certified : Address
  issueTime : ℤ
  expirationTime : ℤ
  revocationTime : ℤ
deriving DecidableEq

/-- An alias record, `corepb.Alias`. -/
structure Alias where
  aliasName : Bytes
  aliasCollateral : Uint128
deriving DecidableEq, Repr

/-- An account.  The data trie is split by the prefixes of its keys; an account that is no
candidate has the empty `candidateID`. -/
structure Account where
  address : Address
  balance : Uint128
  nonce : UInt64
  staking : Uint128
  voted : Voted
  candidateID : Bytes
  points : Uint128
  lastPointsTs : ℤ
  unstaking : Uint128
  lastUnstakingTs : ℤ
  records : Finmap fun _ : Bytes => Record
  certReceived : Finmap fun _ : Bytes => Certification
  certIssued : Finmap fun _ : Bytes => Certification
  aliasRecord : Option Alias

/-- `newAccount`, with the address that `GetAccount` gives it. -/
def newAccount (address : Address) : Account where
  address := address
  balance := .zero
  nonce := 0
  staking := .zero
  voted := default
  candidateID := []
  points := .zero
  lastPointsTs := 0
  unstaking := .zero
  lastUnstakingTs := 0
  records := ∅
  certReceived := ∅
  certIssued := ∅
  aliasRecord := none

namespace Account

variable {acc acc' : Account} {ts : ℤ}

/-! ## Reading an account at a timestamp -/

/-- `currentPoints`. -/
def currentPoints (acc : Account) (ts : ℤ) : Except Err Uint128 := do
  let used ← acc.staking.sub acc.points
  let elapsed := wrap64 (ts - acc.lastPointsTs)
  if sevenDaysPassed elapsed then return acc.staking
  failIf (elapsed < 0) .elapsedTimestamp
  if elapsed = 0 then return acc.points
  let v1 ← acc.staking.mul (.ofUint elapsed.toNat.toUInt64)
  let regen ← v1.div (.ofUint 604800)
  if used.val ≤ regen.val then return acc.staking
  acc.points.add regen

/-- `updatePoints`. -/
def updatePoints (acc : Account) (ts : ℤ) : Except Err Account := do
  if acc.lastPointsTs = ts then return acc
  let points ← acc.currentPoints ts
  return { acc with points := points, lastPointsTs := ts }

/-- `updateUnstaking`. -/
def updateUnstaking (acc : Account) (ts : ℤ) : Except Err Account := do
  if acc.lastUnstakingTs = 0 then return acc
  if ¬ sevenDaysPassed (wrap64 (ts - acc.lastUnstakingTs)) then return acc
  let balance ← acc.balance.add acc.unstaking
  return { acc with balance := balance, unstaking := .zero, lastUnstakingTs := 0 }

/-- What `GetAccount` does with a stored account. -/
def refresh (acc : Account) (ts : ℤ) : Except Err Account := do
  let acc ← acc.updatePoints ts
  acc.updateUnstaking ts

/-- Points that are computed lie between the stored points and the stake. -/
lemma currentPoints_spec {p : Uint128} (h : acc.currentPoints ts = .ok p) :
    acc.points.val ≤ p.val ∧ p.val ≤ acc.staking.val := by
  unfold currentPoints at h
  obtain ⟨used, hused, h⟩ := bind_eq_ok_iff.1 h
  rw [Uint128.sub_eq_ok] at hused
  dsimp only at h
  split_ifs at h with hweek hzero
  · cases h
    omega
  · obtain ⟨-, -, h⟩ := bind_eq_ok_iff.1 h
    cases h
    omega
  · obtain ⟨-, -, h⟩ := bind_eq_ok_iff.1 h
    obtain ⟨v1, -, h⟩ := bind_eq_ok_iff.1 h
    obtain ⟨regen, -, h⟩ := bind_eq_ok_iff.1 h
    split_ifs at h with hfull
    · cases h
      omega
    · rw [Uint128.add_eq_ok] at h
      omega

/-- What reading an account at a timestamp can change. -/
structure Refreshed (ts : ℤ) (acc acc' : Account) : Prop where
  liquid : acc'.balance.val + acc'.unstaking.val = acc.balance.val + acc.unstaking.val
  points : acc.points.val ≤ acc.staking.val →
    acc.points.val ≤ acc'.points.val ∧ acc'.points.val ≤ acc.staking.val
  same : acc' = { acc with
    balance := acc'.balance
    points := acc'.points
    lastPointsTs := ts
    unstaking := acc'.unstaking
    lastUnstakingTs := acc'.lastUnstakingTs }
  again : acc'.refresh ts = .ok acc'

namespace Refreshed

lemma address (h : Refreshed ts acc acc') : acc'.address = acc.address := by rw [h.same]
lemma nonce (h : Refreshed ts acc acc') : acc'.nonce = acc.nonce := by rw [h.same]
lemma staking (h : Refreshed ts acc acc') : acc'.staking = acc.staking := by rw [h.same]
lemma voted (h : Refreshed ts acc acc') : acc'.voted = acc.voted := by rw [h.same]
lemma candidateID (h : Refreshed ts acc acc') : acc'.candidateID = acc.candidateID := by
  rw [h.same]
lemma aliasRecord (h : Refreshed ts acc acc') : acc'.aliasRecord = acc.aliasRecord := by
  rw [h.same]

end Refreshed

lemma updatePoints_spec (h : acc.updatePoints ts = .ok acc') :
    (acc.points.val ≤ acc.staking.val →
      acc.points.val ≤ acc'.points.val ∧ acc'.points.val ≤ acc.staking.val) ∧
    acc' = { acc with points := acc'.points, lastPointsTs := ts } := by
  unfold updatePoints at h
  split_ifs at h with heq
  · cases h
    exact ⟨fun hle => ⟨le_rfl, hle⟩, by rw [← heq]⟩
  · obtain ⟨p, hp, h⟩ := bind_eq_ok_iff.1 h
    cases h
    exact ⟨fun _ => currentPoints_spec hp, rfl⟩

lemma updateUnstaking_spec (h : acc.updateUnstaking ts = .ok acc') :
    acc'.balance.val + acc'.unstaking.val = acc.balance.val + acc.unstaking.val ∧
    acc' = { acc with
      balance := acc'.balance
      unstaking := acc'.unstaking
      lastUnstakingTs := acc'.lastUnstakingTs } ∧
    acc'.updateUnstaking ts = .ok acc' := by
  unfold updateUnstaking at h
  split_ifs at h with hnone hpassed
  · cases h
    exact ⟨rfl, rfl, by rw [updateUnstaking, if_pos hnone]; rfl⟩
  · obtain ⟨balance, hbalance, h⟩ := bind_eq_ok_iff.1 h
    cases h
    rw [Uint128.add_eq_ok] at hbalance
    exact ⟨by simpa using hbalance, rfl, by rw [updateUnstaking, if_pos rfl]; rfl⟩
  · cases h
    exact ⟨rfl, rfl, by rw [updateUnstaking, if_neg hnone, if_pos hpassed]; rfl⟩

lemma refresh_spec (h : acc.refresh ts = .ok acc') : Refreshed ts acc acc' := by
  obtain ⟨mid, hmid, h⟩ := bind_eq_ok_iff.1 h
  obtain ⟨hpoints, hmid⟩ := updatePoints_spec hmid
  obtain ⟨hliquid, hsame, hagain⟩ := updateUnstaking_spec h
  have hts : acc'.lastPointsTs = ts := by rw [hsame, hmid]
  refine ⟨?_, ?_, ?_, ?_⟩
  · rw [hliquid, hmid]
  · have : acc'.points = mid.points := by rw [hsame]
    rwa [this]
  · rw [hsame, hmid]
  · rw [refresh, updatePoints, if_pos hts]
    exact hagain

lemma currentPoints_ne_notFound : acc.currentPoints ts ≠ .error .notFound := by
  unfold currentPoints
  refine bind_ne_error (Uint128.sub_ne_error (by decide)) fun used => ?_
  dsimp only
  split_ifs with hweek hzero
  · exact nofun
  · exact bind_ne_error (failIf_ne_error (by decide)) fun _ => nofun
  · refine bind_ne_error (failIf_ne_error (by decide)) fun _ =>
      bind_ne_error (Uint128.ofNat_ne_error (by decide)) fun v1 =>
        bind_ne_error (Uint128.ofNat_ne_error (by decide)) fun regen => ?_
    split_ifs
    · exact nofun
    · exact Uint128.ofNat_ne_error (by decide)

/-- Reading a stored account never fails as if there was none. -/
lemma refresh_ne_notFound : acc.refresh ts ≠ .error .notFound := by
  refine bind_ne_error ?_ fun mid => ?_
  · unfold updatePoints
    split_ifs with heq
    · exact nofun
    · exact bind_ne_error currentPoints_ne_notFound fun _ => nofun
  · unfold updateUnstaking
    split_ifs with hnone hpassed
    · exact nofun
    · exact bind_ne_error (Uint128.ofNat_ne_error (by decide)) fun _ => nofun
    · exact nofun

/-- An account that reading at the timestamp only dates: it was read at that timestamp, or it
has never had a stake, and nothing is due to be returned from unstaking. -/
structure Idle (ts : ℤ) (acc : Account) : Prop where
  points : acc.lastPointsTs = ts ∨
    acc.lastPointsTs = 0 ∧ acc.staking = .zero ∧ acc.points = .zero
  unstaking : acc.lastUnstakingTs = 0 ∨ ¬ sevenDaysPassed (wrap64 (ts - acc.lastUnstakingTs))

lemma idle_newAccount (ts : ℤ) (a : Address) : Idle ts (newAccount a) :=
  ⟨.inr ⟨rfl, rfl, rfl⟩, .inl rfl⟩

lemma Refreshed.idle (h : Refreshed ts acc acc') : Idle ts acc' := by
  have hts : acc'.lastPointsTs = ts := by rw [h.same]
  refine ⟨.inl hts, ?_⟩
  have hagain := h.again
  rw [refresh, updatePoints, if_pos hts] at hagain
  change acc'.updateUnstaking ts = _ at hagain
  unfold updateUnstaking at hagain
  split_ifs at hagain with hnone hpassed
  · exact .inl hnone
  · -- an amount that is due would have been returned, and the date cleared
    obtain ⟨balance, -, h⟩ := bind_eq_ok_iff.1 hagain
    exact .inl (by rw [← Except.ok.inj h])
  · exact .inr hpassed

/-- A stake of zero regenerates nothing. -/
lemma currentPoints_of_zero (hlast : acc.lastPointsTs = 0) (hstaking : acc.staking = .zero)
    (hpoints : acc.points = .zero) (h0 : 0 ≤ ts) (h63 : ts < 2 ^ 63) :
    acc.currentPoints ts = .ok .zero := by
  have helapsed : wrap64 (ts - 0) = ts := by
    rw [sub_zero]
    exact wrap64_of_range (by omega) h63
  have hsub : Uint128.zero.sub .zero = .ok .zero := Uint128.sub_eq_ok.2 rfl
  unfold currentPoints
  rw [hlast, hstaking, hpoints, helapsed, bind_of_ok hsub]
  dsimp only
  have hnonneg : ¬ ts < 0 := by omega
  split_ifs with hweek hzero
  · rfl
  · rw [bind_of_ok (failIf_of_not hnonneg)]
    rfl
  · rw [bind_of_ok (failIf_of_not hnonneg)]
    have hmul : Uint128.zero.mul (.ofUint ts.toNat.toUInt64) = .ok .zero := by
      rw [Uint128.mul_eq_ok, Uint128.zero_val, zero_mul]
    have hdiv : Uint128.zero.div (.ofUint 604800) = .ok .zero := by
      rw [Uint128.div_eq_ok, Uint128.zero_val, Nat.zero_div]
    rw [bind_of_ok hmul, bind_of_ok hdiv, if_pos le_rfl]
    rfl

lemma Idle.refresh (h : Idle ts acc) (h0 : 0 ≤ ts) (h63 : ts < 2 ^ 63) :
    acc.refresh ts = .ok { acc with lastPointsTs := ts } := by
  have hpoints : acc.updatePoints ts = .ok { acc with lastPointsTs := ts } := by
    unfold updatePoints
    split_ifs with heq
    · rw [← heq]
      rfl
    · obtain hts | ⟨hlast, hstaking, hpoints⟩ := h.points
      · exact absurd hts heq
      · rw [bind_of_ok (currentPoints_of_zero hlast hstaking hpoints h0 h63), ← hpoints]
        rfl
  rw [Account.refresh, bind_of_ok hpoints]
  unfold updateUnstaking
  obtain hnone | hwait := h.unstaking
  · rw [if_pos hnone]
    rfl
  · split_ifs with hnone
    · rfl
    · rfl

end Account

/-! ## The account state -/

/-- The account trie: the accounts under their addresses, and the addresses under their
aliases. -/
structure AccountState where
  accounts : Finmap fun _ : Address => Account
  aliases : Finmap fun _ : Bytes => Address
  keyed : ∀ a acc, accounts.lookup a = some acc → acc.address = a

namespace AccountState

/-- The account state of an empty chain. -/
def empty : AccountState := ⟨∅, ∅, fun a acc h => by simp at h⟩

/-- `GetAccount`. -/
def getAccount (as : AccountState) (addr : Address) (ts : ℤ) : Except Err Account :=
  match as.accounts.lookup addr with
  | none => .ok (newAccount addr)
  | some acc => acc.refresh ts

/-- `PutAccount`. -/
def putAccount (as : AccountState) (acc : Account) : AccountState where
  accounts := as.accounts.insert acc.address acc
  aliases := as.aliases
  keyed a acc' h := by
    by_cases ha : a = acc.address
    · subst ha
      rw [Finmap.lookup_insert, Option.some_inj] at h
      rw [← h]
    · rw [Finmap.lookup_insert_of_ne _ ha] at h
      exact as.keyed a acc' h

/-- `GetAccountByAlias`. -/
def getAccountByAlias (as : AccountState) (aliasName : Bytes) (ts : ℤ) : Except Err Account := do
  let addr ← ofOption .notFound (as.aliases.lookup aliasName)
  as.getAccount addr ts

/-- `PutAccountAlias`. -/
def putAccountAlias (as : AccountState) (aliasName : Bytes) (addr : Address) : AccountState :=
  { as with aliases := as.aliases.insert aliasName addr }

/-- `DelAccountAlias`. -/
def delAccountAlias (as : AccountState) (aliasName : Bytes) (addr : Address) :
    Except Err AccountState := do
  let owner ← ofOption .notFound (as.aliases.lookup aliasName)
  failIf (owner ≠ addr) .unauthorized
  return { as with aliases := as.aliases.erase aliasName }

end AccountState

end GoMedibloc
