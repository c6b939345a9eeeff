import GoMedibloc.Chain.Dpos
import GoMedibloc.Ledger.Basic

/-!
# Heights and timestamps above the latest irreversible block

Before a received block is looked at any further, its height and its timestamp are compared
with those of the latest irreversible block (LIB).  A chain has at most one block in each slot,
so a block `n` blocks above the LIB is at least `n` slots later.  The source states this twice:
`MaximumHeightWithTimestamp` bounds the height by the timestamp, by a division that rounds down,
and `MinimumTimestampWithHeight` bounds the timestamp by the height, by a multiplication.  Heights
are unsigned and timestamps signed numbers of 64 bits, and both bounds convert between the two.

The second bound subtracts the heights the wrong way round.  Its value lies below the timestamp
of the LIB (`minimumTimestampWithHeight_eq`), so the second check never refuses a block.  The
first one alone decides (`verifyHeightAndTimestamp_iff`), and `bounds_agree_iff` says that the two
agree on the blocks that are accepted and on no others.
-/

namespace GoMedibloc

/-- The errors of `VerifyHeightAndTimestamp`. -/
inductive LibErr
  | cannotRevertLIB
  | invalidHeightByLIB
  | invalidTimestampByLIB
deriving DecidableEq, Repr

/-- The value of a `uint64` computation. -/
def wrapUint64 (n : ℤ) : ℕ := (n % 2 ^ 64).toNat

lemma wrapUint64_of_range {n : ℤ} (h₁ : 0 ≤ n) (h₂ : n < 2 ^ 64) : (wrapUint64 n : ℤ) = n := by
  rw [wrapUint64, Int.emod_eq_of_lt h₁ h₂, Int.toNat_of_nonneg h₁]

/-- `MaximumHeightWithTimestamp`. -/
def maximumHeightWithTimestamp (libHeight : ℕ) (libTs ts : ℤ) : ℕ :=
  wrapUint64 ((wrapUint64 (ts - libTs) / blockInterval + libHeight : ℕ) : ℤ)

/-- `MinimumTimestampWithHeight`; the difference of the heights is taken in `uint64` and read as
an `int64`. -/
def minimumTimestampWithHeight (libTs : ℤ) (libHeight height : ℕ) : ℤ :=
  wrap64 (wrap64 (wrap64 (wrapUint64 ((libHeight : ℤ) - height)) * blockInterval) + libTs)

variable {B : Type} [HashableBlock B] {lib bd : B}

/-- `VerifyHeightAndTimestamp`. -/
def verifyHeightAndTimestamp (lib bd : B) : Except LibErr Unit :=
  if height bd ≤ height lib ∨ timestamp bd ≤ timestamp lib then .error .cannotRevertLIB
  else if maximumHeightWithTimestamp (height lib) (timestamp lib) (timestamp bd) < height bd then
    .error .invalidHeightByLIB
  else if timestamp bd < minimumTimestampWithHeight (timestamp lib) (height lib) (height bd) then
    .error .invalidTimestampByLIB
  else .ok ()

/-! ## The values of the bounds -/

/-- A block above the LIB, with all numbers below `2 ^ 60`. -/
structure AboveLib (lib bd : B) : Prop where
  height_lt : height lib < height bd
  timestamp_lt : timestamp lib < timestamp bd
  timestamp_nonneg : 0 ≤ timestamp lib
  height_bound : height bd < 2 ^ 60
  timestamp_bound : timestamp bd < 2 ^ 60

/-- The first bound is the height of the LIB plus the full slots since then. -/
lemma maximumHeightWithTimestamp_eq (h : AboveLib lib bd) :
    (maximumHeightWithTimestamp (height lib) (timestamp lib) (timestamp bd) : ℤ) =
      (timestamp bd - timestamp lib) / blockInterval + height lib := by
  obtain ⟨hh, ht, h0, hhb, htb⟩ := h
  have hdiff := wrapUint64_of_range (n := timestamp bd - timestamp lib) (by omega) (by omega)
  unfold maximumHeightWithTimestamp blockInterval
  rw [wrapUint64_of_range (by omega) (by omega)]
  omega

/-- A difference of heights that wraps around in `uint64` is read as the negative number that
it is. -/
lemma wrap64_wrapUint64 {n : ℤ} (h₁ : -2 ^ 63 ≤ n) (h₂ : n < 2 ^ 63) :
    wrap64 (wrapUint64 n) = n := by
  have hcast : (wrapUint64 n : ℤ) = n % 2 ^ 64 :=
    Int.toNat_of_nonneg (Int.emod_nonneg _ (by norm_num))
  rw [hcast, wrap64]
  exact (Int.emod_bmod n (2 ^ 64)).trans (wrap64_of_range h₁ h₂)

/-- The second bound counts the slots back from the LIB instead of forward. -/
lemma minimumTimestampWithHeight_eq (h : AboveLib lib bd) :
    minimumTimestampWithHeight (timestamp lib) (height lib) (height bd) =
      timestamp lib - blockInterval * ((height bd : ℤ) - height lib) := by
  obtain ⟨hh, ht, h0, hhb, htb⟩ := h
  have hdiff := wrap64_wrapUint64 (n := height lib - height bd) (by omega) (by omega)
  have hslots := wrap64_of_range (n := (height lib - height bd) * 3) (by omega) (by omega)
  unfold minimumTimestampWithHeight blockInterval
  rw [hdiff, Nat.cast_ofNat, hslots, wrap64_of_range (by omega) (by omega)]
  omega

/-! ## What the checks decide -/

/-- The first check refuses exactly the blocks with more heights than slots above the LIB. -/
lemma le_maximumHeightWithTimestamp_iff (h : AboveLib lib bd) :
    height bd ≤ maximumHeightWithTimestamp (height lib) (timestamp lib) (timestamp bd) ↔
      blockInterval * ((height bd : ℤ) - height lib) ≤ timestamp bd - timestamp lib := by
  have heq := maximumHeightWithTimestamp_eq h
  unfold blockInterval at *
  omega

/-- The second check refuses nothing. -/
lemma minimumTimestampWithHeight_le (h : AboveLib lib bd) :
    minimumTimestampWithHeight (timestamp lib) (height lib) (height bd) ≤ timestamp bd := by
  rw [minimumTimestampWithHeight_eq h]
  obtain ⟨hh, ht, h0, hhb, htb⟩ := h
  unfold blockInterval
  omega

/-- A block above the LIB is accepted exactly if it is as many slots later as it is higher. -/
lemma verifyHeightAndTimestamp_iff (h : AboveLib lib bd) :
    verifyHeightAndTimestamp lib bd = .ok () ↔
      blockInterval * ((height bd : ℤ) - height lib) ≤ timestamp bd - timestamp lib := by
  rw [← le_maximumHeightWithTimestamp_iff h, verifyHeightAndTimestamp,
    if_neg (by have := h.height_lt; have := h.timestamp_lt; omega)]
  rw [if_neg (not_lt.2 (minimumTimestampWithHeight_le h))]
  split_ifs with hmax
  · simp [hmax]
  · simpa using hmax

/-- **The two bounds agree on the accepted blocks only.**  Each bound decides like the other, and
each of the two checks alone like the whole, exactly for the blocks that are as many slots later
than the LIB as they are higher. -/
theorem bounds_agree_iff (habove : AboveLib lib bd) :
    ((height bd ≤ maximumHeightWithTimestamp (height lib) (timestamp lib) (timestamp bd) ↔
        minimumTimestampWithHeight (timestamp lib) (height lib) (height bd) ≤ timestamp bd) ∧
      (verifyHeightAndTimestamp lib bd = .ok () ↔
        blockInterval * ((height bd : ℤ) - height lib) ≤ timestamp bd - timestamp lib) ∧
      (height bd ≤ maximumHeightWithTimestamp (height lib) (timestamp lib) (timestamp bd) ↔
        verifyHeightAndTimestamp lib bd = .ok ()) ∧
      (minimumTimestampWithHeight (timestamp lib) (height lib) (height bd) ≤ timestamp bd ↔
        verifyHeightAndTimestamp lib bd = .ok ())) ↔
      blockInterval * ((height bd : ℤ) - height lib) ≤ timestamp bd - timestamp lib := by
  have hmin := minimumTimestampWithHeight_le habove
  have hmax := le_maximumHeightWithTimestamp_iff habove
  have hverify := verifyHeightAndTimestamp_iff habove
  constructor
  · rintro ⟨hbounds, -⟩
    exact hmax.1 (hbounds.2 hmin)
  · intro hslots
    exact ⟨iff_of_true (hmax.2 hslots) hmin, hverify, hmax.trans hverify.symm,
      iff_of_true hmin (hverify.2 hslots)⟩

/-- A block one slot and one height above the LIB. -/
theorem BareBlock.bounds_agree_at_next_slot :
    (2 : ℕ) ≤ maximumHeightWithTimestamp 1 0 3 ∧ minimumTimestampWithHeight 0 1 2 ≤ 3 := by
  have h : AboveLib (⟨[0], [], 1, 0⟩ : BareBlock) (⟨[1], [0], 2, 3⟩ : BareBlock) :=
    ⟨by decide, by decide, by decide, by decide, by decide⟩
  have hagree := (bounds_agree_iff h).2 (by decide)
  exact ⟨hagree.1.2 (by decide), by decide⟩

/-- A block four heights but only one slot above the LIB: the first check refuses it and the
second does not. -/
theorem BareBlock.minimum_timestamp_is_too_low :
    ¬ (5 : ℕ) ≤ maximumHeightWithTimestamp 1 0 3 ∧ minimumTimestampWithHeight 0 1 5 ≤ 3 ∧
      verifyHeightAndTimestamp (⟨[0], [], 1, 0⟩ : BareBlock) (⟨[1], [0], 5, 3⟩ : BareBlock) =
        .error .invalidHeightByLIB := by
  decide

end GoMedibloc
