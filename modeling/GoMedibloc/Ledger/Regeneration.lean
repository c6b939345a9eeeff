import GoMedibloc.Framework.CappedGrowth
import GoMedibloc.Ledger.Account

/-!
# Regeneration of points

Points grow back to the stake within seven days.  They are computed when an account is read, from
the points and the time stored with it, by a division that rounds down; a reading that is
put back stores the rounded points and starts a new span.

`currentPoints_eq` identifies the computation of the source, with its two caps and the early
return after seven days, with the growth of `CappedGrowth`.  How much an account can lose
by being touched often then follows from the general bounds: `touching_costs_little`.
-/

namespace GoMedibloc

open Except

namespace Account

variable {acc acc' : Account} {ts : ℤ}

/-- The points of an account grow to its stake within seven days. -/
def regeneration (acc : Account) : CappedGrowth := ⟨acc.staking.val, 604800, by decide⟩

/-- An account whose points can be computed: they are within the stake, the stake times
the seconds of seven days fits into 128 bits, and they are not dated before the genesis block. -/
structure Regular (acc : Account) : Prop where
  points_le : acc.points.val ≤ acc.staking.val
  staking_bound : acc.staking.val * 604799 < 2 ^ 128
  dated : 0 ≤ acc.lastPointsTs

/-- `currentPoints` is capped growth over the elapsed seconds. -/
lemma currentPoints_eq (h : acc.Regular) (hts : acc.lastPointsTs ≤ ts) (h33 : ts < 2 ^ 33) :
    ∃ p, acc.currentPoints ts = .ok p ∧
      p.val = acc.regeneration.after acc.points.val (ts - acc.lastPointsTs).toNat := by
  obtain ⟨hpoints, hstaking, hdated⟩ := h
  have helapsed : wrap64 (ts - acc.lastPointsTs) = ts - acc.lastPointsTs :=
    wrap64_of_range (by omega) (by omega)
  obtain ⟨used, hsub, hused⟩ := Uint128.exists_sub (x := acc.staking) (y := acc.points) hpoints
  unfold currentPoints
  rw [helapsed, bind_of_ok hsub]
  dsimp only
  split_ifs with hweek hzero
  · -- after seven days the growth has reached its cap too
    rw [sevenDaysPassed_iff (by omega) (by omega), sevenDays] at hweek
    refine ⟨_, rfl, (acc.regeneration.after_of_period_le ?_).symm⟩
    change 604800 ≤ _
    omega
  · rw [bind_of_ok (failIf_of_not (by omega)), hzero]
    exact ⟨_, rfl, (acc.regeneration.after_zero hpoints).symm⟩
  · rw [bind_of_ok (failIf_of_not (by omega))]
    rw [sevenDaysPassed_iff (by omega) (by omega), sevenDays] at hweek
    obtain ⟨seconds, hseconds⟩ : ∃ n : ℕ, (ts - acc.lastPointsTs).toNat = n := ⟨_, rfl⟩
    rw [hseconds]
    have hval : (Uint128.ofUint seconds.toUInt64).val = seconds := by
      have hmod : (Uint128.ofUint seconds.toUInt64).val = seconds % 2 ^ 64 := UInt64.toNat_ofNat'
      omega
    have hfits : acc.staking.val * (Uint128.ofUint seconds.toUInt64).val < 2 ^ 128 := by
      rw [hval]
      exact (Nat.mul_le_mul_left _ (by omega)).trans_lt hstaking
    obtain ⟨v1, hmul, hv1⟩ := Uint128.exists_mul hfits
    obtain ⟨regen, hdiv, hregen⟩ := Uint128.exists_div v1 (.ofUint 604800)
    have hregen : regen.val = acc.staking.val * seconds / 604800 := by rw [hregen, hv1, hval]; rfl
    have hafter : acc.regeneration.after acc.points.val seconds =
        min acc.staking.val (acc.points.val + regen.val) := by rw [hregen]; rfl
    rw [bind_of_ok hmul, bind_of_ok hdiv, hafter]
    split_ifs with hfull
    · exact ⟨_, rfl, by omega⟩
    · have hlt := acc.staking.lt
      obtain ⟨p, hadd, hp⟩ := Uint128.exists_add (x := acc.points) (y := regen) (by omega)
      exact ⟨p, hadd, by omega⟩

/-- `updatePoints` stores the grown points and their date, and keeps the account regular. -/
lemma updatePoints_eq (h : acc.Regular) (hts : acc.lastPointsTs ≤ ts) (h33 : ts < 2 ^ 33) :
    ∃ acc', acc.updatePoints ts = .ok acc' ∧ acc'.Regular ∧
      acc'.points.val = acc.regeneration.after acc.points.val (ts - acc.lastPointsTs).toNat ∧
      acc'.lastPointsTs = ts ∧ acc'.staking = acc.staking := by
  by_cases heq : acc.lastPointsTs = ts
  · refine ⟨acc, by rw [updatePoints, if_pos heq]; rfl, h, ?_, heq, rfl⟩
    rw [heq, sub_self]
    exact (acc.regeneration.after_zero h.points_le).symm
  · obtain ⟨p, hp, hval⟩ := currentPoints_eq h hts h33
    refine ⟨{ acc with points := p, lastPointsTs := ts }, ?_, ⟨?_, h.staking_bound, ?_⟩, hval,
      rfl, rfl⟩
    · rw [updatePoints, if_neg heq, bind_of_ok hp]
      rfl
    · exact hval.trans_le acc.regeneration.after_le_cap
    · exact h.dated.trans hts

/-! ## Many updates -/

/-- The seconds between timestamps that follow each other. -/
def spans : ℤ → List ℤ → List ℕ
  | _, [] => []
  | last, ts :: tss => (ts - last).toNat :: spans ts tss

lemma length_spans (last : ℤ) (tss : List ℤ) : (spans last tss).length = tss.length := by
  induction tss generalizing last with
  | nil => rfl
  | cons ts tss ih => rw [spans, List.length_cons, List.length_cons, ih]

lemma sum_spans {last : ℤ} {tss : List ℤ} (h : (last :: tss).Pairwise (· ≤ ·)) :
    ((spans last tss).sum : ℤ) = (last :: tss).getLast (by simp) - last := by
  induction tss generalizing last with
  | nil => simp [spans]
  | cons ts tss ih =>
      obtain ⟨hle, hrest⟩ := List.pairwise_cons.1 h
      have hts : last ≤ ts := hle ts (by simp)
      rw [spans, List.sum_cons, Nat.cast_add, ih hrest, List.getLast_cons_cons]
      omega

/-- Updates one after another grow the points span by span. -/
lemma updateAll_eq {tss : List ℤ} (h : acc.Regular)
    (hsorted : (acc.lastPointsTs :: tss).Pairwise (· ≤ ·)) (h33 : ∀ ts ∈ tss, ts < 2 ^ 33) :
    ∃ acc', tss.foldlM updatePoints acc = .ok acc' ∧
      acc'.points.val = acc.regeneration.afterAll acc.points.val (spans acc.lastPointsTs tss) := by
  induction tss generalizing acc with
  | nil => exact ⟨acc, rfl, rfl⟩
  | cons ts tss ih =>
      obtain ⟨hle, hrest⟩ := List.pairwise_cons.1 hsorted
      obtain ⟨mid, hmid, hregular, hpoints, hlast, hstaking⟩ :=
        updatePoints_eq h (hle ts (by simp)) (h33 ts (by simp))
      obtain ⟨acc', hacc', hval⟩ := ih hregular (by rwa [hlast])
        fun s hs => h33 s (List.mem_cons_of_mem _ hs)
      have hsame : mid.regeneration = acc.regeneration := by unfold regeneration; rw [hstaking]
      refine ⟨acc', ?_, ?_⟩
      · rw [List.foldlM_cons, bind_of_ok hmid, hacc']
      · rw [hval, hsame, hlast, hpoints]
        rfl

/-- **Touching an account costs little.**  Updating the points at `k` timestamps on the way gives
at most as many points as one update, and at most `k` fewer.  A later update gives no fewer
points, none gives more than the stake, and after seven days one update gives all of it. -/
theorem touching_costs_little (acc : Account) (hregular : acc.Regular) (tss : List ℤ) (t : ℤ)
    (hsorted : (acc.lastPointsTs :: (tss ++ [t])).Pairwise (· ≤ ·)) (ht : t < 2 ^ 33) :
    (∃ once often, acc.updatePoints t = .ok once ∧
      (tss ++ [t]).foldlM updatePoints acc = .ok often ∧
      once.points.val - tss.length ≤ often.points.val ∧
      often.points.val ≤ once.points.val) ∧
    (∀ s s', acc.lastPointsTs ≤ s → s ≤ s' → s' < 2 ^ 33 →
      ∃ earlier later, acc.updatePoints s = .ok earlier ∧ acc.updatePoints s' = .ok later ∧
        earlier.points.val ≤ later.points.val ∧ later.points.val ≤ acc.staking.val ∧
        (sevenDays ≤ s' - acc.lastPointsTs → later.points = acc.staking)) := by
  have hle : ∀ s ∈ tss ++ [t], s ≤ t := by
    intro s hs
    rcases List.mem_append.1 hs with hs | hs
    · exact (List.pairwise_append.1 (List.pairwise_cons.1 hsorted).2).2.2 s hs t (by simp)
    · exact (List.mem_singleton.1 hs).le
  constructor
  · obtain ⟨often, hoften, hval⟩ := updateAll_eq hregular hsorted fun s hs => (hle s hs).trans_lt ht
    obtain ⟨once, honce, -, hpoints, -⟩ := updatePoints_eq hregular
      ((List.pairwise_cons.1 hsorted).1 t (by simp)) ht
    refine ⟨once, often, honce, hoften, ?_⟩
    -- the spans add up to the time of the single update
    have hlen := length_spans acc.lastPointsTs (tss ++ [t])
    have hsum := sum_spans hsorted
    obtain ⟨d, ds, hspans⟩ : ∃ d ds, spans acc.lastPointsTs (tss ++ [t]) = d :: ds := by
      cases h : spans acc.lastPointsTs (tss ++ [t]) with
      | nil => simp [h] at hlen
      | cons d ds => exact ⟨d, ds, rfl⟩
    simp only [hspans, List.length_cons, List.length_append, List.length_nil] at hlen
    simp only [hspans, List.sum_cons, ← List.cons_append, List.getLast_append_singleton] at hsum
    have hspan : (t - acc.lastPointsTs).toNat = d + ds.sum := by omega
    rw [hval, hpoints, hspans, hspan]
    have hupper := acc.regeneration.afterAll_le (p := acc.points.val) (d := d) ds
    have hlower := acc.regeneration.le_afterAll (p := acc.points.val) (d := d) ds
    exact ⟨by omega, hupper⟩
  · intro s s' hs hs' h33
    obtain ⟨earlier, hearlier, -, hp, -⟩ := updatePoints_eq hregular hs (hs'.trans_lt h33)
    obtain ⟨later, hlater, -, hp', -⟩ := updatePoints_eq hregular (hs.trans hs') h33
    refine ⟨earlier, later, hearlier, hlater, ?_, ?_, fun hweek => ?_⟩
    · rw [hp, hp']
      exact acc.regeneration.after_mono (by omega)
    · exact hp'.trans_le acc.regeneration.after_le_cap
    · rw [sevenDays] at hweek
      refine Uint128.ext (hp'.trans (acc.regeneration.after_of_period_le ?_))
      change 604800 ≤ _
      omega

/-- A stake of a thousand, used up at the start and touched after one and two days. -/
theorem touched_twice_in_three_days :
    ∃ once often,
      ({ newAccount Address.none with staking := .ofUint 1000 } : Account).updatePoints 259200 =
        .ok once ∧
      [86400, 172800, 259200].foldlM updatePoints
        { newAccount Address.none with staking := .ofUint 1000 } = .ok often ∧
      once.points.val - 2 ≤ often.points.val ∧ often.points.val ≤ once.points.val :=
  (touching_costs_little { newAccount Address.none with staking := .ofUint 1000 }
    ⟨by decide, by decide, by decide⟩ [86400, 172800] 259200 (by decide) (by decide)).1

end Account

end GoMedibloc
