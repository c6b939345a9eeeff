import Mathlib

/-!
# Growth up to a cap, in whole units

A quantity that grows from any level to its cap within one period, evenly, and is only ever
stored as a whole number.  Each time it is brought up to date the fraction of a unit that has
grown since is lost, so bringing it up to date often costs up to one unit each time.  Against
that, waiting never costs anything: one step over a span gives at least as much as any steps
that add up to it.
-/

/-- The growth of a quantity to `cap` within `period`. -/
structure CappedGrowth where
  cap : ℕ
  period : ℕ
  period_pos : 0 < period

namespace CappedGrowth

variable (g : CappedGrowth) {p d e : ℕ}

/-- The level after the time `d`, from the level `p`. -/
def after (p d : ℕ) : ℕ := min g.cap (p + g.cap * d / g.period)

/-- The level after times that follow each other, brought up to date at the end of each. -/
def afterAll (p : ℕ) (ds : List ℕ) : ℕ := ds.foldl g.after p

@[simp] lemma afterAll_nil : g.afterAll p [] = p := rfl

@[simp] lemma afterAll_cons (ds : List ℕ) :
    g.afterAll p (d :: ds) = g.afterAll (g.after p d) ds := rfl

lemma after_le_cap : g.after p d ≤ g.cap := min_le_left _ _

lemma after_zero (hp : p ≤ g.cap) : g.after p 0 = p := by simp [after, hp]

lemma after_mono (h : d ≤ e) : g.after p d ≤ g.after p e := by
  have hdiv : g.cap * d / g.period ≤ g.cap * e / g.period :=
    Nat.div_le_div_right (Nat.mul_le_mul_left _ h)
  unfold after
  omega

/-- The cap is reached after one period. -/
lemma after_of_period_le (h : g.period ≤ d) : g.after p d = g.cap := by
  have hdiv : g.cap ≤ g.cap * d / g.period :=
    (Nat.le_div_iff_mul_le g.period_pos).2 (Nat.mul_le_mul_left _ h)
  unfold after
  omega

/-- Two steps give at most what one step gives. -/
lemma after_after_le : g.after (g.after p d) e ≤ g.after p (d + e) := by
  have hdiv : g.cap * d / g.period + g.cap * e / g.period ≤ g.cap * (d + e) / g.period := by
    rw [Nat.mul_add]
    exact Nat.div_add_div_le_add_div
  unfold after
  omega

/-- Two steps lose at most one unit. -/
lemma after_le_after_after : g.after p (d + e) ≤ g.after (g.after p d) e + 1 := by
  have hdiv : g.cap * (d + e) / g.period ≤
      g.cap * d / g.period + g.cap * e / g.period + 1 := by
    rw [Nat.mul_add, Nat.add_div g.period_pos]
    split_ifs <;> omega
  unfold after
  generalize g.cap * (d + e) / g.period = whole at *
  generalize g.cap * d / g.period = first at *
  generalize g.cap * e / g.period = second at *
  omega

/-- **Waiting costs nothing.**  Any steps give at most what one step over the whole span gives. -/
lemma afterAll_le (ds : List ℕ) : g.afterAll p (d :: ds) ≤ g.after p (d + ds.sum) := by
  induction ds generalizing p d with
  | nil => simp
  | cons e ds ih =>
      rw [afterAll_cons, List.sum_cons]
      exact ih.trans g.after_after_le

/-- **Each step but one costs at most a unit.** -/
lemma le_afterAll (ds : List ℕ) :
    g.after p (d + ds.sum) ≤ g.afterAll p (d :: ds) + ds.length := by
  induction ds generalizing p d with
  | nil => simp
  | cons e ds ih =>
      rw [afterAll_cons, List.sum_cons, List.length_cons]
      have hsplit : g.after p (d + (e + ds.sum)) ≤ g.after (g.after p d) (e + ds.sum) + 1 :=
        g.after_le_after_after
      have hrest := ih (p := g.after p d) (d := e)
      omega

end CappedGrowth
