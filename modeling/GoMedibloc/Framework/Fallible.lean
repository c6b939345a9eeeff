import Mathlib

/-!
# Computations that may fail

Inversion lemmas for `Except`: a composed computation that returns has parts that return.
A specification of a `do` block is taken apart with them, one line at a time, without unfolding
what the lines call.
-/

namespace Except

variable {ε α β : Type}

lemma bind_eq_ok_iff {x : Except ε α} {f : α → Except ε β} {b : β} :
    (x >>= f) = .ok b ↔ ∃ a, x = .ok a ∧ f a = .ok b := by
  constructor
  · intro h
    cases x with
    | error e => cases h
    | ok a => exact ⟨a, rfl, h⟩
  · rintro ⟨a, rfl, h⟩
    exact h

lemma bind_eq_error_iff {x : Except ε α} {f : α → Except ε β} {e : ε} :
    (x >>= f) = .error e ↔ x = .error e ∨ ∃ a, x = .ok a ∧ f a = .error e := by
  constructor
  · intro h
    cases x with
    | error e' => exact .inl (congrArg Except.error (Except.error.inj h))
    | ok a => exact .inr ⟨a, rfl, h⟩
  · rintro (rfl | ⟨a, rfl, h⟩)
    · rfl
    · exact h

/-- A composed computation does not fail with an error that no part fails with. -/
lemma bind_ne_error {x : Except ε α} {f : α → Except ε β} {e : ε} (hx : x ≠ .error e)
    (hf : ∀ a, f a ≠ .error e) : (x >>= f) ≠ .error e := by
  cases x with
  | error e' => exact fun h => hx (congrArg Except.error (Except.error.inj h))
  | ok a => exact hf a

lemma map_eq_ok_iff {x : Except ε α} {f : α → β} {b : β} :
    x.map f = .ok b ↔ ∃ a, x = .ok a ∧ f a = b := by
  cases x <;> simp [Except.map]

lemma isOk_iff {x : Except ε α} : x.isOk = true ↔ ∃ a, x = .ok a := by
  cases x <;> simp [Except.isOk, Except.toBool]

/-- A computation that returns goes on with its value. -/
lemma bind_of_ok {x : Except ε α} {a : α} (h : x = .ok a) (f : α → Except ε β) :
    (x >>= f) = f a := by
  rw [h]
  rfl

/-- A computation that fails ends the whole. -/
lemma bind_of_error {x : Except ε α} {e : ε} (h : x = .error e) (f : α → Except ε β) :
    (x >>= f) = .error e := by
  rw [h]
  rfl

/-- Another name for the error does not change what a computation returns. -/
lemma mapError_eq_ok {ε' : Type} {f : ε → ε'} {x : Except ε α} {a : α} :
    x.mapError f = .ok a ↔ x = .ok a := by
  cases x <;> simp [Except.mapError]

/-- Fail with `e` if the condition holds. -/
def failIf (c : Prop) [Decidable c] (e : ε) : Except ε Unit := if c then .error e else .ok ()

@[simp] lemma failIf_eq_ok {c : Prop} [Decidable c] {e : ε} {u : Unit} :
    failIf c e = .ok u ↔ ¬ c := by
  unfold failIf
  split_ifs with h <;> simp [h]

lemma failIf_of_not {c : Prop} [Decidable c] {e : ε} (h : ¬ c) : failIf c e = .ok () := if_neg h

lemma failIf_of {c : Prop} [Decidable c] {e : ε} (h : c) : failIf c e = .error e := if_pos h

lemma failIf_ne_error {c : Prop} [Decidable c] {e e' : ε} (h : e ≠ e') :
    failIf c e ≠ .error e' := by
  unfold failIf
  split_ifs
  · exact fun heq => h (Except.error.inj heq)
  · exact nofun

/-- The value, or the error `e` if there is none. -/
def ofOption (e : ε) : Option α → Except ε α
  | some a => .ok a
  | none => .error e

@[simp] lemma ofOption_eq_ok {e : ε} {o : Option α} {a : α} :
    ofOption e o = .ok a ↔ o = some a := by
  cases o <;> simp [ofOption]

/-- Replace one error by another. -/
def rename [DecidableEq ε] (e e' : ε) : Except ε α → Except ε α
  | .error x => .error (if x = e then e' else x)
  | .ok a => .ok a

@[simp] lemma rename_eq_ok [DecidableEq ε] {e e' : ε} {x : Except ε α} {a : α} :
    rename e e' x = .ok a ↔ x = .ok a := by
  cases x <;> simp [rename]

end Except
