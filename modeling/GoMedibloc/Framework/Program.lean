import Mathlib

/-!
# Programs over a mutable state that may fail

A `Prog σ ε α` is a computation on a mutable state `σ` that ends in a value of `α` or in an
error of `ε`.  The state changes made before an error stay, as they do in a language whose
errors are ordinary return values.

`Returns x s Q` is the total-correctness judgement: started in `s`, the program ends
without an error and its result and final state satisfy `Q`.  `Fails x s e Q` is its
counterpart for a run that ends in the error `e`.  The rules below push both through the
monad operations, so that a specification of a composed program is assembled from the
specifications of its parts and never unfolds them.  `Keeps P x` says that every run of the
program, whatever its outcome, keeps `P` of the state.  `Guarantees R x s Q` is the
partial-correctness judgement for a run that may end either way: the state moves along `R` in
any case, and a result that is returned satisfies `Q`.  `Answers P x r` says that a program is a
lookup on the states of `P`: its outcome is `r`, and it stays in `P`.
-/

/-- A computation on a mutable state that may fail. -/
def Prog (σ ε α : Type) : Type := σ → Except ε α × σ

namespace Prog

variable {σ ε α β : Type}

/-- Return a value. -/
protected def pure (a : α) : Prog σ ε α := fun s => (.ok a, s)

/-- Run one program after another; an error ends the run. -/
protected def bind (x : Prog σ ε α) (f : α → Prog σ ε β) : Prog σ ε β := fun s =>
  match x s with
  | (.ok a, s') => f a s'
  | (.error e, s') => (.error e, s')

instance : Monad (Prog σ ε) where
  pure := Prog.pure
  bind := Prog.bind

/-- End the run with an error. -/
def fail (e : ε) : Prog σ ε α := fun s => (.error e, s)

/-- Read the state. -/
def read : Prog σ ε σ := fun s => (.ok s, s)

/-- Read a part of the state. -/
def asks (f : σ → α) : Prog σ ε α := fun s => (.ok (f s), s)

/-- Run a program and hand its outcome on, an error as a value. -/
def attempt {ε' : Type} (x : Prog σ ε α) : Prog σ ε' (Except ε α) := fun s => (.ok (x s).1, (x s).2)

/-- The outcome of a computation without a state. -/
def lift (x : Except ε α) : Prog σ ε α := fun s => (x, s)

/-- Change the state. -/
def update (f : σ → σ) : Prog σ ε Unit := fun s => (.ok (), f s)

@[simp] lemma pure_apply (a : α) (s : σ) : (pure a : Prog σ ε α) s = (.ok a, s) := rfl

@[simp] lemma fail_apply (e : ε) (s : σ) : (fail e : Prog σ ε α) s = (.error e, s) := rfl

@[simp] lemma read_apply (s : σ) : (read : Prog σ ε σ) s = (.ok s, s) := rfl

@[simp] lemma update_apply (f : σ → σ) (s : σ) :
    (update f : Prog σ ε Unit) s = (.ok (), f s) := rfl

lemma bind_apply (x : Prog σ ε α) (f : α → Prog σ ε β) (s : σ) :
    (x >>= f) s = match x s with
      | (.ok a, s') => f a s'
      | (.error e, s') => (.error e, s') := rfl

lemma bind_of_ok {x : Prog σ ε α} {f : α → Prog σ ε β} {s s' : σ} {a : α}
    (h : x s = (.ok a, s')) : (x >>= f) s = f a s' := by
  rw [bind_apply, h]

lemma bind_of_error {x : Prog σ ε α} {f : α → Prog σ ε β} {s s' : σ} {e : ε}
    (h : x s = (.error e, s')) : (x >>= f) s = (.error e, s') := by
  rw [bind_apply, h]

/-- A composed program that returns has parts that return. -/
lemma bind_eq_ok {x : Prog σ ε α} {f : α → Prog σ ε β} {s s' : σ} {b : β} :
    (x >>= f) s = (.ok b, s') ↔ ∃ a s₁, x s = (.ok a, s₁) ∧ f a s₁ = (.ok b, s') := by
  rw [bind_apply]
  rcases x s with ⟨_ | a, s₁⟩ <;> simp

lemma lift_eq_ok {x : Except ε α} {s s' : σ} {a : α} :
    lift x s = (.ok a, s') ↔ x = .ok a ∧ s' = s := by
  rw [lift, Prod.mk.injEq]
  exact and_congr_right fun _ => eq_comm

@[simp] lemma read_bind (f : σ → Prog σ ε β) (s : σ) : (read >>= f) s = f s s := rfl

@[simp] lemma update_bind (g : σ → σ) (f : Unit → Prog σ ε β) (s : σ) :
    (update g >>= f) s = f () (g s) := rfl

@[simp] lemma pure_bind' (a : α) (f : α → Prog σ ε β) (s : σ) :
    ((pure a : Prog σ ε α) >>= f) s = f a s := rfl

lemma bind_bind {γ : Type} (x : Prog σ ε α) (f : α → Prog σ ε β) (g : β → Prog σ ε γ) :
    (x >>= f) >>= g = x >>= fun a => f a >>= g := by
  funext s
  simp only [bind_apply]
  rcases x s with ⟨_ | _, s'⟩ <;> rfl

/-! ## Total correctness -/

/-- The program ends without an error and its outcome satisfies the postcondition. -/
def Returns (x : Prog σ ε α) (s : σ) (Q : α → σ → Prop) : Prop :=
  ∃ a s', x s = (.ok a, s') ∧ Q a s'

/-- The program ends in the given error and its final state satisfies the postcondition. -/
def Fails (x : Prog σ ε α) (s : σ) (e : ε) (Q : σ → Prop) : Prop :=
  ∃ s', x s = (.error e, s') ∧ Q s'

lemma returns_pure {a : α} {s : σ} {Q : α → σ → Prop} (h : Q a s) :
    Returns (pure a : Prog σ ε α) s Q :=
  ⟨a, s, rfl, h⟩

lemma Returns.mono {x : Prog σ ε α} {s : σ} {Q R : α → σ → Prop} (h : Returns x s Q)
    (hQR : ∀ a s', Q a s' → R a s') : Returns x s R := by
  obtain ⟨a, s', hx, hQ⟩ := h
  exact ⟨a, s', hx, hQR a s' hQ⟩

/-- The rule of composition. -/
lemma Returns.bind {x : Prog σ ε α} {f : α → Prog σ ε β} {s : σ} {Q : α → σ → Prop}
    {R : β → σ → Prop} (h : Returns x s Q) (hf : ∀ a s', Q a s' → Returns (f a) s' R) :
    Returns (x >>= f) s R := by
  obtain ⟨a, s', hx, hQ⟩ := h
  obtain ⟨b, s'', hfx, hR⟩ := hf a s' hQ
  exact ⟨b, s'', by rw [bind_of_ok hx, hfx], hR⟩

/-- A first part that is known to return is run. -/
lemma returns_bind_of_ok {x : Prog σ ε α} {f : α → Prog σ ε β} {s s' : σ} {a : α}
    {R : β → σ → Prop} (h : x s = (.ok a, s')) : Returns (x >>= f) s R ↔ Returns (f a) s' R := by
  simp only [Returns, bind_of_ok h]

lemma returns_read_bind {f : σ → Prog σ ε β} {s : σ} {R : β → σ → Prop} :
    Returns (read >>= f) s R ↔ Returns (f s) s R := by
  simp [Returns]

/-- A program fails when its first part fails. -/
lemma Fails.bind {x : Prog σ ε α} {f : α → Prog σ ε β} {s : σ} {e : ε} {Q : σ → Prop}
    (h : Fails x s e Q) : Fails (x >>= f) s e Q := by
  obtain ⟨s', hx, hQ⟩ := h
  exact ⟨s', bind_of_error hx, hQ⟩

/-- A program fails when its first part returns and the rest fails. -/
lemma Returns.bind_fails {x : Prog σ ε α} {f : α → Prog σ ε β} {s : σ} {e : ε}
    {Q : α → σ → Prop} {R : σ → Prop} (h : Returns x s Q)
    (hf : ∀ a s', Q a s' → Fails (f a) s' e R) : Fails (x >>= f) s e R := by
  obtain ⟨a, s', hx, hQ⟩ := h
  obtain ⟨s'', hfx, hR⟩ := hf a s' hQ
  exact ⟨s'', by rw [bind_of_ok hx, hfx], hR⟩

lemma fails_read_bind {f : σ → Prog σ ε β} {s : σ} {e : ε} {Q : σ → Prop} :
    Fails (read >>= f) s e Q ↔ Fails (f s) s e Q := by
  simp [Fails]

lemma Fails.mono {x : Prog σ ε α} {s : σ} {e : ε} {Q R : σ → Prop} (h : Fails x s e Q)
    (hQR : ∀ s', Q s' → R s') : Fails x s e R := by
  obtain ⟨s', hx, hQ⟩ := h
  exact ⟨s', hx, hQR s' hQ⟩

/-! ## Invariants of every run -/

/-- Every run of the program keeps the predicate, whether it returns or fails. -/
def Keeps (P : σ → Prop) (x : Prog σ ε α) : Prop :=
  ∀ s, P s → P (x s).2

lemma keeps_pure (P : σ → Prop) (a : α) : Keeps P (pure a : Prog σ ε α) := fun _ h => h

lemma keeps_fail (P : σ → Prop) (e : ε) : Keeps P (fail e : Prog σ ε α) := fun _ h => h

lemma keeps_lift (P : σ → Prop) (x : Except ε α) : Keeps P (lift x : Prog σ ε α) := fun _ h => h

lemma keeps_read (P : σ → Prop) : Keeps P (read : Prog σ ε σ) := fun _ h => h

lemma Keeps.bind {P : σ → Prop} {x : Prog σ ε α} {f : α → Prog σ ε β} (hx : Keeps P x)
    (hf : ∀ a, Keeps P (f a)) : Keeps P (x >>= f) := by
  intro s hs
  have h := hx s hs
  rw [bind_apply]
  rcases hxs : x s with ⟨_ | a, s'⟩
  · rw [hxs] at h; exact h
  · rw [hxs] at h; exact hf a s' h

/-- What is kept is kept under an assumption as well. -/
lemma Keeps.imp {P : σ → Prop} {x : Prog σ ε α} (hx : Keeps P x) (H : Prop) :
    Keeps (fun s => H → P s) x :=
  fun s hs h => hx s (hs h)

/-- A program that returns also ends in what it keeps. -/
lemma Returns.and_keeps {P : σ → Prop} {x : Prog σ ε α} {s : σ} {Q : α → σ → Prop}
    (h : Returns x s Q) (hx : Keeps P x) (hs : P s) : Returns x s fun a s' => Q a s' ∧ P s' := by
  obtain ⟨a, s', hxs, hQ⟩ := h
  have hP := hx s hs
  rw [hxs] at hP
  exact ⟨a, s', hxs, hQ, hP⟩

/-! ## Guarantees of every run -/

/-- Whatever the outcome, the state has moved along the relation; a returned result satisfies
the postcondition. -/
structure Guarantees (R : σ → σ → Prop) (x : Prog σ ε α) (s : σ) (Q : α → σ → Prop) : Prop where
  moved : R s (x s).2
  result : ∀ a s', x s = (.ok a, s') → Q a s'

variable {R : σ → σ → Prop}

lemma guarantees_of_ok {x : Prog σ ε α} {s s' : σ} {a : α} {Q : α → σ → Prop}
    (hx : x s = (.ok a, s')) (hR : R s s') (hQ : Q a s') : Guarantees R x s Q where
  moved := by rwa [hx]
  result := by
    intro b t hb
    rw [hx] at hb
    cases hb
    exact hQ

lemma guarantees_pure {a : α} {s : σ} {Q : α → σ → Prop} (hR : R s s) (hQ : Q a s) :
    Guarantees R (pure a : Prog σ ε α) s Q :=
  guarantees_of_ok rfl hR hQ

lemma guarantees_fail {e : ε} {s : σ} {Q : α → σ → Prop} (hR : R s s) :
    Guarantees R (fail e : Prog σ ε α) s Q where
  moved := hR
  result := fun _ _ h => by cases h

lemma guarantees_read_bind {f : σ → Prog σ ε β} {s : σ} {Q : β → σ → Prop} :
    Guarantees R (read >>= f) s Q ↔ Guarantees R (f s) s Q :=
  ⟨fun h => ⟨h.moved, h.result⟩, fun h => ⟨h.moved, h.result⟩⟩

lemma Guarantees.mono {x : Prog σ ε α} {s : σ} {Q Q' : α → σ → Prop} (h : Guarantees R x s Q)
    (hQ : ∀ a s', Q a s' → Q' a s') : Guarantees R x s Q' :=
  ⟨h.moved, fun a s' hx => hQ a s' (h.result a s' hx)⟩

/-- The rule of composition. -/
lemma Guarantees.bind {x : Prog σ ε α} {f : α → Prog σ ε β} {s : σ} {Q : α → σ → Prop}
    {Q' : β → σ → Prop} (htrans : ∀ s₁ s₂ s₃, R s₁ s₂ → R s₂ s₃ → R s₁ s₃)
    (hx : Guarantees R x s Q) (hf : ∀ a s', R s s' → Q a s' → Guarantees R (f a) s' Q') :
    Guarantees R (x >>= f) s Q' := by
  rcases hxs : x s with ⟨e | a, s'⟩
  · have hbind := bind_of_error (f := f) hxs
    have hmoved := hx.moved
    rw [hxs] at hmoved
    exact ⟨by rwa [hbind], fun b t h => by rw [hbind] at h; cases h⟩
  · have hbind := bind_of_ok (f := f) hxs
    have hmoved := hx.moved
    rw [hxs] at hmoved
    have hrest := hf a s' hmoved (hx.result a s' hxs)
    exact ⟨by rw [hbind]; exact htrans _ _ _ hmoved hrest.moved,
      fun b t h => hrest.result b t (by rwa [hbind] at h)⟩

/-! ## Lookups -/

/-- From every state of `P` the outcome is `r`, and the final state is in `P` again. -/
def Answers (P : σ → Prop) (x : Prog σ ε α) (r : Except ε α) : Prop :=
  ∀ s, P s → (x s).1 = r ∧ P (x s).2

variable {P : σ → Prop}

lemma answers_pure (a : α) : Answers P (pure a : Prog σ ε α) (.ok a) := fun _ h => ⟨rfl, h⟩

lemma answers_fail (e : ε) : Answers P (fail e : Prog σ ε α) (.error e) := fun _ h => ⟨rfl, h⟩

lemma answers_asks {f : σ → α} {a : α} (h : ∀ s, P s → f s = a) :
    Answers P (asks f : Prog σ ε α) (.ok a) :=
  fun s hs => ⟨congrArg Except.ok (h s hs), hs⟩

lemma answers_update {f : σ → σ} (h : ∀ s, P s → P (f s)) :
    Answers P (update f : Prog σ ε Unit) (.ok ()) :=
  fun s hs => ⟨rfl, h s hs⟩

lemma Answers.attempt {ε' : Type} {x : Prog σ ε α} {r : Except ε α} (h : Answers P x r) :
    Answers P (x.attempt : Prog σ ε' (Except ε α)) (.ok r) :=
  fun s hs => ⟨congrArg Except.ok (h s hs).1, (h s hs).2⟩

/-- The rule of composition. -/
lemma Answers.bind {x : Prog σ ε α} {k : α → Prog σ ε β} {r : Except ε α} {g : α → Except ε β}
    (hx : Answers P x r) (hk : ∀ a, r = .ok a → Answers P (k a) (g a)) :
    Answers P (x >>= k) (r >>= g) := by
  intro s hs
  obtain ⟨hr, hP⟩ := hx s hs
  rcases hxs : x s with ⟨e | a, s'⟩
  · rw [hxs] at hr hP
    rw [bind_of_error hxs, ← hr]
    exact ⟨rfl, hP⟩
  · rw [hxs] at hr hP
    rw [bind_of_ok hxs, ← hr]
    exact hk a hr.symm s' hP

/-- A lookup whose answer is known goes on with it. -/
lemma Answers.bind_ok {x : Prog σ ε α} {k : α → Prog σ ε β} {a : α} {r : Except ε β}
    (hx : Answers P x (.ok a)) (hk : Answers P (k a) r) : Answers P (x >>= k) r := by
  intro s hs
  obtain ⟨hr, hP⟩ := hx s hs
  rw [bind_of_ok (Prod.ext hr rfl)]
  exact hk _ hP

end Prog
