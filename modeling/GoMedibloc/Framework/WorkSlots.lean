import Mathlib

/-!
# Work in slots

Jobs arrive one by one, and a limited number of them run at the same time.  A job that comes when all
slots are taken waits in a queue.  When a job ends, its slot is handed on to a waiting job, or becomes
free if none is waiting.

Jobs have ranks; those of one rank wait in line, and the job at the front of the first line that is
not empty is taken next (`RankedQueue`).  `Slots` is what the dispatcher keeps, with its counters as
machine integers; a `Workplace` adds what has happened: the jobs that were received, started and
ended.

A dispatcher whose limit is not negative loses, repeats and reorders nothing (`serves_iff`).  Jobs
wait only while all slots are taken, so a job that is started at once overtakes nobody, and at each
rank the jobs started and those waiting are together the jobs received, in the order they came.
-/

/-- A queue with a line of jobs for every rank, the least rank being served first. -/
structure RankedQueue (Q μ κ : Type*) [LinearOrder κ] where
  empty : Q
  put : Q → μ → Q
  pop : Q → Option (μ × Q)
  rank : μ → κ
  line : Q → κ → List μ
  line_empty : ∀ r, line empty r = []
  line_put : ∀ q m r, line (put q m) r = if rank m = r then line q r ++ [m] else line q r
  pop_none : ∀ q, pop q = none → ∀ r, line q r = []
  line_pop : ∀ q m q', pop q = some (m, q') →
    ∀ r, line q r = if rank m = r then m :: line q' r else line q' r
  pop_first : ∀ q m q', pop q = some (m, q') → ∀ r < rank m, line q' r = []

/-- What a dispatcher keeps: the waiting jobs, the number of jobs running and the limit to it. -/
structure Slots (Q : Type*) where
  queue : Q
  busy : Int32
  limit : Int32

variable {Q μ κ : Type*} [LinearOrder κ] (w : RankedQueue Q μ κ)

namespace Slots

/-- A job arrives: it waits if all slots are taken, and is started otherwise. -/
def arrive (s : Slots Q) (m : μ) : Option μ × Slots Q :=
  if s.limit ≤ s.busy then (none, { s with queue := w.put s.queue m })
  else (some m, { s with busy := s.busy + 1 })

/-- A job has ended: the next one waiting is started in its slot, which is freed if there is none. -/
def finish (s : Slots Q) : Option μ × Slots Q :=
  match w.pop s.queue with
  | none => (none, { s with busy := s.busy - 1 })
  | some (m, queue) => (some m, { s with queue })

end Slots

/-- A dispatcher with its history: the jobs received, those started, and of these the ones that run
and the ones that have ended. -/
structure Workplace (Q μ : Type*) where
  slots : Slots Q
  received : List μ
  started : List μ
  running : List μ
  ended : List μ

/-- What happens next: a job arrives, or one of the running jobs ends. -/
inductive Workplace.Event (μ : Type*) where
  | arrive (m : μ)
  | finish (i : ℕ)

namespace Workplace

/-- A dispatcher before anything has happened. -/
def opened (slots : Slots Q) : Workplace Q μ := ⟨slots, [], [], [], []⟩

/-- One event; a job that does not run cannot end. -/
def step (s : Workplace Q μ) : Event μ → Option (Workplace Q μ)
  | .arrive m =>
    let next := s.slots.arrive w m
    some { s with
      slots := next.2
      received := s.received ++ [m]
      started := s.started ++ next.1.toList
      running := s.running ++ next.1.toList }
  | .finish i => s.running[i]?.map fun m =>
    let next := s.slots.finish w
    { s with
      slots := next.2
      started := s.started ++ next.1.toList
      running := s.running.eraseIdx i ++ next.1.toList
      ended := s.ended ++ [m] }

/-- Events in turn. -/
def run : Workplace Q μ → List (Event μ) → Option (Workplace Q μ)
  | s, [] => some s
  | s, e :: events => (s.step w e).bind fun s' => run s' events

/-! ## What is kept -/

variable {w} {s s' : Workplace Q μ} {m : μ} {e : Event μ}

/-- The counter is the number of running jobs and within its limit, jobs wait only if all slots are
taken, and at each rank the received jobs were started in order up to those waiting. -/
structure Sound (w : RankedQueue Q μ κ) (s : Workplace Q μ) : Prop where
  running : s.started.Perm (s.running ++ s.ended)
  counted : s.slots.busy.toInt = s.running.length
  bounded : s.slots.busy ≤ s.slots.limit
  full : ∀ r, w.line s.slots.queue r ≠ [] → s.slots.busy = s.slots.limit
  order : ∀ r, s.received.filter (w.rank · = r) =
    s.started.filter (w.rank · = r) ++ w.line s.slots.queue r

/-- Every job received was started once or is waiting once. -/
lemma Sound.once [DecidableEq μ] (h : s.Sound w) (m : μ) :
    s.received.count m = s.started.count m + (w.line s.slots.queue (w.rank m)).count m := by
  have hcount : ∀ l : List μ, (l.filter (w.rank · = w.rank m)).count m = l.count m := fun l =>
    List.count_filter (decide_eq_true rfl)
  have horder := congrArg (List.count m) (h.order (w.rank m))
  rwa [List.count_append, hcount, hcount] at horder

lemma sound_opened {limit : Int32} (hlimit : 0 ≤ limit) : (opened ⟨w.empty, 0, limit⟩).Sound w where
  running := .refl _
  counted := rfl
  bounded := hlimit
  full r hr := absurd (w.line_empty r) hr
  order r := (w.line_empty r).symm

/-- One more slot is taken. -/
lemma toInt_add_one {busy limit : Int32} (h : busy < limit) :
    (busy + 1).toInt = busy.toInt + 1 := by
  rw [Int32.lt_iff_toInt_lt] at h
  have hle := Int32.le_toInt busy
  have hlt := Int32.toInt_lt limit
  rw [Int32.toInt_add]
  change (busy.toInt + 1).bmod (2 ^ 32) = _
  exact Int.bmod_eq_of_le (by omega) (by omega)

lemma toInt_sub_one {busy : Int32} (h : 0 < busy.toInt) : (busy - 1).toInt = busy.toInt - 1 := by
  have hlt := Int32.toInt_lt busy
  rw [Int32.toInt_sub]
  change (busy.toInt - 1).bmod (2 ^ 32) = _
  exact Int.bmod_eq_of_le (by omega) (by omega)

/-- **A job arrives.** -/
lemma Sound.arrive (h : s.Sound w) (m : μ) (hstep : s.step w (.arrive m) = some s') :
    s'.Sound w := by
  cases hstep
  unfold Slots.arrive
  split_ifs with hfull
  · -- the job waits behind those of its rank
    have hbusy : s.slots.busy = s.slots.limit := Int32.le_antisymm h.bounded hfull
    refine ⟨?_, ?_, h.bounded, fun _ _ => hbusy, fun r => ?_⟩
    · simpa using h.running
    · simpa using h.counted
    · simp only [Option.toList_none, List.append_nil, List.filter_append, h.order, w.line_put]
      by_cases hr : w.rank m = r
      · simp only [hr, decide_true, List.filter_cons_of_pos, List.filter_nil, if_true,
          List.append_assoc]
      · rw [List.filter_cons_of_neg (by simpa using hr), List.filter_nil, List.append_nil,
          if_neg hr]
  · -- nobody waits, and the job takes a free slot
    have hlt : s.slots.busy < s.slots.limit := Int32.not_le.1 hfull
    have hnone : ∀ r, w.line s.slots.queue r = [] := fun r => by
      by_contra hr
      exact absurd (h.full r hr) (fun heq => Int32.lt_irrefl (heq ▸ hlt))
    have hadd := toInt_add_one hlt
    refine ⟨?_, ?_, ?_, fun r hr => absurd (hnone r) hr, fun r => ?_⟩
    · simp only [Option.toList_some, List.append_assoc]
      exact (h.running.append_right [m]).trans (by
        rw [List.append_assoc]
        exact List.perm_append_comm.append_left _)
    · simp only [Option.toList_some, List.length_append, List.length_singleton]
      rw [hadd, h.counted]
      push_cast
      rfl
    · change s.slots.busy + 1 ≤ s.slots.limit
      rw [Int32.le_iff_toInt_le, hadd]
      rw [Int32.lt_iff_toInt_lt] at hlt
      omega
    · simp only [Option.toList_some, List.filter_append, h.order, hnone, List.append_nil]

/-- **A job ends.** -/
lemma Sound.finish (h : s.Sound w) {i : ℕ} (hstep : s.step w (.finish i) = some s') :
    s'.Sound w := by
  obtain ⟨m, hm, rfl⟩ := Option.map_eq_some_iff.1 hstep
  have hi := (List.getElem?_eq_some_iff.1 hm).1
  have hmem : (s.running.eraseIdx i ++ (s.ended ++ [m])).Perm (s.running ++ s.ended) := by
    obtain ⟨hi, rfl⟩ := List.getElem?_eq_some_iff.1 hm
    have hsplit := List.getElem_cons_eraseIdx_perm hi
    refine (List.perm_append_comm.append_left _).trans ?_
    rw [← List.append_assoc]
    exact ((List.perm_append_singleton _ _).trans hsplit).append_right _
  have hlength := List.length_eraseIdx_of_lt hi
  unfold Slots.finish
  cases hpop : w.pop s.slots.queue with
  | none =>
      -- nobody waits: the slot is freed
      have hnone := w.pop_none _ hpop
      have hsub : (s.slots.busy - 1).toInt = s.slots.busy.toInt - 1 :=
        toInt_sub_one (by rw [h.counted]; omega)
      refine ⟨?_, ?_, ?_, fun r hr => absurd (hnone r) hr, fun r => ?_⟩
      · simp only [Option.toList_none, List.append_nil]
        exact h.running.trans hmem.symm
      · simp only [Option.toList_none, List.append_nil]
        rw [hsub, h.counted, hlength]
        omega
      · change s.slots.busy - 1 ≤ s.slots.limit
        rw [Int32.le_iff_toInt_le, hsub]
        have hbounded := Int32.le_iff_toInt_le.1 h.bounded
        omega
      · simp only [Option.toList_none, List.append_nil, h.order]
  | some next =>
      obtain ⟨m', queue⟩ := next
      -- the slot is handed on
      have hline := w.line_pop _ _ _ hpop
      have hbusy : s.slots.busy = s.slots.limit :=
        h.full (w.rank m') (by rw [hline, if_pos rfl]; exact List.cons_ne_nil _ _)
      refine ⟨?_, ?_, h.bounded, fun _ _ => hbusy, fun r => ?_⟩
      · simp only [Option.toList_some, List.append_assoc]
        refine (h.running.append_right [m']).trans ?_
        refine ((hmem.symm.append_right [m']).trans ?_)
        rw [List.append_assoc]
        exact List.perm_append_comm.append_left _
      · simp only [Option.toList_some, List.length_append, List.length_singleton, hlength]
        rw [h.counted]
        omega
      · simp only [Option.toList_some, List.filter_append, h.order]
        rw [hline]
        by_cases hr : w.rank m' = r
        · simp [hr]
        · simp [hr]

lemma Sound.step (h : s.Sound w) (hstep : s.step w e = some s') : s'.Sound w := by
  cases e with
  | arrive m => exact h.arrive m hstep
  | finish i => exact h.finish hstep

lemma Sound.run (h : s.Sound w) {events : List (Event μ)} (hrun : s.run w events = some s') :
    s'.Sound w := by
  induction events generalizing s with
  | nil =>
      cases hrun
      exact h
  | cons e events ih =>
      obtain ⟨s₁, hstep, hrun⟩ := Option.bind_eq_some_iff.1 hrun
      exact ih (h.step hstep) hrun

/-- When a job is taken from the queue nobody of a lower rank is waiting. -/
lemma step_finish_first {i : ℕ} (hstep : s.step w (.finish i) = some s')
    (hstarted : s'.started = s.started ++ [m]) :
    ∀ r < w.rank m, w.line s'.slots.queue r = [] := by
  obtain ⟨m₀, -, rfl⟩ := Option.map_eq_some_iff.1 hstep
  change s.started ++ _ = _ at hstarted
  have htaken := List.append_cancel_left hstarted
  unfold Slots.finish at htaken ⊢
  cases hpop : w.pop s.slots.queue with
  | none =>
      rw [hpop] at htaken
      exact absurd htaken (by simp)
  | some next =>
      rw [hpop] at htaken
      obtain ⟨m', queue⟩ := next
      have hm : m' = m := by simpa using htaken
      subst hm
      exact w.pop_first _ _ _ hpop

variable [DecidableEq μ]

/-- In every state of every run the history is sound, so that every job received was started once or
is waiting once; and a job that is taken from the queue leaves nobody of a lower rank behind. -/
def Serves (w : RankedQueue Q μ κ) (start : Workplace Q μ) : Prop :=
  ∀ events s, start.run w events = some s → s.Sound w ∧
    (∀ m, s.received.count m = s.started.count m + (w.line s.slots.queue (w.rank m)).count m) ∧
    ∀ i s' m, s.step w (.finish i) = some s' → s'.started = s.started ++ [m] →
      ∀ r < w.rank m, w.line s'.slots.queue r = []

/-- **Nothing is lost, repeated or reordered**, by a dispatcher whose limit is not negative. -/
lemma serves_iff {limit : Int32} : Serves w (opened ⟨w.empty, 0, limit⟩) ↔ 0 ≤ limit := by
  constructor
  · intro hserves
    exact (hserves [] _ rfl).1.bounded
  · intro hlimit events s hrun
    have hsound := (sound_opened hlimit).run hrun
    exact ⟨hsound, hsound.once, fun i s' m hstep hstarted => step_finish_first hstep hstarted⟩

end Workplace
