import GoMedibloc.Framework.Lru
import GoMedibloc.Framework.ObjectHeap

/-!
# The message dispatcher

The dispatcher hands received messages to subscribers.  A subscriber subscribes to one message type
and is known to the dispatcher by its pointer.  Besides the subscribers of every type, the dispatcher
keeps one entry for each type that says whether messages of the type that were dispatched before are
filtered out.  A message whose type has no such entry is dropped as unregistered, whatever
subscribers there are.

Registering a subscriber sets the entry of its type, and deregistering one deletes it, even if other
subscribers of the type remain.  These are not served any more.  Besides, a request for which
responses are awaited registers one subscriber and deregisters another one that it creates for this,
so that the first stays registered.

`Session` follows a dispatcher along calls, together with what the calls ask for: the subscribers
registered and not yet deregistered.  The subscriber table is always theirs (`Ok`), and routing
follows registration in a state if and only if every type with subscribers has an entry (`Gated`).
The theorem says along which calls this stays so.
-/

namespace GoMedibloc

/-- A subscriber: the channel it reads from, and the type it subscribes to with its filter flag. -/
structure Subscriber where
  msgChan : ℕ
  msgType : String
  doFilter : Bool

/-- A received message, as far as the dispatcher looks at it. -/
structure RecvMessage where
  msgType : String
  hash : String

/-- The tables of the dispatcher: the pointers of the subscribers of every type, the filter flags, and
the hashes of messages dispatched before. -/
structure Dispatcher where
  subscribersMap : Finmap fun _ : String => Finset ℕ
  filters : Finmap fun _ : String => Bool
  dispatchedMessages : Lru String String

namespace Dispatcher

/-- `NewDispatcher`. -/
def newDispatcher : Dispatcher := ⟨∅, ∅, .new 51200⟩

/-- What becomes of a message. -/
inductive Outcome where
  | unregistered
  | duplicated
  | offered (subscribers : Finset ℕ)
deriving DecidableEq

section Operations

variable (heap : ObjectHeap Subscriber) (dp : Dispatcher)

/-- `Register`, for one subscriber. -/
def registerOne (v : ℕ) : Dispatcher :=
  let mt := (heap.cell v).msgType
  let m := (dp.subscribersMap.lookup mt).getD ∅
  { dp with
    subscribersMap := dp.subscribersMap.insert mt (insert v m)
    filters := dp.filters.insert mt (heap.cell v).doFilter }

/-- `Register`. -/
def register (vs : List ℕ) : Dispatcher := vs.foldl (registerOne heap) dp

/-- `Deregister`, for one subscriber. -/
def deregisterOne (v : ℕ) : Dispatcher :=
  let mt := (heap.cell v).msgType
  match dp.subscribersMap.lookup mt with
  | none => dp
  | some m =>
    { dp with
      subscribersMap := dp.subscribersMap.insert mt (m.erase v)
      filters := dp.filters.erase mt }

/-- `Deregister`. -/
def deregister (vs : List ℕ) : Dispatcher := vs.foldl (deregisterOne heap) dp

end Operations

/-- `isFiltered`, with the reason why a message is filtered out. -/
def isFiltered (dp : Dispatcher) (msg : RecvMessage) : Option Outcome × Dispatcher :=
  match dp.filters.lookup msg.msgType with
  | none => (some .unregistered, dp)
  | some false => (none, dp)
  | some true =>
    if (dp.dispatchedMessages.peek msg.hash).isSome then (some .duplicated, dp)
    else (none, { dp with dispatchedMessages := dp.dispatchedMessages.add msg.hash msg.hash })

/-- The case of `loop` for a received message. -/
def dispatch (dp : Dispatcher) (msg : RecvMessage) : Outcome × Dispatcher :=
  match dp.isFiltered msg with
  | (some reason, dp) => (reason, dp)
  | (none, dp) => (.offered ((dp.subscribersMap.lookup msg.msgType).getD ∅), dp)

end Dispatcher

/-! ## Requests -/

/-- What `RequestAndResponse` finds for a peer: the context is done, or a response, for which the
callback returns an error or none. -/
inductive PeerAnswer (ε : Type) where
  | contextDone
  | response (err : Option ε)

/-- The loop of `RequestAndResponse` over the answers for the peers: whether a response was accepted,
and the errors. -/
def awaitResponses {ε : Type} (errContextDone : ε) : List (PeerAnswer ε) → Bool × List (Option ε)
  | [] => (false, [])
  | .contextDone :: answers =>
    let rest := awaitResponses errContextDone answers
    (rest.1, some errContextDone :: rest.2)
  | .response (some err) :: answers =>
    let rest := awaitResponses errContextDone answers
    (rest.1, some err :: rest.2)
  | .response none :: answers => (true, none :: answers.map fun _ => none)

/-- `RequestAndResponse`, with the identifier of the request and its channel for responses. -/
def MedService.requestAndResponse {ε : Type} (heap : ObjectHeap Subscriber) (dp : Dispatcher) (id : String)
    (responseCh : ℕ) (errContextDone : ε) (answers : List (PeerAnswer ε)) :
    (Bool × List (Option ε)) × ObjectHeap Subscriber × Dispatcher :=
  let registered := heap.next
  let heap := heap.alloc ⟨responseCh, id, true⟩
  let dp := dp.register heap [registered]
  -- the deferred call has a subscriber of its own
  let deregistered := heap.next
  let heap := heap.alloc ⟨responseCh, id, true⟩
  (awaitResponses errContextDone answers, heap, dp.deregister heap [deregistered])

/-! ## Sessions -/

/-- A dispatcher with the subscribers that have been made, those that are registered and not yet
deregistered, and the hashes of the messages received. -/
structure Session where
  heap : ObjectHeap Subscriber
  dispatcher : Dispatcher
  registered : Finset ℕ
  received : List String

namespace Session

/-- A call on the dispatcher. -/
inductive Call where
  | newSubscriber (s : Subscriber)
  | register (vs : List ℕ)
  | deregister (vs : List ℕ)
  | receive (msg : RecvMessage)
  | request (id : String) (responseCh : ℕ) (answers : List (PeerAnswer Unit))

/-- Before the first call. -/
def start : Session := ⟨⟨fun _ => ⟨0, "", false⟩, 0⟩, .newDispatcher, ∅, []⟩

/-- One call; only subscribers that have been made can be registered and deregistered. -/
def step (s : Session) : Call → Option Session
  | .newSubscriber sub => some { s with heap := s.heap.alloc sub }
  | .register vs =>
    if ∀ v ∈ vs, v < s.heap.next then
      some { s with
        dispatcher := s.dispatcher.register s.heap vs
        registered := s.registered ∪ vs.toFinset }
    else none
  | .deregister vs =>
    if ∀ v ∈ vs, v < s.heap.next then
      some { s with
        dispatcher := s.dispatcher.deregister s.heap vs
        registered := s.registered \ vs.toFinset }
    else none
  | .receive msg =>
    some { s with
      dispatcher := (s.dispatcher.dispatch msg).2
      received := s.received ++ [msg.hash] }
  | .request id responseCh answers =>
    let done := MedService.requestAndResponse s.heap s.dispatcher id responseCh () answers
    some { s with
      heap := done.2.1
      dispatcher := done.2.2
      registered := insert s.heap.next s.registered }

/-- Calls in turn. -/
def run : Session → List Call → Option Session
  | s, [] => some s
  | s, c :: calls => (s.step c).bind fun s' => run s' calls

/-- The subscribers of a type that are registered and not yet deregistered. -/
def registeredFor (s : Session) (msgType : String) : Finset ℕ :=
  s.registered.filter fun v => (s.heap.cell v).msgType = msgType

/-- Routing follows registration: a message that was not received before is offered to the registered
subscribers of its type, or dropped as unregistered because there are none. -/
def Routed (s : Session) : Prop :=
  ∀ msg : RecvMessage, msg.hash ∉ s.received →
    (s.dispatcher.dispatch msg).1 = .offered (s.registeredFor msg.msgType) ∨
      (s.dispatcher.dispatch msg).1 = .unregistered ∧ s.registeredFor msg.msgType = ∅

/-- The tables of subscribers and of filters have the same contents. -/
def SameTables (s s' : Session) : Prop :=
  ∀ msgType, (s'.dispatcher.subscribersMap.lookup msgType).getD ∅ =
      (s.dispatcher.subscribersMap.lookup msgType).getD ∅ ∧
    s'.dispatcher.filters.lookup msgType = s.dispatcher.filters.lookup msgType

/-- The call is not a request, and if it deregisters subscribers it leaves no other subscriber of
their types. -/
def Allows (s : Session) : Call → Prop
  | .deregister vs => ∀ v ∈ vs, ∀ u ∈ s.registeredFor (s.heap.cell v).msgType, u ∈ vs
  | .request _ _ _ => False
  | _ => True

/-! ## The tables -/

section Tables

variable {heap : ObjectHeap Subscriber} {dp : Dispatcher} {vs : List ℕ} {msgType : String}

/-- The subscribers of a type, of those in a list. -/
def ofType (heap : ObjectHeap Subscriber) (msgType : String) (vs : List ℕ) : List ℕ :=
  vs.filter fun v => (heap.cell v).msgType = msgType

lemma mem_ofType {v : ℕ} : v ∈ ofType heap msgType vs ↔ v ∈ vs ∧ (heap.cell v).msgType = msgType := by
  rw [ofType, List.mem_filter, decide_eq_true_eq]

lemma ofType_cons_of_eq {v : ℕ} (hv : (heap.cell v).msgType = msgType) :
    ofType heap msgType (v :: vs) = v :: ofType heap msgType vs :=
  List.filter_cons_of_pos (decide_eq_true hv)

lemma ofType_cons_of_ne {v : ℕ} (hv : (heap.cell v).msgType ≠ msgType) :
    ofType heap msgType (v :: vs) = ofType heap msgType vs :=
  List.filter_cons_of_neg (by simpa using hv)

lemma register_cons (v : ℕ) :
    dp.register heap (v :: vs) = (dp.registerOne heap v).register heap vs := rfl

lemma deregister_cons (v : ℕ) :
    dp.deregister heap (v :: vs) = (dp.deregisterOne heap v).deregister heap vs := rfl

/-- `Register` adds the subscribers to those of their types. -/
lemma subscribers_register :
    ((dp.register heap vs).subscribersMap.lookup msgType).getD ∅ =
      (dp.subscribersMap.lookup msgType).getD ∅ ∪ (ofType heap msgType vs).toFinset := by
  induction vs generalizing dp with
  | nil => exact (Finset.union_empty _).symm
  | cons v vs ih =>
      rw [register_cons, ih, Dispatcher.registerOne]
      dsimp only
      by_cases hv : (heap.cell v).msgType = msgType
      · rw [hv, Finmap.lookup_insert, ofType_cons_of_eq hv, List.toFinset_cons, Option.getD_some,
          Finset.insert_union, Finset.union_insert]
      · rw [Finmap.lookup_insert_of_ne _ (Ne.symm hv), ofType_cons_of_ne hv]

/-- `Register` sets the flags of the types of the subscribers. -/
lemma filters_register :
    (dp.register heap vs).filters.lookup msgType = none ↔
      dp.filters.lookup msgType = none ∧ ofType heap msgType vs = [] := by
  induction vs generalizing dp with
  | nil => exact (and_iff_left rfl).symm
  | cons v vs ih =>
      rw [register_cons, ih, Dispatcher.registerOne]
      dsimp only
      by_cases hv : (heap.cell v).msgType = msgType
      · rw [hv, Finmap.lookup_insert, ofType_cons_of_eq hv]
        simp only [reduceCtorEq, false_and, and_false]
      · rw [Finmap.lookup_insert_of_ne _ (Ne.symm hv), ofType_cons_of_ne hv]

/-- `Deregister` removes the subscribers from those of their types. -/
lemma subscribers_deregister :
    ((dp.deregister heap vs).subscribersMap.lookup msgType).getD ∅ =
      (dp.subscribersMap.lookup msgType).getD ∅ \ (ofType heap msgType vs).toFinset := by
  induction vs generalizing dp with
  | nil => exact Finset.sdiff_empty.symm
  | cons v vs ih =>
      rw [deregister_cons, ih, Dispatcher.deregisterOne]
      by_cases hv : (heap.cell v).msgType = msgType
      · rw [hv, ofType_cons_of_eq hv, List.toFinset_cons]
        cases hlookup : dp.subscribersMap.lookup msgType with
        | none =>
            dsimp only
            rw [hlookup, Option.getD_none, Finset.empty_sdiff, Finset.empty_sdiff]
        | some m =>
            dsimp only
            rw [Finmap.lookup_insert, Option.getD_some, Option.getD_some, Finset.sdiff_insert,
              Finset.erase_sdiff_comm]
      · rw [ofType_cons_of_ne hv]
        cases hlookup : dp.subscribersMap.lookup (heap.cell v).msgType with
        | none => rfl
        | some m =>
            dsimp only
            rw [Finmap.lookup_insert_of_ne _ (Ne.symm hv)]

/-- `Deregister` deletes the flags of the types of the subscribers, if they have an entry in the
table. -/
lemma filters_deregister :
    (dp.deregister heap vs).filters.lookup msgType =
      if ofType heap msgType vs ≠ [] ∧ dp.subscribersMap.lookup msgType ≠ none then none
      else dp.filters.lookup msgType := by
  induction vs generalizing dp with
  | nil => exact (if_neg fun h => h.1 rfl).symm
  | cons v vs ih =>
      rw [deregister_cons, ih, Dispatcher.deregisterOne]
      by_cases hv : (heap.cell v).msgType = msgType
      · rw [hv, ofType_cons_of_eq hv]
        cases hlookup : dp.subscribersMap.lookup msgType with
        | none => simp [hlookup]
        | some m => simp
      · rw [ofType_cons_of_ne hv]
        cases hlookup : dp.subscribersMap.lookup (heap.cell v).msgType with
        | none => rfl
        | some m =>
            dsimp only
            rw [Finmap.lookup_insert_of_ne _ (Ne.symm hv), Finmap.lookup_erase_ne (Ne.symm hv)]

end Tables

/-! ## What is kept -/

variable {s s' : Session} {c : Call} {msgType : String}

/-- The table has the registered subscribers, which have been made, and the dispatched messages were
received. -/
structure Ok (s : Session) : Prop where
  table : ∀ msgType, (s.dispatcher.subscribersMap.lookup msgType).getD ∅ = s.registeredFor msgType
  made : ∀ v ∈ s.registered, v < s.heap.next
  cached : ∀ hash v, s.dispatcher.dispatchedMessages.Holds hash v → hash ∈ s.received

/-- Every type with subscribers has a filter flag. -/
def Gated (s : Session) : Prop :=
  ∀ msgType, s.dispatcher.filters.lookup msgType = none → s.registeredFor msgType = ∅

lemma mem_registeredFor {v : ℕ} :
    v ∈ s.registeredFor msgType ↔ v ∈ s.registered ∧ (s.heap.cell v).msgType = msgType :=
  Finset.mem_filter

lemma ok_start : start.Ok where
  table msgType := by
    rw [start, Dispatcher.newDispatcher, Finmap.lookup_empty]
    rfl
  made v hv := absurd hv (Finset.notMem_empty v)
  cached hash v h := absurd h (Lru.not_holds_new _)

lemma gated_start : start.Gated := fun _ _ => rfl

/-- A message dispatched in a state with a filter flag for its type, unless it was received before,
is offered to the registered subscribers. -/
lemma Ok.dispatch_offered (h : s.Ok) {msg : RecvMessage} (hnew : msg.hash ∉ s.received)
    (hfilter : s.dispatcher.filters.lookup msg.msgType ≠ none) :
    (s.dispatcher.dispatch msg).1 = .offered (s.registeredFor msg.msgType) := by
  rw [← h.table]
  unfold Dispatcher.dispatch Dispatcher.isFiltered
  cases hlookup : s.dispatcher.filters.lookup msg.msgType with
  | none => exact absurd hlookup hfilter
  | some flag =>
      cases flag with
      | false => rfl
      | true =>
          have hpeek : ¬ (s.dispatcher.dispatchedMessages.peek msg.hash).isSome := by
            intro hsome
            obtain ⟨v, hv⟩ := Option.isSome_iff_exists.1 hsome
            exact hnew (h.cached _ v (Lru.holds_of_peek hv))
          dsimp only
          rw [if_neg hpeek]

lemma dispatch_unregistered {msg : RecvMessage}
    (hfilter : s.dispatcher.filters.lookup msg.msgType = none) :
    (s.dispatcher.dispatch msg).1 = .unregistered := by
  unfold Dispatcher.dispatch Dispatcher.isFiltered
  rw [hfilter]

/-- There are hashes that have not been received. -/
lemma exists_new_hash (l : List String) : ∃ hash, hash ∉ l := by
  have hinj : Function.Injective fun n : ℕ => String.ofList (List.replicate n 'a') := by
    intro n n' heq
    have hlist := String.ofList_injective heq
    simpa using congrArg List.length hlist
  have : Infinite String := Infinite.of_injective _ hinj
  obtain ⟨hash, hhash⟩ := Infinite.exists_notMem_finset l.toFinset
  exact ⟨hash, fun hmem => hhash (List.mem_toFinset.2 hmem)⟩

/-- **Routing follows registration as long as every type with subscribers has a filter flag.** -/
lemma Ok.routed_iff (h : s.Ok) : s.Routed ↔ s.Gated := by
  constructor
  · intro hrouted msgType hfilter
    obtain ⟨hash, hnew⟩ := exists_new_hash s.received
    have hdropped : (s.dispatcher.dispatch ⟨msgType, hash⟩).1 = .unregistered :=
      dispatch_unregistered hfilter
    obtain hoffered | hnone := hrouted ⟨msgType, hash⟩ hnew
    · rw [hdropped] at hoffered
      cases hoffered
    · exact hnone.2
  · intro hgated msg hnew
    by_cases hfilter : s.dispatcher.filters.lookup msg.msgType = none
    · exact .inr ⟨dispatch_unregistered hfilter, hgated _ hfilter⟩
    · exact .inl (h.dispatch_offered hnew hfilter)

/-- A new subscriber changes no type of those that have been made. -/
lemma registeredFor_alloc (hmade : ∀ v ∈ s.registered, v < s.heap.next) (sub : Subscriber) :
    { s with heap := s.heap.alloc sub }.registeredFor msgType = s.registeredFor msgType := by
  refine Finset.filter_congr fun v hv => ?_
  rw [show (s.heap.alloc sub).cell v = s.heap.cell v from
    Function.update_of_ne (hmade v hv).ne _ _]

lemma Ok.alloc (h : s.Ok) (sub : Subscriber) : { s with heap := s.heap.alloc sub }.Ok where
  table msgType := by
    rw [registeredFor_alloc h.made]
    exact h.table msgType
  made v hv := (h.made v hv).trans (Nat.lt_succ_self _)
  cached := h.cached

/-- The cache of dispatched messages is not touched by the tables' operations. -/
lemma dispatchedMessages_register {heap : ObjectHeap Subscriber} {dp : Dispatcher} {vs : List ℕ} :
    (dp.register heap vs).dispatchedMessages = dp.dispatchedMessages := by
  induction vs generalizing dp with
  | nil => rfl
  | cons v vs ih => rw [register_cons, ih, Dispatcher.registerOne]

lemma dispatchedMessages_deregister {heap : ObjectHeap Subscriber} {dp : Dispatcher} {vs : List ℕ} :
    (dp.deregister heap vs).dispatchedMessages = dp.dispatchedMessages := by
  induction vs generalizing dp with
  | nil => rfl
  | cons v vs ih =>
      rw [deregister_cons, ih, Dispatcher.deregisterOne]
      cases dp.subscribersMap.lookup (heap.cell v).msgType <;> rfl

/-- The session after `Register`. -/
def afterRegister (s : Session) (vs : List ℕ) : Session :=
  { s with
    dispatcher := s.dispatcher.register s.heap vs
    registered := s.registered ∪ vs.toFinset }

/-- The session after `Deregister`. -/
def afterDeregister (s : Session) (vs : List ℕ) : Session :=
  { s with
    dispatcher := s.dispatcher.deregister s.heap vs
    registered := s.registered \ vs.toFinset }

variable {vs : List ℕ}

lemma registeredFor_afterRegister : (s.afterRegister vs).registeredFor msgType =
    s.registeredFor msgType ∪ (ofType s.heap msgType vs).toFinset := by
  ext v
  rw [mem_registeredFor, Finset.mem_union, mem_registeredFor, List.mem_toFinset, mem_ofType,
    ← or_and_right]
  change v ∈ s.registered ∪ vs.toFinset ∧ _ ↔ _
  rw [Finset.mem_union, List.mem_toFinset]
  rfl

lemma registeredFor_afterDeregister : (s.afterDeregister vs).registeredFor msgType =
    s.registeredFor msgType \ (ofType s.heap msgType vs).toFinset := by
  ext v
  rw [mem_registeredFor, Finset.mem_sdiff, mem_registeredFor, List.mem_toFinset, mem_ofType]
  change v ∈ s.registered \ vs.toFinset ∧ (s.heap.cell v).msgType = msgType ↔ _
  rw [Finset.mem_sdiff, List.mem_toFinset]
  tauto

lemma Ok.afterRegister (h : s.Ok) (hvs : ∀ v ∈ vs, v < s.heap.next) : (s.afterRegister vs).Ok where
  table msgType := by
    rw [registeredFor_afterRegister, ← h.table]
    exact subscribers_register
  made v hv := by
    obtain hv | hv := Finset.mem_union.1 hv
    · exact h.made v hv
    · exact hvs v (List.mem_toFinset.1 hv)
  cached := by
    change ∀ hash v, (s.dispatcher.register s.heap vs).dispatchedMessages.Holds hash v → _
    rw [dispatchedMessages_register]
    exact h.cached

lemma Ok.afterDeregister (h : s.Ok) : (s.afterDeregister vs).Ok where
  table msgType := by
    rw [registeredFor_afterDeregister, ← h.table]
    exact subscribers_deregister
  made v hv := h.made v (Finset.mem_sdiff.1 hv).1
  cached := by
    change ∀ hash v, (s.dispatcher.deregister s.heap vs).dispatchedMessages.Holds hash v → _
    rw [dispatchedMessages_deregister]
    exact h.cached

lemma Gated.afterRegister (hg : s.Gated) : (s.afterRegister vs).Gated := by
  intro msgType hfilter
  obtain ⟨hfilter, hnone⟩ := filters_register.1 hfilter
  rw [registeredFor_afterRegister, hg msgType hfilter, hnone]
  rfl

/-- **Deregistering keeps every type with subscribers gated if and only if it leaves no other
subscriber of a type it deregisters.** -/
lemma Ok.gated_afterDeregister_iff (h : s.Ok) (hg : s.Gated) :
    (s.afterDeregister vs).Gated ↔ s.Allows (.deregister vs) := by
  have hfilters : ∀ msgType, (s.afterDeregister vs).dispatcher.filters.lookup msgType =
      if ofType s.heap msgType vs ≠ [] ∧ s.dispatcher.subscribersMap.lookup msgType ≠ none
      then none else s.dispatcher.filters.lookup msgType := fun msgType => filters_deregister
  constructor
  · intro hgated v hv u hu
    have hof : ofType s.heap (s.heap.cell v).msgType vs ≠ [] :=
      List.ne_nil_of_mem (mem_ofType.2 ⟨hv, rfl⟩)
    have hentry : s.dispatcher.subscribersMap.lookup (s.heap.cell v).msgType ≠ none := by
      intro hnone
      rw [← h.table, hnone] at hu
      exact absurd hu (Finset.notMem_empty u)
    have hempty := hgated (s.heap.cell v).msgType (by rw [hfilters, if_pos ⟨hof, hentry⟩])
    rw [registeredFor_afterDeregister, Finset.sdiff_eq_empty_iff_subset] at hempty
    exact (mem_ofType.1 (List.mem_toFinset.1 (hempty hu))).1
  · intro hallows msgType hfilter
    rw [hfilters] at hfilter
    rw [registeredFor_afterDeregister]
    split_ifs at hfilter with hdeleted
    · -- the flag was deleted, and so were all subscribers
      obtain ⟨v, hof⟩ := List.exists_mem_of_ne_nil _ hdeleted.1
      obtain ⟨hv, rfl⟩ := mem_ofType.1 hof
      rw [Finset.sdiff_eq_empty_iff_subset]
      intro u hu
      rw [List.mem_toFinset, mem_ofType]
      exact ⟨hallows v hv u hu, (mem_registeredFor.1 hu).2⟩
    · rw [hg msgType hfilter, Finset.empty_sdiff]

/-- A request is a registration and a deregistration. -/
lemma step_request {id : String} {responseCh : ℕ} {answers : List (PeerAnswer Unit)} (h : s.Ok)
    (hstep : s.step (.request id responseCh answers) = some s') :
    ∃ s₁, s₁ = Session.afterRegister { s with heap := s.heap.alloc ⟨responseCh, id, true⟩ }
        [s.heap.next] ∧
      s' = Session.afterDeregister { s₁ with heap := s₁.heap.alloc ⟨responseCh, id, true⟩ }
        [s.heap.next + 1] := by
  cases hstep
  refine ⟨_, rfl, ?_⟩
  have hregistered : insert s.heap.next s.registered =
      (s.registered ∪ [s.heap.next].toFinset) \ [s.heap.next + 1].toFinset := by
    ext v
    simp only [Finset.mem_insert, Finset.mem_sdiff, Finset.mem_union, List.mem_toFinset,
      List.mem_singleton]
    constructor
    · rintro (rfl | hv)
      · exact ⟨.inr rfl, by omega⟩
      · have := h.made v hv
        exact ⟨.inl hv, by omega⟩
    · rintro ⟨hv | hv, -⟩
      · exact .inr hv
      · exact .inl hv
  unfold afterDeregister afterRegister MedService.requestAndResponse
  dsimp only
  rw [hregistered]
  rfl

/-- A message may only be noted as dispatched. -/
lemma dispatch_snd (dp : Dispatcher) (msg : RecvMessage) :
    ∃ cache, (dp.dispatch msg).2 = { dp with dispatchedMessages := cache } ∧
      ∀ hash v, cache.Holds hash v → hash = msg.hash ∨ dp.dispatchedMessages.Holds hash v := by
  unfold Dispatcher.dispatch Dispatcher.isFiltered
  cases dp.filters.lookup msg.msgType with
  | none => exact ⟨_, rfl, fun _ _ => .inr⟩
  | some flag =>
      cases flag with
      | false => exact ⟨_, rfl, fun _ _ => .inr⟩
      | true =>
          dsimp only
          split_ifs with hpeek
          · exact ⟨_, rfl, fun _ _ => .inr⟩
          · exact ⟨_, rfl, fun _ _ hholds => (Lru.holds_of_add hholds).imp_left And.left⟩

/-- **One call** keeps the table in step with the registered subscribers. -/
lemma Ok.step (h : s.Ok) (hstep : s.step c = some s') : s'.Ok := by
  cases c with
  | newSubscriber sub =>
      cases hstep
      exact h.alloc sub
  | register vs =>
      unfold Session.step at hstep
      dsimp only at hstep
      split_ifs at hstep with hvs
      cases hstep
      exact h.afterRegister hvs
  | deregister vs =>
      unfold Session.step at hstep
      dsimp only at hstep
      split_ifs at hstep with hvs
      cases hstep
      exact h.afterDeregister
  | receive msg =>
      cases hstep
      obtain ⟨cache, hdispatch, hcache⟩ := dispatch_snd s.dispatcher msg
      rw [hdispatch]
      refine ⟨h.table, h.made, fun hash v hholds => ?_⟩
      obtain rfl | hholds := hcache hash v hholds
      · exact List.mem_append_right _ (List.mem_singleton.2 rfl)
      · exact List.mem_append_left _ (h.cached hash v hholds)
  | request id responseCh answers =>
      obtain ⟨s₁, rfl, rfl⟩ := step_request h hstep
      refine Ok.afterDeregister (Ok.alloc (Ok.afterRegister (h.alloc _) fun v hv => ?_) _)
      rw [List.mem_singleton.1 hv]
      exact Nat.lt_succ_self _

/-- **One call**, apart from a request, keeps every type with subscribers gated if and only if it is
allowed. -/
lemma Ok.gated_step_iff (h : s.Ok) (hg : s.Gated) (hstep : s.step c = some s')
    (hc : ∀ id responseCh answers, c ≠ .request id responseCh answers) :
    s'.Gated ↔ s.Allows c := by
  cases c with
  | newSubscriber sub =>
      cases hstep
      refine iff_of_true (fun msgType hfilter => ?_) trivial
      rw [registeredFor_alloc h.made]
      exact hg msgType hfilter
  | register vs =>
      unfold Session.step at hstep
      dsimp only at hstep
      split_ifs at hstep with hvs
      cases hstep
      exact iff_of_true hg.afterRegister trivial
  | deregister vs =>
      unfold Session.step at hstep
      dsimp only at hstep
      split_ifs at hstep with hvs
      cases hstep
      exact h.gated_afterDeregister_iff hg
  | receive msg =>
      cases hstep
      obtain ⟨cache, hdispatch, -⟩ := dispatch_snd s.dispatcher msg
      rw [hdispatch]
      exact iff_of_true hg trivial
  | request id responseCh answers => exact absurd rfl (hc id responseCh answers)

/-- **A request leaves its subscriber in the table**, whatever the peers answer. -/
lemma Ok.not_sameTables_request (h : s.Ok) {id : String} {responseCh : ℕ}
    {answers : List (PeerAnswer Unit)}
    (hstep : s.step (.request id responseCh answers) = some s') : ¬ s.SameTables s' := by
  intro hsame
  have h' := h.step hstep
  cases hstep
  have htype : ((MedService.requestAndResponse s.heap s.dispatcher id responseCh () answers).2.1.cell
      s.heap.next).msgType = id := by
    change (Function.update (Function.update s.heap.cell s.heap.next _) (s.heap.next + 1) _
      s.heap.next).msgType = id
    rw [Function.update_of_ne (Nat.lt_succ_self _).ne, Function.update_self]
  have hafter : s.heap.next ∈ s.registeredFor id := by
    rw [← h.table, ← (hsame id).1, h'.table, mem_registeredFor]
    exact ⟨Finset.mem_insert_self _ _, htype⟩
  exact absurd (h.made _ (mem_registeredFor.1 hafter).1) (lt_irrefl _)

/-! ## Whole runs -/

lemma run_concat (s : Session) (calls : List Call) (c : Call) :
    s.run (calls ++ [c]) = (s.run calls).bind fun s' => s'.step c := by
  induction calls generalizing s with
  | nil =>
      change (s.step c).bind _ = s.step c
      cases s.step c <;> rfl
  | cons c' calls ih =>
      change (s.step c').bind _ = ((s.step c').bind _).bind _
      rw [Option.bind_assoc]
      congr 1
      funext s'
      exact ih s'

/-- The calls before the last of a run can be made. -/
lemma run_of_prefix {calls done : List Call} (hrun : s.run calls = some s') (hdone : done <+: calls) :
    ∃ s'', s.run done = some s'' := by
  obtain ⟨rest, rfl⟩ := hdone
  induction rest using List.reverseRecOn generalizing s' with
  | nil => exact ⟨s', by rwa [List.append_nil] at hrun⟩
  | append_singleton rest c ih =>
      rw [← List.append_assoc, run_concat] at hrun
      obtain ⟨s₁, hrun₁, -⟩ := Option.bind_eq_some_iff.1 hrun
      exact ih hrun₁

lemma ok_run {calls : List Call} (hrun : start.run calls = some s) : s.Ok := by
  induction calls using List.reverseRecOn generalizing s with
  | nil =>
      cases hrun
      exact ok_start
  | append_singleton calls c ih =>
      rw [run_concat] at hrun
      obtain ⟨s₁, hrun₁, hstep⟩ := Option.bind_eq_some_iff.1 hrun
      exact (ih hrun₁).step hstep

lemma gated_run {calls : List Call} (hrun : start.run calls = some s)
    (hallows : ∀ done c s', done ++ [c] <+: calls → start.run done = some s' → s'.Allows c) :
    s.Gated := by
  induction calls using List.reverseRecOn generalizing s with
  | nil =>
      cases hrun
      exact gated_start
  | append_singleton calls c ih =>
      rw [run_concat] at hrun
      obtain ⟨s₁, hrun₁, hstep⟩ := Option.bind_eq_some_iff.1 hrun
      have hlast := hallows calls c s₁ List.prefix_rfl hrun₁
      have hgated₁ := ih hrun₁ fun done c' s' hdone =>
        hallows done c' s' (hdone.trans (List.prefix_append _ _))
      refine ((ok_run hrun₁).gated_step_iff hgated₁ hstep fun id responseCh answers hc => ?_).2 hlast
      rw [hc] at hlast
      exact hlast

/-- **Message routing.**  Along a run of calls, routing follows registration in every state and every
request leaves the tables as they were, if and only if no call is a request and no call deregisters
a subscriber while others of its type stay registered. -/
theorem routing_follows_registration_iff (calls : List Call) (s : Session)
    (hrun : start.run calls = some s) :
    ((∀ done s', done <+: calls → start.run done = some s' → s'.Routed) ∧
      ∀ done id responseCh answers s' s'', done ++ [.request id responseCh answers] <+: calls →
        start.run done = some s' → s'.step (.request id responseCh answers) = some s'' →
          s'.SameTables s'') ↔
    ∀ done c s', done ++ [c] <+: calls → start.run done = some s' → s'.Allows c := by
  constructor
  · rintro ⟨hrouted, hsame⟩ done c s' hdone hrun'
    have hok := ok_run hrun'
    obtain ⟨s'', hrun''⟩ := run_of_prefix hrun hdone
    have hstep := hrun''
    rw [run_concat, hrun'] at hstep
    by_cases hc : ∃ id responseCh answers, c = .request id responseCh answers
    · obtain ⟨id, responseCh, answers, rfl⟩ := hc
      exact hok.not_sameTables_request hstep
        (hsame done id responseCh answers s' s'' hdone hrun' hstep)
    · have hgated := hok.routed_iff.1 (hrouted done s' ((List.prefix_append _ _).trans hdone) hrun')
      have hgated' := (ok_run hrun'').routed_iff.1 (hrouted _ s'' hdone hrun'')
      exact (hok.gated_step_iff hgated hstep fun id responseCh answers heq =>
        hc ⟨id, responseCh, answers, heq⟩).1 hgated'
  · intro hallows
    refine ⟨fun done s' hdone hrun' => ?_, fun done id responseCh answers s' s'' hdone hrun' _ => ?_⟩
    · exact (ok_run hrun').routed_iff.2 (gated_run hrun' fun done' c s₁ hdone' =>
        hallows done' c s₁ (hdone'.trans hdone))
    · exact (hallows done _ s' hdone hrun').elim

/-- One subscriber of a type is deregistered and another of the type stays: its messages are dropped
as unregistered.  And a request that is answered leaves its subscriber in the table. -/
theorem remaining_subscriber_not_served :
    (∃ s, start.run [.newSubscriber ⟨0, "block", true⟩, .newSubscriber ⟨1, "block", true⟩,
        .register [0, 1], .deregister [0]] = some s ∧
      s.registeredFor "block" = {1} ∧
      (s.dispatcher.dispatch ⟨"block", "hash"⟩).1 = .unregistered) ∧
    ∃ s, start.run [.request "id" 7 [.response none]] = some s ∧
      s.dispatcher.subscribersMap.lookup "id" = some {0} ∧
      start.dispatcher.subscribersMap.lookup "id" = none := by
  refine ⟨⟨_, rfl, ?_⟩, _, rfl, ?_⟩
  · decide +kernel
  · decide +kernel

/-- Two types with one subscriber each, of which one is deregistered: routing follows registration. -/
theorem single_subscribers_served :
    let calls : List Call := [.newSubscriber ⟨0, "block", true⟩, .newSubscriber ⟨1, "tx", false⟩,
      .register [0, 1], .receive ⟨"block", "hash"⟩, .deregister [0]]
    ∃ s, start.run calls = some s ∧
      ∀ done s', done <+: calls → start.run done = some s' → s'.Routed := by
  dsimp only
  refine ⟨_, rfl, ((routing_follows_registration_iff _ _ rfl).2 ?_).1⟩
  intro done c s' hdone hrun
  obtain ⟨rest, hrest⟩ := hdone
  rcases done with _ | ⟨c₀, _ | ⟨c₁, _ | ⟨c₂, _ | ⟨c₃, _ | ⟨c₄, done⟩⟩⟩⟩⟩
  · cases hrest
    trivial
  · cases hrest
    trivial
  · cases hrest
    trivial
  · cases hrest
    trivial
  · cases hrest
    cases hrun
    change ∀ v ∈ [0], ∀ u ∈ Session.registeredFor _ _, u ∈ [0]
    decide +kernel
  · have hlength := congrArg List.length hrest
    simp at hlength

end Session

end GoMedibloc
