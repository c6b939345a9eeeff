import GoMedibloc.Framework.WorkSlots

/-!
# Sending and receiving messages

The loops of the message sender and the message receiver.  A message to be sent is written by a
goroutine of its own, and a stream that comes in is read by one; the loop keeps the number of these
within the configured concurrency, puts what comes in between into a queue, and starts the next write
or read when one has completed.  Both are dispatchers of `Framework/WorkSlots.lean`: the sender's
queue has a line for each of three priorities, the receiver's has one.

`writeMessage` and `readMessage` are modelled by what they send on the channel of completions, given
what the calls of the network library return: one value on every path, which is what the loops rely
on.

The concurrency is configured as a `uint32` and kept as an `int32`.  Zero stands for the default, but
a number from `2 ^ 31` on becomes negative: such a sender starts no write at all, although it has no
write running.  Apart from that the loops lose, repeat and reorder nothing.
-/

namespace GoMedibloc

/-! ## The queue of messages -/

/-- A message to be sent, with its priority. -/
structure SendMessage where
  receiver : String
  bytes : List UInt8
  priority : ℤ
deriving DecidableEq

/-- `MessagePriorityHigh`. -/
def messagePriorityHigh : ℤ := 0

/-- `MessagePriorityNormal`. -/
def messagePriorityNormal : ℤ := 1

/-- The line in which a message waits: those of the two priorities, and one for all others. -/
def SendMessage.line (msg : SendMessage) : Fin 3 :=
  if msg.priority = messagePriorityHigh then 0
  else if msg.priority = messagePriorityNormal then 1
  else 2

/-- The messages that wait, each in its line. -/
structure SendMessageQ where
  highPriorityMessages : List SendMessage
  normalPriorityMessages : List SendMessage
  lowPriorityMessages : List SendMessage
  high : ∀ msg ∈ highPriorityMessages, msg.line = 0
  normal : ∀ msg ∈ normalPriorityMessages, msg.line = 1
  low : ∀ msg ∈ lowPriorityMessages, msg.line = 2

namespace SendMessageQ

variable {q q' : SendMessageQ} {msg : SendMessage}

/-- `newMessageQ`. -/
def newMessageQ : SendMessageQ where
  highPriorityMessages := []
  normalPriorityMessages := []
  lowPriorityMessages := []
  high _ h := absurd h List.not_mem_nil
  normal _ h := absurd h List.not_mem_nil
  low _ h := absurd h List.not_mem_nil

/-- `pop`. -/
def pop : SendMessageQ → Option (SendMessage × SendMessageQ)
  | ⟨msg :: rest, normal, low, h₀, h₁, h₂⟩ =>
    some (msg, ⟨rest, normal, low, fun m hm => h₀ m (List.mem_cons_of_mem _ hm), h₁, h₂⟩)
  | ⟨[], msg :: rest, low, h₀, h₁, h₂⟩ =>
    some (msg, ⟨[], rest, low, h₀, fun m hm => h₁ m (List.mem_cons_of_mem _ hm), h₂⟩)
  | ⟨[], [], msg :: rest, h₀, h₁, h₂⟩ =>
    some (msg, ⟨[], [], rest, h₀, h₁, fun m hm => h₂ m (List.mem_cons_of_mem _ hm)⟩)
  | ⟨[], [], [], _, _, _⟩ => none

/-- A message at the end of a line of messages like it. -/
lemma line_of_append {l : List SendMessage} {r : Fin 3} (hl : ∀ m ∈ l, m.line = r)
    (hmsg : msg.line = r) : ∀ m ∈ l ++ [msg], m.line = r := by
  intro m hm
  obtain hm | hm := List.mem_append.1 hm
  · exact hl m hm
  · rw [List.mem_singleton.1 hm, hmsg]

/-- `put`. -/
def put (q : SendMessageQ) (msg : SendMessage) : SendMessageQ :=
  if hhigh : msg.priority = messagePriorityHigh then
    { q with
      highPriorityMessages := q.highPriorityMessages ++ [msg]
      high := line_of_append q.high (if_pos hhigh) }
  else if hnormal : msg.priority = messagePriorityNormal then
    { q with
      normalPriorityMessages := q.normalPriorityMessages ++ [msg]
      normal := line_of_append q.normal ((if_neg hhigh).trans (if_pos hnormal)) }
  else
    { q with
      lowPriorityMessages := q.lowPriorityMessages ++ [msg]
      low := line_of_append q.low ((if_neg hhigh).trans (if_neg hnormal)) }

/-- The lines, that of the high priority first. -/
def line (q : SendMessageQ) : Fin 3 → List SendMessage
  | 0 => q.highPriorityMessages
  | 1 => q.normalPriorityMessages
  | 2 => q.lowPriorityMessages

lemma line_put (q : SendMessageQ) (msg : SendMessage) (r : Fin 3) :
    (q.put msg).line r = if msg.line = r then q.line r ++ [msg] else q.line r := by
  by_cases hhigh : msg.priority = messagePriorityHigh
  · have hline : msg.line = 0 := if_pos hhigh
    rw [put, dif_pos hhigh, hline]
    fin_cases r <;> rfl
  · by_cases hnormal : msg.priority = messagePriorityNormal
    · have hline : msg.line = 1 := (if_neg hhigh).trans (if_pos hnormal)
      rw [put, dif_neg hhigh, dif_pos hnormal, hline]
      fin_cases r <;> rfl
    · have hline : msg.line = 2 := (if_neg hhigh).trans (if_neg hnormal)
      rw [put, dif_neg hhigh, dif_neg hnormal, hline]
      fin_cases r <;> rfl

lemma line_of_pop_none (hpop : q.pop = none) (r : Fin 3) : q.line r = [] := by
  obtain ⟨_ | ⟨_, _⟩, _ | ⟨_, _⟩, _ | ⟨_, _⟩, h₀, h₁, h₂⟩ := q
  · fin_cases r <;> rfl
  all_goals cases hpop

/-- `pop` takes the message at the front of its line, and the lines before that are empty. -/
lemma line_pop (hpop : q.pop = some (msg, q')) :
    (∀ r, q.line r = if msg.line = r then msg :: q'.line r else q'.line r) ∧
      ∀ r < msg.line, q'.line r = [] := by
  obtain ⟨high, normal, low, h₀, h₁, h₂⟩ := q
  cases high with
  | cons m rest =>
      cases hpop
      rw [h₀ _ List.mem_cons_self]
      exact ⟨fun r => by fin_cases r <;> rfl, fun r hr => absurd hr (Fin.not_lt_zero r)⟩
  | nil =>
      cases normal with
      | cons m rest =>
          cases hpop
          rw [h₁ _ List.mem_cons_self]
          refine ⟨fun r => by fin_cases r <;> rfl, fun r hr => ?_⟩
          rw [(Fin.lt_one_iff r).1 hr]
          rfl
      | nil =>
          cases low with
          | cons m rest =>
              cases hpop
              rw [h₂ _ List.mem_cons_self]
              refine ⟨fun r => by fin_cases r <;> rfl, fun r hr => ?_⟩
              fin_cases r
              · rfl
              · rfl
              · exact absurd hr (lt_irrefl _)
          | nil => cases hpop

/-- The queue of the sender. -/
def ranked : RankedQueue SendMessageQ SendMessage (Fin 3) where
  empty := newMessageQ
  put := put
  pop := pop
  rank := SendMessage.line
  line := line
  line_empty r := by fin_cases r <;> rfl
  line_put := line_put
  pop_none _ := line_of_pop_none
  line_pop _ _ _ hpop := (line_pop hpop).1
  pop_first _ _ _ hpop := (line_pop hpop).2

end SendMessageQ

/-! ## The sender -/

/-- The state of the sender's loop: the queue, `sending` and `maxSending`. -/
abbrev MessageSender := Slots SendMessageQ

namespace MessageSender

/-- `DefaultMaxWriteConcurrency`. -/
def defaultMaxWriteConcurrency : Int32 := 100

/-- `newMessageSender`. -/
def newMessageSender (maxConcurrency : Int32) : MessageSender where
  queue := SendMessageQ.newMessageQ
  busy := 0
  limit := if maxConcurrency = 0 then defaultMaxWriteConcurrency else maxConcurrency

/-- `handleNewMessage`: the write that is started, if any, and the sender after it. -/
def handleNewMessage (ms : MessageSender) (msg : SendMessage) : Option SendMessage × MessageSender :=
  Slots.arrive SendMessageQ.ranked ms msg

/-- `finishSendMessage`, which does not look at the error. -/
def finishSendMessage {ε : Type} (ms : MessageSender) (_err : Option ε) :
    Option SendMessage × MessageSender :=
  Slots.finish SendMessageQ.ranked ms

/-- `writeMessage`, by what it sends on the channel of completions, given what opening the stream,
setting its deadline and writing to it return. -/
def writeMessage {ε : Type} (newStream setWriteDeadline write : Option ε) : List (Option ε) :=
  match newStream with
  | some err => [some err]
  | none =>
    match setWriteDeadline with
    | some err => [some err]
    | none =>
      match write with
      | some err => [some err]
      | none => [none]

end MessageSender

/-! ## The receiver -/

/-- The streams that wait to be read. -/
structure StreamQ (σ : Type) where
  streams : List σ

namespace StreamQ

variable {σ : Type}

/-- `newStreamQ`. -/
def newStreamQ : StreamQ σ := ⟨[]⟩

/-- `pop`. -/
def pop (q : StreamQ σ) : Option (σ × StreamQ σ) :=
  match q.streams with
  | s :: rest => some (s, ⟨rest⟩)
  | [] => none

/-- `put`. -/
def put (q : StreamQ σ) (s : σ) : StreamQ σ := ⟨q.streams ++ [s]⟩

/-- The queue of the receiver, with one line. -/
def ranked : RankedQueue (StreamQ σ) σ (Fin 1) where
  empty := newStreamQ
  put := put
  pop := pop
  rank _ := 0
  line q _ := q.streams
  line_empty _ := rfl
  line_put _ _ r := by rw [if_pos (Subsingleton.elim 0 r)]; rfl
  pop_none q hpop _ := by
    obtain ⟨_ | ⟨_, _⟩⟩ := q
    · rfl
    · cases hpop
  line_pop q m q' hpop r := by
    obtain ⟨_ | ⟨_, _⟩⟩ := q
    · cases hpop
    · cases hpop
      rw [if_pos (Subsingleton.elim 0 r)]
  pop_first _ _ _ _ r hr := absurd hr (Fin.not_lt_zero r)

end StreamQ

/-- The state of the receiver's loop: the queue, `receiving` and `maxReceiving`. -/
abbrev MessageReceiver (σ : Type) := Slots (StreamQ σ)

namespace MessageReceiver

variable {σ : Type}

/-- `DefaultMaxReadConcurrency`. -/
def defaultMaxReadConcurrency : Int32 := 100

/-- `newMessageReceiver`. -/
def newMessageReceiver (maxConcurrency : Int32) : MessageReceiver σ where
  queue := StreamQ.newStreamQ
  busy := 0
  limit := if maxConcurrency = 0 then defaultMaxReadConcurrency else maxConcurrency

/-- `handleNewStream`: the read that is started, if any, and the receiver after it. -/
def handleNewStream (mr : MessageReceiver σ) (s : σ) : Option σ × MessageReceiver σ :=
  Slots.arrive StreamQ.ranked mr s

/-- `finishReadMessage`, which does not look at the error. -/
def finishReadMessage {ε : Type} (mr : MessageReceiver σ) (_err : Option ε) :
    Option σ × MessageReceiver σ :=
  Slots.finish StreamQ.ranked mr

/-- `readMessage`, by the message it passes on, if any, and what it sends on the channel of
completions, given what setting the deadline, reading the stream and decoding return. -/
def readMessage {ε β γ : Type} (setReadDeadline : Option ε) (readAll : Except ε β)
    (newRecvMessage : β → Except ε γ) : Option γ × List (Option ε) :=
  match setReadDeadline with
  | some err => (none, [some err])
  | none =>
    match readAll with
    | .error err => (none, [some err])
    | .ok bytes =>
      match newRecvMessage bytes with
      | .error err => (none, [some err])
      | .ok msg => (some msg, [none])

end MessageReceiver

/-! ## Whole runs -/

/-- The concurrency that is kept for a configured one. -/
def keptConcurrency (default : Int32) (configured : UInt32) : Int32 :=
  if configured.toInt32 = 0 then default else configured.toInt32

/-- It is negative for configured numbers that are too large. -/
lemma keptConcurrency_nonneg {default : Int32} (hdefault : 0 ≤ default) {configured : UInt32} :
    0 ≤ keptConcurrency default configured ↔ configured < 2 ^ 31 := by
  have htoInt : configured.toInt32.toInt =
      if 2 * configured.toNat < 2 ^ 32 then (configured.toNat : ℤ) else configured.toNat - 2 ^ 32 :=
    BitVec.toInt_eq_toNat_cond _
  have hlt : configured < 2 ^ 31 ↔ configured.toNat < 2 ^ 31 := UInt32.lt_iff_toNat_lt
  have hsize := configured.toNat_lt
  rw [keptConcurrency, hlt]
  split_ifs with hzero
  · rw [hzero] at htoInt
    refine ⟨fun _ => ?_, fun _ => hdefault⟩
    change (0 : ℤ) = _ at htoInt
    split_ifs at htoInt <;> omega
  · rw [Int32.le_iff_toInt_le, htoInt]
    change (0 : ℤ) ≤ _ ↔ _
    split_ifs <;> omega

/-- **The sender and the receiver lose, repeat and reorder nothing**, whatever arrives and in
whichever order writes and reads complete, if and only if the configured concurrencies fit in an
`int32`. -/
theorem sender_receiver_serve_iff {σ : Type} [DecidableEq σ] (maxWrite maxRead : UInt32) :
    (Workplace.Serves SendMessageQ.ranked
        (.opened (MessageSender.newMessageSender maxWrite.toInt32)) ∧
      Workplace.Serves StreamQ.ranked
        (.opened (MessageReceiver.newMessageReceiver maxRead.toInt32 : MessageReceiver σ))) ↔
    maxWrite < 2 ^ 31 ∧ maxRead < 2 ^ 31 := by
  refine and_congr ?_ ?_
  · exact Workplace.serves_iff.trans (keptConcurrency_nonneg (by decide))
  · exact Workplace.serves_iff.trans (keptConcurrency_nonneg (by decide))

/-- With a concurrency of three thousand million no write runs, none is started for a message that
arrives, and the message waits. -/
theorem large_concurrency_sends_nothing :
    let msg : SendMessage := ⟨"peer", [1], messagePriorityHigh⟩
    ∃ s, (Workplace.opened (MessageSender.newMessageSender (3000000000 : UInt32).toInt32)).run
        SendMessageQ.ranked [.arrive msg] = some s ∧
      s.started = [] ∧ SendMessageQ.ranked.line s.slots.queue 0 = [msg] ∧
      s.slots.busy = 0 ∧ s.slots.busy ≠ s.slots.limit ∧ ¬ s.slots.busy ≤ s.slots.limit := by
  refine ⟨_, rfl, ?_⟩
  decide +kernel

end GoMedibloc
