import GoMedibloc.Chain.BlockChain

/-!
# Downloading missing blocks

A node that receives a block far above its own chain downloads what is missing in two phases.
`findBaseBlock` looks for the highest block it shares with its peers, by bisection between the
latest irreversible block (LIB) and the target: for a height in the middle a peer names the block
of its own chain, and the node looks whether it has that block.  `stepUpRequest` then requests
the heights above the base block, a few at a time.

What the peers answer is not trusted, and any number of answers may be refused, missing or late.
The search ends all the same: every accepted answer halves the interval
(`findBaseLoop_spec`), so there are at most `log₂ n + 1` of them for a target `n` blocks above
the LIB.  But an answer names a block by its hash alone, and `handleFindBaseResponse` does not look
at the height of the block that it finds.  A peer that names a block of another height moves
the lower bound to the height that was asked for and the base block somewhere else.
`base_is_sound_iff` says exactly when base block and lower bound fit together at the end, and then
the heights that are requested are those between the base block and the target.
-/

namespace GoMedibloc

open Relation

/-- The errors of the download. -/
inductive SyncErr
  | contextDone
  | downloadCtxDone
  | unmarshal
  | notFound
  | differentTargetHash
  | limitedRetry
deriving DecidableEq, Repr

/-- `FindBaseResponse`. -/
structure FindBaseResponse where
  status : Bool
  targetHash : Hash
  tryHash : Hash
deriving DecidableEq, Repr

/-- `download`, with what the search for the base block uses. -/
structure Download (B : Type) where
  targetHeight : ℕ
  targetHash : Hash
  tryHeight : ℕ
  low : ℕ
  high : ℕ
  baseBlock : B

variable {B : Type}

/-! ## The search for the base block -/

/-- `handleFindBaseResponse`; `none` is a message that cannot be unmarshalled. -/
def handleFindBaseResponse (bc : BlockChain B) (d : Download B) :
    Option FindBaseResponse → Except SyncErr (Download B)
  | none => .error .unmarshal
  | some res =>
    if ¬ res.status then .error .notFound
    else if d.targetHash ≠ res.targetHash then .error .differentTargetHash
    else match bc.blockByHash res.tryHash with
      | none => .ok { d with high := d.tryHeight }
      | some b => .ok { d with low := d.tryHeight, baseBlock := b }

/-- What a peer's turn in `RequestAndResponse` brings: the context is done, or a message. -/
abbrev Answer := Option (Option FindBaseResponse)

/-- `RequestAndResponse` with `handleFindBaseResponse`: the first answer that is accepted. -/
def requestAndResponse (bc : BlockChain B) (d : Download B) :
    List Answer → Option (Download B × FindBaseResponse)
  | [] => none
  | none :: answers => requestAndResponse bc d answers
  | some none :: answers => requestAndResponse bc d answers
  | some (some res) :: answers =>
    match handleFindBaseResponse bc d (some res) with
    | .ok d' => some (d', res)
    | .error _ => requestAndResponse bc d answers

/-- The retries of one request; the peers are silent when `calls` has ended. -/
def requestWithRetries (bc : BlockChain B) (d : Download B) :
    ℕ → List (List Answer) → Option (Download B × FindBaseResponse)
  | 0, _ => none
  | retries + 1, calls =>
    match requestAndResponse bc d (calls.headD []) with
    | some accepted => some accepted
    | none => requestWithRetries bc d retries calls.tail

/-- What happens during one round of the search: whether the download is cancelled, and the
answers to each call of `RequestAndResponse`. -/
structure SearchRound where
  ctxDone : Bool
  calls : List (List Answer)

/-- The loop of `findBaseBlock`.  `trace` lists the accepted responses with the heights that were
asked for; `none` if the loop takes more than `fuel` rounds. -/
def findBaseLoop (bc : BlockChain B) (numberOfRetries : ℕ) (env : ℕ → SearchRound) :
    ℕ → List (ℕ × FindBaseResponse) → Download B →
      Option (Except SyncErr (Download B) × List (ℕ × FindBaseResponse))
  | 0, _, _ => none
  | fuel + 1, trace, d =>
    if (env trace.length).ctxDone then some (.error .downloadCtxDone, trace)
    else
      let d := { d with tryHeight := (d.high + d.low) % 2 ^ 64 / 2 }
      if d.tryHeight = d.low then some (.ok d, trace)
      else match requestWithRetries bc d numberOfRetries (env trace.length).calls with
        | none => some (.error .limitedRetry, trace)
        | some (d', res) =>
          findBaseLoop bc numberOfRetries env fuel (trace ++ [(d.tryHeight, res)]) d'

/-- `findBaseBlock`. -/
def findBaseBlock [HashableBlock B] (bc : BlockChain B) (numberOfRetries : ℕ) (env : ℕ → SearchRound)
    (targetHeight : ℕ) (targetHash : Hash) (fuel : ℕ) :
    Option (Except SyncErr (Download B) × List (ℕ × FindBaseResponse)) :=
  findBaseLoop bc numberOfRetries env fuel []
    ⟨targetHeight, targetHash, 0, height bc.lib, targetHeight, bc.lib⟩

/-! ## The requests for the missing blocks -/

/-- `stepUpRequest`: the last height that was requested, the requests without an answer, all
heights that were requested, and the result once it has returned. -/
structure StepUp where
  height : ℕ
  numberOfRequests : ℕ
  requested : List ℕ
  result : Option (Except SyncErr Unit)

/-- The loop starts at the height of the base block. -/
def StepUp.start (baseHeight : ℕ) : StepUp := ⟨baseHeight, 0, [], none⟩

/-- A round of the loop of `stepUpRequest`. -/
inductive StepUp.Step (activeDownloadLimit targetHeight : ℕ) : StepUp → StepUp → Prop
  | ctxDone (s : StepUp) (hrun : s.result = none) :
      Step _ _ s { s with result := some (.error .contextDone) }
  | failed (s : StepUp) (hrun : s.result = none) (hsome : 0 < s.numberOfRequests) :
      Step _ _ s { s with result := some (.error .limitedRetry) }
  | answered (s : StepUp) (hrun : s.result = none) (hsome : 0 < s.numberOfRequests) :
      Step _ _ s { s with
        numberOfRequests := s.numberOfRequests - 1
        result := if s.numberOfRequests - 1 = 0 ∧ s.height = targetHeight then some (.ok ())
          else none }
  | request (s : StepUp) (hrun : s.result = none)
      (hlimit : s.numberOfRequests < activeDownloadLimit) (hheight : s.height ≠ targetHeight) :
      Step _ _ s { s with
        numberOfRequests := s.numberOfRequests + 1
        height := (s.height + 1) % 2 ^ 64
        requested := s.requested ++ [(s.height + 1) % 2 ^ 64] }

/-- The heights above the base block, up to the target. -/
def missingHeights (baseHeight targetHeight : ℕ) : List ℕ :=
  List.range' (baseHeight + 1) (targetHeight - baseHeight)

/-- What has been requested while the loop is at a height. -/
lemma StepUp.requested_eq {limit baseHeight targetHeight : ℕ} (hbase : baseHeight ≤ targetHeight)
    (htarget : targetHeight < 2 ^ 64) {s : StepUp}
    (hrun : ReflTransGen (Step limit targetHeight) (start baseHeight) s) :
    baseHeight ≤ s.height ∧ s.height ≤ targetHeight ∧
      s.requested = missingHeights baseHeight s.height ∧
      (s.result = some (.ok ()) → s.height = targetHeight) := by
  induction hrun with
  | refl => exact ⟨le_rfl, hbase, by simp [start, missingHeights], nofun⟩
  | @tail s _ _ hstep ih =>
      obtain ⟨hlow, hhigh, hreq, -⟩ := ih
      cases hstep with
      | ctxDone | failed => exact ⟨hlow, hhigh, hreq, nofun⟩
      | answered =>
          refine ⟨hlow, hhigh, hreq, fun hres => ?_⟩
          dsimp only at hres
          split_ifs at hres with h
          exact h.2
      | request hrun hlimit hheight =>
          have hmod : (s.height + 1) % 2 ^ 64 = s.height + 1 := Nat.mod_eq_of_lt (by omega)
          refine ⟨by dsimp only; omega, by dsimp only; omega, ?_, ?_⟩
          · dsimp only
            rw [hreq, hmod, missingHeights, missingHeights]
            have hlen : s.height + 1 - baseHeight = s.height - baseHeight + 1 := by omega
            have hlast : baseHeight + 1 + (s.height - baseHeight) = s.height + 1 := by omega
            rw [hlen, List.range'_concat, one_mul, hlast]
          · intro hres
            exact absurd (hrun.symm.trans hres) nofun

/-! ## The search ends -/

section Search

variable {bc : BlockChain B} {d d' : Download B} {res : FindBaseResponse}
  {trace : List (ℕ × FindBaseResponse)}

lemma requestAndResponse_spec {answers : List Answer}
    (h : requestAndResponse bc d answers = some (d', res)) :
    handleFindBaseResponse bc d (some res) = .ok d' := by
  induction answers with
  | nil => cases h
  | cons answer answers ih =>
      match answer with
      | none => exact ih h
      | some none => exact ih h
      | some (some res₀) =>
          rw [requestAndResponse] at h
          cases hres : handleFindBaseResponse bc d (some res₀) with
          | error e => exact ih (by simpa [hres] using h)
          | ok d₀ =>
              simp only [hres, Option.some_inj, Prod.mk.injEq] at h
              rw [← h.1, ← h.2, hres]

lemma requestWithRetries_spec {retries : ℕ} {calls : List (List Answer)}
    (h : requestWithRetries bc d retries calls = some (d', res)) :
    handleFindBaseResponse bc d (some res) = .ok d' := by
  induction retries generalizing calls with
  | zero => cases h
  | succ retries ih =>
      rw [requestWithRetries] at h
      cases hcall : requestAndResponse bc d (calls.headD []) with
      | none =>
          simp only [hcall] at h
          exact ih h
      | some accepted =>
          simp only [hcall, Option.some_inj] at h
          exact requestAndResponse_spec (h ▸ hcall)

/-- What an accepted response does: the upper bound moves down to the height asked for, or the
lower bound up to it, with the block that the response names as the base block. -/
lemma handleFindBaseResponse_cases (h : handleFindBaseResponse bc d (some res) = .ok d') :
    (bc.blockByHash res.tryHash = none ∧ d' = { d with high := d.tryHeight }) ∨
    ∃ b, bc.blockByHash res.tryHash = some b ∧
      d' = { d with low := d.tryHeight, baseBlock := b } := by
  rw [handleFindBaseResponse] at h
  split_ifs at h
  cases hb : bc.blockByHash res.tryHash with
  | none =>
      simp only [hb, Except.ok.injEq] at h
      exact .inl ⟨rfl, h.symm⟩
  | some b =>
      simp only [hb, Except.ok.injEq] at h
      exact .inr ⟨b, rfl, h.symm⟩

/-- The last accepted response that names a stored block, with the height that was asked for. -/
def lastHit (bc : BlockChain B) (trace : List (ℕ × FindBaseResponse)) :
    Option (ℕ × FindBaseResponse) :=
  (trace.filter fun e => (bc.blockByHash e.2.tryHash).isSome).getLast?

lemma lastHit_of_hit {t : ℕ} {b : B} (h : bc.blockByHash res.tryHash = some b) :
    lastHit bc (trace ++ [(t, res)]) = some (t, res) := by
  simp [lastHit, h]

lemma lastHit_of_miss {t : ℕ} (h : bc.blockByHash res.tryHash = none) :
    lastHit bc (trace ++ [(t, res)]) = lastHit bc trace := by
  simp [lastHit, h]

variable [HashableBlock B]

/-- The state of the search after the responses in `trace`: the interval is not empty and below
the target, and lower bound and base block come from the last response that named a stored block,
or from the LIB if there is none. -/
structure Searching (bc : BlockChain B) (targetHeight : ℕ) (d : Download B)
    (trace : List (ℕ × FindBaseResponse)) : Prop where
  low_lt : d.low < d.high
  high_le : d.high ≤ targetHeight
  start : lastHit bc trace = none → d.baseBlock = bc.lib ∧ d.low = height bc.lib
  hit : ∀ t res, lastHit bc trace = some (t, res) →
    d.low = t ∧ bc.blockByHash res.tryHash = some d.baseBlock

/-- One accepted response keeps the search going, in at most half of the interval. -/
lemma Searching.step {targetHeight mid : ℕ} (h : Searching bc targetHeight d trace)
    (hmid : mid = (d.high + d.low) / 2) (hne : mid ≠ d.low)
    (hres : handleFindBaseResponse bc { d with tryHeight := mid } (some res) = .ok d') :
    Searching bc targetHeight d' (trace ++ [(mid, res)]) ∧
      d'.high - d'.low ≤ (d.high - d.low + 1) / 2 := by
  obtain ⟨hlow, hhigh, hstart, hhit⟩ := h
  rcases handleFindBaseResponse_cases hres with ⟨hnone, rfl⟩ | ⟨b, hb, rfl⟩
  · refine ⟨⟨?_, ?_, ?_, ?_⟩, ?_⟩
    · change d.low < mid
      omega
    · change mid ≤ targetHeight
      omega
    · rw [lastHit_of_miss hnone]
      exact hstart
    · rw [lastHit_of_miss hnone]
      exact hhit
    · change mid - d.low ≤ _
      omega
  · refine ⟨⟨?_, hhigh, ?_, ?_⟩, ?_⟩
    · change mid < d.high
      omega
    · rw [lastHit_of_hit hb]
      exact nofun
    · intro t res' heq
      rw [lastHit_of_hit hb, Option.some_inj, Prod.mk.injEq] at heq
      exact ⟨heq.1, heq.2 ▸ hb⟩
    · change d.high - mid ≤ _
      omega

/-- The search ends, after at most as many accepted responses as the interval can be halved. -/
lemma findBaseLoop_spec {targetHeight : ℕ} (hrange : targetHeight ≤ 2 ^ 63) (numberOfRetries : ℕ)
    (env : ℕ → SearchRound) (h : Searching bc targetHeight d trace) :
    ∃ result trace', (∀ fuel > Nat.clog 2 (d.high - d.low),
        findBaseLoop bc numberOfRetries env fuel trace d = some (result, trace')) ∧
      trace'.length ≤ trace.length + Nat.clog 2 (d.high - d.low) ∧
      ∀ d', result = .ok d' → Searching bc targetHeight d' trace' := by
  -- by induction on the length of the interval
  induction hlen : d.high - d.low using Nat.strong_induction_on generalizing d trace with
  | _ n ih =>
      have hlow := h.low_lt
      have hhigh := h.high_le
      obtain ⟨mid, hmid⟩ : ∃ mid, mid = (d.high + d.low) / 2 := ⟨_, rfl⟩
      have hwrap : (d.high + d.low) % 2 ^ 64 / 2 = mid := by
        rw [Nat.mod_eq_of_lt (by omega), hmid]
      have hloop : ∀ fuel, findBaseLoop bc numberOfRetries env (fuel + 1) trace d =
          if (env trace.length).ctxDone then some (.error .downloadCtxDone, trace)
          else if mid = d.low then some (.ok { d with tryHeight := mid }, trace)
          else match requestWithRetries bc { d with tryHeight := mid } numberOfRetries
              (env trace.length).calls with
            | none => some (.error .limitedRetry, trace)
            | some (d', res) =>
              findBaseLoop bc numberOfRetries env fuel (trace ++ [(mid, res)]) d' := by
        intro fuel
        rw [findBaseLoop, hwrap]
      by_cases hdone : (env trace.length).ctxDone
      · refine ⟨.error .downloadCtxDone, trace, fun fuel hfuel => ?_, by omega, nofun⟩
        obtain ⟨fuel, rfl⟩ := Nat.exists_eq_add_of_lt hfuel
        rw [hloop, if_pos hdone]
      by_cases heq : mid = d.low
      · refine ⟨.ok { d with tryHeight := mid }, trace, fun fuel hfuel => ?_, by omega, ?_⟩
        · obtain ⟨fuel, rfl⟩ := Nat.exists_eq_add_of_lt hfuel
          rw [hloop, if_neg hdone, if_pos heq]
        · intro d' hd'
          obtain rfl := Except.ok.inj hd'
          exact ⟨h.low_lt, h.high_le, h.start, h.hit⟩
      cases hreq : requestWithRetries bc { d with tryHeight := mid } numberOfRetries
          (env trace.length).calls with
      | none =>
          refine ⟨.error .limitedRetry, trace, fun fuel hfuel => ?_, by omega, nofun⟩
          obtain ⟨fuel, rfl⟩ := Nat.exists_eq_add_of_lt hfuel
          rw [hloop, if_neg hdone, if_neg heq, hreq]
      | some accepted =>
          obtain ⟨d₁, res⟩ := accepted
          obtain ⟨hnext, hhalf⟩ := h.step hmid heq (requestWithRetries_spec hreq)
          have hclog : Nat.clog 2 n = Nat.clog 2 ((n + 1) / 2) + 1 :=
            Nat.clog_of_two_le (by norm_num) (by omega)
          have hless : Nat.clog 2 (d₁.high - d₁.low) + 1 ≤ Nat.clog 2 n := by
            rw [hclog]
            exact Nat.succ_le_succ (Nat.clog_mono_right 2 (by omega))
          obtain ⟨result, trace', hfuel, hlength, hok⟩ := ih _ (by omega) hnext rfl
          refine ⟨result, trace', fun fuel hlt => ?_, ?_, hok⟩
          · obtain ⟨fuel, rfl⟩ := Nat.exists_eq_add_of_lt hlt
            rw [hloop, if_neg hdone, if_neg heq, hreq]
            exact hfuel _ (by omega)
          · rw [List.length_append, List.length_singleton] at hlength
            omega

lemma clog_le_log_succ (n : ℕ) : Nat.clog 2 n ≤ Nat.log 2 n + 1 :=
  Nat.clog_le_of_le_pow (Nat.lt_pow_succ_log_self (by norm_num) n).le

/-- The base block has the height of the lower bound exactly if the last response that named a
stored block named one of the height asked for. -/
lemma Searching.height_eq_iff {targetHeight : ℕ} (h : Searching bc targetHeight d trace) :
    height d.baseBlock = d.low ↔
      ∀ t res b, lastHit bc trace = some (t, res) → bc.blockByHash res.tryHash = some b →
        height b = t := by
  cases hlast : lastHit bc trace with
  | none =>
      obtain ⟨hbase, hlow⟩ := h.start hlast
      rw [hbase, hlow]
      simp
  | some e =>
      obtain ⟨t, res⟩ := e
      obtain ⟨hlow, hbase⟩ := h.hit t res hlast
      constructor
      · intro heq t' res' b hsome hb
        obtain ⟨rfl, rfl⟩ := Prod.mk.inj (Option.some_inj.1 hsome)
        rw [hbase, Option.some_inj] at hb
        rw [← hb, heq, hlow]
      · intro hheight
        rw [hlow]
        exact hheight t res _ rfl hbase

/-- The base block is stored. -/
lemma Searching.stored {g : B} {targetHeight : ℕ} (h : Searching bc targetHeight d trace)
    (hc : ChainOk g bc) : Stored bc.blocks d.baseBlock := by
  cases hlast : lastHit bc trace with
  | none =>
      rw [(h.start hlast).1]
      exact hc.lib_stored
  | some e => exact hc.store.stored_of_eq (h.hit e.1 e.2 hlast).2

/-- **The search ends, and its base block is sound exactly if the peers do not lie about it.**
Whatever the peers answer, the search ends after at most `log₂ n + 1` accepted responses for a target
`n` blocks above the LIB.  When it finds a base block, the following holds exactly if the last
accepted response that named a stored block named one of the height that was asked for: the base
block is stored, has the height of the lower bound and is below the target, and the heights that
are requested then are, in order and each once, those above it up to the target. -/
theorem base_is_sound_iff {g : B} (hc : ChainOk g bc) (targetHeight : ℕ)
    (hbelow : height bc.lib < targetHeight) (hrange : targetHeight ≤ 2 ^ 63) (targetHash : Hash)
    (numberOfRetries activeDownloadLimit : ℕ) (env : ℕ → SearchRound) :
    ∃ result trace,
      (∀ fuel > Nat.log 2 (targetHeight - height bc.lib) + 1,
        findBaseBlock bc numberOfRetries env targetHeight targetHash fuel =
          some (result, trace)) ∧
      trace.length ≤ Nat.log 2 (targetHeight - height bc.lib) + 1 ∧
      ∀ d, result = .ok d →
        ((Stored bc.blocks d.baseBlock ∧ height d.baseBlock = d.low ∧
          height d.baseBlock < targetHeight ∧
          ∀ s, ReflTransGen (StepUp.Step activeDownloadLimit targetHeight)
              (.start (height d.baseBlock)) s →
            s.requested <+: missingHeights (height d.baseBlock) targetHeight ∧
            (s.result = some (.ok ()) →
              s.requested = missingHeights (height d.baseBlock) targetHeight)) ↔
        ∀ t res b, lastHit bc trace = some (t, res) → bc.blockByHash res.tryHash = some b →
          height b = t) := by
  have hstart : Searching bc targetHeight
      ⟨targetHeight, targetHash, 0, height bc.lib, targetHeight, bc.lib⟩ [] :=
    ⟨hbelow, le_rfl, fun _ => ⟨rfl, rfl⟩, nofun⟩
  obtain ⟨result, trace, hfuel, hlength, hok⟩ :=
    findBaseLoop_spec hrange numberOfRetries env hstart
  have hlog := clog_le_log_succ (targetHeight - height bc.lib)
  refine ⟨result, trace, fun fuel hlt => hfuel fuel (by dsimp only; omega), ?_, fun d hd => ?_⟩
  · dsimp only at hlength
    rw [List.length_nil] at hlength
    omega
  · have hsearch := hok d hd
    rw [← hsearch.height_eq_iff]
    constructor
    · exact fun hsound => hsound.2.1
    · intro hheight
      have hbase : height d.baseBlock < targetHeight := by
        have := hsearch.low_lt
        have := hsearch.high_le
        omega
      refine ⟨hsearch.stored hc, hheight, hbase, fun s hrun => ?_⟩
      obtain ⟨hlow, hhigh, hreq, hdone⟩ := StepUp.requested_eq hbase.le (by omega) hrun
      refine ⟨?_, fun hres => by rw [hreq, hdone hres]⟩
      rw [hreq]
      refine ⟨List.range' (s.height + 1) (targetHeight - s.height), ?_⟩
      have hnext : s.height + 1 = height d.baseBlock + 1 + (s.height - height d.baseBlock) := by
        omega
      have hsum : targetHeight - height d.baseBlock =
          s.height - height d.baseBlock + (targetHeight - s.height) := by omega
      rw [missingHeights, missingHeights, hsum, ← List.range'_append_1, hnext]

end Search

/-! ## A search among lying peers -/

namespace BareBlock

/-- A chain of the genesis block alone. -/
def genesisChain : BlockChain BareBlock := .setup ⟨[0], [7], 1, 0⟩ 8

lemma chainOk_genesisChain : ChainOk ⟨[0], [7], 1, 0⟩ genesisChain := by
  have hs : StoreOk ⟨[0], [7], 1, 0⟩ genesisChain.blocks := StoreOk.setup rfl (by decide)
  refine ⟨hs, hs.genesis, fun b hb => ?_, .refl _⟩
  obtain ⟨-, rfl⟩ := BlockChain.setup_blocks.1 (hs.stored_of_ancestor hs.genesis hb)
  rfl

/-- In the first round a peer names the block `h`, in later ones blocks that nobody knows. -/
def naming (h : Hash) (i : ℕ) : SearchRound :=
  ⟨false, [[some (some ⟨true, [5], if i = 0 then h else [9]⟩)]]⟩

/-- Peers that name unknown blocks lead to the genesis block, after two responses. -/
theorem unknown_blocks_lead_to_genesis :
    ∃ d trace, findBaseBlock genesisChain 5 (naming [9]) 5 [5] 9 = some (.ok d, trace) ∧
      trace.length = 2 ∧ Stored genesisChain.blocks d.baseBlock ∧
      GoMedibloc.height d.baseBlock = d.low ∧ GoMedibloc.height d.baseBlock < 5 := by
  obtain ⟨d, trace, hrun, hlength, hmiss⟩ : ∃ d trace,
      findBaseBlock genesisChain 5 (naming [9]) 5 [5] 9 = some (.ok d, trace) ∧
      trace.length = 2 ∧ lastHit genesisChain trace = none := ⟨_, _, rfl, rfl, rfl⟩
  obtain ⟨result, trace', hfuel, -, hsound⟩ := base_is_sound_iff chainOk_genesisChain
    5 (by decide) (by decide) [5] 5 10 (naming [9])
  have heq := hfuel 9 (by decide)
  rw [hrun, Option.some_inj, Prod.mk.injEq] at heq
  obtain ⟨rfl, rfl⟩ := heq
  obtain ⟨hstored, hheight, hbelow, -⟩ := (hsound d rfl).2 (by rw [hmiss]; exact nofun)
  exact ⟨d, trace, hrun, hlength, hstored, hheight, hbelow⟩

/-- A peer that is asked for the block at height 3 and names the genesis block makes it the base
block for the lower bound 3. -/
theorem base_block_is_below_lower_bound :
    ∃ d trace, findBaseBlock genesisChain 5 (naming [0]) 5 [5] 9 = some (.ok d, trace) ∧
      d.low = 3 ∧ GoMedibloc.height d.baseBlock = 1 :=
  ⟨_, _, rfl, rfl, rfl⟩

end BareBlock

end GoMedibloc
