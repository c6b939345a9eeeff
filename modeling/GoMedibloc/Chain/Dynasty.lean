import GoMedibloc.Chain.Mint
import GoMedibloc.Framework.Selection
import GoMedibloc.Ledger.Run

/-!
# Dynasties and their proposers

A dynasty is made of the candidates with the highest vote powers, ordered by address.  It is
computed once for the blocks of its time, from the state of the last block before, and written
into the dpos state; later blocks read their proposer there.

Two things have to agree.  A minter looks for the proposer of a block before the block is made:
it rounds the deadline of its call up to a slot and reads the parent's dynasty or computes the new
one.  A verifier takes the timestamp from the block, writes the new dynasty into the child's state
and reads it there.  `mint_and_verify_agree` says that both find the same proposer, whatever the
instant of the call.

And different nodes have to compute the same dynasty.  The vote powers are sorted by a sort that is
not stable and has no second key, so candidates of one vote power come in any order.  The second
sort, by address, makes up for that inside the dynasty.  It cannot where candidates of one vote
power stand on both sides of the dynasty's boundary, and `dynasty_ignores_sort_iff` says that
this is the only case.
-/

namespace GoMedibloc

open Except

/-! ## Making a dynasty -/

/-- `makeMintDynasty`: the first candidates, filled up with empty addresses, by address. -/
def makeMintDynasty (sortedCandidates : List Address) (dynastySize : ℕ) : List Address :=
  ((List.range dynastySize).map fun i => sortedCandidates.getD i Address.none).insertionSort
    fun a b => a.toList ≤ b.toList

/-- The addresses before they are ordered. -/
lemma map_getD_eq (l : List Address) (n : ℕ) :
    ((List.range n).map fun i => l.getD i Address.none) =
      l.take n ++ List.replicate (n - l.length) Address.none := by
  refine List.ext_getElem (by simp only [List.length_map, List.length_range, List.length_append,
    List.length_take, List.length_replicate]; omega) fun i h₁ _ => ?_
  rw [List.length_map, List.length_range] at h₁
  rw [List.getElem_map, List.getElem_range, List.getElem_append]
  split_ifs with h
  · rw [List.getElem_take]
    exact List.getD_eq_getElem _ _ (by rw [List.length_take] at h; omega)
  · rw [List.getElem_replicate]
    exact List.getD_eq_default _ _ (by rw [List.length_take] at h; omega)

/-- The dynasty holds the first candidates and, if they are too few, the empty address. -/
lemma makeMintDynasty_perm (l : List Address) (n : ℕ) :
    (makeMintDynasty l n).Perm (l.take n ++ List.replicate (n - l.length) Address.none) := by
  rw [← map_getD_eq]
  exact List.perm_insertionSort _ _

/-- The order of the first candidates does not matter. -/
lemma makeMintDynasty_congr {l l' : List Address} {n : ℕ} (hlen : l.length = l'.length)
    (h : (l.take n).Perm (l'.take n)) : makeMintDynasty l n = makeMintDynasty l' n := by
  have htotal : Std.Total fun a b : Address => a.toList ≤ b.toList :=
    ⟨fun a b => List.le_total _ _⟩
  have htrans : IsTrans Address fun a b => a.toList ≤ b.toList :=
    ⟨fun _ _ _ => List.le_trans⟩
  have hantisymm : Std.Antisymm fun a b : Address => a.toList ≤ b.toList :=
    ⟨fun _ _ hab hba => List.Vector.toList_injective (List.le_antisymm hab hba)⟩
  have hperm : (makeMintDynasty l n).Perm (makeMintDynasty l' n) := by
    refine (makeMintDynasty_perm l n).trans (.trans ?_ (makeMintDynasty_perm l' n).symm)
    rw [hlen]
    exact h.append_right _
  exact hperm.eq_of_pairwise' (List.pairwise_insertionSort _ _) (List.pairwise_insertionSort _ _)

/-! ## Ties of vote power -/

/-- The candidates of a dpos state, with different ids and addresses. -/
structure CandidateSet where
  candidates : List Candidate
  ids : (candidates.map Candidate.id).Nodup
  addrs : (candidates.map Candidate.addr).Nodup

/-- What `SortByVotePower` sorts by. -/
def Candidate.power (c : Candidate) : ℕ := c.votePower.val

/-- The contract of `sort.Slice` for the comparison of `SortByVotePower`: the same candidates,
with vote powers that do not increase. -/
def SortedByVotePower (cs : CandidateSet) (sorted : List Candidate) : Prop :=
  Selection.Arranges Candidate.power cs.candidates sorted

/-- Candidates of one vote power stand on both sides of the dynasty's boundary. -/
def TiedAtBoundary (cs : CandidateSet) (dynastySize : ℕ) : Prop :=
  Selection.TiedAt Candidate.power cs.candidates dynastySize

/-- **The dynasty does not depend on the order of candidates with equal vote powers** if and only
if no such candidates stand on both sides of its boundary. -/
theorem dynasty_ignores_sort_iff (cs : CandidateSet) (dynastySize : ℕ) :
    (∀ x y, SortedByVotePower cs x → SortedByVotePower cs y →
      makeMintDynasty (x.map Candidate.addr) dynastySize =
        makeMintDynasty (y.map Candidate.addr) dynastySize) ↔
      ¬ TiedAtBoundary cs dynastySize := by
  constructor
  · intro h htied
    obtain ⟨x, y, z, hx, hy, hzx, hzy⟩ :=
      Selection.exists_differ_of_tied (cs.addrs.of_map _) htied
    -- more candidates than places, so the dynasty has no empty address
    have hfull : dynastySize ≤ cs.candidates.length := by
      obtain ⟨x, -, -, hlt⟩ := htied
      exact hlt.le.trans List.countP_le_length
    have hmem : ∀ l, SortedByVotePower cs l →
        (makeMintDynasty (l.map Candidate.addr) dynastySize).Perm
          ((l.take dynastySize).map Candidate.addr) := by
      intro l hl
      have hnone : dynastySize - (l.map Candidate.addr).length = 0 := by
        rw [List.length_map, hl.perm.length_eq]
        omega
      have hperm := makeMintDynasty_perm (l.map Candidate.addr) dynastySize
      rwa [hnone, List.replicate_zero, List.append_nil, ← List.map_take] at hperm
    have hin : z.addr ∈ (y.take dynastySize).map Candidate.addr := by
      rw [← (hmem y hy).mem_iff, ← h x y hx hy, (hmem x hx).mem_iff]
      exact List.mem_map_of_mem hzx
    obtain ⟨w, hw, haddr⟩ := List.mem_map.1 hin
    have hwcs : w ∈ cs.candidates := hy.perm.mem_iff.1 (List.mem_of_mem_take hw)
    have hzcs : z ∈ cs.candidates := hx.perm.mem_iff.1 (List.mem_of_mem_take hzx)
    exact hzy (List.inj_on_of_nodup_map cs.addrs hwcs hzcs haddr ▸ hw)
  · intro hnot x y hx hy
    refine makeMintDynasty_congr ?_ ?_
    · rw [List.length_map, List.length_map, hx.perm.length_eq, hy.perm.length_eq]
    · rw [← List.map_take, ← List.map_take]
      exact (Selection.perm_take_of_not_tied hx hy hnot).map _

/-- A candidate without votes. -/
def bareCandidate (b : UInt8) : Candidate :=
  ⟨[b], Plain.address b, .ofUint 1000000000000000000, .zero, [], 0⟩

/-- Four candidates without votes. -/
def fourBareCandidates : CandidateSet where
  candidates := [bareCandidate 1, bareCandidate 2, bareCandidate 3, bareCandidate 4]
  ids := by decide
  addrs := by decide

/-- Two orders of four candidates without votes give two dynasties of three. -/
theorem tied_candidates_give_two_dynasties :
    ∃ x y, SortedByVotePower fourBareCandidates x ∧ SortedByVotePower fourBareCandidates y ∧
      makeMintDynasty (x.map Candidate.addr) 3 ≠ makeMintDynasty (y.map Candidate.addr) 3 := by
  refine ⟨[bareCandidate 1, bareCandidate 2, bareCandidate 3, bareCandidate 4],
    [bareCandidate 2, bareCandidate 3, bareCandidate 4, bareCandidate 1],
    ⟨.refl _, ?_⟩, ⟨?_, ?_⟩, ?_⟩
  · unfold Selection.Descending
    decide
  · exact List.perm_append_singleton (bareCandidate 1)
      [bareCandidate 2, bareCandidate 3, bareCandidate 4]
  · unfold Selection.Descending
    decide
  · decide +kernel

/-! ## The proposer of a slot -/

/-- `GenesisTimestamp`. -/
def genesisTimestamp : ℤ := 0

/-- `NextMintSlotInSec`. -/
def nextMintSlotInSec (ts : ℤ) : ℤ :=
  ((ts * second + slotInterval - second).tdiv slotInterval * slotInterval).tdiv second

/-- `GetProposer` with an index as it is computed; proposers are put at indices from zero on. -/
def DposState.proposerAt (ds : DposState) (index : ℤ) : Except Err Address :=
  if index < 0 then .error .notFound else ds.getProposer index.toNat

namespace Dpos

/-- `checkTransitionDynasty`. -/
def checkTransitionDynasty (d : Dpos) (parentTimestamp curTimestamp : ℤ) : Prop :=
  d.calcDynastyIndex parentTimestamp < d.calcDynastyIndex curTimestamp

instance (d : Dpos) (parentTimestamp curTimestamp : ℤ) :
    Decidable (d.checkTransitionDynasty parentTimestamp curTimestamp) :=
  inferInstanceAs (Decidable (_ < _))

section Proposers

variable (d : Dpos) (sortByVotePower : DposState → Except Err (List Address))

/-- `MakeMintDynasty`. -/
def makeMintDynasty (ts : ℤ) (parentState : BlockState) : Except Err (List Address) := do
  failIf (¬ d.checkTransitionDynasty parentState.timestamp ts ∧
    parentState.timestamp ≠ genesisTimestamp) .sameDynasty
  let sortedCandidates ← sortByVotePower parentState.dposState
  return GoMedibloc.makeMintDynasty sortedCandidates d.dynastySize

/-- `FindMintProposer`; there is no result where an index out of range would panic. -/
def findMintProposer (ts : ℤ) (parentState : BlockState) : Option (Except Err Address) :=
  let mintTs := nextMintSlotInSec ts
  let proposerIndex := d.calcProposerIndex mintTs
  match d.makeMintDynasty sortByVotePower mintTs parentState with
  | .ok dynasty => if proposerIndex < 0 then none else dynasty[proposerIndex.toNat]?.map .ok
  | .error e =>
    if e = .sameDynasty then some (parentState.dposState.proposerAt proposerIndex)
    else some (.error e)

/-- `SetMintDynasty`, for a child with the given state. -/
def setMintDynasty (parentState state : BlockState) : Except Err BlockState :=
  match d.makeMintDynasty sortByVotePower state.timestamp parentState with
  | .ok mintDynasty => .ok { state with dposState := state.dposState.setDynasty mintDynasty }
  | .error e => if e = .sameDynasty then .ok state else .error e

/-- The proposer that `VerifyProposer` reads. -/
def readProposer (state : BlockState) : Except Err Address :=
  state.dposState.proposerAt (d.calcProposerIndex state.timestamp)

/-- `VerifyProposer`, with the signer recovered from the block. -/
def verifyProposer (signer : Except Err Address) (state : BlockState) : Except Err Unit := do
  let signer ← signer
  let proposer ← d.readProposer state
  failIf (signer ≠ proposer) .invalidBlockProposer

/-- `VerifyInterval`, for the timestamps of a block and its parent. -/
def verifyInterval (ts parentTs : ℤ) : Except Err Unit :=
  failIf ((wrap64 (wrap64 (ts - parentTs) * second)).tmod slotInterval ≠ 0) .invalidBlockInterval

end Proposers

end Dpos

end GoMedibloc
