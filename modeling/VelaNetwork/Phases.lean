import VelaNetwork.Certificates
import VelaNetwork.Library.Ballots

namespace VelaNetwork

open Library.Runs Library.Ballots

variable (P : Primitives)

namespace VoteMap

def voters (m : VoteMap) : Finset Address := (m.values.map (·.voter)).toFinset

theorem voters_card (m : VoteMap) : m.voters.card = m.size := by
  rw [voters, List.toFinset_card_of_nodup m.voters_nodup, List.length_map, size]

theorem mem_voters {m : VoteMap} {a : Address} : a ∈ m.voters ↔ a.hex ∈ m.entries := by
  rw [voters, List.mem_toFinset, AList.mem_keys]
  constructor
  · intro h
    obtain ⟨v, hv, rfl⟩ := List.mem_map.mp h
    obtain ⟨e, he, rfl⟩ := List.mem_map.mp hv
    rw [← m.keyed e he]
    exact List.mem_keys_of_mem he
  · intro h
    obtain ⟨v, hv⟩ := List.exists_of_mem_keys h
    have hkey := m.keyed _ hv
    rw [Address.hex_inj.mp hkey]
    exact List.mem_map.mpr ⟨v, List.mem_map.mpr ⟨_, hv, rfl⟩, rfl⟩

theorem voters_insert (m : VoteMap) (vote : Vote) : (m.insert vote).voters =
    Insert.insert vote.voter m.voters := by
  ext a
  rw [Finset.mem_insert, mem_voters, mem_voters, VoteMap.insert, AList.mem_insert, Address.hex_inj]

end VoteMap

namespace HotStuffNode

def Answers (block : Block) (vote : Vote) : Prop :=
  ∃ (replica : HotStuffNode) (highQc : Option QuorumCert),
    (replica.handlePropose P block highQc).2 = some (.vote vote)

def WhileProposed (block : Block) : EngineCall → Prop
  | .propose _ _ => False
  | .handlePropose _ _ => True
  | .handleVote vote _ => Answers P block vote
  | .handleNewView _ _ => True

structure Ballot where
  round : UInt64
  voters : List Address

def Ballot.after (b : Ballot) : EngineCall → Ballot
  | .handleVote vote _ => { b with voters := b.voters ++ [vote.voter] }
  | .handleNewView round _ => if b.round < round then ⟨round, []⟩ else b
  | _ => b

structure Undecided (n₀ n : HotStuffNode) : Prop where
  phase : n.phase = .prepare ∨ n.phase = .preCommit
  lockedQc : n.lockedQc = n₀.lockedQc
  committedBlocks : n.committedBlocks = n₀.committedBlocks

/-- The leader after the votes of `as`: either the prepare quorum is still to come, or what came after it
is in the pre-commit votes. -/
inductive Tally (q : ℕ) (as : List Address) (n : HotStuffNode) : Prop where
  | preparing (hphase : n.phase = .prepare) (hprepare : n.prepareVotes.voters = as.toFinset)
      (hfew : as.toFinset.card < q) (hprecommit : n.precommitVotes.voters = ∅)
  | prepared (hphase : n.phase = .preCommit) (pre post : List Address) (hsplit : as = pre ++ post)
      (hfirst : FirstQuorum q pre) (hprecommit : n.precommitVotes.voters = post.toFinset)
      (hfew : post.toFinset.card < q)

structure Phased (n₀ n : HotStuffNode) (b : Ballot) : Prop where
  config : n.config = n₀.config
  lockedQc : n.lockedQc = n₀.lockedQc
  committedBlocks : n.committedBlocks = n₀.committedBlocks
  round : n.round = b.round
  tally : Tally n₀.config.quorumSize b.voters n

variable {P} {n₀ n : HotStuffNode} {b : Ballot}

theorem Tally.congr {q : ℕ} {as : List Address} {n n' : HotStuffNode} (h : Tally q as n)
    (hphase : n'.phase = n.phase) (hprepare : n'.prepareVotes = n.prepareVotes)
    (hprecommit : n'.precommitVotes = n.precommitVotes) : Tally q as n' := by
  cases h with
  | preparing hphase' hprepare' hfew hprecommit' =>
    exact .preparing (hphase.trans hphase') (hprepare ▸ hprepare') hfew (hprecommit ▸ hprecommit')
  | prepared hphase' pre post hsplit hfirst hprecommit' hfew =>
    exact .prepared (hphase.trans hphase') pre post hsplit hfirst (hprecommit ▸ hprecommit') hfew

theorem Phased.undecided (h : Phased n₀ n b) : Undecided n₀ n := by
  refine ⟨?_, h.lockedQc, h.committedBlocks⟩
  cases h.tally with
  | preparing hphase => exact Or.inl hphase
  | prepared hphase => exact Or.inr hphase

theorem Phased.not_twoQuorums (h : Phased n₀ n b) : ¬ TwoQuorums n₀.config.quorumSize b.voters := by
  cases h.tally with
  | preparing _ _ hfew => exact not_twoQuorums_of_card_lt hfew
  | prepared _ pre post hsplit hfirst _ hfew =>
    rw [hsplit]
    exact not_twoQuorums_of_first hfirst hfew

theorem answers_iff {block : Block} {vote : Vote} :
    Answers P block vote ↔ ∃ round key, vote = Vote.sign P (block.hash P) round key := by
  constructor
  · rintro ⟨replica, highQc, hvote⟩
    unfold handlePropose at hvote
    split at hvote
    · exact ⟨replica.round, replica.signingKey, by simpa using hvote.symm⟩
    · cases hvote
  · rintro ⟨round, key, rfl⟩
    exact ⟨{ new Address.zero key (.new []) with round := round }, none, rfl⟩

theorem Completes.iff_card {vote : Vote} (hverify : vote.verify P = true) (hphase : n.phase ≠ .decide) :
    n.Completes P vote ↔ n.config.quorumSize ≤ ((n.recordVote vote).votesOf n.phase).voters.card := by
  rw [VoteMap.voters_card]
  exact ⟨fun h => h.2.2, fun h => ⟨hverify, hphase, h⟩⟩

theorem Phased.newView (h : Phased n₀ n b) (round : UInt64) (highQc : QuorumCert) :
    Phased n₀ (n.after P (.handleNewView round highQc)) (b.after (.handleNewView round highQc)) := by
  rw [after_handleNewView, Ballot.after, ← h.round]
  split
  · refine ⟨(n.adoptQc_config highQc).trans h.config, ?_,
      (n.adoptQc_committedBlocks highQc).trans h.committedBlocks, rfl, ?_⟩
    · exact (n.adoptQc_lockedQc highQc).trans h.lockedQc
    · exact .preparing rfl rfl (quorumSize_pos n₀.config) rfl
  · unfold adoptQc
    split
    · exact ⟨h.config, h.lockedQc, h.committedBlocks, h.round, h.tally.congr rfl rfl rfl⟩
    · exact h

theorem Phased.vote (h : Phased n₀ n b) {vote : Vote} (hverify : vote.verify P = true) (order : IterOrder) :
    Phased n₀ (n.after P (.handleVote vote order)) (b.after (.handleVote vote order)) ∨
      (n.after P (.handleVote vote order)).phase = .commit ∧
        TwoQuorums n₀.config.quorumSize (b.voters ++ [vote.voter]) := by
  cases h.tally with
  | preparing hphase hprepare hfew hprecommit =>
    have hrecorded := recordVote_prepare hphase vote
    have hvoters : ((n.recordVote vote).votesOf n.phase).voters = (b.voters ++ [vote.voter]).toFinset := by
      rw [hrecorded, hphase, toFinset_concat, ← hprepare]
      exact n.prepareVotes.voters_insert vote
    have hcompletes := Completes.iff_card hverify (n := n) (by rw [hphase]; decide)
    rw [hvoters, h.config] at hcompletes
    left
    rw [after_handleVote]
    split
    · have hquorum := hcompletes.mp ‹_›
      have hclosed : (n.recordVote vote).phase = .prepare := by rw [recordVote_phase, hphase]
      rw [closePhase_prepare hclosed, hrecorded]
      refine ⟨h.config, h.lockedQc, h.committedBlocks, h.round, ?_⟩
      exact .prepared rfl (b.voters ++ [vote.voter]) [] (List.append_nil _).symm
        (firstQuorum_concat hfew hquorum)
        hprecommit (quorumSize_pos n₀.config)
    · have hshort := mt hcompletes.mpr ‹_›
      rw [if_pos ⟨hverify, by rw [hphase]; decide⟩, hrecorded]
      refine ⟨h.config, h.lockedQc, h.committedBlocks, h.round, ?_⟩
      rw [hrecorded, hphase] at hvoters
      exact .preparing hphase hvoters (Nat.not_le.mp hshort) hprecommit
  | prepared hphase pre post hsplit hfirst hprecommit hfew =>
    have hrecorded := recordVote_preCommit hphase vote
    have hvoters : ((n.recordVote vote).votesOf n.phase).voters = (post ++ [vote.voter]).toFinset := by
      rw [hrecorded, hphase, toFinset_concat, ← hprecommit]
      exact n.precommitVotes.voters_insert vote
    have hcompletes := Completes.iff_card hverify (n := n) (by rw [hphase]; decide)
    rw [hvoters, h.config] at hcompletes
    have hlater : b.voters ++ [vote.voter] = pre ++ (post ++ [vote.voter]) := by
      rw [hsplit, List.append_assoc]
    rw [after_handleVote]
    split
    · right
      have hquorum := hcompletes.mp ‹_›
      refine ⟨?_, pre, post ++ [vote.voter], hlater, hfirst.reached, hquorum⟩
      rw [closePhase_phase, recordVote_phase, hphase]
      rfl
    · left
      have hshort := mt hcompletes.mpr ‹_›
      rw [if_pos ⟨hverify, by rw [hphase]; decide⟩, hrecorded]
      refine ⟨h.config, h.lockedQc, h.committedBlocks, h.round, ?_⟩
      rw [hrecorded, hphase] at hvoters
      exact .prepared hphase pre (post ++ [vote.voter]) hlater hfirst hvoters (Nat.not_le.mp hshort)

theorem Phased.step (hP : P.SignVerifies) {block : Block} (h : Phased n₀ n b) {c : EngineCall}
    (hc : WhileProposed P block c) : Phased n₀ (n.after P c) (b.after c) ∨
      ¬ Undecided n₀ (n.after P c) ∧ TwoQuorums n₀.config.quorumSize (b.after c).voters := by
  cases c with
  | propose now transactions => exact False.elim hc
  | handlePropose block' highQc =>
    left
    rw [after_handlePropose]
    split
    · exact ⟨h.config, h.lockedQc, h.committedBlocks, h.round, h.tally.congr rfl rfl rfl⟩
    · exact h
  | handleVote vote order =>
    obtain ⟨round, key, rfl⟩ := answers_iff.mp hc
    rcases h.vote (Vote.verify_sign P hP (block.hash P) round key) order with hnext | ⟨hphase, htwo⟩
    · exact Or.inl hnext
    · refine Or.inr ⟨?_, htwo⟩
      intro hundecided
      rcases hundecided.phase with hprepare | hprecommit
      · rw [hphase] at hprepare
        cases hprepare
      · rw [hphase] at hprecommit
        cases hprecommit
  | handleNewView round highQc => exact Or.inl (h.newView round highQc)

theorem undecided_iff (P : Primitives) (hP : P.SignVerifies) (block : Block) (n₀ : HotStuffNode)
    (hphase : n₀.phase = .prepare) (hempty : n₀.allVotes = []) (cs : List EngineCall)
    (hcs : ∀ c ∈ cs, WhileProposed P block c) :
    AllStates (after P) (Undecided n₀) n₀ cs ↔
      AllStates Ballot.after (fun b => ¬ TwoQuorums n₀.config.quorumSize b.voters) ⟨n₀.round, []⟩ cs := by
  have hstart : Phased n₀ n₀ ⟨n₀.round, []⟩ := by
    obtain ⟨hprepare, hprecommit, _⟩ : n₀.prepareVotes.values = [] ∧ n₀.precommitVotes.values = [] ∧
        n₀.commitVotes.values = [] := by simpa [allVotes] using hempty
    refine ⟨rfl, rfl, rfl, rfl, .preparing hphase ?_ (quorumSize_pos n₀.config) ?_⟩
    · rw [VoteMap.voters, hprepare]
      rfl
    · rw [VoteMap.voters, hprecommit]
      rfl
  apply allStates_iff_of_matched (R := Phased n₀) (fun n b h => ⟨h.undecided, h.not_twoQuorums⟩) _ hstart hcs
  intro n b c h hc
  rcases h.step hP hc with hnext | ⟨hlocked, htwo⟩
  · exact Or.inl hnext
  · exact Or.inr ⟨hlocked, fun hno => hno htwo⟩

section Runs

noncomputable def leaderOfThree : HotStuffNode :=
  (new (sampleAddr 0) (sampleKey 0) (.new (committee 3))).after .sample (.propose 1 [])

theorem voteCalls_whileProposed (block : Block) (voters : List ℕ) :
    ∀ c ∈ voteCalls block voters, WhileProposed .sample block c := by
  intro c hc
  obtain ⟨k, _, rfl⟩ := List.mem_map.mp hc
  exact answers_iff.mpr ⟨0, sampleKey k, rfl⟩

noncomputable def leaderOfSeven : HotStuffNode :=
  (new (sampleAddr 0) (sampleKey 0) (.new (committee 7))).after .sample (.propose 1 [])

theorem undecided_tenVotes : AllStates (after .sample) (Undecided leaderOfSeven) leaderOfSeven
    (voteCalls (firstBlock 1) [1, 2, 3, 3, 4, 5, 6, 1, 2, 6]) := by
  apply (undecided_iff .sample sample_signVerifies (firstBlock 1) leaderOfSeven _ _ _
    (voteCalls_whileProposed _ _)).mpr
  · decide +kernel
  · decide +kernel
  · decide +kernel

theorem locked_by_prepare_votes : leaderOfThree.phase = .prepare ∧ leaderOfThree.allVotes = [] ∧
    leaderOfThree.pendingBlock = some (firstBlock 1) ∧
    (∀ c ∈ voteCalls (firstBlock 1) [1, 2], WhileProposed .sample (firstBlock 1) c) ∧
    (run (after .sample) leaderOfThree (voteCalls (firstBlock 1) [1, 2])).phase = .commit ∧
    ¬ AllStates (after .sample) (Undecided leaderOfThree) leaderOfThree
      (voteCalls (firstBlock 1) [1, 2]) := by
  have hcommit : (run (after .sample) leaderOfThree (voteCalls (firstBlock 1) [1, 2])).phase = .commit := by
    decide +kernel
  refine ⟨by decide +kernel, by decide +kernel, by decide +kernel,
    voteCalls_whileProposed (firstBlock 1) [1, 2], hcommit, fun h => ?_⟩
  have hundecided := h.last.phase
  rw [hcommit] at hundecided
  revert hundecided
  decide

end Runs

end HotStuffNode

end VelaNetwork
