import VelaNetwork.HotStuffSteps
import VelaNetwork.Library.Runs

namespace VelaNetwork

/-- The calls that drive one engine. The order is that of the vote map a certificate is formed from. -/
inductive EngineCall where
  | propose (now : Int64) (transactions : List Transaction)
  | handlePropose (block : Block) (highQc : Option QuorumCert)
  | handleVote (vote : Vote) (order : IterOrder)
  | handleNewView (round : UInt64) (highQc : QuorumCert)

namespace HotStuffNode

variable (P : Primitives)

def call (n : HotStuffNode) : EngineCall → HotStuffNode × Option HotStuffMsg
  | .propose now transactions => n.propose P now transactions
  | .handlePropose block highQc => n.handlePropose P block highQc
  | .handleVote vote order => n.handleVote P order vote
  | .handleNewView round highQc => n.handleNewView P round highQc

def after (n : HotStuffNode) (c : EngineCall) : HotStuffNode := (n.call P c).1

def formed (n : HotStuffNode) (c : EngineCall) : Option QuorumCert :=
  match c, (n.call P c).2 with
  | .handleVote _ _, some (.newView _ qc) => some qc
  | _, _ => none

def Completes (n : HotStuffNode) (vote : Vote) : Prop :=
  vote.verify P = true ∧ n.phase ≠ .decide ∧ n.config.quorumSize ≤ ((n.recordVote vote).votesOf n.phase).size

instance (n : HotStuffNode) (vote : Vote) : Decidable (n.Completes P vote) :=
  inferInstanceAs (Decidable (_ ∧ _ ∧ _))

section Votes

variable {P} {n : HotStuffNode} {vote : Vote} {order : IterOrder}

theorem handleVote_of_completes (h : n.Completes P vote) : n.handleVote P order vote =
    ((n.recordVote vote).closePhase ((n.recordVote vote).formQc order n.phase),
      some (.newView n.nextView ((n.recordVote vote).formQc order n.phase))) := by
  rw [handleVote_eq, if_pos ⟨h.1, h.2.1⟩, if_pos h.2.2]

theorem handleVote_of_not_completes (h : ¬ n.Completes P vote) : n.handleVote P order vote =
    (if vote.verify P = true ∧ n.phase ≠ .decide then n.recordVote vote else n, none) := by
  rw [handleVote_eq]
  by_cases hv : vote.verify P = true ∧ n.phase ≠ .decide
  · rw [if_pos hv, if_pos hv, if_neg fun hq => h ⟨hv.1, hv.2, hq⟩]
  · rw [if_neg hv, if_neg hv]

theorem formed_handleVote : n.formed P (.handleVote vote order) =
    if n.Completes P vote then some ((n.recordVote vote).formQc order n.phase) else none := by
  unfold formed call
  by_cases h : n.Completes P vote
  · rw [if_pos h]
    simp only [handleVote_of_completes h]
  · rw [if_neg h]
    simp only [handleVote_of_not_completes h]

end Votes

section After

variable {P} (n : HotStuffNode)

theorem after_propose (now : Int64) (transactions : List Transaction) :
    n.after P (.propose now transactions) =
      if n.isLeader = true then
        { n with pendingBlock := some (n.proposal P now transactions), phase := .prepare }
      else n := by
  change (n.propose P now transactions).1 = _
  unfold propose
  split <;> rfl

theorem after_handlePropose (block : Block) (highQc : Option QuorumCert) :
    n.after P (.handlePropose block highQc) =
      if n.extendsLock block = true then { n with pendingBlock := some block } else n := by
  change (n.handlePropose P block highQc).1 = _
  unfold handlePropose
  split <;> rfl

theorem after_handleVote (vote : Vote) (order : IterOrder) :
    n.after P (.handleVote vote order) =
      if n.Completes P vote then (n.recordVote vote).closePhase ((n.recordVote vote).formQc order n.phase)
      else if vote.verify P = true ∧ n.phase ≠ .decide then n.recordVote vote else n := by
  change (n.handleVote P order vote).1 = _
  by_cases h : n.Completes P vote
  · rw [if_pos h, handleVote_of_completes h]
  · rw [if_neg h, handleVote_of_not_completes h]

theorem after_handleNewView (round : UInt64) (highQc : QuorumCert) :
    n.after P (.handleNewView round highQc) =
      if n.round < round then (n.adoptQc highQc).advanceRound round else n.adoptQc highQc := by
  change (n.handleNewView P round highQc).1 = _
  rcases n.handleNewView_cases P round highQc with ⟨hr, heq⟩ | ⟨hr, _, heq⟩ | ⟨hr, _, _, heq⟩
  · rw [heq, if_pos hr]
  · rw [heq, if_neg hr]
  · rw [heq, if_neg hr]

theorem closePhase_of_phase_ne {n : HotStuffNode} (qc : QuorumCert) (h : n.phase ≠ .commit) :
    (n.closePhase qc).committedBlocks = n.committedBlocks ∧ (n.closePhase qc).pendingBlock = n.pendingBlock ∧
      (n.closePhase qc).allVotes = n.allVotes := by
  unfold closePhase
  split
  · exact ⟨rfl, rfl, rfl⟩
  · exact ⟨rfl, rfl, rfl⟩
  · exact absurd ‹n.phase = .commit› h
  · exact ⟨rfl, rfl, rfl⟩

theorem closePhase_pending {n : HotStuffNode} (qc : QuorumCert) : (n.closePhase qc).round = n.round ∧
    ∀ block ∈ (n.closePhase qc).pendingBlock, block ∈ n.pendingBlock := by
  unfold closePhase commitBlock
  split
  · exact ⟨rfl, fun _ h => h⟩
  · exact ⟨rfl, fun _ h => h⟩
  · split
    · exact ⟨rfl, fun _ h => absurd h (by simp)⟩
    · exact ⟨rfl, fun _ h => h⟩
  · exact ⟨rfl, fun _ h => h⟩

theorem pending_after {n : HotStuffNode} {c : EngineCall}
    (hc : ∀ now transactions, c ≠ .propose now transactions) {block : Block}
    (hblock : block ∈ (n.after P c).pendingBlock) : (n.after P c).round = n.round ∧
      (block ∈ n.pendingBlock ∨ ∃ highQc, c = .handlePropose block highQc ∧ n.extendsLock block = true) := by
  cases c with
  | propose now transactions => exact absurd rfl (hc now transactions)
  | handlePropose block' highQc =>
    rw [after_handlePropose] at hblock ⊢
    split at hblock
    · rename_i hlock
      rw [if_pos hlock]
      obtain rfl := Option.some.inj hblock
      exact ⟨rfl, Or.inr ⟨highQc, rfl, hlock⟩⟩
    · rename_i hlock
      rw [if_neg hlock]
      exact ⟨rfl, Or.inl hblock⟩
  | handleVote vote order =>
    rw [after_handleVote] at hblock ⊢
    split at hblock
    · rename_i hcompletes
      rw [if_pos hcompletes]
      obtain ⟨hround, hpending⟩ :=
        closePhase_pending (n := n.recordVote vote) ((n.recordVote vote).formQc order n.phase)
      exact ⟨hround.trans (n.recordVote_round vote),
        Or.inl (n.recordVote_pendingBlock vote ▸ hpending block hblock)⟩
    · rename_i hcompletes
      rw [if_neg hcompletes]
      split at hblock
      · rename_i hv
        rw [if_pos hv]
        exact ⟨n.recordVote_round vote, Or.inl (n.recordVote_pendingBlock vote ▸ hblock)⟩
      · rename_i hv
        rw [if_neg hv]
        exact ⟨rfl, Or.inl hblock⟩
  | handleNewView round highQc =>
    rw [after_handleNewView] at hblock ⊢
    split at hblock
    · cases hblock
    · rename_i hr
      rw [if_neg hr]
      exact ⟨n.adoptQc_round highQc, Or.inl (n.adoptQc_pendingBlock highQc ▸ hblock)⟩

end After

end HotStuffNode

end VelaNetwork
