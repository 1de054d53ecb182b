import VelaNetwork.Decisions
import VelaNetwork.Library.Logs

namespace VelaNetwork.HotStuffNode

open Library.Logs Library.Runs

variable (P : Primitives)

structure ChildOf (parent child : Block) : Prop where
  height : child.header.height.toNat = parent.header.height.toNat + 1
  parentHash : child.header.parentHash = parent.hash P
  round : parent.header.round < child.header.round

structure FinalizedChain (n : HotStuffNode) : Prop where
  first : n.committedBlocks[0]? = some Block.genesis
  linked : n.committedBlocks.IsChain (ChildOf P)
  height : n.chainHeight = n.tip.header.height

def CommitsChild (n : HotStuffNode) : EngineCall → Prop
  | .handleVote vote _ => n.Completes P vote → n.phase = .commit →
      ∀ block ∈ n.pendingBlock, ChildOf P n.tip block
  | _ => True

variable {P} {n : HotStuffNode}

theorem chainHeight_eq (hfirst : n.committedBlocks[0]? = some Block.genesis)
    (hlinked : n.committedBlocks.IsChain (ChildOf P)) :
    n.chainHeight = n.tip.header.height := by
  obtain ⟨rest, hrest⟩ : ∃ rest, n.committedBlocks = Block.genesis :: rest := by
    cases hblocks : n.committedBlocks with
    | nil => exact absurd hblocks n.committed_ne_nil
    | cons block rest =>
      rw [hblocks] at hfirst
      exact ⟨rest, by simpa using hfirst⟩
  have htip : n.tip.header.height.toNat = rest.length := by
    rw [hrest] at hlinked
    have hlast :=
      getLast_of_isChain (f := fun b : Block => b.header.height.toNat) (fun _ _ h => h.height) hlinked
    simp only [tip, hrest]
    simpa [Block.genesis] using hlast
  have hbound := n.tip.header.height.toNat_lt
  apply UInt64.toNat_inj.mp
  rw [chainHeight, hrest, htip, List.length_cons, UInt64.toNat_sub, UInt64.toNat_ofNat']
  simp
  omega

theorem finalizedChain_iff : n.FinalizedChain P ↔
    n.committedBlocks[0]? = some Block.genesis ∧ n.committedBlocks.IsChain (ChildOf P) := by
  constructor
  · exact fun h => ⟨h.first, h.linked⟩
  · exact fun h => ⟨h.1, h.2, chainHeight_eq h.1 h.2⟩

theorem childOf_qc {parent block : Block} (qc : Option QuorumCert) :
    ChildOf P parent { block with qc := qc } ↔ ChildOf P parent block :=
  ⟨fun h => ⟨h.height, h.parentHash, h.round⟩, fun h => ⟨h.height, h.parentHash, h.round⟩⟩

theorem FinalizedChain.congr {n' : HotStuffNode} (h : n.FinalizedChain P)
    (hchain : n'.committedBlocks = n.committedBlocks) :
    n'.FinalizedChain P := by
  rw [finalizedChain_iff, hchain]
  exact ⟨h.first, h.linked⟩

theorem finalizedChain_after_iff (h : n.FinalizedChain P) (c : EngineCall) :
    (n.after P c).FinalizedChain P ↔ n.CommitsChild P c := by
  cases c with
  | handleVote vote order =>
    by_cases hcommit : n.Completes P vote ∧ n.phase = .commit
    · obtain ⟨hcompletes, hphase⟩ := hcommit
      cases hpending : n.pendingBlock with
      | none =>
        apply iff_of_true
        · exact h.congr (committedBlocks_commit_none order hcompletes hphase hpending)
        · intro _ _ block hblock
          rw [hpending] at hblock
          cases hblock
      | some block =>
        have hlast : n.committedBlocks.getLast? = some n.tip :=
          List.getLast?_eq_some_getLast n.committed_ne_nil
        have hfirst : ∀ b : Block, (n.committedBlocks ++ [b])[0]? = some Block.genesis := by
          intro b
          rw [List.getElem?_append_left (List.length_pos_of_ne_nil n.committed_ne_nil)]
          exact h.first
        rw [finalizedChain_iff, committedBlocks_commit order hcompletes hphase hpending,
          isChain_append_of_getLast? h.linked hlast, List.isChain_pair, childOf_qc, and_iff_right (hfirst _)]
        simp [CommitsChild, hcompletes, hphase, hpending]
    · apply iff_of_true
      · apply h.congr (committedBlocks_of_open _).1
        rintro _ _ ⟨⟩
        exact hcommit
      · exact fun hcompletes hphase => absurd ⟨hcompletes, hphase⟩ hcommit
  | _ => exact iff_of_true (h.congr (committedBlocks_of_open fun _ _ hcall => by cases hcall).1) trivial

theorem finalized_chain_iff (P : Primitives) (address : Address) (signingKey : SigningKey)
    (config : ConsensusConfig) (cs : List EngineCall) :
    AllStates (after P) (FinalizedChain P) (new address signingKey config) cs ↔
      AllSteps (after P) (CommitsChild P) (new address signingKey config) cs := by
  have hnew : (new address signingKey config).FinalizedChain P :=
    finalizedChain_iff.mpr ⟨rfl, List.isChain_singleton _⟩
  apply allStates_iff_of_step _ hnew
  intro n c h
  exact finalizedChain_after_iff h c

section Runs

instance : DecidableRel (ChildOf P) := fun parent child =>
  decidable_of_iff (child.header.height.toNat = parent.header.height.toNat + 1 ∧
    child.header.parentHash = parent.hash P ∧
    parent.header.round < child.header.round) ⟨fun h => ⟨h.1, h.2.1, h.2.2⟩, fun h => ⟨h.1, h.2, h.3⟩⟩

noncomputable def orphanBlock : Block := Block.new .sample 1 7 Hash.zero [] (sampleAddr 0) 0

theorem orphan_finalized : ¬ AllStates (after .sample) (FinalizedChain .sample) engineOfFour
    (.handlePropose orphanBlock none :: voteCalls orphanBlock [0, 1, 2, 0, 1, 2, 0, 1, 2]) := by
  intro h
  have hlast := h.last.linked
  revert hlast
  decide +kernel

end Runs

end VelaNetwork.HotStuffNode
