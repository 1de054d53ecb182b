import VelaNetwork.EngineNetwork
import VelaNetwork.Sample
import VelaNetwork.QuorumIntersection
import VelaNetwork.Library.Logs

namespace VelaNetwork

open Library.Runs Library.Quorums Library.Logs

variable {n : ℕ} (P : Primitives) (keys : Fin n → SigningKey) (byz : Finset (Fin n))

def EngineNet.VotedFor (net : EngineNet n) (p : Fin n) (h : Hash) : Prop :=
  ∃ b, (p, b) ∈ net.voted ∧ b.hash P = h

def EngineNet.CertifiedHash (net : EngineNet n) (h : Hash) : Prop :=
  Certified Finset.univ byz (ConsensusConfig.new (keyValidators P keys)).quorumSize (net.VotedFor P) h

def Attributed (net : EngineNet n) (vote : Vote) : Prop :=
  ∀ j ∉ byz, vote.voter = addr P keys j → net.VotedFor P j vote.blockHash

structure NodeInv (net : EngineNet n) (i : Fin n) (nd : HotStuffNode) : Prop where
  config : nd.config = ConsensusConfig.new (keyValidators P keys)
  signingKey : nd.signingKey = keys i
  genesis : nd.committedBlocks[0]? = some Block.genesis
  heights : ∀ (k : ℕ) b, nd.committedBlocks[k]? = some b → b.header.height = UInt64.ofNat k
  pending : ∀ b, nd.pendingBlock = some b →
    b.header.height = UInt64.ofNat nd.committedBlocks.length ∧ b ∈ net.seen
  votes : ∀ v ∈ nd.allVotes, (∃ j, v.voter = addr P keys j) ∧ Attributed P keys byz net v ∧
    ∃ b, nd.pendingBlock = some b ∧ v.blockHash = b.hash P
  committed : ∀ (k : ℕ) b, k ≠ 0 → nd.committedBlocks[k]? = some b →
    net.CertifiedHash P keys byz (b.hash P) ∧ ∃ b₀ ∈ net.seen, b₀.header = b.header

structure NetInv (net : EngineNet n) : Prop where
  nodes : ∀ i ∉ byz, NodeInv P keys byz net i (net.node i)
  sentVotes : ∀ v, .vote v ∈ net.sent → ∃ j ∉ byz, v.voter = addr P keys j ∧ net.VotedFor P j v.blockHash
  single : ∀ p ∉ byz, ∀ b b', (p, b) ∈ net.voted → (p, b') ∈ net.voted →
    b.header.height = b'.header.height → b.hash P = b'.hash P
  votedSeen : ∀ p b, (p, b) ∈ net.voted → b ∈ net.seen

section Update

variable {P} (net : EngineNet n) (i : Fin n) (r : HotStuffNode × Option HotStuffMsg)

theorem votedFor_update {p : Fin n} {h : Hash} (hv : net.VotedFor P p h) :
    (net.update i r).VotedFor P p h := by
  obtain ⟨b, hb, hh⟩ := hv
  exact ⟨b, List.mem_append_left _ hb, hh⟩

theorem NodeInv.mono {keys : Fin n → SigningKey} {byz : Finset (Fin n)} {net : EngineNet n} {j : Fin n}
    {nd : HotStuffNode} (h : NodeInv P keys byz net j nd) : NodeInv P keys byz (net.update i r) j nd where
  config := h.config
  signingKey := h.signingKey
  genesis := h.genesis
  heights := h.heights
  pending b hb := ⟨(h.pending b hb).1, List.mem_append_left _ (h.pending b hb).2⟩
  votes v hv := by
    obtain ⟨hvoter, hattr, hpend⟩ := h.votes v hv
    exact ⟨hvoter, fun p hp hpv => votedFor_update net i r (hattr p hp hpv), hpend⟩
  committed k b hk hb := by
    obtain ⟨hcert, b₀, hb₀, hheader⟩ := h.committed k b hk hb
    exact ⟨hcert.imp fun p _ hv => votedFor_update net i r hv, b₀, List.mem_append_left _ hb₀, hheader⟩

theorem mem_voted_update {p : Fin n} {b : Block} :
    (p, b) ∈ (net.update i r).voted ↔ (p, b) ∈ net.voted ∨ (p = i ∧ b ∈ votedBlock r) := by
  simp only [EngineNet.update, List.mem_append, List.mem_map, Prod.mk.injEq]
  constructor
  · rintro (h | ⟨c, hc, rfl, rfl⟩)
    · exact Or.inl h
    · exact Or.inr ⟨rfl, hc⟩
  · rintro (h | ⟨rfl, hb⟩)
    · exact Or.inl h
    · exact Or.inr ⟨b, hb, rfl, rfl⟩

theorem mem_votedBlock {r : HotStuffNode × Option HotStuffMsg} {b : Block} (h : b ∈ votedBlock r) :
    (∃ v, r.2 = some (.vote v)) ∧ r.1.pendingBlock = some b := by
  unfold votedBlock at h
  split at h
  · rename_i v hv
    exact ⟨⟨v, hv⟩, by simpa using h⟩
  · exact absurd h List.not_mem_nil

end Update

variable {P keys byz}

theorem NetInv.update {net : EngineNet n} (h : NetInv P keys byz net) {i : Fin n} (hi : i ∉ byz)
    {r : HotStuffNode × Option HotStuffMsg} (hnode : NodeInv P keys byz (net.update i r) i r.1)
    (hvote : ∀ v, r.2 = some (.vote v) → ∃ b, r.1.pendingBlock = some b ∧ v.voter = addr P keys i ∧
      v.blockHash = b.hash P ∧ net.FreshVote P i b) : NetInv P keys byz (net.update i r) where
  nodes j hj := by
    by_cases hji : j = i
    · subst hji
      simpa [EngineNet.update] using hnode
    · have hother : (net.update i r).node j = net.node j := Function.update_of_ne hji _ _
      rw [hother]
      exact NodeInv.mono i r (h.nodes j hj)
  sentVotes v hv := by
    simp only [EngineNet.update, List.mem_append, Option.mem_toList] at hv
    rcases hv with hv | hv
    · obtain ⟨j, hj, hvoter, hfor⟩ := h.sentVotes v hv
      exact ⟨j, hj, hvoter, votedFor_update net i r hfor⟩
    · obtain ⟨b, hb, hvoter, hhash, _⟩ := hvote v hv
      refine ⟨i, hi, hvoter, b, ?_, hhash.symm⟩
      exact (mem_voted_update net i r).mpr (Or.inr ⟨rfl, by simp [votedBlock, hv, hb]⟩)
  single p hp b b' hb hb' hheight := by
    have hfresh : ∀ c, c ∈ votedBlock r → net.FreshVote P i c := by
      intro c hc
      obtain ⟨⟨v, hv⟩, hpend⟩ := mem_votedBlock hc
      obtain ⟨c', hc', _, _, hf⟩ := hvote v hv
      rw [hpend, Option.some.injEq] at hc'
      exact hc' ▸ hf
    rcases (mem_voted_update net i r).mp hb with hold | ⟨hpi, hnew⟩ <;>
      rcases (mem_voted_update net i r).mp hb' with hold' | ⟨hpi', hnew'⟩
    · exact h.single p hp b b' hold hold' hheight
    · exact hfresh b' hnew' (p, b) hold hpi' hheight
    · exact (hfresh b hnew (p, b') hold' hpi hheight.symm).symm
    · have hbb := (mem_votedBlock hnew).2
      rw [(mem_votedBlock hnew').2, Option.some.injEq] at hbb
      rw [hbb]
  votedSeen p b hb := by
    rcases (mem_voted_update net i r).mp hb with hold | ⟨_, hnew⟩
    · exact List.mem_append_left _ (h.votedSeen p b hold)
    · exact List.mem_append_right _ (by simp [(mem_votedBlock hnew).2])

section Handlers

variable {net : EngineNet n} {i : Fin n} {nd : HotStuffNode}

theorem NodeInv.setPending (h : NodeInv P keys byz net i nd) {block : Block} (phase : Phase)
    (hheight : block.header.height = UInt64.ofNat nd.committedBlocks.length) (hseen : block ∈ net.seen)
    (hvotes : nd.VotesFor P block) :
    NodeInv P keys byz net i { nd with pendingBlock := some block, phase := phase } where
  config := h.config
  signingKey := h.signingKey
  genesis := h.genesis
  heights := h.heights
  pending b hb := by
    cases hb
    exact ⟨hheight, hseen⟩
  votes v hv := ⟨(h.votes v hv).1, (h.votes v hv).2.1, block, rfl, hvotes v hv⟩
  committed := h.committed

theorem NodeInv.recordVote (h : NodeInv P keys byz net i nd) {vote : Vote}
    (hvoter : ∃ j, vote.voter = addr P keys j) (hattr : Attributed P keys byz net vote)
    (hpend : ∃ b, nd.pendingBlock = some b ∧ vote.blockHash = b.hash P) :
    NodeInv P keys byz net i (nd.recordVote vote) where
  config := by rw [HotStuffNode.recordVote_config]; exact h.config
  signingKey := by rw [HotStuffNode.recordVote_signingKey]; exact h.signingKey
  genesis := by rw [HotStuffNode.recordVote_committedBlocks]; exact h.genesis
  heights := by rw [HotStuffNode.recordVote_committedBlocks]; exact h.heights
  pending := by
    rw [HotStuffNode.recordVote_pendingBlock, HotStuffNode.recordVote_committedBlocks]
    exact h.pending
  votes v hv := by
    rw [HotStuffNode.recordVote_pendingBlock]
    obtain ⟨phase, hv⟩ := HotStuffNode.mem_allVotes.mp hv
    rcases HotStuffNode.mem_recordVote_votesOf hv with rfl | hv
    · exact ⟨hvoter, hattr, hpend⟩
    · exact h.votes v (HotStuffNode.mem_allVotes.mpr ⟨phase, hv⟩)
  committed := by rw [HotStuffNode.recordVote_committedBlocks]; exact h.committed

theorem NodeInv.certified (h : NodeInv P keys byz net i nd) {block : Block}
    (hpend : nd.pendingBlock = some block) (phase : Phase)
    (hq : nd.config.quorumSize ≤ (nd.votesOf phase).size) :
    net.CertifiedHash P keys byz (block.hash P) := by
  classical
  let votes := (nd.votesOf phase).values
  let Q := Finset.univ.filter fun j => ∃ v ∈ votes, v.voter = addr P keys j
  have hall : ∀ v ∈ votes, v ∈ nd.allVotes := fun v hv => HotStuffNode.mem_allVotes.mpr ⟨phase, hv⟩
  have hsub : (votes.map (·.voter)).toFinset ⊆ Q.image (addr P keys) := by
    intro a ha
    obtain ⟨v, hv, rfl⟩ := List.mem_map.mp (List.mem_toFinset.mp ha)
    obtain ⟨j, hj⟩ := (h.votes v (hall v hv)).1
    exact Finset.mem_image.mpr
      ⟨j, by simp only [Q, Finset.mem_filter]; exact ⟨Finset.mem_univ j, v, hv, hj⟩, hj.symm⟩
  have hcard : votes.length ≤ Q.card := by
    have hle := (Finset.card_le_card hsub).trans Finset.card_image_le
    rwa [List.toFinset_card_of_nodup (VoteMap.voters_nodup _), List.length_map] at hle
  refine ⟨Q, Finset.subset_univ _, ?_, ?_⟩
  · rw [← h.config]
    exact hq.trans hcard
  · intro p hp hpf
    obtain ⟨v, hv, hvp⟩ := (Finset.mem_filter.mp hp).2
    obtain ⟨_, hattr, b, hb, hhash⟩ := h.votes v (hall v hv)
    rw [hpend, Option.some.injEq] at hb
    rw [hb, ← hhash]
    exact hattr p hpf hvp

theorem NodeInv.commitBlock (h : NodeInv P keys byz net i nd) {block : Block}
    (hpend : nd.pendingBlock = some block) (hcert : net.CertifiedHash P keys byz (block.hash P))
    (qc : QuorumCert) :
    NodeInv P keys byz net i (nd.commitBlock qc) := by
  rw [HotStuffNode.commitBlock_some hpend]
  have hpos : 0 < nd.committedBlocks.length := List.length_pos_iff.mpr nd.committed_ne_nil
  refine ⟨h.config, h.signingKey, ?_, ?_, ?_, ?_, ?_⟩
  · simpa only [List.getElem?_append_left hpos] using h.genesis
  · intro k b hb
    rcases getElem?_concat_eq_some.mp hb with hb | ⟨rfl, rfl⟩
    · exact h.heights k b hb
    · exact (h.pending block hpend).1
  · intro b hb
    exact absurd hb (by simp)
  · intro v hv
    exact absurd hv (by simp [HotStuffNode.allVotes])
  · intro k b hk hb
    rcases getElem?_concat_eq_some.mp hb with hb | ⟨_, rfl⟩
    · exact h.committed k b hk hb
    · exact ⟨hcert, block, (h.pending block hpend).2, rfl⟩

theorem NodeInv.closePhase (h : NodeInv P keys byz net i nd) {block : Block}
    (hpend : nd.pendingBlock = some block) (hq : nd.config.quorumSize ≤ (nd.votesOf nd.phase).size)
    (qc : QuorumCert) :
    NodeInv P keys byz net i (nd.closePhase qc) := by
  have hcert := h.certified hpend nd.phase hq
  unfold HotStuffNode.closePhase
  split
  · exact ⟨h.config, h.signingKey, h.genesis, h.heights, h.pending, h.votes, h.committed⟩
  · exact ⟨h.config, h.signingKey, h.genesis, h.heights, h.pending, h.votes, h.committed⟩
  · have hdecide : NodeInv P keys byz net i { nd with phase := .decide } :=
      ⟨h.config, h.signingKey, h.genesis, h.heights, h.pending, h.votes, h.committed⟩
    exact hdecide.commitBlock hpend hcert qc
  · exact h

theorem NodeInv.adoptQc (h : NodeInv P keys byz net i nd) (qc : QuorumCert) :
    NodeInv P keys byz net i (nd.adoptQc qc) := by
  unfold HotStuffNode.adoptQc
  split
  · exact ⟨h.config, h.signingKey, h.genesis, h.heights, h.pending, h.votes, h.committed⟩
  · exact h

theorem NodeInv.advanceRound (h : NodeInv P keys byz net i nd) (round : UInt64) :
    NodeInv P keys byz net i (nd.advanceRound round) where
  config := h.config
  signingKey := h.signingKey
  genesis := h.genesis
  heights := h.heights
  pending b hb := absurd hb (by simp [HotStuffNode.advanceRound])
  votes v hv := absurd hv (by simp)
  committed := h.committed

end Handlers

theorem attributed_of_allowed {net : EngineNet n} (h : NetInv P keys byz net)
    (hkeys : Function.Injective (addr P keys)) {vote : Vote} (hverify : vote.verify P = true)
    (hmsg : .vote vote ∈ net.sent ∨ (byz.Nonempty ∧ Forgeable P keys byz net (.vote vote))) :
    Attributed P keys byz net vote := by
  intro j hj hvoter
  have hfrom : ∀ v, .vote v ∈ net.sent → v.voter = vote.voter → net.VotedFor P j v.blockHash := by
    intro v hv hvv
    obtain ⟨j', _, hvoter', hfor⟩ := h.sentVotes v hv
    rw [hvv, hvoter] at hvoter'
    rw [hkeys hvoter']
    exact hfor
  rcases hmsg with hsent | ⟨_, hforge⟩
  · exact hfrom vote hsent rfl
  · obtain ⟨msg, hmsg, hsame⟩ := hforge hverify j hj hvoter
    cases msg with
    | vote v =>
      obtain ⟨hvv, hhash, _⟩ := hsame
      rw [← hhash]
      exact hfrom v hmsg hvv
    | propose block qc => exact hsame.elim
    | newView round qc => exact hsame.elim
    | timeout round voter => exact hsame.elim

theorem tip_height {net : EngineNet n} {i : Fin n} {nd : HotStuffNode} (h : NodeInv P keys byz net i nd) :
    nd.tip.header.height + 1 = UInt64.ofNat nd.committedBlocks.length := by
  have hpos : 0 < nd.committedBlocks.length := List.length_pos_iff.mpr nd.committed_ne_nil
  have htip : nd.committedBlocks[nd.committedBlocks.length - 1]? = some nd.tip := by
    rw [← List.getLast?_eq_getElem?]
    exact List.getLast?_eq_some_getLast nd.committed_ne_nil
  rw [h.heights _ _ htip, ← UInt64.ofNat_one, ← UInt64.ofNat_add, Nat.sub_add_cancel hpos]

section Steps

variable {net : EngineNet n} {i : Fin n}

theorem step_propose (h : NetInv P keys byz net) (hi : i ∉ byz) (now : Int64) (txs : List Transaction)
    (hcheck : Checked P keys net (.propose i now txs)) :
    NetInv P keys byz (net.step P (.propose i now txs)) := by
  simp only [EngineNet.step, HotStuffNode.propose]
  split
  · apply h.update hi
    · apply NodeInv.setPending (NodeInv.mono _ _ (h.nodes i hi))
      · exact tip_height (h.nodes i hi)
      · exact List.mem_append_right _ (by simp)
      · exact hcheck
    · intro v hv
      exact absurd hv (by simp)
  · exact h.update hi (NodeInv.mono _ _ (h.nodes i hi)) (fun v hv => absurd hv (by simp))

theorem step_handlePropose (h : NetInv P keys byz net) (hi : i ∉ byz) (block : Block) (qc : Option QuorumCert)
    (order : IterOrder) (hcheck : Checked P keys net (.deliver i (.propose block qc) order)) :
    NetInv P keys byz (net.step P (.deliver i (.propose block qc) order)) := by
  simp only [EngineNet.step, HotStuffNode.handle, HotStuffNode.handlePropose]
  split
  · rename_i hlock
    obtain ⟨hheight, hvotes, hfresh⟩ := hcheck hlock
    apply h.update hi
    · exact NodeInv.setPending (NodeInv.mono _ _ (h.nodes i hi)) _ hheight
        (List.mem_append_right _ (by simp)) hvotes
    · intro v hv
      obtain rfl : Vote.sign P (block.hash P) (net.node i).round (net.node i).signingKey = v := by
        simpa using hv
      refine ⟨block, rfl, ?_, rfl, hfresh⟩
      rw [Vote.sign_voter, (h.nodes i hi).signingKey, addr]
  · exact h.update hi (NodeInv.mono _ _ (h.nodes i hi)) (fun v hv => absurd hv (by simp))

theorem step_handleVote (h : NetInv P keys byz net) (hkeys : Function.Injective (addr P keys)) (hi : i ∉ byz)
    (vote : Vote) (order : IterOrder) (hallowed : Allowed P keys byz net (.deliver i (.vote vote) order))
    (hcheck : Checked P keys net (.deliver i (.vote vote) order)) :
    NetInv P keys byz (net.step P (.deliver i (.vote vote) order)) := by
  simp only [EngineNet.step, HotStuffNode.handle]
  have hnode := h.nodes i hi
  rcases (net.node i).handleVote_cases P order vote with hsame | ⟨hverify, hphase, hcases⟩
  · rw [hsame]
    exact h.update hi (NodeInv.mono _ _ hnode) (fun v hv => absurd hv (by simp))
  · obtain ⟨hvoter, block, hpend, hhash⟩ := hcheck hverify hphase
    have hattr := attributed_of_allowed h hkeys hverify hallowed.2
    have hrecord := hnode.recordVote hvoter hattr ⟨block, hpend, hhash⟩
    rcases hcases with heq | ⟨hq, heq⟩
    · rw [heq]
      exact h.update hi (NodeInv.mono _ _ hrecord) (fun v hv => absurd hv (by simp))
    · rw [heq]
      have hclosed : NodeInv P keys byz net i
          (((net.node i).recordVote vote).closePhase
            (((net.node i).recordVote vote).formQc order (net.node i).phase)) := by
        have hstill : ((net.node i).recordVote vote).pendingBlock = some block := by
          rw [HotStuffNode.recordVote_pendingBlock, hpend]
        apply hrecord.closePhase hstill
        rwa [HotStuffNode.recordVote_config, HotStuffNode.recordVote_phase]
      exact h.update hi (NodeInv.mono _ _ hclosed) (fun v hv => absurd hv (by simp))

theorem step_handleNewView (h : NetInv P keys byz net) (hi : i ∉ byz) (round : UInt64) (qc : QuorumCert)
    (order : IterOrder) (hcheck : Checked P keys net (.deliver i (.newView round qc) order)) :
    NetInv P keys byz (net.step P (.deliver i (.newView round qc) order)) := by
  simp only [EngineNet.step, HotStuffNode.handle]
  have hadopt := (h.nodes i hi).adoptQc qc
  rcases (net.node i).handleNewView_cases P round qc with ⟨_, heq⟩ | ⟨_, _, heq⟩ | ⟨hround, block, hpend, heq⟩
  · rw [heq]
    exact h.update hi (NodeInv.mono _ _ (hadopt.advanceRound round)) (fun v hv => absurd hv (by simp))
  · rw [heq]
    exact h.update hi (NodeInv.mono _ _ hadopt) (fun v hv => absurd hv (by simp))
  · rw [heq]
    apply h.update hi (NodeInv.mono _ _ hadopt)
    intro v hv
    obtain rfl : Vote.sign P (block.hash P) (net.node i).round (net.node i).signingKey = v := by
      simpa using hv
    refine ⟨block, by rw [HotStuffNode.adoptQc_pendingBlock, hpend], ?_, rfl, hcheck hround block hpend⟩
    rw [Vote.sign_voter, (h.nodes i hi).signingKey, addr]

theorem netInv_step (h : NetInv P keys byz net) (hkeys : Function.Injective (addr P keys))
    (e : EngineEvent n) (hallowed : Allowed P keys byz net e) (hcheck : Checked P keys net e) :
    NetInv P keys byz (net.step P e) := by
  cases e with
  | propose i now txs => exact step_propose h hallowed.1 now txs hcheck
  | deliver i msg order =>
    cases msg with
    | propose block qc => exact step_handlePropose h hallowed.1 block qc order hcheck
    | vote vote => exact step_handleVote h hkeys hallowed.1 vote order hallowed hcheck
    | newView round qc => exact step_handleNewView h hallowed.1 round qc order hcheck
    | timeout round voter =>
      simp only [EngineNet.step, HotStuffNode.handle]
      exact h.update hallowed.1 (NodeInv.mono _ _ (h.nodes i hallowed.1)) (fun v hv => absurd hv (by simp))

end Steps

theorem netInv_init : NetInv P keys byz (EngineNet.init P keys) where
  nodes i _ :=
    { config := rfl
      signingKey := rfl
      genesis := rfl
      heights := by
        intro k b hb
        obtain ⟨rfl, rfl⟩ : k = 0 ∧ b = Block.genesis := by
          have hb' : [Block.genesis][k]? = some b := hb
          rw [List.getElem?_singleton] at hb'
          split at hb' <;> simp_all
        rfl
      pending := fun b hb => absurd hb (by simp [EngineNet.init, HotStuffNode.new])
      votes := fun v hv => absurd hv (by simp [EngineNet.init, HotStuffNode.new, HotStuffNode.allVotes])
      committed := by
        intro k b hk hb
        have hb' : [Block.genesis][k]? = some b := hb
        rw [List.getElem?_singleton, if_neg hk] at hb'
        exact absurd hb' (by simp) }
  sentVotes v hv := absurd hv (by simp [EngineNet.init])
  single p _ b b' hb := absurd hb (by simp [EngineNet.init])
  votedSeen p b hb := absurd hb (by simp [EngineNet.init])

/-- What two quorums signed at one index is one block, since an honest validator signed for both. -/
theorem NetInv.agreement {net : EngineNet n} (h : NetInv P keys byz net) {f : ℕ} (hn : n = 3 * f + 1)
    (hbyz : byz.card ≤ f) (hfree : CollisionFree P net.seen) : net.Agreement P byz := by
  intro i hi j hj k b b' hb hb'
  by_cases hk : k = 0
  · subst hk
    have hgi := (h.nodes i hi).genesis
    have hgj := (h.nodes j hj).genesis
    rw [hb, Option.some.injEq] at hgi
    rw [hb', Option.some.injEq] at hgj
    rw [hgi, hgj]
  · have hslot : ∀ {m : Fin n} {c : Block}, m ∉ byz → (net.node m).committedBlocks[k]? = some c →
        Certified Finset.univ byz (2 * f + 1)
          (fun p x => ∃ b₀, (p, b₀) ∈ net.voted ∧ b₀.header.height = UInt64.ofNat k ∧ b₀.hash P = x)
            (c.hash P) := by
      intro m c hm hc
      obtain ⟨hcert, c₀, hc₀, hheader⟩ := (h.nodes m hm).committed k c hk hc
      have hquorum : (ConsensusConfig.new (keyValidators P keys)).quorumSize = 2 * f + 1 := by
        simp [keyValidators, hn]
      rw [← hquorum]
      refine hcert.imp fun p _ hv => ?_
      obtain ⟨b₀, hb₀, hhash⟩ := hv
      have hsame : b₀.header = c.header := by
        rw [← hheader]
        apply hfree b₀ (h.votedSeen p b₀ hb₀) c₀ hc₀
        rw [hhash, Block.hash, Block.hash, hheader]
      exact ⟨b₀, hb₀, by rw [hsame, (h.nodes m hm).heights k c hc], hhash⟩
    have hinter : Intersecting (Finset.univ : Finset (Fin n)) (2 * f + 1) (f + 1) :=
      intersecting_of_le (by rw [Finset.card_univ, Fintype.card_fin]; omega)
    apply certified_unique hinter (by omega) _ (hslot hi hb) (hslot hj hb')
    rintro p hp x y ⟨b₀, hb₀, hheight, rfl⟩ ⟨b₁, hb₁, hheight', rfl⟩
    exact h.single p hp b₀ b₁ hb₀ hb₁ (by rw [hheight, hheight'])

theorem engine_agreement (P : Primitives) (f : ℕ) (n : ℕ) (hn : n = 3 * f + 1) (keys : Fin n → SigningKey)
    (hkeys : Function.Injective (addr P keys)) (byz : Finset (Fin n)) (hbyz : byz.card ≤ f)
    (es : List (EngineEvent n))
    (hallowed : AllSteps (EngineNet.step P) (Allowed P keys byz) (EngineNet.init P keys) es)
    (hcheck : AllSteps (EngineNet.step P) (Checked P keys) (EngineNet.init P keys) es)
    (hfree : CollisionFree P (run (EngineNet.step P) (EngineNet.init P keys) es).seen) :
    (run (EngineNet.step P) (EngineNet.init P keys) es).Agreement P byz := by
  have hboth : AllSteps (EngineNet.step P) (fun net e => Allowed P keys byz net e ∧ Checked P keys net e)
      (EngineNet.init P keys) es := allSteps_and.mpr ⟨hallowed, hcheck⟩
  have hinv : AllStates (EngineNet.step P) (NetInv P keys byz) (EngineNet.init P keys) es :=
    invariant (fun net e h hc => netInv_step h hkeys e hc.1 hc.2) netInv_init hboth
  exact hinv.last.agreement hn hbyz hfree

section Runs

def fourKeys (i : Fin 4) : SigningKey := sampleKey i

noncomputable def firstNet : EngineNet 4 := EngineNet.init .sample fourKeys

noncomputable def blockAt (timestamp : Int64) : Block :=
  Block.new .sample timestamp 1 (Block.genesis.hash .sample) [] (addr .sample fourKeys 0) 0

noncomputable def ballots (voters : List ℕ) (i : Fin 4) (block : Block) : List (EngineEvent 4) :=
  voters.map fun k => .deliver i (.vote (Vote.sign .sample (block.hash .sample) 0 (sampleKey k))) .insertion

noncomputable def honestRun : List (EngineEvent 4) :=
  .propose 0 1 [] :: ([0, 1, 2].map fun i => .deliver i (.propose (blockAt 1) none) .insertion) ++
    ballots [0, 1, 2, 0, 1, 2, 0, 1, 2] 0 (blockAt 1)

theorem engine_agreement_honestRun :
    (run (EngineNet.step .sample) firstNet honestRun).Agreement .sample {3} :=
  engine_agreement .sample 1 4 rfl fourKeys (by decide +kernel) {3} (by decide) honestRun (by decide +kernel)
    (by decide +kernel) (by decide +kernel)

noncomputable def outsiderRun (i : Fin 4) (block : Block) : List (EngineEvent 4) :=
  .deliver i (.propose block none) .insertion :: ballots [4, 5, 6, 4, 5, 6, 4, 5, 6] i block

noncomputable def forkRun : List (EngineEvent 4) := outsiderRun 0 (blockAt 1) ++ outsiderRun 1 (blockAt 2)

theorem committed_after_forkRun (i : Fin 2) :
    ((run (EngineNet.step .sample) firstNet forkRun).node (i.castLE (by decide))).committedBlocks[1]?.map
      (·.hash .sample) =
      some ((blockAt (if i = 0 then 1 else 2)).hash .sample) := by
  revert i
  decide +kernel

theorem engine_agreement_fails :
    Function.Injective (addr .sample fourKeys) ∧ ({3} : Finset (Fin 4)).card ≤ 1 ∧
      AllSteps (EngineNet.step .sample) (Allowed .sample fourKeys {3}) firstNet forkRun ∧
      CollisionFree .sample (run (EngineNet.step .sample) firstNet forkRun).seen ∧
      ¬ (run (EngineNet.step .sample) firstNet forkRun).Agreement .sample {3} := by
  refine ⟨by decide +kernel, by decide, by decide +kernel, by decide +kernel, fun h => ?_⟩
  obtain ⟨b, hb, hhash⟩ := Option.map_eq_some_iff.mp (committed_after_forkRun 0)
  obtain ⟨b', hb', hhash'⟩ := Option.map_eq_some_iff.mp (committed_after_forkRun 1)
  have hsame := h 0 (by decide) 1 (by decide) 1 b b' hb hb'
  rw [hhash, hhash'] at hsame
  exact absurd hsame (by decide +kernel)

end Runs

end VelaNetwork
