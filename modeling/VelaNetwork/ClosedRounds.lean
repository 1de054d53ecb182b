import VelaNetwork.Agreement
import VelaNetwork.Phases
import VelaNetwork.Voters
import Mathlib.Order.Interval.Finset.Fin

namespace VelaNetwork

open Library.Runs

def HotStuffMsg.proposal : HotStuffMsg → Option Block
  | .propose block _ => some block
  | _ => none

variable {n : ℕ} (P : Primitives) (keys : Fin n → SigningKey)

namespace EngineNet

def proposals (net : EngineNet n) : List Block := net.sent.filterMap HotStuffMsg.proposal

/-- The leader sends its one proposal of the round to the replicas, and they send their votes to it. Both
are taken in their own round or not at all. -/
def InItsRound (net : EngineNet n) : EngineEvent n → Prop
  | .propose i _ _ => (net.node i).isLeader = true ∧
      ∀ block ∈ net.proposals, block.header.round ≠ (net.node i).round
  | .deliver i (.propose block highQc) _ => .propose block highQc ∈ net.sent ∧
      block.header.round = (net.node i).round
  | .deliver i (.vote vote) _ => .vote vote ∈ net.sent ∧ (net.node i).isLeader = true ∧
      vote.round = (net.node i).round
  | .deliver _ msg _ => msg ∈ net.sent

end EngineNet

/-- The rounds that can decide: with one more, fewer than a quorum would be left without a lock. -/
def decidingRounds (n : ℕ) : ℕ := n - 2 * ((n - 1) / 3)

structure FirstOfChain (block : Block) : Prop where
  height : block.header.height = 1
  parentHash : block.header.parentHash = Block.genesis.hash P

structure Identity (i : Fin n) (nd : HotStuffNode) : Prop where
  address : nd.address = addr P keys i
  signingKey : nd.signingKey = keys i
  config : nd.config = ConsensusConfig.new (keyValidators P keys)

def Cast (proposals : List Block) (v : Vote) : Prop :=
  ∃ j : Fin n, v.voter = addr P keys j ∧ v.round.toNat ≤ j ∧
    ∃ block ∈ proposals, block.header.round = v.round ∧ v.blockHash = block.hash P

def LockedOnProposal (proposals : List Block) (qc : QuorumCert) : Prop :=
  ∃ block ∈ proposals, qc.blockHash = block.hash P

structure Waiting (proposals : List Block) (i : Fin n) (nd : HotStuffNode) : Prop where
  early : nd.round.toNat ≤ i
  phase : nd.phase ≠ .decide
  committed : nd.committedBlocks = [Block.genesis]
  pending : ∀ block ∈ nd.pendingBlock, block ∈ proposals ∧ block.header.round = nd.round
  proposed : nd.round.toNat = i → (∃ block ∈ proposals, block.header.round = nd.round) →
    nd.pendingBlock ≠ none
  votes : ∀ v ∈ nd.allVotes, Cast P keys proposals v ∧ v.round = nd.round
  lock : ∀ l ∈ nd.lockedQc, LockedOnProposal P proposals l
  locked : nd.phase = .commit → nd.lockedQc ≠ none

structure CommittedOwn (i : Fin n) (block : Block) : Prop extends FirstOfChain P block where
  round : block.header.round.toNat = i
  proposer : block.header.proposer = addr P keys i

structure Decided (proposals : List Block) (i : Fin n) (nd : HotStuffNode) : Prop where
  late : i ≤ nd.round.toNat
  phase : nd.round.toNat = i → nd.phase = .decide
  committed : ∃ block, nd.committedBlocks = [Block.genesis, block] ∧ CommittedOwn P keys i block
  pending : nd.pendingBlock = none
  proposed : ∃ block ∈ proposals, block.header.round.toNat = i
  lock : ∃ l, nd.lockedQc = some l ∧ LockedOnProposal P proposals l
  early : i < decidingRounds n

structure Reached (net : EngineNet n) (round : UInt64) : Prop where
  bound : round.toNat ≤ decidingRounds n
  decided : ∀ k : Fin n, k < round.toNat → Decided P keys net.proposals k (net.node k)

structure Closed (net : EngineNet n) : Prop where
  identity : ∀ i, Identity P keys i (net.node i)
  standing : ∀ i, Waiting P keys net.proposals i (net.node i) ∨ Decided P keys net.proposals i (net.node i)
  reached : ∀ i, Reached P keys net (net.node i).round
  proposals : ∀ block ∈ net.proposals, ∃ j, CommittedOwn P keys j block ∧ j ≤ (net.node j).round.toNat
  votes : ∀ v, .vote v ∈ net.sent → Cast P keys net.proposals v
  views : ∀ round qc, .newView round qc ∈ net.sent → Reached P keys net round

variable {P keys}

section Update

variable {net : EngineNet n} {i : Fin n} {r : HotStuffNode × Option HotStuffMsg}

theorem proposals_update (hmsg : r.2.bind HotStuffMsg.proposal = none) :
    (net.update i r).proposals = net.proposals := by
  change (net.sent ++ r.2.toList).filterMap HotStuffMsg.proposal = _
  rw [List.filterMap_append]
  have hnone : r.2.toList.filterMap HotStuffMsg.proposal = [] := by
    cases hr : r.2 with
    | none => rfl
    | some msg =>
      rw [hr] at hmsg
      exact List.filterMap_cons_none hmsg
  rw [hnone, List.append_nil]
  rfl

theorem forall_update_node (Q : Fin n → HotStuffNode → Prop) (hself : Q i r.1)
    (hother : ∀ k, k ≠ i → Q k (net.node k)) (k : Fin n) : Q k ((net.update i r).node k) :=
  (Function.forall_update_iff net.node Q).mpr ⟨hself, hother⟩ k

theorem mem_sent_update {msg : HotStuffMsg} :
    msg ∈ (net.update i r).sent ↔ msg ∈ net.sent ∨ r.2 = some msg := by
  change msg ∈ net.sent ++ r.2.toList ↔ _
  rw [List.mem_append, Option.mem_toList]

theorem Cast.mono {ps ps' : List Block} (h : ∀ block ∈ ps, block ∈ ps') {v : Vote} (hv : Cast P keys ps v) :
    Cast P keys ps' v := by
  obtain ⟨j, hvoter, hround, block, hblock, hfor⟩ := hv
  exact ⟨j, hvoter, hround, block, h block hblock, hfor⟩

theorem LockedOnProposal.mono {ps ps' : List Block} (h : ∀ block ∈ ps, block ∈ ps') {qc : QuorumCert}
    (hqc : LockedOnProposal P ps qc) : LockedOnProposal P ps' qc := by
  obtain ⟨block, hblock, hhash⟩ := hqc
  exact ⟨block, h block hblock, hhash⟩

theorem Waiting.mono {ps ps' : List Block} {nd : HotStuffNode} (h : Waiting P keys ps i nd)
    (hsub : ∀ block ∈ ps, block ∈ ps')
    (hnew : nd.round.toNat = i → ∀ block ∈ ps', block.header.round = nd.round → block ∈ ps) :
    Waiting P keys ps' i nd := by
  refine ⟨h.early, h.phase, h.committed, fun b hb => ⟨hsub b (h.pending b hb).1, (h.pending b hb).2⟩, ?_,
    fun v hv => ⟨(h.votes v hv).1.mono hsub, (h.votes v hv).2⟩, fun l hl => (h.lock l hl).mono hsub, h.locked⟩
  rintro hown ⟨block, hblock, hround⟩
  exact h.proposed hown ⟨block, hnew hown block hblock hround, hround⟩

theorem Decided.mono {ps ps' : List Block} {nd : HotStuffNode} (h : Decided P keys ps i nd)
    (hsub : ∀ block ∈ ps, block ∈ ps') : Decided P keys ps' i nd := by
  obtain ⟨block, hblock, hround⟩ := h.proposed
  obtain ⟨l, hl, hlock⟩ := h.lock
  exact ⟨h.late, h.phase, h.committed, h.pending, ⟨block, hsub block hblock, hround⟩,
    ⟨l, hl, hlock.mono hsub⟩, h.early⟩

variable {ps : List Block} (hps : (net.update i r).proposals = ps)
    (hsub : ∀ block ∈ net.proposals, block ∈ ps)

include hps hsub

theorem Reached.extend {round : UInt64} (h : Reached P keys net round)
    (hkeeps : Decided P keys net.proposals i (net.node i) → Decided P keys ps i r.1) :
    Reached P keys (net.update i r) round := by
  refine ⟨h.bound, ?_⟩
  rw [hps]
  apply forall_update_node (fun k nd => k < round.toNat → Decided P keys ps k nd)
  · exact fun hk => hkeeps (h.decided i hk)
  · exact fun k _ hk => (h.decided k hk).mono hsub

theorem Closed.extend (h : Closed P keys net)
    (hnew : ∀ block ∈ ps, block ∈ net.proposals ∨ (CommittedOwn P keys i block ∧ i ≤ r.1.round.toNat))
    (hidentity : Identity P keys i r.1) (hstanding : Waiting P keys ps i r.1 ∨ Decided P keys ps i r.1)
    (hkeeps : Decided P keys net.proposals i (net.node i) → Decided P keys ps i r.1)
    (hrises : (net.node i).round.toNat ≤ r.1.round.toNat) (hreached : Reached P keys net r.1.round)
    (hvote : ∀ v, r.2 = some (.vote v) → Cast P keys ps v)
    (hview : ∀ round qc, r.2 = some (.newView round qc) → Reached P keys (net.update i r) round) :
    Closed P keys (net.update i r) := by
  constructor
  · exact forall_update_node (Identity P keys) hidentity fun k _ => h.identity k
  · rw [hps]
    apply forall_update_node (fun k nd => Waiting P keys ps k nd ∨ Decided P keys ps k nd) hstanding
    intro k hk
    refine (h.standing k).imp (fun hw => hw.mono hsub ?_) (fun hd => hd.mono hsub)
    intro hown block hblock hround
    refine (hnew block hblock).resolve_right fun hi => hk (Fin.ext ?_)
    rw [← hown, ← hround, hi.1.round]
  · apply forall_update_node (fun _ nd => Reached P keys (net.update i r) nd.round)
    · exact hreached.extend hps hsub hkeeps
    · exact fun k _ => (h.reached k).extend hps hsub hkeeps
  · rw [hps]
    intro block hblock
    rcases hnew block hblock with hold | ⟨hown, hround⟩
    · obtain ⟨j, hj, hround⟩ := h.proposals block hold
      refine ⟨j, hj, ?_⟩
      apply forall_update_node (fun k nd => k = j → j ≤ nd.round.toNat) _ _ j rfl
      · rintro rfl
        exact hround.trans hrises
      · rintro k _ rfl
        exact hround
    · refine ⟨i, hown, ?_⟩
      apply forall_update_node (fun k nd => k = i → i ≤ nd.round.toNat) _ _ i rfl
      · exact fun _ => hround
      · exact fun k hk hki => absurd hki hk
  · rw [hps]
    intro v hv
    rcases mem_sent_update.mp hv with hold | hnow
    · exact (h.votes v hold).mono hsub
    · exact hvote v hnow
  · intro round qc hsent
    rcases mem_sent_update.mp hsent with hold | hnow
    · exact (h.views round qc hold).extend hps hsub hkeeps
    · exact hview round qc hnow

omit hps hsub

theorem Closed.update (h : Closed P keys net) (hmsg : r.2.bind HotStuffMsg.proposal = none)
    (hidentity : Identity P keys i r.1)
    (hstanding : Waiting P keys net.proposals i r.1 ∨ Decided P keys net.proposals i r.1)
    (hkeeps : Decided P keys net.proposals i (net.node i) → Decided P keys net.proposals i r.1)
    (hrises : (net.node i).round.toNat ≤ r.1.round.toNat) (hreached : Reached P keys net r.1.round)
    (hvote : ∀ v, r.2 = some (.vote v) → Cast P keys net.proposals v)
    (hview : ∀ round qc, r.2 = some (.newView round qc) → Reached P keys (net.update i r) round) :
    Closed P keys (net.update i r) :=
  h.extend (proposals_update hmsg) (fun _ hblock => hblock)
    (fun _ hblock => Or.inl hblock) hidentity hstanding hkeeps
    hrises hreached hvote hview

end Update

section Node

open HotStuffNode

variable {ps ps' : List Block} {i : Fin n} {nd : HotStuffNode}

theorem decidingRounds_lt (hn : 4 ≤ n) : decidingRounds n < n := by
  unfold decidingRounds
  omega

theorem leads_iff (hkeys : Function.Injective (addr P keys)) (h : Identity P keys i nd)
    (hround : nd.round.toNat < n) :
    nd.isLeader = true ↔ nd.round.toNat = i := by
  have hleader : (ConsensusConfig.new (keyValidators P keys)).leaderForRound nd.round =
      some ⟨addr P keys ⟨nd.round.toNat, hround⟩, 1000, nd.round.toNat⟩ := by
    have hlen : (keyValidators P keys).length = n := by simp [keyValidators]
    change (keyValidators P keys)[nd.round.toNat % (keyValidators P keys).length]? = _
    rw [hlen, Nat.mod_eq_of_lt hround]
    simp [keyValidators, hround]
  unfold HotStuffNode.isLeader ConsensusConfig.isLeader
  rw [h.config, hleader, h.address, decide_eq_true_iff]
  constructor
  · exact fun heq => congrArg Fin.val (hkeys heq)
  · exact fun heq => congrArg (addr P keys) (Fin.ext heq)

theorem Waiting.recordVote (h : Waiting P keys ps i nd) {vote : Vote} (hcast : Cast P keys ps vote)
    (hround : vote.round = nd.round) : Waiting P keys ps i (nd.recordVote vote) where
  early := by simpa using h.early
  phase := by simpa using h.phase
  committed := by simpa using h.committed
  pending := by simpa using h.pending
  proposed := by simpa using h.proposed
  votes := by
    intro v hv
    rw [recordVote_round]
    rcases mem_recordVote_allVotes hv with rfl | hold
    · exact ⟨hcast, hround⟩
    · exact h.votes v hold
  lock := by simpa using h.lock
  locked := by simpa using h.locked

/-- In the round of validator `i` only the validators from `i` on vote. -/
theorem Waiting.size_le (h : Waiting P keys ps i nd) (hlead : nd.round.toNat = i) (phase : Phase) :
    (nd.votesOf phase).size ≤ n - i := by
  rw [← VoteMap.voters_card, ← Fin.card_Ici]
  have hsub : (nd.votesOf phase).voters ⊆ (Finset.Ici i).image (addr P keys) := by
    intro a ha
    obtain ⟨v, hv, rfl⟩ := List.mem_map.mp (List.mem_toFinset.mp ha)
    obtain ⟨⟨j, hvoter, hle, _⟩, hround⟩ := h.votes v (mem_allVotes.mpr ⟨phase, hv⟩)
    rw [hround, hlead] at hle
    exact Finset.mem_image.mpr ⟨j, Finset.mem_Ici.mpr hle, hvoter.symm⟩
  exact (Finset.card_le_card hsub).trans Finset.card_image_le

theorem Waiting.lt_decidingRounds (h : Waiting P keys ps i nd) (hid : Identity P keys i nd)
    (hlead : nd.round.toNat = i) {phase : Phase} (hquorum : nd.config.quorumSize ≤ (nd.votesOf phase).size) :
    i < decidingRounds n := by
  have hsize := hquorum.trans (h.size_le hlead phase)
  have hq : nd.config.quorumSize = 2 * ((n - 1) / 3) + 1 := by
    rw [hid.config]
    simp [keyValidators]
  rw [hq] at hsize
  unfold decidingRounds
  omega

theorem exists_formQc_vote (order : IterOrder) {phase : Phase} (hne : 0 < (nd.votesOf phase).size) :
    ∃ v ∈ (nd.votesOf phase).values, (nd.formQc order phase).blockHash = v.blockHash := by
  have hfirst := (formQc_blockHash_iff order hne).mp rfl
  have hperm := order.perm (nd.votesOf phase).values
  cases hlist : order.apply (nd.votesOf phase).values with
  | nil =>
    rw [hlist, List.nil_perm] at hperm
    rw [VoteMap.size, hperm] at hne
    exact absurd hne (Nat.lt_irrefl 0)
  | cons v rest =>
    rw [hlist] at hfirst hperm
    exact ⟨v, hperm.subset List.mem_cons_self, (hfirst v rfl).symm⟩

theorem Waiting.pending_of_vote (h : Waiting P keys ps i nd) (hlead : nd.round.toNat = i) {v : Vote}
    (hv : v ∈ nd.allVotes) :
    ∃ block ∈ ps, nd.pendingBlock = some block ∧ block.header.round = nd.round := by
  obtain ⟨⟨_, _, _, block, hblock, hround, _⟩, hvround⟩ := h.votes v hv
  obtain ⟨block', hpending⟩ :=
    Option.ne_none_iff_exists'.mp (h.proposed hlead ⟨block, hblock, hround.trans hvround⟩)
  obtain ⟨hproposed, hround'⟩ := h.pending block' hpending
  exact ⟨block', hproposed, hpending, hround'⟩

theorem Waiting.closePhase (h : Waiting P keys ps i nd) (hid : Identity P keys i nd)
    (hlead : nd.round.toNat = i) (hown : ∀ block ∈ ps, ∃ j, CommittedOwn P keys j block) (order : IterOrder)
    (hquorum : nd.config.quorumSize ≤ (nd.votesOf nd.phase).size) :
    (nd.phase ≠ .commit ∧ Waiting P keys ps i (nd.closePhase (nd.formQc order nd.phase))) ∨
      (nd.phase = .commit ∧ Decided P keys ps i (nd.closePhase (nd.formQc order nd.phase))) := by
  have hpos : 0 < (nd.votesOf nd.phase).size := Nat.lt_of_lt_of_le (quorumSize_pos nd.config) hquorum
  obtain ⟨v, hv, hhash⟩ := exists_formQc_vote order hpos
  have hvall : v ∈ nd.allVotes := mem_allVotes.mpr ⟨nd.phase, hv⟩
  cases hphase : nd.phase with
  | prepare =>
    refine Or.inl ⟨by simp, ?_⟩
    rw [closePhase_prepare hphase]
    exact ⟨h.early, by simp, h.committed, h.pending, h.proposed, h.votes, h.lock, by simp⟩
  | preCommit =>
    refine Or.inl ⟨by simp, ?_⟩
    rw [closePhase_preCommit hphase]
    refine ⟨h.early, by simp, h.committed, h.pending, h.proposed, h.votes, ?_, by simp⟩
    rintro l ⟨⟩
    obtain ⟨⟨_, _, _, block, hblock, _, hfor⟩, _⟩ := h.votes v hvall
    rw [hphase] at hhash
    exact ⟨block, hblock, hhash.trans hfor⟩
  | commit =>
    refine Or.inr ⟨rfl, ?_⟩
    obtain ⟨block, hblock, hpending, hround⟩ := h.pending_of_vote hlead hvall
    obtain ⟨l, hl⟩ := Option.ne_none_iff_exists'.mp (h.locked hphase)
    obtain ⟨j, hj⟩ := hown block hblock
    have hji : j = i := Fin.ext (by rw [← hj.round, hround, hlead])
    have hsome : ({ nd with phase := .decide } : HotStuffNode).pendingBlock = some block := hpending
    rw [closePhase_commit hphase, commitBlock_some hsome]
    refine ⟨Nat.le_of_eq hlead.symm, fun _ => rfl, ?_, rfl,
      ⟨block, hblock, by rw [hround, hlead]⟩, ⟨l, hl, h.lock l hl⟩,
      h.lt_decidingRounds hid hlead hquorum⟩
    refine ⟨{ block with qc := some (nd.formQc order .commit) }, ?_, ?_⟩
    · change nd.committedBlocks ++ _ = _
      rw [h.committed]
      rfl
    · rw [← hji]
      exact ⟨⟨hj.height, hj.parentHash⟩, hj.round, hj.proposer⟩
  | decide => exact absurd hphase h.phase

end Node

section Steps

open HotStuffNode

variable {net : EngineNet n} {i : Fin n} {nd : HotStuffNode}

theorem Identity.recordVote (h : Identity P keys i nd) (vote : Vote) :
    Identity P keys i (nd.recordVote vote) := by
  unfold HotStuffNode.recordVote
  split
  · exact ⟨h.address, h.signingKey, h.config⟩
  · exact ⟨h.address, h.signingKey, h.config⟩
  · exact ⟨h.address, h.signingKey, h.config⟩
  · exact h

theorem Identity.closePhase (h : Identity P keys i nd) (qc : QuorumCert) :
    Identity P keys i (nd.closePhase qc) := by
  unfold HotStuffNode.closePhase HotStuffNode.commitBlock
  split
  · exact ⟨h.address, h.signingKey, h.config⟩
  · exact ⟨h.address, h.signingKey, h.config⟩
  · split
    · exact ⟨h.address, h.signingKey, h.config⟩
    · exact ⟨h.address, h.signingKey, h.config⟩
  · exact h

theorem Closed.unchanged (h : Closed P keys net) (i : Fin n) :
    Closed P keys (net.update i (net.node i, none)) :=
  h.update rfl (h.identity i) (h.standing i) id (Nat.le_refl _)
    (h.reached i) (by rintro v ⟨⟩) (by rintro round qc ⟨⟩)

theorem not_decided_of_waiting (h : Waiting P keys net.proposals i nd)
    (h' : Decided P keys net.proposals i nd) : False := by
  obtain ⟨block, hblock, _⟩ := h'.committed
  rw [h.committed] at hblock
  simp at hblock

theorem Closed.leader_round (h : Closed P keys net) (hn : 4 ≤ n) (hkeys : Function.Injective (addr P keys))
    (hlead : (net.node i).isLeader = true) : (net.node i).round.toNat = i :=
  (leads_iff hkeys (h.identity i) ((h.reached i).bound.trans_lt (decidingRounds_lt hn))).mp hlead

theorem Closed.reached_next (h : Closed P keys net) (hn : 4 ≤ n) (hmax : n ≤ 2 ^ 64)
    (hown : (net.node i).round.toNat = i) (hfew : i < decidingRounds n)
    {r : HotStuffNode × Option HotStuffMsg} (hmsg : r.2.bind HotStuffMsg.proposal = none)
    (hdecided : Decided P keys net.proposals i r.1) :
    Reached P keys (net.update i r) ((net.node i).round + 1) := by
  have hnext : ((net.node i).round + 1).toNat = i + 1 := by
    rw [UInt64.toNat_add, hown]
    exact Nat.mod_eq_of_lt (Nat.lt_of_lt_of_le (Nat.lt_of_le_of_lt hfew (decidingRounds_lt hn)) hmax)
  refine ⟨by rw [hnext]; exact hfew, ?_⟩
  rw [hnext, proposals_update hmsg]
  apply forall_update_node (fun k nd => (k : ℕ) < i + 1 → Decided P keys net.proposals k nd)
  · exact fun _ => hdecided
  · intro k hki hk
    apply (h.reached i).decided k
    rw [hown]
    exact Nat.lt_of_le_of_ne (Nat.le_of_lt_succ hk) fun heq => hki (Fin.ext heq)

theorem Closed.closeQuorum (h : Closed P keys net) (hn : 4 ≤ n) (hmax : n ≤ 2 ^ 64)
    (hown : (net.node i).round.toNat = i) (hfew : i < decidingRounds n)
    (hnot : ¬ Decided P keys net.proposals i (net.node i)) (hidentity : Identity P keys i nd)
    (hsame : nd.round = (net.node i).round)
    (hclose : ((net.node i).phase ≠ .commit ∧ Waiting P keys net.proposals i nd) ∨
      ((net.node i).phase = .commit ∧ Decided P keys net.proposals i nd)) (qc : QuorumCert) :
    Closed P keys (net.update i (nd, some (.newView (net.node i).nextView qc))) := by
  have hkeeps : Decided P keys net.proposals i (net.node i) → Decided P keys net.proposals i nd :=
    fun hdecided => absurd hdecided hnot
  have hreached : Reached P keys net nd.round := hsame ▸ h.reached i
  refine h.update rfl hidentity (hclose.imp And.right And.right) hkeeps
    (Nat.le_of_eq (by rw [hsame])) hreached
    (by rintro v ⟨⟩) ?_
  intro round qc' hview
  obtain ⟨hround, _⟩ : (net.node i).nextView = round ∧ qc = qc' := by simpa using hview
  rw [← hround]
  rcases hclose with ⟨hphase, _⟩ | ⟨hphase, hdecided⟩
  · rw [nextView, if_neg hphase, ← hsame]
    exact hreached.extend (proposals_update rfl) (fun _ hblock => hblock) hkeeps
  · have hnext : (net.node i).nextView = (net.node i).round + 1 := if_pos hphase
    have hall := h.reached_next hn hmax hown hfew
      (r := (nd, some (.newView (net.node i).nextView qc))) rfl hdecided
    rwa [← hnext] at hall

theorem Closed.handleVote (h : Closed P keys net) (hn : 4 ≤ n) (hmax : n ≤ 2 ^ 64)
    (hkeys : Function.Injective (addr P keys)) {vote : Vote} (order : IterOrder)
    (hsent : .vote vote ∈ net.sent) (hlead : (net.node i).isLeader = true)
    (hround : vote.round = (net.node i).round) :
    Closed P keys (net.update i ((net.node i).handleVote P order vote)) := by
  have hown := h.leader_round hn hkeys hlead
  rcases handleVote_cases P order (net.node i) vote with heq | ⟨_, hphase, hcases⟩
  · rw [heq]
    exact h.unchanged i
  · have hwaiting : Waiting P keys net.proposals i (net.node i) :=
      (h.standing i).resolve_right fun hdecided => hphase (hdecided.phase hown)
    have hnot : ¬ Decided P keys net.proposals i (net.node i) := not_decided_of_waiting hwaiting
    have hrecorded := hwaiting.recordVote (h.votes vote hsent) hround
    have hidentity := (h.identity i).recordVote vote
    have hsame : ((net.node i).recordVote vote).round = (net.node i).round := recordVote_round _ vote
    rcases hcases with heq | ⟨hquorum, heq⟩
    · rw [heq]
      exact h.update rfl hidentity (Or.inl hrecorded) (fun hdecided => absurd hdecided hnot)
        (Nat.le_of_eq (by rw [hsame]))
        (hsame ▸ h.reached i) (by rintro v ⟨⟩) (by rintro round qc ⟨⟩)
    · rw [heq]
      have hown' : ((net.node i).recordVote vote).round.toNat = i := by rw [hsame, hown]
      have hquorum' : ((net.node i).recordVote vote).config.quorumSize ≤
          (((net.node i).recordVote vote).votesOf ((net.node i).recordVote vote).phase).size := by
        rwa [recordVote_config, recordVote_phase]
      have hclose := hrecorded.closePhase hidentity hown'
        (fun block hblock => (h.proposals block hblock).imp fun _ hj => hj.1) order hquorum'
      rw [recordVote_phase] at hclose
      exact h.closeQuorum hn hmax hown (hrecorded.lt_decidingRounds hidentity hown' hquorum') hnot
        (hidentity.closePhase _) ((closePhase_signer _ _).1.trans hsame) hclose _

theorem Waiting.cast (h : Waiting P keys net.proposals i nd) (hid : Identity P keys i nd) {block : Block}
    (hblock : block ∈ net.proposals) (hround : block.header.round = nd.round) :
    Cast P keys net.proposals (Vote.sign P (block.hash P) nd.round nd.signingKey) := by
  rw [hid.signingKey]
  exact ⟨i, rfl, h.early, block, hblock, hround, rfl⟩

theorem Decided.rejects (h : Decided P keys net.proposals i nd)
    (hfree : CollisionFree P (Block.genesis :: net.proposals))
    (hown : ∀ block ∈ net.proposals, ∃ j, CommittedOwn P keys j block) {block : Block}
    (hblock : block ∈ net.proposals) :
    ¬ nd.extendsLock block = true := by
  intro hextends
  obtain ⟨l, hl, locked, hlocked, hhash⟩ := h.lock
  obtain ⟨_, hj⟩ := hown block hblock
  obtain ⟨_, hk⟩ := hown locked hlocked
  have hsame : locked.hash P = Block.genesis.hash P := by
    rw [← hhash, ← hj.parentHash]
    exact extendsLock_iff.mp hextends l hl
  have hheader := hfree locked (List.mem_cons_of_mem _ hlocked) Block.genesis List.mem_cons_self hsame
  have hheight := hk.height
  rw [hheader] at hheight
  exact absurd hheight (by decide)

theorem Closed.handlePropose (h : Closed P keys net)
    (hfree : CollisionFree P (Block.genesis :: net.proposals)) {block : Block} (highQc : Option QuorumCert)
    (hblock : block ∈ net.proposals) (hround : block.header.round = (net.node i).round) :
    Closed P keys (net.update i ((net.node i).handlePropose P block highQc)) := by
  unfold HotStuffNode.handlePropose
  split
  · rename_i hextends
    have hwaiting : Waiting P keys net.proposals i (net.node i) := by
      refine (h.standing i).resolve_right fun hdecided => hdecided.rejects hfree ?_ hblock hextends
      exact fun b hb => (h.proposals b hb).imp fun _ hj => hj.1
    refine h.update rfl ⟨(h.identity i).address, (h.identity i).signingKey, (h.identity i).config⟩ (Or.inl ?_)
      (fun hdecided => (not_decided_of_waiting hwaiting hdecided).elim) (Nat.le_refl _) (h.reached i) ?_
      (by rintro round qc ⟨⟩)
    · refine ⟨hwaiting.early, hwaiting.phase, hwaiting.committed, ?_, by simp, hwaiting.votes, hwaiting.lock,
        hwaiting.locked⟩
      rintro b ⟨⟩
      exact ⟨hblock, hround⟩
    · rintro v ⟨⟩
      exact hwaiting.cast (h.identity i) hblock hround
  · exact h.unchanged i

theorem Identity.adoptQc (h : Identity P keys i nd) (qc : QuorumCert) :
    Identity P keys i (nd.adoptQc qc) := by
  unfold HotStuffNode.adoptQc
  split
  · exact ⟨h.address, h.signingKey, h.config⟩
  · exact h

theorem Waiting.adoptQc (h : Waiting P keys net.proposals i nd) (qc : QuorumCert) :
    Waiting P keys net.proposals i (nd.adoptQc qc) := by
  unfold HotStuffNode.adoptQc
  split
  · exact ⟨h.early, h.phase, h.committed, h.pending, h.proposed, h.votes, h.lock, h.locked⟩
  · exact h

theorem Decided.adoptQc (h : Decided P keys net.proposals i nd) (qc : QuorumCert) :
    Decided P keys net.proposals i (nd.adoptQc qc) := by
  unfold HotStuffNode.adoptQc
  split
  · exact ⟨h.late, h.phase, h.committed, h.pending, h.proposed, h.lock, h.early⟩
  · exact h

theorem Decided.advance (h : Decided P keys net.proposals i nd) {round : UInt64} (hround : nd.round < round) :
    Decided P keys net.proposals i (nd.advanceRound round) := by
  have hlate : (i : ℕ) < round.toNat := Nat.lt_of_le_of_lt h.late (UInt64.lt_iff_toNat_lt.mp hround)
  exact ⟨Nat.le_of_lt hlate,
    fun heq => absurd heq (Nat.ne_of_gt hlate), h.committed, rfl, h.proposed, h.lock, h.early⟩

theorem Waiting.advance (h : Waiting P keys net.proposals i nd) {round : UInt64} (hround : round.toNat ≤ i)
    (hunproposed : round.toNat = i → ∀ block ∈ net.proposals, block.header.round ≠ round) :
    Waiting P keys net.proposals i (nd.advanceRound round) := by
  refine ⟨hround, by simp [advanceRound], h.committed, by rintro b ⟨⟩,
    ?_, by rintro v hv; exact absurd hv List.not_mem_nil, h.lock, by rintro ⟨⟩⟩
  rintro hown ⟨block, hblock, heq⟩
  exact absurd heq (hunproposed hown block hblock)

theorem Closed.enterRound (h : Closed P keys net) {round : UInt64} (qc : QuorumCert)
    (hview : Reached P keys net round) (hround : (net.node i).round < round) :
    Closed P keys (net.update i (((net.node i).adoptQc qc).advanceRound round, none)) := by
  have hlt : (net.node i).round.toNat < round.toNat := UInt64.lt_iff_toNat_lt.mp hround
  have hround' : ((net.node i).adoptQc qc).round < round := by rwa [adoptQc_round]
  have hidentity := (h.identity i).adoptQc qc
  refine h.update rfl ⟨hidentity.address, hidentity.signingKey, hidentity.config⟩ ?_
    (fun hdecided => (hdecided.adoptQc qc).advance hround') (Nat.le_of_lt hlt) hview (by rintro v ⟨⟩)
    (by rintro round qc ⟨⟩)
  rcases h.standing i with hwaiting | hdecided
  · refine Or.inl ((hwaiting.adoptQc qc).advance ?_ ?_)
    · by_contra hlate
      exact not_decided_of_waiting hwaiting (hview.decided i (Nat.not_le.mp hlate))
    · intro hown block hblock heq
      obtain ⟨j, hj, hled⟩ := h.proposals block hblock
      obtain rfl : j = i := Fin.ext (by rw [← hj.round, heq, hown])
      omega
  · exact Or.inr ((hdecided.adoptQc qc).advance hround')

theorem Closed.handleNewView (h : Closed P keys net) {round : UInt64} {qc : QuorumCert}
    (hview : Reached P keys net round) :
    Closed P keys (net.update i ((net.node i).handleNewView P round qc)) := by
  have hstanding := (h.standing i).imp (fun hw => hw.adoptQc qc) (fun hd => hd.adoptQc qc)
  have hstays : ∀ sent : Option HotStuffMsg, sent.bind HotStuffMsg.proposal = none →
      (∀ v, sent = some (.vote v) → Cast P keys net.proposals v) →
        (∀ round qc, sent ≠ some (.newView round qc)) →
      Closed P keys (net.update i ((net.node i).adoptQc qc, sent)) := by
    intro sent hproposal hvote hnone
    exact h.update hproposal ((h.identity i).adoptQc qc) hstanding (fun hd => hd.adoptQc qc)
      (Nat.le_of_eq (by rw [adoptQc_round])) (by rw [adoptQc_round]; exact h.reached i) hvote
      (fun round qc hsent => absurd hsent (hnone round qc))
  rcases handleNewView_cases P (net.node i) round qc with ⟨hround, heq⟩ | ⟨_, _, heq⟩ |
    ⟨_, block, hpending, heq⟩
  · rw [heq]
    exact h.enterRound qc hview hround
  · rw [heq]
    exact hstays none rfl (by rintro v ⟨⟩) (by rintro round qc ⟨⟩)
  · rw [heq]
    refine hstays _ rfl ?_ (by rintro round qc ⟨⟩)
    rintro v ⟨⟩
    have hwaiting : Waiting P keys net.proposals i (net.node i) := by
      refine (h.standing i).resolve_right fun hdecided => ?_
      rw [hdecided.pending] at hpending
      cases hpending
    obtain ⟨hblock, hround⟩ := hwaiting.pending block hpending
    exact hwaiting.cast (h.identity i) hblock hround

theorem proposal_committedOwn (hcommitted : nd.committedBlocks = [Block.genesis]) (hid : Identity P keys i nd)
    (hown : nd.round.toNat = i) (now : Int64) (transactions : List Transaction) :
    CommittedOwn P keys i (nd.proposal P now transactions) := by
  have htip : nd.tip = Block.genesis := by
    unfold HotStuffNode.tip
    simp [hcommitted]
  refine ⟨⟨?_, ?_⟩, hown, hid.address⟩
  · change nd.tip.header.height + 1 = 1
    rw [htip]
    rfl
  · change nd.tip.hash P = _
    rw [htip]

theorem Closed.propose (h : Closed P keys net) (hn : 4 ≤ n) (hkeys : Function.Injective (addr P keys))
    (hlead : (net.node i).isLeader = true)
    (hfirst : ∀ block ∈ net.proposals, block.header.round ≠ (net.node i).round) (now : Int64)
    (transactions : List Transaction) :
    Closed P keys (net.update i ((net.node i).propose P now transactions)) := by
  have hown := h.leader_round hn hkeys hlead
  have hwaiting : Waiting P keys net.proposals i (net.node i) := by
    refine (h.standing i).resolve_right fun hdecided => ?_
    obtain ⟨block, hblock, hround⟩ := hdecided.proposed
    exact hfirst block hblock (UInt64.toNat_inj.mp (hround.trans hown.symm))
  have hblock := proposal_committedOwn hwaiting.committed (h.identity i) hown now transactions
  have hproposals : (net.update i ((net.node i).propose P now transactions)).proposals =
      net.proposals ++ [(net.node i).proposal P now transactions] := by
    change (net.sent ++ _).filterMap HotStuffMsg.proposal = _
    rw [List.filterMap_append]
    unfold HotStuffNode.propose
    rw [if_pos hlead]
    rfl
  have hsub : ∀ b ∈ net.proposals, b ∈ net.proposals ++ [(net.node i).proposal P now transactions] :=
    fun b hb => List.mem_append_left _ hb
  refine h.extend hproposals hsub ?_ ?_ (Or.inl ?_)
    (fun hdecided => (not_decided_of_waiting hwaiting hdecided).elim) ?_ ?_ ?_ ?_
  all_goals
    unfold HotStuffNode.propose
    rw [if_pos hlead]
  · intro b hb
    rcases List.mem_append.mp hb with hold | hnew
    · exact Or.inl hold
    · rw [List.mem_singleton.mp hnew]
      exact Or.inr ⟨hblock, Nat.le_of_eq hown.symm⟩
  · exact ⟨(h.identity i).address, (h.identity i).signingKey, (h.identity i).config⟩
  · refine ⟨hwaiting.early, by simp, hwaiting.committed, ?_, by simp,
      fun v hv => ⟨(hwaiting.votes v hv).1.mono hsub, (hwaiting.votes v hv).2⟩,
      fun l hl => (hwaiting.lock l hl).mono hsub, by simp⟩
    rintro b ⟨⟩
    exact ⟨by simp, rfl⟩
  · exact h.reached i
  · rintro v ⟨⟩
  · rintro round qc ⟨⟩

theorem Closed.step (h : Closed P keys net) (hn : 4 ≤ n) (hmax : n ≤ 2 ^ 64)
    (hkeys : Function.Injective (addr P keys)) {e : EngineEvent n} (he : net.InItsRound e)
    (hfree : CollisionFree P (Block.genesis :: net.proposals)) :
    Closed P keys (net.step P e) := by
  cases e with
  | propose i now transactions => exact h.propose hn hkeys he.1 he.2 now transactions
  | deliver i msg order =>
    cases msg with
    | propose block highQc =>
      have hblock : block ∈ net.proposals := List.mem_filterMap.mpr ⟨_, he.1, rfl⟩
      exact h.handlePropose hfree highQc hblock he.2
    | vote vote => exact h.handleVote hn hmax hkeys order he.1 he.2.1 he.2.2
    | newView round qc => exact h.handleNewView (h.views round qc he)
    | timeout round voter => exact h.unchanged i

end Steps

theorem init_closed : Closed P keys (EngineNet.init P keys) := by
  have hreached : ∀ i, Reached P keys (EngineNet.init P keys) ((EngineNet.init P keys).node i).round := by
    intro i
    exact ⟨Nat.zero_le _, fun k hk => absurd hk (Nat.not_lt_zero _)⟩
  refine ⟨fun i => ⟨rfl, rfl, rfl⟩, fun i => Or.inl ?_, hreached,
    fun block hblock => absurd hblock List.not_mem_nil,
    fun v hv => absurd hv List.not_mem_nil, fun round qc hsent => absurd hsent List.not_mem_nil⟩
  exact ⟨Nat.zero_le _, by simp [EngineNet.init, HotStuffNode.new], rfl, by rintro b ⟨⟩,
    by rintro _ ⟨block, hblock, _⟩; exact absurd hblock List.not_mem_nil,
      fun v hv => absurd hv List.not_mem_nil,
    by rintro l ⟨⟩, by rintro ⟨⟩⟩

section Halt

variable (P keys) in
structure HaltsBy (net : EngineNet n) (limit : ℕ) : Prop where
  rounds : ∀ i, (net.node i).round.toNat ≤ limit
  committed : ∀ i, (net.node i).committedBlocks = [Block.genesis] ∨
    (i < limit ∧ ∃ block, (net.node i).committedBlocks = [Block.genesis, block] ∧ CommittedOwn P keys i block)

theorem Closed.haltsBy {net : EngineNet n} (h : Closed P keys net) :
    HaltsBy P keys net (decidingRounds n) := by
  refine ⟨fun i => (h.reached i).bound, fun i => ?_⟩
  rcases h.standing i with hwaiting | hdecided
  · exact Or.inl hwaiting.committed
  · exact Or.inr ⟨hdecided.early, hdecided.committed⟩

theorem mem_proposals_run {net : EngineNet n} {es : List (EngineEvent n)} {block : Block}
    (h : block ∈ net.proposals) :
    block ∈ (run (EngineNet.step P) net es).proposals := by
  have hupdate : ∀ (net : EngineNet n) i r, block ∈ net.proposals → block ∈ (net.update i r).proposals := by
    intro net i r hblock
    change block ∈ (net.sent ++ r.2.toList).filterMap HotStuffMsg.proposal
    rw [List.filterMap_append]
    exact List.mem_append_left _ hblock
  induction es generalizing net with
  | nil => exact h
  | cons e es ih =>
    rw [run_cons]
    apply ih
    cases e with
    | propose i now transactions => exact hupdate net i _ h
    | deliver i msg order => exact hupdate net i _ h

theorem engine_halts (P : Primitives) (hn : 4 ≤ n) (hmax : n ≤ 2 ^ 64) (keys : Fin n → SigningKey)
    (hkeys : Function.Injective (addr P keys)) (es : List (EngineEvent n))
    (hes : AllSteps (EngineNet.step P) EngineNet.InItsRound (EngineNet.init P keys) es)
    (hfree : CollisionFree P
      (Block.genesis :: (run (EngineNet.step P) (EngineNet.init P keys) es).proposals)) :
    AllStates (EngineNet.step P) (fun net => HaltsBy P keys net (decidingRounds n))
      (EngineNet.init P keys) es := by
  have hfrees : AllStates (EngineNet.step P) (fun net => CollisionFree P (Block.genesis :: net.proposals))
      (EngineNet.init P keys) es := by
    rintro es' ⟨rest, rfl⟩ b hb b' hb'
    rw [run_append] at hfree
    have hsub : ∀ x, x ∈ Block.genesis :: (run (EngineNet.step P) (EngineNet.init P keys) es').proposals →
        x ∈ Block.genesis ::
          (run (EngineNet.step P) (run (EngineNet.step P) (EngineNet.init P keys) es') rest).proposals := by
      intro x hx
      rcases List.mem_cons.mp hx with rfl | hold
      · exact List.mem_cons_self
      · exact List.mem_cons_of_mem _ (mem_proposals_run hold)
    exact hfree b (hsub b hb) b' (hsub b' hb')
  have hboth : AllSteps (EngineNet.step P) (fun net e => net.InItsRound e ∧
      CollisionFree P (Block.genesis :: net.proposals)) (EngineNet.init P keys) es :=
    allSteps_and.mpr ⟨hes, hfrees.allSteps fun _ _ h => h⟩
  have hclosed : AllStates (EngineNet.step P) (Closed P keys) (EngineNet.init P keys) es :=
    invariant (fun _ _ h he => h.step hn hmax hkeys he.1 he.2) init_closed hboth
  exact hclosed.mono fun _ h => h.haltsBy

instance (net : EngineNet n) (e : EngineEvent n) : Decidable (net.InItsRound e) :=
  match e with
  | .propose i _ _ =>
      inferInstanceAs (Decidable ((net.node i).isLeader = true ∧ ∀ block ∈ net.proposals, _ ≠ _))
  | .deliver i (.propose _ _) _ => inferInstanceAs (Decidable (_ ∧ _ = (net.node i).round))
  | .deliver i (.vote _) _ =>
      inferInstanceAs (Decidable (_ ∧ (net.node i).isLeader = true ∧ _ = (net.node i).round))
  | .deliver _ (.newView _ _) _ => inferInstanceAs (Decidable (_ ∈ net.sent))
  | .deliver _ (.timeout _ _) _ => inferInstanceAs (Decidable (_ ∈ net.sent))

noncomputable def broadcastLast (net : EngineNet 4) : List (EngineEvent 4) :=
  net.sent.getLast?.toList.flatMap fun msg => (List.finRange 4).map fun k => .deliver k msg .insertion

noncomputable def decidedRound (net : EngineNet 4) (i : Fin 4) : List (EngineEvent 4) :=
  let proposal : List (EngineEvent 4) := [.propose i 1 []]
  let es := proposal ++ broadcastLast (run (EngineNet.step .sample) net proposal)
  let votes := ((run (EngineNet.step .sample) net es).sent.reverse.take 3).map
      fun msg => .deliver i msg .insertion
  let es := es ++ votes ++ votes ++ votes
  es ++ broadcastLast (run (EngineNet.step .sample) net es)

noncomputable def twoRounds : List (EngineEvent 4) :=
  ((List.finRange 4).take 2).foldl
    (fun es i => es ++ decidedRound (run (EngineNet.step .sample) firstNet es) i) []

theorem engine_halts_twoRounds :
    AllStates (EngineNet.step .sample) (fun net => HaltsBy .sample fourKeys net (decidingRounds 4)) firstNet
      twoRounds :=
  engine_halts .sample (by decide) (by decide) fourKeys (by decide +kernel) twoRounds (by decide +kernel)
    (by decide +kernel)

example : (List.finRange 4).map
    (fun k => ((run (EngineNet.step .sample) firstNet twoRounds).node k).committedBlocks.length) =
    [2, 2, 1, 1] := by decide +kernel

end Halt

end VelaNetwork
