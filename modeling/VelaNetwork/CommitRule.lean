import VelaNetwork.Decisions
import VelaNetwork.Phases

namespace VelaNetwork

open Library.Ballots Library.Runs

variable (P : Primitives)

namespace VoteMap

def collect (votes : List Vote) : VoteMap := votes.foldl VoteMap.insert .empty

theorem collect_concat (votes : List Vote) (vote : Vote) :
    collect (votes ++ [vote]) = (collect votes).insert vote :=
  List.foldl_append

theorem eq_empty_of_values {m : VoteMap} (h : m.values = []) : m = .empty := by
  obtain ⟨entries, keyed⟩ := m
  obtain rfl : entries = ∅ := AList.ext (List.map_eq_nil_iff.mp h)
  rfl

theorem mem_values_iff {m : VoteMap} {v : Vote} : v ∈ m.values ↔ m.entries.lookup v.voter.hex = some v := by
  rw [← Option.mem_def, AList.mem_lookup_iff]
  constructor
  · intro h
    obtain ⟨e, he, rfl⟩ := List.mem_map.mp h
    rwa [← m.keyed e he]
  · intro h
    exact List.mem_map.mpr ⟨_, h, rfl⟩

theorem mem_values_insert_iff {m : VoteMap} {vote v : Vote} :
    v ∈ (m.insert vote).values ↔ v = vote ∨ v ∈ m.values ∧ vote.voter ≠ v.voter := by
  have hentries : (m.insert vote).entries = m.entries.insert vote.voter.hex vote := rfl
  rw [mem_values_iff, mem_values_iff, hentries]
  by_cases hvoter : vote.voter = v.voter
  · rw [hvoter, AList.lookup_insert]
    simp [eq_comm]
  · have hkey : v.voter.hex ≠ vote.voter.hex := fun h => hvoter (Address.hex_inj.mp h).symm
    rw [AList.lookup_insert_ne hkey]
    constructor
    · exact fun h => Or.inr ⟨h, hvoter⟩
    · rintro (rfl | ⟨h, _⟩)
      · exact absurd rfl hvoter
      · exact h

theorem mem_collect {votes : List Vote} {v : Vote} :
    v ∈ (collect votes).values ↔ LastOf Vote.voter votes v := by
  induction votes using List.reverseRecOn with
  | nil => exact iff_of_false List.not_mem_nil (lastOf_nil v)
  | append_singleton votes vote ih => rw [collect_concat, mem_values_insert_iff, lastOf_concat, ih]

theorem collect_size (votes : List Vote) : (collect votes).size = (votes.map Vote.voter).toFinset.card := by
  rw [← voters_card]
  congr 1
  induction votes using List.reverseRecOn with
  | nil => rfl
  | append_singleton votes vote ih =>
    rw [collect_concat, voters_insert, ih, List.map_append, List.map_singleton, toFinset_concat]

end VoteMap

namespace HotStuffNode

open VoteMap

def phaseAfter : ℕ → Phase
  | 0 => .prepare
  | 1 => .preCommit
  | 2 => .commit
  | _ => .decide

structure CertificateOf (block : Block) (round : UInt64) (votes : List Vote) (qc : QuorumCert) : Prop where
  blockHash : qc.blockHash = block.hash P
  round : qc.round = round
  voters : (qc.votes.map (·.voter)).Nodup
  last : ∀ v, v ∈ qc.votes ↔ LastOf Vote.voter votes v

def CommitsBy (n n' : HotStuffNode) (block : Block) (votes : List Vote) : Prop :=
  ∃ qc, n'.committedBlocks = n.committedBlocks ++ [{ block with qc := some qc }] ∧
    CertificateOf P block n.round votes qc

structure Pending (n₀ n : HotStuffNode) (block : Block) : Prop where
  config : n.config = n₀.config
  round : n.round = n₀.round
  committedBlocks : n.committedBlocks = n₀.committedBlocks
  pendingBlock : n.pendingBlock = some block

/-- The engine before its last quorum: the votes of the open segment are in the map of its phase, and the
maps of the later phases are empty. -/
inductive Counting (segments : List (List Vote)) (rest : List Vote) (n : HotStuffNode) : Prop
  | preparing (hsegments : segments = []) (hphase : n.phase = .prepare)
      (hrest : n.prepareVotes = collect rest)
      (hprecommit : n.precommitVotes = .empty) (hcommit : n.commitVotes = .empty)
  | prepared (s₁ : List Vote) (hsegments : segments = [s₁]) (hphase : n.phase = .preCommit)
      (hrest : n.precommitVotes = collect rest) (hcommit : n.commitVotes = .empty)
  | locked (s₁ s₂ : List Vote) (hsegments : segments = [s₁, s₂]) (hphase : n.phase = .commit)
      (hrest : n.commitVotes = collect rest)

inductive Counted (n₀ : HotStuffNode) (block : Block) (segments : List (List Vote))
    (rest : List Vote) (n : HotStuffNode) : Prop
  | counting (hpending : Pending n₀ n block) (h : Counting segments rest n)
  | decided (s₁ s₂ s₃ : List Vote) (more : List (List Vote)) (hsegments : segments = s₁ :: s₂ :: s₃ :: more)
      (hphase : n.phase = .decide) (hcommits : CommitsBy P n₀ n block s₃)

variable {P} {n₀ n : HotStuffNode} {block : Block}

theorem after_vote_of_decide (h : n.phase = .decide) (vote : Vote) (order : IterOrder) :
    n.after P (.handleVote vote order) = n := by
  rw [after_handleVote, if_neg fun hcompletes => hcompletes.2.1 h, if_neg fun hv => hv.2 h]

theorem certificateOf_formQc {votes : List Vote} (order : IterOrder) {phase : Phase}
    (hmap : n.votesOf phase = collect votes)
    (hfirst : FirstQuorum n.config.quorumSize (votes.map Vote.voter))
    (hvotes : ∀ v ∈ votes, v.blockHash = block.hash P) :
    CertificateOf P block n.round votes (n.formQc order phase) := by
  have hperm := n.formQc_votes_perm order phase
  rw [hmap] at hperm
  have hlast : ∀ v, v ∈ (collect votes).values ↔ LastOf Vote.voter votes v := fun v => mem_collect
  refine ⟨?_, rfl, ?_, fun v => by rw [hperm.mem_iff, hlast]⟩
  · apply formQc_blockHash order
    · rw [hmap, collect_size]
      exact Nat.lt_of_lt_of_le (quorumSize_pos n.config) hfirst.reached
    · intro v hv
      rw [hmap, hlast] at hv
      obtain ⟨before, behind, rfl, _⟩ := hv
      exact hvotes v (by simp)
  · exact (hperm.map _).nodup_iff.mpr (collect votes).voters_nodup

section Step

variable {segments : List (List Vote)} {rest votes : List Vote}

theorem Counting.tally (h : Counting segments rest n) :
    n.votesOf n.phase = collect rest ∧ n.phase = phaseAfter segments.length ∧ n.phase ≠ .decide ∧
      segments.length < 3 := by
  cases h with
  | preparing hsegments hphase hrest =>
    rw [hphase, hsegments]
    exact ⟨hrest, rfl, by decide, by decide⟩
  | prepared s₁ hsegments hphase hrest =>
    rw [hphase, hsegments]
    exact ⟨hrest, rfl, by decide, by simp⟩
  | locked s₁ s₂ hsegments hphase hrest =>
    rw [hphase, hsegments]
    exact ⟨hrest, rfl, by decide, by simp⟩

theorem Counting.record (h : Counting segments rest n) (vote : Vote) :
    Counting segments (rest ++ [vote]) (n.recordVote vote) := by
  cases h with
  | preparing hsegments hphase hrest hprecommit hcommit =>
    rw [recordVote_prepare hphase]
    exact .preparing hsegments hphase (by rw [hrest, collect_concat]) hprecommit hcommit
  | prepared s₁ hsegments hphase hrest hcommit =>
    rw [recordVote_preCommit hphase]
    exact .prepared s₁ hsegments hphase (by rw [hrest, collect_concat]) hcommit
  | locked s₁ s₂ hsegments hphase hrest =>
    rw [recordVote_commit hphase]
    exact .locked s₁ s₂ hsegments hphase (by rw [hrest, collect_concat])

theorem Pending.record (h : Pending n₀ n block) (vote : Vote) : Pending n₀ (n.recordVote vote) block := by
  constructor
  · simpa using h.config
  · simpa using h.round
  · simpa using h.committedBlocks
  · simpa using h.pendingBlock

theorem Counting.close (h : Counting segments votes n) (hpending : Pending n₀ n block)
    (hfirst : FirstQuorum n₀.config.quorumSize (votes.map Vote.voter))
    (hvotes : ∀ v ∈ votes, v.blockHash = block.hash P) (order : IterOrder) :
    Counted P n₀ block (segments ++ [votes]) [] (n.closePhase (n.formQc order n.phase)) := by
  cases h with
  | preparing hsegments hphase hrest hprecommit hcommit =>
    rw [closePhase_prepare hphase, hsegments]
    refine .counting ⟨hpending.config, hpending.round, hpending.committedBlocks, hpending.pendingBlock⟩ ?_
    exact .prepared votes rfl rfl hprecommit hcommit
  | prepared s₁ hsegments hphase hrest hcommit =>
    rw [closePhase_preCommit hphase, hsegments]
    refine .counting ⟨hpending.config, hpending.round, hpending.committedBlocks, hpending.pendingBlock⟩ ?_
    exact .locked s₁ votes rfl rfl hcommit
  | locked s₁ s₂ hsegments hphase hrest =>
    have hsome : ({ n with phase := .decide } : HotStuffNode).pendingBlock = some block :=
      hpending.pendingBlock
    have hcertificate : CertificateOf P block n.round votes (n.formQc order .commit) :=
      certificateOf_formQc order hrest (hpending.config ▸ hfirst) hvotes
    rw [hpending.round] at hcertificate
    rw [closePhase_commit hphase, commitBlock_some hsome, hsegments, hphase]
    refine .decided s₁ s₂ votes [] rfl rfl ⟨_, ?_, hcertificate⟩
    change n.committedBlocks ++ _ = _
    rw [hpending.committedBlocks]

theorem Counted.vote (h : Counted P n₀ block segments rest n) {vote : Vote} (hverify : vote.verify P = true)
    (hhash : ∀ v ∈ rest ++ [vote], v.blockHash = block.hash P) (order : IterOrder) :
    (((rest ++ [vote]).map Vote.voter).toFinset.card < n₀.config.quorumSize →
      Counted P n₀ block segments (rest ++ [vote]) (n.after P (.handleVote vote order))) ∧
    (FirstQuorum n₀.config.quorumSize ((rest ++ [vote]).map Vote.voter) →
      Counted P n₀ block (segments ++ [rest ++ [vote]]) [] (n.after P (.handleVote vote order))) := by
  cases h with
  | counting hpending h =>
    obtain ⟨_, _, hopen, _⟩ := h.tally
    have hrecord := h.record vote
    have hmap := hrecord.tally.1
    rw [recordVote_phase] at hmap
    have hcompletes : n.Completes P vote ↔
        n₀.config.quorumSize ≤ ((rest ++ [vote]).map Vote.voter).toFinset.card := by
      rw [← collect_size, ← hmap, ← hpending.config]
      exact ⟨fun hc => hc.2.2, fun hq => ⟨hverify, hopen, hq⟩⟩
    rw [after_handleVote, if_pos (And.intro hverify hopen)]
    constructor
    · intro hfew
      rw [if_neg fun hc => absurd (hcompletes.mp hc) (Nat.not_le.mpr hfew)]
      exact .counting (hpending.record vote) hrecord
    · intro hfirst
      rw [if_pos (hcompletes.mpr hfirst.reached)]
      have hclose := hrecord.close (hpending.record vote) hfirst hhash order
      rwa [recordVote_phase] at hclose
  | decided s₁ s₂ s₃ more hsegments hphase hcommits =>
    rw [after_vote_of_decide hphase]
    constructor
    · intro _
      exact .decided s₁ s₂ s₃ more hsegments hphase hcommits
    · intro _
      refine .decided s₁ s₂ s₃ (more ++ [rest ++ [vote]]) ?_ hphase hcommits
      rw [hsegments]
      rfl

end Step

section Run

variable (P) in
def deliver (n : HotStuffNode) (deliveries : List (Vote × IterOrder)) : HotStuffNode :=
  run (after P) n (deliveries.map fun d => .handleVote d.1 d.2)

theorem counted_run (hphase : n₀.phase = .prepare) (hempty : n₀.allVotes = [])
    (hpending : n₀.pendingBlock = some block) (deliveries : List (Vote × IterOrder))
    (hverify : ∀ d ∈ deliveries, d.1.verify P = true)
    (hhash : ∀ d ∈ deliveries, d.1.blockHash = block.hash P) :
    ∃ segments rest, Cut Vote.voter n₀.config.quorumSize (deliveries.map (·.1)) segments rest ∧
      Counted P n₀ block segments rest (n₀.deliver P deliveries) := by
  induction deliveries using List.reverseRecOn with
  | nil =>
    obtain ⟨hprepare, hprecommit, hcommit⟩ : n₀.prepareVotes.values = [] ∧ n₀.precommitVotes.values = [] ∧
        n₀.commitVotes.values = [] := by simpa [allVotes] using hempty
    refine ⟨[], [], cut_nil (quorumSize_pos n₀.config), .counting ⟨rfl, rfl, rfl, hpending⟩ ?_⟩
    exact .preparing rfl hphase (eq_empty_of_values hprepare) (eq_empty_of_values hprecommit)
      (eq_empty_of_values hcommit)
  | append_singleton deliveries d ih =>
    obtain ⟨segments, rest, hcut, hcounted⟩ :=
      ih (fun d' hd' => hverify d' (by simp [hd'])) (fun d' hd' => hhash d' (by simp [hd']))
    have hstep : n₀.deliver P (deliveries ++ [d]) =
        (n₀.deliver P deliveries).after P (.handleVote d.1 d.2) := by
      unfold deliver
      rw [List.map_append, run_append]
      rfl
    have hrest : ∀ v ∈ rest ++ [d.1], v.blockHash = block.hash P := by
      intro v hv
      rcases List.mem_append.mp hv with hold | hnew
      · have hmem : v ∈ deliveries.map (·.1) := by
          rw [hcut.whole]
          exact List.mem_append_right _ hold
        obtain ⟨d', hd', rfl⟩ := List.mem_map.mp hmem
        exact hhash d' (by simp [hd'])
      · rw [List.mem_singleton.mp hnew]
        exact hhash d (by simp)
    obtain ⟨hopen, hclose⟩ := hcounted.vote (hverify d (by simp)) hrest d.2
    rw [hstep, List.map_append, List.map_singleton]
    rcases hcut.concat d.1 with ⟨hfew, hnext⟩ | ⟨hfirst, hnext⟩
    · exact ⟨segments, rest ++ [d.1], hnext, hopen hfew⟩
    · exact ⟨segments ++ [rest ++ [d.1]], [], hnext, hclose hfirst⟩

def Splits (q : ℕ) (votes s₁ s₂ s₃ rest : List Vote) : Prop :=
  votes = s₁ ++ s₂ ++ s₃ ++ rest ∧ ∀ s ∈ [s₁, s₂, s₃], FirstQuorum q (s.map Vote.voter)

variable (P) in
structure CommitRule (n n' : HotStuffNode) (block : Block) (votes : List Vote) : Prop where
  commits : (∃ qc, n'.committedBlocks = n.committedBlocks ++ [{ block with qc := some qc }]) ↔
    ∃ s₁ s₂ s₃ rest, Splits n.config.quorumSize votes s₁ s₂ s₃ rest
  certificate : ∀ s₁ s₂ s₃ rest, Splits n.config.quorumSize votes s₁ s₂ s₃ rest → CommitsBy P n n' block s₃
  later : (∃ s₁ s₂ s₃ rest, Splits n.config.quorumSize votes s₁ s₂ s₃ rest) →
    ∀ vote order, n'.after P (.handleVote vote order) = n'
  keeps : (¬ ∃ s₁ s₂ s₃ rest, Splits n.config.quorumSize votes s₁ s₂ s₃ rest) →
    n'.committedBlocks = n.committedBlocks
  phase : ∃ segments rest, Cut Vote.voter n.config.quorumSize votes segments rest ∧
    n'.phase = phaseAfter segments.length

variable {segments : List (List Vote)} {votes rest : List Vote} {q : ℕ}

theorem Splits.isPrefix {s₁ s₂ s₃ more : List Vote} (h : Splits q votes s₁ s₂ s₃ more)
    (hcut : Cut Vote.voter q votes segments rest) : [s₁, s₂, s₃] <+: segments := by
  have hwhole : votes = [s₁, s₂, s₃].flatten ++ more := by simp [h.1]
  exact hcut.isPrefix h.2 hwhole

theorem Counted.commitRule (h : Counted P n₀ block segments rest n)
    (hcut : Cut Vote.voter n₀.config.quorumSize votes segments rest) : CommitRule P n₀ n block votes := by
  cases h with
  | counting hpending h =>
    obtain ⟨_, hphase, _, hlen⟩ := h.tally
    have hno : ¬ ∃ s₁ s₂ s₃ more, Splits n₀.config.quorumSize votes s₁ s₂ s₃ more := by
      rintro ⟨s₁, s₂, s₃, more, hsplits⟩
      have hle := (hsplits.isPrefix hcut).length_le
      simp only [List.length_cons, List.length_nil] at hle
      omega
    have hsame : n.committedBlocks = n₀.committedBlocks := hpending.committedBlocks
    refine ⟨?_, ?_, fun hsplits => absurd hsplits hno, fun _ => hsame, segments, rest, hcut, hphase⟩
    · apply iff_of_false _ hno
      rintro ⟨qc, hqc⟩
      rw [hsame] at hqc
      simpa using congrArg List.length hqc
    · intro s₁ s₂ s₃ more hsplits
      exact absurd ⟨s₁, s₂, s₃, more, hsplits⟩ hno
  | decided s₁ s₂ s₃ more hsegments hphase hcommits =>
    subst hsegments
    have hsplits : ∃ s₁ s₂ s₃ more, Splits n₀.config.quorumSize votes s₁ s₂ s₃ more := by
      refine ⟨s₁, s₂, s₃, more.flatten ++ rest, ?_, ?_⟩
      · simp [hcut.whole]
      · intro s hs
        apply hcut.quorums s
        simp only [List.mem_cons, List.not_mem_nil, or_false] at hs ⊢
        tauto
    refine ⟨?_, ?_, fun _ => after_vote_of_decide hphase, fun hno => absurd hsplits hno, _, rest, hcut, ?_⟩
    · obtain ⟨qc, hqc, _⟩ := hcommits
      exact iff_of_true ⟨qc, hqc⟩ hsplits
    · intro t₁ t₂ t₃ more' hsplits'
      have hfront := hsplits'.isPrefix hcut
      simp only [List.cons_prefix_cons] at hfront
      rw [hfront.2.2.1]
      exact hcommits
    · rw [hphase]
      rfl

theorem exact_commit (P : Primitives) (n : HotStuffNode) (block : Block) (hphase : n.phase = .prepare)
    (hempty : n.allVotes = []) (hpending : n.pendingBlock = some block) (deliveries : List (Vote × IterOrder))
    (hvotes : ∀ d ∈ deliveries, d.1.verify P = true ∧ d.1.blockHash = block.hash P ∧ d.1.round = n.round) :
    CommitRule P n (n.deliver P deliveries) block (deliveries.map (·.1)) := by
  obtain ⟨segments, rest, hcut, hcounted⟩ := counted_run hphase hempty hpending deliveries
    (fun d hd => (hvotes d hd).1) (fun d hd => (hvotes d hd).2.1)
  exact hcounted.commitRule hcut

noncomputable def ballotsFor (block : Block) (voters : List ℕ) : List (Vote × IterOrder) :=
  voters.map fun k => (Vote.sign .sample (block.hash .sample) 0 (sampleKey k), .insertion)

theorem exact_commit_repeatedVoters :
    CommitRule .sample (engineOfFour.after .sample (.handlePropose (firstBlock 1) none))
      ((engineOfFour.after .sample (.handlePropose (firstBlock 1) none)).deliver .sample
        (ballotsFor (firstBlock 1) [0, 0, 1, 2, 2, 1, 0, 3, 3, 1, 0, 2])) (firstBlock 1)
      ((ballotsFor (firstBlock 1) [0, 0, 1, 2, 2, 1, 0, 3, 3, 1, 0, 2]).map (·.1)) :=
  exact_commit .sample _ _ (by decide +kernel) (by decide +kernel) (by decide +kernel) _ (by decide +kernel)

end Run

end HotStuffNode

end VelaNetwork
