import VelaNetwork.Types
import Mathlib.Data.List.AList

namespace VelaNetwork

structure ConsensusConfig where
  validatorSet : List Validator
  f : ℕ
  blockInterval : UInt64
  timeoutMs : UInt64
deriving DecidableEq

namespace ConsensusConfig

def new (validators : List Validator) : ConsensusConfig where
  validatorSet := validators
  f := (validators.length - 1) / 3
  blockInterval := 1000
  timeoutMs := 5000

def quorumSize (config : ConsensusConfig) : ℕ := 2 * config.f + 1

def leaderForRound (config : ConsensusConfig) (round : UInt64) : Option Validator :=
  config.validatorSet[round.toNat % config.validatorSet.length]?

def isLeader (config : ConsensusConfig) (round : UInt64) (address : Address) : Bool :=
  match config.leaderForRound round with
  | some validator => validator.address = address
  | none => false

end ConsensusConfig

inductive Phase where
  | prepare
  | preCommit
  | commit
  | decide
deriving DecidableEq

inductive HotStuffMsg where
  | propose (block : Block) (highQc : Option QuorumCert)
  | vote (vote : Vote)
  | newView (round : UInt64) (highQc : QuorumCert)
  | timeout (round : UInt64) (voter : Address)
deriving DecidableEq

structure VoteMap where
  entries : AList (fun _ : String => Vote)
  keyed : ∀ e ∈ entries.entries, e.1 = e.2.voter.hex

namespace VoteMap

def empty : VoteMap := ⟨∅, by simp⟩

def insert (m : VoteMap) (vote : Vote) : VoteMap where
  entries := m.entries.insert vote.voter.hex vote
  keyed := by
    intro e he
    rw [AList.entries_insert, List.mem_cons] at he
    rcases he with rfl | he
    · rfl
    · exact m.keyed e ((List.kerase_sublist _ _).subset he)

def values (m : VoteMap) : List Vote := m.entries.entries.map (·.2)

def size (m : VoteMap) : ℕ := m.values.length

@[simp] theorem values_empty : empty.values = [] := rfl

theorem mem_values_insert {m : VoteMap} {vote v : Vote} (h : v ∈ (m.insert vote).values) :
    v = vote ∨ v ∈ m.values := by
  obtain ⟨e, he, rfl⟩ := List.mem_map.mp h
  rw [insert, AList.entries_insert, List.mem_cons] at he
  rcases he with rfl | he
  · exact Or.inl rfl
  · exact Or.inr (List.mem_map.mpr ⟨e, (List.kerase_sublist _ _).subset he, rfl⟩)

theorem voters_nodup (m : VoteMap) : (m.values.map (·.voter)).Nodup := by
  have hkeys : m.entries.entries.map (·.1) = (m.values.map (·.voter)).map Address.hex := by
    rw [values, List.map_map, List.map_map]
    exact List.map_congr_left (fun e he => m.keyed e he)
  have hnodup := m.entries.keys_nodup
  rw [AList.keys, List.keys, hkeys] at hnodup
  exact hnodup.of_map

end VoteMap

/-- The order in which a hash map yields its values: any permutation of them. -/
structure IterOrder where
  apply : List Vote → List Vote
  perm : ∀ votes, (apply votes).Perm votes

def IterOrder.insertion : IterOrder := ⟨id, fun _ => List.Perm.refl _⟩

structure HotStuffNode where
  address : Address
  signingKey : SigningKey
  config : ConsensusConfig
  round : UInt64
  phase : Phase
  lockedQc : Option QuorumCert
  highQc : Option QuorumCert
  prepareVotes : VoteMap
  precommitVotes : VoteMap
  commitVotes : VoteMap
  committedBlocks : List Block
  pendingBlock : Option Block
  committed_ne_nil : committedBlocks ≠ []

namespace HotStuffNode

variable (P : Primitives)

def new (address : Address) (signingKey : SigningKey) (config : ConsensusConfig) : HotStuffNode where
  address := address
  signingKey := signingKey
  config := config
  round := 0
  phase := .prepare
  lockedQc := none
  highQc := none
  prepareVotes := .empty
  precommitVotes := .empty
  commitVotes := .empty
  committedBlocks := [Block.genesis]
  pendingBlock := none
  committed_ne_nil := by simp

def isLeader (n : HotStuffNode) : Bool := n.config.isLeader n.round n.address

def chainHeight (n : HotStuffNode) : UInt64 := UInt64.ofNat n.committedBlocks.length - 1

def tip (n : HotStuffNode) : Block := n.committedBlocks.getLast n.committed_ne_nil

def proposal (now : Int64) (n : HotStuffNode) (transactions : List Transaction) : Block :=
  Block.new P now (n.tip.header.height + 1) (n.tip.hash P) transactions n.address n.round

/-- A node that is not the leader panics before it changes anything. -/
def propose (now : Int64) (n : HotStuffNode) (transactions : List Transaction) :
    HotStuffNode × Option HotStuffMsg :=
  if n.isLeader then
    let block := n.proposal P now transactions
    ({ n with pendingBlock := some block, phase := .prepare }, some (.propose block n.highQc))
  else (n, none)

def extendsLock (n : HotStuffNode) (block : Block) : Bool :=
  match n.lockedQc with
  | some locked => block.header.parentHash = locked.blockHash
  | none => true

def handlePropose (n : HotStuffNode) (block : Block) (_highQc : Option QuorumCert) :
    HotStuffNode × Option HotStuffMsg :=
  if n.extendsLock block then
    ({ n with pendingBlock := some block }, some (.vote (Vote.sign P (block.hash P) n.round n.signingKey)))
  else (n, none)

def formQc (order : IterOrder) (n : HotStuffNode) (phase : Phase) : QuorumCert :=
  let votes := match phase with
    | .prepare => order.apply n.prepareVotes.values
    | .preCommit => order.apply n.precommitVotes.values
    | .commit => order.apply n.commitVotes.values
    | .decide => []
  { blockHash := (votes.head?.map (·.blockHash)).getD Hash.zero, round := n.round, votes }

def commitBlock (n : HotStuffNode) (qc : QuorumCert) : HotStuffNode :=
  match n.pendingBlock with
  | some block =>
    { n with
      pendingBlock := none
      committedBlocks := n.committedBlocks ++ [{ block with qc := some qc }]
      prepareVotes := .empty
      precommitVotes := .empty
      commitVotes := .empty
      committed_ne_nil := by simp }
  | none => n

def handleVote (order : IterOrder) (n : HotStuffNode) (vote : Vote) : HotStuffNode × Option HotStuffMsg :=
  if vote.verify P then
    match n.phase with
    | .prepare =>
      let n := { n with prepareVotes := n.prepareVotes.insert vote }
      if n.config.quorumSize ≤ n.prepareVotes.size then
        let qc := n.formQc order .prepare
        ({ n with highQc := some qc, phase := .preCommit }, some (.newView n.round qc))
      else (n, none)
    | .preCommit =>
      let n := { n with precommitVotes := n.precommitVotes.insert vote }
      if n.config.quorumSize ≤ n.precommitVotes.size then
        let qc := n.formQc order .preCommit
        ({ n with lockedQc := some qc, phase := .commit }, some (.newView n.round qc))
      else (n, none)
    | .commit =>
      let n := { n with commitVotes := n.commitVotes.insert vote }
      if n.config.quorumSize ≤ n.commitVotes.size then
        let qc := n.formQc order .commit
        (({ n with phase := .decide } : HotStuffNode).commitBlock qc, some (.newView (n.round + 1) qc))
      else (n, none)
    | .decide => (n, none)
  else (n, none)

def advanceRound (n : HotStuffNode) (newRound : UInt64) : HotStuffNode :=
  { n with
    round := newRound
    phase := .prepare
    pendingBlock := none
    prepareVotes := .empty
    precommitVotes := .empty
    commitVotes := .empty }

def adoptQc (n : HotStuffNode) (highQc : QuorumCert) : HotStuffNode :=
  if (n.highQc.map (·.round)).getD 0 ≤ highQc.round then { n with highQc := some highQc } else n

def handleNewView (n : HotStuffNode) (round : UInt64) (highQc : QuorumCert) :
    HotStuffNode × Option HotStuffMsg :=
  let n := n.adoptQc highQc
  if n.round < round then (n.advanceRound round, none)
  else
    match n.pendingBlock with
    | some block => (n, some (.vote (Vote.sign P (block.hash P) n.round n.signingKey)))
    | none => (n, none)

end HotStuffNode

end VelaNetwork
