import VelaNetwork.NodeSteps

namespace VelaNetwork.Node

variable (P : Primitives)

inductive Sends (n : Node) : Event → NetworkMessage → Prop
  | votes (msg order saves vote) : Sends n (.message msg order saves) (.consensusVote vote)
  | answersVote (vote order saves) : Sends n (.message (.consensusVote vote) order saves)
      (.newBlock Block.genesis)
  | responds (fromHeight order saves) : Sends n (.message (.syncRequest fromHeight) order saves)
      (.syncResponse (n.state.blocks.filter fun b => fromHeight < b.header.height))
  | requests (hdue : n.syncDue = true) : Sends n .requestSync (.syncRequest n.tipHeight)
  | proposes (now saved block) (hprod : n.produced P (.tick now saved) = some block) :
      Sends n (.tick now saved) (.consensusPropose block)
  | publishes (now saved block) (hprod : n.produced P (.tick now saved) = some block) :
      Sends n (.tick now saved) (.newBlock block)
  | announces (i now tx) : Sends n (.rpc i now) (.newTransaction tx)

variable {P} {n : Node}

theorem sends_of_message {received msg : NetworkMessage} {order : IterOrder} {saves : ℕ → Bool}
    (h : msg ∈ n.sends P (.message received order saves)) :
    n.Sends P (.message received order saves) msg := by
  change msg ∈ (n.handleMessage P order saves received).2 at h
  cases received with
  | newBlock block =>
    change msg ∈ (n.handleNewBlock P (saves 0) block).2 at h
    unfold handleNewBlock at h
    split at h
    · rw [List.mem_singleton.mp h]
      exact .votes _ _ _ _
    · exact absurd h List.not_mem_nil
  | newTransaction tx => exact absurd h List.not_mem_nil
  | consensusVote vote =>
    change msg ∈ (n.handleConsensusVote P order vote).2 at h
    unfold handleConsensusVote at h
    split at h
    · rw [List.mem_singleton.mp h]
      exact .answersVote _ _ _
    · exact absurd h List.not_mem_nil
  | consensusPropose block =>
    change msg ∈ (n.handleConsensusPropose P block).2 at h
    unfold handleConsensusPropose at h
    split at h
    · rw [List.mem_singleton.mp h]
      exact .votes _ _ _ _
    · exact absurd h List.not_mem_nil
  | syncRequest fromHeight =>
    change msg ∈ (n.handleSyncRequest fromHeight).2 at h
    unfold handleSyncRequest at h
    dsimp only at h
    split at h
    · exact absurd h List.not_mem_nil
    · rw [List.mem_singleton.mp h]
      exact .responds _ _ _
  | syncResponse blocks => exact absurd h List.not_mem_nil

theorem sends_cases {e : Event} {msg : NetworkMessage} (h : msg ∈ n.sends P e) : n.Sends P e msg := by
  cases e with
  | message received order saves => exact sends_of_message h
  | requestSync =>
    change msg ∈ n.requestSync.2 at h
    unfold requestSync at h
    split at h
    · rename_i hdue
      rw [List.mem_singleton.mp h]
      exact .requests hdue
    · exact absurd h List.not_mem_nil
  | startProducer => exact absurd h List.not_mem_nil
  | tick now saved =>
    change msg ∈ (n.tick P now saved).2 at h
    obtain ⟨_, round, htick⟩ | ⟨round, tip, _, _, _, hprod, htick⟩ := tick_cases P n now saved
    · rw [htick] at h
      exact absurd h List.not_mem_nil
    · rw [htick] at h
      rcases List.mem_cons.mp h with rfl | h
      · exact .proposes now saved _ hprod
      · rw [List.mem_singleton.mp h]
        exact .publishes now saved _ hprod
  | request req => exact absurd h List.not_mem_nil
  | rpc i now =>
    change msg ∈ (n.advanceRpc P now i).2 at h
    unfold advanceRpc at h
    split at h
    · exact absurd h List.not_mem_nil
    · split at h <;>
      · obtain ⟨tx, _, rfl⟩ := List.mem_map.mp h
        exact .announces i now tx
  | restart saved => exact absurd h List.not_mem_nil

end VelaNetwork.Node
