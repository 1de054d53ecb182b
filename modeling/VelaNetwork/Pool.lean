import VelaNetwork.NodeSteps

namespace VelaNetwork

variable (P : Primitives)

def RpcTask.carried : RpcTask → Option Transaction
  | .faucetMark _ tx => some tx
  | .sendTxDuplicate tx => some tx
  | .push tx => some tx
  | .broadcast tx => some tx
  | _ => none

inductive Node.Enters (n : Node) : Event → Transaction → Prop where
  | gossip (tx order saves) : Enters n (.message (.newTransaction tx) order saves) tx
  | faucet (i now address recipient) (htask : n.rpc[i]? = some (.faucetNonce address recipient)) :
      Enters n (.rpc i now) (faucetTx P now.millis n.state recipient)
  | sendTx (i now req tx) (htask : n.rpc[i]? = some (.sendTxCheck req))
      (hbuilt : sendTxAdmit P now.millis n.state req = .ok tx) : Enters n (.rpc i now) tx

structure Node.Pooled (K : Transaction → Prop) (n : Node) : Prop where
  mempool : ∀ tx ∈ n.state.mempool, K tx
  requests : ∀ task ∈ n.rpc, ∀ tx ∈ task.carried, K tx

variable {P}

theorem advance_next {task next : RpcTask} {now : Clock} {s : NodeState} {tx : Transaction}
    (hnext : (task.advance P now s).2.1 = .running next) (htx : next.carried = some tx) :
    task.carried = some tx ∨
      (∃ address recipient, task = .faucetNonce address recipient ∧ tx = faucetTx P now.millis s recipient) ∨
      ∃ req, task = .sendTxCheck req ∧ sendTxAdmit P now.millis s req = .ok tx := by
  cases task with
  | faucetCheck address =>
    unfold RpcTask.advance at hnext
    dsimp only at hnext
    split at hnext
    · cases hnext
    · split at hnext
      · cases hnext
      · cases hnext
        cases htx
  | sendTxCheck req =>
    unfold RpcTask.advance at hnext
    dsimp only at hnext
    split at hnext
    · cases hnext
    · rename_i hbuilt
      cases hnext
      cases htx
      exact Or.inr (Or.inr ⟨req, rfl, hbuilt⟩)
  | sendTxDuplicate tx' =>
    unfold RpcTask.advance at hnext
    dsimp only at hnext
    split at hnext
    · cases hnext
    · cases hnext
      exact Or.inl htx
  | faucetNonce address recipient =>
    cases hnext
    cases htx
    exact Or.inr (Or.inl ⟨address, recipient, rfl, rfl⟩)
  | faucetMark address tx' =>
    cases hnext
    exact Or.inl htx
  | push tx' =>
    cases hnext
    exact Or.inl htx
  | broadcast tx' => cases hnext

namespace Node

variable {n : Node} {K : Transaction → Prop}

theorem message_pool (msg : NetworkMessage) (order : IterOrder) (saves : ℕ → Bool) (n : Node) :
    (n.step P (.message msg order saves)).rpc = n.rpc ∧
      ∀ tx ∈ (n.step P (.message msg order saves)).state.mempool, tx ∈ n.state.mempool ∨
        msg = .newTransaction tx := by
  have himport : ∀ blocks, (n.importBlocks P saves blocks).rpc = n.rpc ∧
      ∀ tx ∈ (n.importBlocks P saves blocks).state.mempool, tx ∈ n.state.mempool ∨
        msg = .newTransaction tx := by
    intro blocks
    obtain ⟨_, hpool, hrpc⟩ := importBlocks_frame P saves n blocks
    refine ⟨hrpc, fun tx htx => Or.inl ?_⟩
    rwa [← hpool]
  cases msg with
  | newBlock block =>
    rw [step_newBlock]
    exact himport [block]
  | newTransaction tx' =>
    refine ⟨rfl, fun tx htx => ?_⟩
    rcases List.mem_append.mp htx with htx | htx
    · exact Or.inl htx
    · exact Or.inr (congrArg NetworkMessage.newTransaction (List.mem_singleton.mp htx).symm)
  | consensusVote vote =>
    rw [step_consensusVote]
    exact ⟨rfl, fun tx htx => Or.inl htx⟩
  | consensusPropose block =>
    rw [step_consensusPropose]
    exact ⟨rfl, fun tx htx => Or.inl htx⟩
  | syncRequest fromHeight => exact ⟨rfl, fun tx htx => Or.inl htx⟩
  | syncResponse blocks => exact himport blocks

theorem Pooled.rpc (h : n.Pooled K) (i : ℕ) (now : Clock)
    (henters : ∀ tx, n.Enters P (.rpc i now) tx → K tx) : (n.step P (.rpc i now)).Pooled K := by
  obtain ⟨_, hsame⟩ | ⟨task, rpc, htask, hstep, hrpc⟩ := step_rpc P n i now
  · rwa [hsame]
  · have hmem : task ∈ n.rpc := List.mem_of_getElem? htask
    rw [hstep]
    constructor
    · intro tx htx
      obtain hsame | ⟨_, _, _, hmark⟩ | ⟨tx', rfl, hpush⟩ := advance_state P task now n.state
      · rw [hsame] at htx
        exact h.mempool tx htx
      · rw [hmark] at htx
        exact h.mempool tx htx
      · rw [hpush] at htx
        rcases List.mem_append.mp htx with hold | hpushed
        · exact h.mempool tx hold
        · rw [List.mem_singleton.mp hpushed]
          exact h.requests _ hmem tx' rfl
    · intro next hnext tx htx
      rcases hrpc next hnext with hold | hrunning
      · exact h.requests next hold tx htx
      · obtain hold | ⟨address, recipient, rfl, rfl⟩ | ⟨req, rfl, hbuilt⟩ := advance_next hrunning htx
        · exact h.requests task hmem tx hold
        · exact henters _ (.faucet i now address recipient htask)
        · exact henters _ (.sendTx i now req tx htask hbuilt)

theorem boot_pooled (i : Fin 3) (db : BlockDb) (blocks : List Block) : (boot P i db blocks).Pooled K := by
  constructor
  · intro tx htx
    exact absurd htx List.not_mem_nil
  · intro task htask
    exact absurd htask List.not_mem_nil

theorem Pooled.step (h : n.Pooled K) {e : Event} (henters : ∀ tx, n.Enters P e tx → K tx) :
    (n.step P e).Pooled K := by
  cases e with
  | message msg order saves =>
    obtain ⟨hrpc, hpool⟩ := message_pool (P := P) msg order saves n
    constructor
    · intro tx htx
      rcases hpool tx htx with hold | rfl
      · exact h.mempool tx hold
      · exact henters tx (.gossip tx order saves)
    · intro task htask
      exact h.requests task (hrpc ▸ htask)
  | requestSync =>
    rw [step_requestSync]
    exact ⟨h.mempool, h.requests⟩
  | startProducer =>
    obtain ⟨round, hround⟩ := step_startProducer P n
    rw [hround]
    exact ⟨h.mempool, h.requests⟩
  | tick now saved =>
    change (n.tick P now saved).1.Pooled K
    obtain ⟨_, round, htick⟩ | ⟨round, tip, _, _, _, _, htick⟩ := tick_cases P n now saved
    · rw [htick]
      exact ⟨h.mempool, h.requests⟩
    · rw [htick]
      refine ⟨?_, h.requests⟩
      intro tx htx
      exact absurd htx List.not_mem_nil
  | request req =>
    refine ⟨h.mempool, ?_⟩
    intro task htask tx hcarried
    rcases List.mem_append.mp htask with hold | hnew
    · exact h.requests task hold tx hcarried
    · rw [List.mem_singleton.mp hnew] at hcarried
      cases req <;> cases hcarried
  | rpc i now => exact h.rpc i now henters
  | restart saved =>
    obtain hsame | ⟨db, blocks, hboot⟩ := restart_boot (P := P) n saved
    · rwa [hsame]
    · rw [hboot]
      exact boot_pooled _ _ _

end Node

end VelaNetwork
