import VelaNetwork.Library.Flows
import VelaNetwork.Inclusion
import VelaNetwork.Cooldown
import VelaNetwork.Sending

namespace VelaNetwork

open Library.Flows
open Library.Runs

variable (P : Primitives)

def RpcTask.unannounced : RpcTask → Option Transaction
  | .broadcast tx => some tx
  | _ => none

def RpcProgress.unannounced : RpcProgress → Option Transaction
  | .running task => task.unannounced
  | .finished _ => none

def NetworkMessage.transaction : NetworkMessage → Option Transaction
  | .newTransaction tx => some tx
  | _ => none

namespace Node

def entering (n : Node) (e : Event) : List Transaction := (n.pushed e).toList

/-- The transactions that a step takes out of the pool without a block: those beyond the first 100 when there
is a block, and all when the process starts anew. -/
def lost (n : Node) : Event → List Transaction
  | .tick now saved => (n.produced P (.tick now saved)).toList.flatMap fun _ => n.state.mempool.drop 100
  | .restart saved => (start P saved n.validatorIndex n.blockDb).toList.flatMap fun _ => n.state.mempool
  | _ => []

def leaving (n : Node) (e : Event) : List Transaction :=
  (n.produced P e).toList.flatMap (·.transactions) ++ n.lost P e

def unannounced (n : Node) : List Transaction := n.rpc.filterMap RpcTask.unannounced

def requested (n : Node) : Event → List Transaction
  | .rpc i _ => (n.rpc[i]?.bind RpcTask.pushes).toList
  | _ => []

def announcing (n : Node) (e : Event) : List Transaction := (n.sends P e).filterMap NetworkMessage.transaction

def acceptances : RpcProgress → List TxResponse
  | .finished (.ok response) => [response]
  | _ => []

def accepting (n : Node) : Event → List TxResponse
  | .rpc i now => n.rpc[i]?.toList.flatMap fun task => acceptances (task.advance P now n.state).2.1
  | _ => []

def forgotten (n : Node) : Event → List Transaction
  | .restart saved => (start P saved n.validatorIndex n.blockDb).toList.flatMap fun _ => n.unannounced
  | _ => []

def settling (n : Node) (e : Event) : List Transaction := n.announcing P e ++ n.forgotten P e

variable {P} {n : Node}

theorem pool_message (msg : NetworkMessage) (order : IterOrder) (saves : ℕ → Bool) :
    (n.step P (.message msg order saves)).state.mempool =
      n.state.mempool ++ n.entering (.message msg order saves) := by
  cases msg with
  | newBlock block =>
    rw [step_newBlock]
    exact (importBlocks_frame P saves n [block]).2.1.trans (List.append_nil _).symm
  | newTransaction tx => rfl
  | consensusVote vote =>
    rw [step_consensusVote]
    exact (List.append_nil _).symm
  | consensusPropose block =>
    rw [step_consensusPropose]
    exact (List.append_nil _).symm
  | syncRequest fromHeight => exact (List.append_nil _).symm
  | syncResponse blocks => exact (importBlocks_frame P saves n blocks).2.1.trans (List.append_nil _).symm

theorem pool_rpc (i : ℕ) (now : Clock) :
    (n.step P (.rpc i now)).state.mempool = n.state.mempool ++ n.entering (.rpc i now) := by
  change _ = n.state.mempool ++ (n.rpc[i]?.bind RpcTask.pushes).toList
  obtain ⟨htask, hsame⟩ | ⟨task, rpc, htask, hstep, _⟩ := step_rpc P n i now
  · rw [hsame, htask]
    exact (List.append_nil _).symm
  · rw [hstep, htask]
    exact advance_pool task now n.state

theorem leaving_tick (n : Node) (now : Int64) (saved : Bool) : n.leaving P (.tick now saved) =
    (n.produced P (.tick now saved)).toList.flatMap
      fun block => block.transactions ++ n.state.mempool.drop 100 := by
  change (n.produced P (.tick now saved)).toList.flatMap _ ++
    (n.produced P (.tick now saved)).toList.flatMap _ = _
  cases n.produced P (.tick now saved) with
  | none => rfl
  | some block => simp

theorem pool_step (n : Node) (e : Event) :
    n.state.mempool ++ n.entering e = n.leaving P e ++ (n.step P e).state.mempool := by
  cases e with
  | message msg order saves => exact (pool_message msg order saves).symm
  | requestSync =>
    rw [step_requestSync]
    exact List.append_nil _
  | startProducer =>
    obtain ⟨round, hround⟩ := step_startProducer P n
    rw [hround]
    exact List.append_nil _
  | tick now saved =>
    rw [leaving_tick]
    obtain ⟨hnone, round, hquiet⟩ | ⟨round, tip, _, _, _, hprod, hmade⟩ := tick_cases P n now saved
    · rw [hnone]
      change _ = (n.tick P now saved).1.state.mempool
      rw [hquiet]
      exact List.append_nil _
    · have hempty : (n.step P (.tick now saved)).state.mempool = [] := by
        change (n.tick P now saved).1.state.mempool = []
        rw [hmade]
        rfl
      rw [hprod, hempty, Option.toList_some, List.flatMap_singleton, List.append_nil]
      change n.state.mempool ++ [] = n.state.mempool.take 100 ++ n.state.mempool.drop 100
      rw [List.append_nil, List.take_append_drop]
  | request req => exact List.append_nil _
  | rpc i now => exact (pool_rpc i now).symm
  | restart saved =>
    change n.state.mempool ++ [] = (start P saved n.validatorIndex n.blockDb).toList.flatMap
      (fun _ => n.state.mempool) ++
      ((start P saved n.validatorIndex n.blockDb).getD n).state.mempool
    rw [List.append_nil]
    cases hstart : start P saved n.validatorIndex n.blockDb with
    | none => rfl
    | some n' =>
      rw [Option.toList_some, List.flatMap_singleton, Option.getD_some]
      obtain ⟨_, _, rfl⟩ | ⟨_, _, rfl⟩ := start_cases hstart <;> exact (List.append_nil _).symm

theorem lost_cases (n : Node) (e : Event) : n.lost P e = [] ∨ e.isRestart = true ∨
    (n.produced P e).isSome = true ∧ 100 < n.state.mempool.length := by
  cases e with
  | tick now saved =>
    cases hprod : n.produced P (.tick now saved) with
    | none =>
      refine Or.inl ?_
      change (n.produced P (.tick now saved)).toList.flatMap _ = []
      rw [hprod]
      rfl
    | some block =>
      by_cases hmany : 100 < n.state.mempool.length
      · exact Or.inr (Or.inr ⟨rfl, hmany⟩)
      · refine Or.inl ?_
        change (n.produced P (.tick now saved)).toList.flatMap _ = []
        rw [hprod, Option.toList_some, List.flatMap_singleton,
          List.drop_eq_nil_of_le (Nat.le_of_not_lt hmany)]
  | restart saved => exact Or.inr (Or.inl rfl)
  | _ => exact Or.inl rfl

theorem leaving_of_quiet {e : Event} (hproduced : n.produced P e = none) (hrestart : e.isRestart = false) :
    n.leaving P e = [] := by
  unfold leaving
  rw [hproduced]
  rcases n.lost_cases (P := P) e with hnone | hagain | ⟨hsome, _⟩
  · exact hnone
  · rw [hrestart] at hagain
    cases hagain
  · rw [hproduced] at hsome
    cases hsome

theorem quiet_of_pushed {e : Event} {tx : Transaction} (h : n.pushed e = some tx) :
    n.produced P e = none ∧ e.isRestart = false := by
  cases e with
  | message msg order saves => exact ⟨rfl, rfl⟩
  | rpc i now => exact ⟨rfl, rfl⟩
  | _ => cases h

theorem produced_mem_chain {e : Event} {block : Block} (h : n.produced P e = some block) :
    block ∈ (n.step P e).state.blocks := by
  have hrestart : e.isRestart = false := by
    cases e with
    | restart saved => cases h
    | _ => rfl
  rw [(step_grows P n hrestart).chain, appended, h]
  exact List.mem_append_right _ (List.mem_append_right _ List.mem_cons_self)

theorem pool_accounted (P : Primitives) (n : Node) (es : List Event) :
    n.state.mempool ++ collect (step P) entering n es =
        collect (step P) (leaving P) n es ++ (run (step P) n es).state.mempool ∧
      AllSteps (step P) (fun n e => (∀ block ∈ n.produced P e, block ∈ (n.step P e).state.blocks) ∧
        (n.lost P e = [] ∨ e.isRestart = true ∨ (n.produced P e).isSome = true ∧
          100 < n.state.mempool.length)) n es := by
  refine ⟨collect_queue (fun n e => n.pool_step e) n es, ?_⟩
  have hany : AllSteps (step P) (fun _ _ => True) n es := allSteps_of_forall fun _ _ => trivial
  exact allSteps_mono (fun n e _ => ⟨fun block hblock => produced_mem_chain hblock, n.lost_cases e⟩) hany

theorem next_block_takes (P : Primitives) (n : Node) {e : Event} {tx : Transaction}
    (hpushed : n.pushed e = some tx) (es : List Event)
    (hquiet : AllSteps (step P) (fun n e => n.produced P e = none ∧ e.isRestart = false) (n.step P e) es)
    (e' : Event) {block : Block} (hblock : (run (step P) (n.step P e) es).produced P e' = some block) :
    block.transactions[n.state.mempool.length]? = if n.state.mempool.length < 100 then some tx else none := by
  have hall : AllSteps (step P) (fun n e => n.leaving P e = []) n (e :: es) := by
    have hfirst := quiet_of_pushed (P := P) hpushed
    refine ⟨leaving_of_quiet hfirst.1 hfirst.2, ?_⟩
    exact allSteps_mono (fun n e hq => leaving_of_quiet hq.1 hq.2) hquiet
  have hqueue := collect_queue (fun n e => n.pool_step (P := P) e) n (e :: es)
  have hentering : n.entering e = [tx] := by
    rw [entering, hpushed]
    rfl
  rw [collect_eq_nil hall, List.nil_append, collect_cons, hentering, run_cons] at hqueue
  rw [produced_transactions P hblock, ← hqueue, List.getElem?_take]
  simp

open Cluster in
theorem next_block_takes_announced : blockOfAnnounced.transactions[(fresh .sample 1).state.mempool.length]? =
    if (fresh .sample 1).state.mempool.length < 100
    then some
      { Transaction.new 6 (WorldState.treasuryAddr .sample) (sampleAddr 7) 50 1 1 with signature := none }
    else none :=
  next_block_takes .sample (fresh .sample 1) (e := .message announced .insertion fun _ => true) rfl
    [.startProducer] (by decide +kernel) (.tick 10 true) (by decide +kernel)

section Announcements

theorem announcing_of_not_rpc {e : Event} (he : ∀ i now, e ≠ .rpc i now) : n.announcing P e = [] := by
  apply List.filterMap_eq_nil_iff.mpr
  intro msg hmsg
  cases sends_cases hmsg with
  | announces i now tx => exact absurd rfl (he i now)
  | _ => rfl

theorem advance_unannounced (task : RpcTask) (now : Clock) (s : NodeState) :
    (task.unannounced.toList ++ task.pushes.toList).Perm
      ((task.advance P now s).2.2.toList ++ (task.advance P now s).2.1.unannounced.toList) := by
  cases task with
  | faucetCheck address =>
    unfold RpcTask.advance
    dsimp only
    split
    · rfl
    · split <;> rfl
  | sendTxCheck req =>
    unfold RpcTask.advance
    dsimp only
    split <;> rfl
  | sendTxDuplicate tx =>
    unfold RpcTask.advance
    dsimp only
    split <;> rfl
  | _ => rfl

theorem rpc_unannounced {i : ℕ} {task : RpcTask} (htask : n.rpc[i]? = some task) (now : Clock) :
    ∃ before after, n.unannounced = before ++ task.unannounced.toList ++ after ∧
      (n.step P (.rpc i now)).unannounced =
        before ++ (task.advance P now n.state).2.1.unannounced.toList ++ after ∧
      n.announcing P (.rpc i now) = (task.advance P now n.state).2.2.toList := by
  obtain ⟨before, after, hold, hset, herase⟩ := filterMap_split RpcTask.unannounced htask
  have hsent : ∀ tx : Option Transaction,
      (tx.toList.map NetworkMessage.newTransaction).filterMap NetworkMessage.transaction =
      tx.toList := by
    intro tx
    cases tx <;> rfl
  refine ⟨before, after, hold, ?_, ?_⟩
  · change ((n.advanceRpc P now i).1.rpc).filterMap RpcTask.unannounced = _
    unfold advanceRpc
    rw [htask]
    dsimp only
    split
    · rename_i heq
      rw [heq]
      exact hset _
    · rename_i heq
      rw [heq]
      simpa [RpcProgress.unannounced] using herase
  · change (n.advanceRpc P now i).2.filterMap _ = _
    unfold advanceRpc
    rw [htask]
    dsimp only
    split
    · rename_i heq
      rw [heq]
      exact hsent _
    · rename_i heq
      rw [heq]
      exact hsent _

theorem advance_acceptances (task : RpcTask) (now : Clock) (s : NodeState) :
    acceptances (task.advance P now s).2.1 =
    (task.advance P now s).2.2.toList.map fun tx => ⟨"accepted", (tx.hash P).toHex⟩ := by
  cases task with
  | faucetCheck address =>
    unfold RpcTask.advance
    dsimp only
    split
    · rfl
    · split <;> rfl
  | sendTxCheck req =>
    unfold RpcTask.advance
    dsimp only
    split <;> rfl
  | sendTxDuplicate tx =>
    unfold RpcTask.advance
    dsimp only
    split <;> rfl
  | _ => rfl

theorem announcing_rpc_none {i : ℕ} (htask : n.rpc[i]? = none) (now : Clock) :
    n.announcing P (.rpc i now) = [] := by
  change (n.advanceRpc P now i).2.filterMap _ = []
  unfold advanceRpc
  rw [htask]
  rfl

theorem accepting_eq (n : Node) (e : Event) :
    n.accepting P e = (n.announcing P e).map fun tx => ⟨"accepted", (tx.hash P).toHex⟩ := by
  cases e with
  | rpc i now =>
    change n.rpc[i]?.toList.flatMap _ = _
    cases htask : n.rpc[i]? with
    | none =>
      rw [announcing_rpc_none htask]
      rfl
    | some task =>
      obtain ⟨_, _, _, _, hannounced⟩ := rpc_unannounced (P := P) htask now
      rw [hannounced, Option.toList_some, List.flatMap_singleton, advance_acceptances]
  | _ =>
    rw [announcing_of_not_rpc (by intro _ _; exact Event.noConfusion)]
    rfl

theorem announce_step (n : Node) (e : Event) :
    (n.unannounced ++ n.requested e).Perm (n.settling P e ++ (n.step P e).unannounced) := by
  have hkept : (∀ i now, e ≠ .rpc i now) → n.requested e = [] → n.forgotten P e = [] →
      (n.step P e).rpc = n.rpc →
      (n.unannounced ++ n.requested e).Perm (n.settling P e ++ (n.step P e).unannounced) := by
    intro he hrequested hforgotten hrpc
    unfold settling unannounced
    rw [hrequested, announcing_of_not_rpc he, hforgotten, hrpc, List.append_nil]
    rfl
  cases e with
  | message msg order saves => exact hkept nofun rfl rfl (message_pool msg order saves n).1
  | requestSync => exact hkept nofun rfl rfl (by rw [step_requestSync])
  | startProducer =>
    obtain ⟨round, hround⟩ := step_startProducer P n
    exact hkept nofun rfl rfl (by rw [hround])
  | tick now saved =>
    refine hkept nofun rfl rfl ?_
    change (n.tick P now saved).1.rpc = n.rpc
    obtain ⟨_, round, hquiet⟩ | ⟨round, tip, _, _, _, _, hmade⟩ := tick_cases P n now saved
    · rw [hquiet]
    · rw [hmade]
      rfl
  | request req =>
    have hnew : RpcTask.unannounced req.task = none := by cases req <;> rfl
    change (n.unannounced ++ []).Perm ((n.rpc ++ [req.task]).filterMap RpcTask.unannounced)
    rw [List.filterMap_append, List.filterMap_cons, hnew]
    rfl
  | rpc i now =>
    have hrequested : n.requested (.rpc i now) = (n.rpc[i]?.bind RpcTask.pushes).toList := rfl
    unfold settling
    cases htask : n.rpc[i]? with
    | none =>
      have hsame : (n.step P (.rpc i now)).unannounced = n.unannounced := by
        change (n.advanceRpc P now i).1.unannounced = _
        unfold advanceRpc
        rw [htask]
      rw [hrequested, htask, announcing_rpc_none htask, hsame, Option.bind_none, Option.toList_none,
        List.append_nil]
      rfl
    | some task =>
      obtain ⟨before, after, hold, hnew, hannounced⟩ := rpc_unannounced (P := P) htask now
      have hcount := (advance_unannounced (P := P) task now n.state).count_eq
      rw [hold, hrequested, htask, hannounced, hnew, Option.bind_some, List.perm_iff_count]
      intro tx
      have htx := hcount tx
      simp only [List.count_append] at htx ⊢
      change _ = _ + 0 + _
      omega
  | restart saved =>
    change (n.unannounced ++ []).Perm ([] ++ (start P saved n.validatorIndex n.blockDb).toList.flatMap
      (fun _ => n.unannounced) ++
      ((start P saved n.validatorIndex n.blockDb).getD n).unannounced)
    rw [List.append_nil, List.nil_append]
    cases hstart : start P saved n.validatorIndex n.blockDb with
    | none => rfl
    | some n' =>
      rw [Option.toList_some, List.flatMap_singleton, Option.getD_some]
      obtain ⟨_, _, rfl⟩ | ⟨_, _, rfl⟩ :=
        start_cases hstart <;> exact (List.append_nil _).symm ▸ List.Perm.refl _

theorem requests_announced_once (P : Primitives) (n : Node) (es : List Event) :
    (n.unannounced ++ collect (step P) requested n es).Perm
        (collect (step P) (settling P) n es ++ (run (step P) n es).unannounced) ∧
      collect (step P) (accepting P) n es =
        (collect (step P) (announcing P) n es).map fun tx => ⟨"accepted", (tx.hash P).toHex⟩ := by
  refine ⟨collect_bag (fun n e => n.announce_step e) n es, ?_⟩
  rw [collect_map]
  exact collect_congr (fun n e => n.accepting_eq e) n es

end Announcements

end Node

end VelaNetwork
