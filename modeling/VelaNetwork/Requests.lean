import VelaNetwork.NodeSteps

namespace VelaNetwork

open Library.Runs

variable (P : Primitives)

/-- A request taken through its lock scopes with nothing in between; each scope has its own reading of the
clock. -/
def RpcTask.finish (clock : ℕ → Clock) : ℕ → NodeState → RpcTask →
    NodeState × Option (Except RpcError TxResponse)
  | 0, s, _ => (s, none)
  | scopes + 1, s, task =>
    match task.advance P (clock 0) s with
    | (s, .running next, _) => finish (fun j => clock (j + 1)) scopes s next
    | (s, .finished response, _) => (s, some response)

def postFaucet (clock : ℕ → Clock) (s : NodeState) (address : String) :
    NodeState × Option (Except RpcError TxResponse) :=
  RpcTask.finish P clock 5 s (.faucetCheck address)

def postSendTx (clock : ℕ → Clock) (s : NodeState) (req : SendTxRequest) :
    NodeState × Option (Except RpcError TxResponse) :=
  RpcTask.finish P clock 4 s (.sendTxCheck req)

def accepted (tx : Transaction) : Except RpcError TxResponse := .ok ⟨"accepted", (tx.hash P).toHex⟩

variable {P}

theorem finish_of_running (clock : ℕ → Clock) (scopes : ℕ) {s s' : NodeState} {task next : RpcTask}
    {sent : Option Transaction} (h : task.advance P (clock 0) s = (s', .running next, sent)) :
    RpcTask.finish P clock (scopes + 1) s task =
      RpcTask.finish P (fun j => clock (j + 1)) scopes s' next := by
  rw [RpcTask.finish, h]

theorem finish_of_finished (clock : ℕ → Clock) (scopes : ℕ) {s s' : NodeState} {task : RpcTask}
    {response : Except RpcError TxResponse} {sent : Option Transaction}
    (h : task.advance P (clock 0) s = (s', .finished response, sent)) :
    RpcTask.finish P clock (scopes + 1) s task = (s', some response) := by
  rw [RpcTask.finish, h]

theorem finish_push (clock : ℕ → Clock) (s : NodeState) (tx : Transaction) :
    RpcTask.finish P clock 2 s (.push tx) = (s.pushTx tx, some (accepted P tx)) := rfl

theorem postSendTx_eq (clock : ℕ → Clock) (s : NodeState) (req : SendTxRequest) :
    postSendTx P clock s req = match sendTxAdmit P (clock 0).millis s req with
      | .error e => (s, some (.error e))
      | .ok tx => match sendTxDuplicate P s tx with
        | .error e => (s, some (.error e))
        | .ok _ => (s.pushTx tx, some (accepted P tx)) := by
  unfold postSendTx
  cases hadmit : sendTxAdmit P (clock 0).millis s req with
  | error e =>
    have hcheck : (RpcTask.sendTxCheck req).advance P (clock 0) s = (s, .finished (.error e), none) := by
      rw [RpcTask.advance, hadmit]
    exact finish_of_finished clock 3 hcheck
  | ok tx =>
    have hcheck : (RpcTask.sendTxCheck req).advance P (clock 0) s =
        (s, .running (.sendTxDuplicate tx), none) := by
      rw [RpcTask.advance, hadmit]
    rw [finish_of_running clock 3 hcheck]
    dsimp only
    cases htest : sendTxDuplicate P s tx with
    | error e =>
      have hnext : (RpcTask.sendTxDuplicate tx).advance P (clock 1) s = (s, .finished (.error e), none) := by
        rw [RpcTask.advance, htest]
      exact finish_of_finished (fun j => clock (j + 1)) 2 hnext
    | ok _ =>
      have hnext : (RpcTask.sendTxDuplicate tx).advance P (clock 1) s = (s, .running (.push tx), none) := by
        rw [RpcTask.advance, htest]
      rw [finish_of_running (fun j => clock (j + 1)) 2 hnext]
      exact finish_push (fun j => clock (j + 2)) s tx

theorem postFaucet_eq (clock : ℕ → Clock) (s : NodeState) (address : String) :
    postFaucet P clock s address = match faucetCooldown (clock 0).secs s address with
      | .error e => (s, some (.error e))
      | .ok _ => match faucetRecipient address with
        | .error e => (s, some (.error e))
        | .ok recipient =>
          ((s.markFaucet (clock 2).secs address).pushTx (faucetTx P (clock 1).millis s recipient),
            some (accepted P (faucetTx P (clock 1).millis s recipient))) := by
  unfold postFaucet
  cases hcooldown : faucetCooldown (clock 0).secs s address with
  | error e =>
    have hcheck : (RpcTask.faucetCheck address).advance P (clock 0) s = (s, .finished (.error e), none) := by
      rw [RpcTask.advance, hcooldown]
    exact finish_of_finished clock 4 hcheck
  | ok _ =>
    cases hrecipient : faucetRecipient address with
    | error e =>
      have hcheck : (RpcTask.faucetCheck address).advance P (clock 0) s =
          (s, .finished (.error e), none) := by
        rw [RpcTask.advance, hcooldown, hrecipient]
      exact finish_of_finished clock 4 hcheck
    | ok recipient =>
      have hcheck : (RpcTask.faucetCheck address).advance P (clock 0) s =
          (s, .running (.faucetNonce address recipient), none) := by
        rw [RpcTask.advance, hcooldown, hrecipient]
      rw [finish_of_running clock 4 hcheck]
      exact finish_push (fun j => clock (j + 3)) _ _

section Addresses

theorem bytes32_iff {bs : Bytes} {word : Bytes32} : bytes32 bs = some word ↔ bs = word.toList := by
  unfold bytes32
  split
  · rename_i hlength
    rw [Option.some_inj]
    constructor
    · rintro rfl
      exact (List.toList_toArray).symm
    · rintro rfl
      exact Vector.toList_inj.mp rfl
  · rename_i hlength
    apply iff_of_false
    · rintro ⟨⟩
    · rintro rfl
      exact hlength word.length_toList

theorem faucetRecipient_iff {address : String} {a : Address} :
    faucetRecipient address = .ok a ↔ decodeHexAddress address = some a.bytes.toList := by
  unfold faucetRecipient
  cases decodeHexAddress address with
  | none => exact iff_of_false (by rintro ⟨⟩) (by rintro ⟨⟩)
  | some bs =>
    dsimp only
    rw [Option.some_inj, ← bytes32_iff]
    cases bytes32 bs with
    | none => exact iff_of_false (by rintro ⟨⟩) (by rintro ⟨⟩)
    | some word =>
      rw [Option.some_inj, Except.ok.injEq]
      exact ⟨fun h => congrArg Address.bytes h, fun h => congrArg Address.mk h⟩

theorem sendTxAddresses_iff {req : SendTxRequest} {sender recipient : Address} :
    sendTxAddresses req = .ok (sender, recipient) ↔ decodeHexAddress req.from = some sender.bytes.toList ∧
      decodeHexAddress req.to = some recipient.bytes.toList := by
  unfold sendTxAddresses
  cases decodeHexAddress req.from with
  | none => exact iff_of_false (by rintro ⟨⟩) (by rintro ⟨⟨⟩, _⟩)
  | some fromBytes =>
    cases decodeHexAddress req.to with
    | none => exact iff_of_false (by rintro ⟨⟩) (by rintro ⟨_, ⟨⟩⟩)
    | some toBytes =>
      dsimp only
      rw [Option.some_inj, Option.some_inj, ← bytes32_iff, ← bytes32_iff]
      cases bytes32 fromBytes with
      | none => exact iff_of_false (by rintro ⟨⟩) (by rintro ⟨⟨⟩, _⟩)
      | some fromArr =>
        cases bytes32 toBytes with
        | none => exact iff_of_false (by rintro ⟨⟩) (by rintro ⟨_, ⟨⟩⟩)
        | some toArr =>
          rw [Option.some_inj, Option.some_inj, Except.ok.injEq, Prod.mk.injEq]
          constructor
          · rintro ⟨rfl, rfl⟩
            exact ⟨rfl, rfl⟩
          · rintro ⟨rfl, rfl⟩
            exact ⟨rfl, rfl⟩

end Addresses

section Alone

theorem step_rpc_running {n : Node} {older : List RpcTask} {task next : RpcTask} {now : Clock} {s : NodeState}
    {sent : Option Transaction} (hrpc : n.rpc = older ++ [task])
    (h : task.advance P now n.state = (s, .running next, sent)) :
    n.step P (.rpc older.length now) = { n with state := s, rpc := older ++ [next] } := by
  change (n.advanceRpc P now older.length).1 = _
  unfold Node.advanceRpc
  rw [hrpc, List.getElem?_concat_length]
  dsimp only
  rw [h]
  dsimp only
  rw [List.set_append_right _ _ (Nat.le_refl _), Nat.sub_self, List.set_cons_zero]

theorem step_rpc_finished {n : Node} {older : List RpcTask} {task : RpcTask} {now : Clock} {s : NodeState}
    {response : Except RpcError TxResponse} {sent : Option Transaction} (hrpc : n.rpc = older ++ [task])
    (h : task.advance P now n.state = (s, .finished response, sent)) :
    n.step P (.rpc older.length now) = { n with state := s, rpc := older } := by
  change (n.advanceRpc P now older.length).1 = _
  unfold Node.advanceRpc
  rw [hrpc, List.getElem?_concat_length]
  dsimp only
  rw [h]
  dsimp only
  rw [List.eraseIdx_append_of_length_le (Nat.le_refl _), Nat.sub_self, List.eraseIdx_cons_zero,
    List.append_nil]

theorem run_rpc_absent (clock : ℕ → Clock) (scopes : ℕ) (n : Node) :
    run (Node.step P) n ((List.range scopes).map fun j => .rpc n.rpc.length (clock j)) = n := by
  induction scopes generalizing clock with
  | zero => rfl
  | succ scopes ih =>
    have hsame : n.step P (.rpc n.rpc.length (clock 0)) = n := by
      change (n.advanceRpc P (clock 0) n.rpc.length).1 = n
      unfold Node.advanceRpc
      rw [List.getElem?_eq_none (Nat.le_refl _)]
    rw [List.range_succ_eq_map, List.map_cons, List.map_map, run_cons, hsame]
    exact ih fun j => clock (j + 1)

theorem state_run_rpc (clock : ℕ → Clock) (scopes : ℕ) {n : Node} {older : List RpcTask} {task : RpcTask}
    (hrpc : n.rpc = older ++ [task]) :
    (run (Node.step P) n ((List.range scopes).map fun j => .rpc older.length (clock j))).state =
      (RpcTask.finish P clock scopes n.state task).1 := by
  induction scopes generalizing clock n task with
  | zero => rfl
  | succ scopes ih =>
    rw [List.range_succ_eq_map, List.map_cons, List.map_map, run_cons]
    rcases hadvance : task.advance P (clock 0) n.state with ⟨s, next | response, sent⟩
    · rw [finish_of_running clock scopes hadvance, step_rpc_running hrpc hadvance]
      exact ih (fun j => clock (j + 1)) rfl
    · rw [finish_of_finished clock scopes hadvance, step_rpc_finished hrpc hadvance]
      exact congrArg Node.state (run_rpc_absent (fun j => clock (j + 1)) scopes _)

end Alone

end VelaNetwork
