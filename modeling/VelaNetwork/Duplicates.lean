import VelaNetwork.Inclusion

namespace VelaNetwork

open Library.Runs

variable (P : Primitives)

theorem Hash.toHex_inj {h h' : Hash} : h.toHex = h'.toHex ↔ h = h' := by
  constructor
  · intro heq
    have hbytes := Vector.toList_inj.mp (Library.ByteStrings.hexEncode_inj.mp heq)
    cases h
    cases h'
    exact congrArg Hash.mk hbytes
  · rintro rfl
    rfl

namespace Node

def waiting (n : Node) : List Hash := n.state.mempool.map (·.hash P)

def PoolDistinct (n : Node) : Prop := (n.waiting P).Nodup

def PushesNew (n : Node) (e : Event) : Prop := ∀ tx ∈ n.pushed e, tx.hash P ∉ n.waiting P

variable {P}

theorem waiting_step (n : Node) (e : Event) :
    (n.step P e).waiting P = [] ∧ n.pushed e = none ∨
      (n.step P e).waiting P = n.waiting P ++ (n.pushed e).toList.map (·.hash P) := by
  unfold waiting
  cases n.poolStep (P := P) e with
  | emptied hpool hpushed himported =>
    left
    rw [hpool]
    exact ⟨rfl, hpushed⟩
  | imported hpool hchain hpushed =>
    right
    rw [hpool, hpushed]
    exact (List.append_nil _).symm
  | pushed tx hpool hchain hpushed himported =>
    right
    rw [hpool, hpushed, List.map_append]
    rfl

theorem poolDistinct_step_iff {n : Node} (h : n.PoolDistinct P) (e : Event) :
    (n.step P e).PoolDistinct P ↔ n.PushesNew P e := by
  unfold PoolDistinct PushesNew
  obtain ⟨hempty, hpushed⟩ | hgrown := n.waiting_step (P := P) e
  · rw [hempty, hpushed]
    apply iff_of_true List.nodup_nil
    intro tx htx
    cases htx
  · rw [hgrown]
    cases n.pushed e with
    | none =>
      simp only [Option.toList_none, List.map_nil, List.append_nil]
      apply iff_of_true h
      intro tx htx
      cases htx
    | some tx =>
      rw [Option.toList_some, List.map_singleton, ← List.concat_eq_append, List.nodup_concat]
      constructor
      · rintro ⟨hnew, _⟩ tx' htx'
        obtain rfl := Option.some.inj htx'
        exact hnew
      · intro hnew
        exact ⟨hnew tx rfl, h⟩

theorem sendTxDuplicate_iff {s : NodeState} {tx : Transaction} :
    sendTxDuplicate P s tx = .ok () ↔ tx.hash P ∉ s.mempool.map (·.hash P) := by
  unfold sendTxDuplicate
  rw [List.mem_map]
  split
  · rename_i hany
    obtain ⟨t, ht, heq⟩ := List.any_eq_true.mp hany
    apply iff_of_false
    · rintro ⟨⟩
    · exact fun hnot => hnot ⟨t, ht, Hash.toHex_inj.mp (of_decide_eq_true heq)⟩
  · rename_i hany
    apply iff_of_true rfl
    rintro ⟨t, ht, heq⟩
    apply hany
    exact List.any_eq_true.mpr ⟨t, ht, decide_eq_true (congrArg Hash.toHex heq)⟩

end Node

theorem RpcTask.pushes_eq_some {task : RpcTask} {tx : Transaction} :
    task.pushes = some tx ↔ task = .push tx := by
  cases task <;> simp [RpcTask.pushes]

def RpcTask.tested (s : NodeState) : RpcTask → Option ℕ
  | .sendTxDuplicate _ => some s.mempool.length
  | _ => none

/-- A node with its requests, and how many of the transactions in the pool are those that the duplicate
test of a request has seen. -/
structure Watched where
  node : Node
  tasks : List (RpcTask × Option ℕ)

namespace Watched

def advanced (s : Watched) : Event → List (RpcTask × Option ℕ)
  | .request req => s.tasks ++ [(req.task, none)]
  | .rpc i now =>
    match s.tasks[i]? with
    | none => s.tasks
    | some (task, _) =>
      match (task.advance P now s.node.state).2.1 with
      | .running next => s.tasks.set i (next, task.tested s.node.state)
      | .finished _ => s.tasks.eraseIdx i
  | .restart saved => s.tasks.take (s.node.step P (.restart saved)).rpc.length
  | _ => s.tasks

def step (s : Watched) (e : Event) : Watched where
  node := s.node.step P e
  tasks := (s.advanced P e).map fun p => (p.1, p.2.map (min (s.node.step P e).state.mempool.length))

/-- A transaction from a peer or from the faucet is not in the pool, and none of its hash is put there
between the duplicate test of a transfer and its push. -/
def Admits (s : Watched) : Event → Prop
  | .message (.newTransaction tx) _ _ => tx.hash P ∉ s.node.waiting P
  | .rpc i _ => ∀ p ∈ s.tasks[i]?, ∀ tx ∈ p.1.pushes,
      tx.hash P ∉ (s.node.state.mempool.drop (p.2.getD 0)).map (·.hash P)
  | _ => True

structure Watches (s : Watched) : Prop where
  rpc : s.tasks.map (·.1) = s.node.rpc
  tested : ∀ p ∈ s.tasks, ∀ k, p.2 = some k → k ≤ s.node.state.mempool.length ∧
    ∀ tx, p.1 = .push tx → tx.hash P ∉ (s.node.state.mempool.take k).map (·.hash P)

variable {P} {s : Watched}

theorem advance_push {task : RpcTask} {now : Clock} {state : NodeState} {tx : Transaction} {k : ℕ}
    (hpush : (task.advance P now state).2.1 = .running (.push tx)) (htested : task.tested state = some k) :
    k = state.mempool.length ∧ tx.hash P ∉ state.mempool.map (·.hash P) := by
  cases task with
  | sendTxDuplicate tx' =>
    obtain rfl := Option.some.inj htested
    refine ⟨rfl, ?_⟩
    unfold RpcTask.advance at hpush
    dsimp only at hpush
    split at hpush
    · cases hpush
    · rename_i hok
      cases hpush
      exact Node.sendTxDuplicate_iff.mp hok
  | _ => cases htested

theorem Watches.task (h : Watches P s) (i : ℕ) : s.node.rpc[i]? = s.tasks[i]?.map (·.1) := by
  rw [← h.rpc, List.getElem?_map]

theorem Watches.advanced_rpc (h : Watches P s) (e : Event) :
    (s.advanced P e).map (·.1) = (s.node.step P e).rpc := by
  cases e with
  | message msg order saves =>
    rw [(Node.message_pool msg order saves s.node).1]
    exact h.rpc
  | requestSync =>
    rw [Node.step_requestSync]
    exact h.rpc
  | startProducer =>
    obtain ⟨round, hround⟩ := Node.step_startProducer P s.node
    rw [hround]
    exact h.rpc
  | tick now saved =>
    change s.tasks.map (·.1) = (s.node.tick P now saved).1.rpc
    obtain ⟨_, round, htick⟩ | ⟨round, tip, _, _, _, _, htick⟩ := Node.tick_cases P s.node now saved
    · rw [htick, h.rpc]
    · rw [htick, h.rpc]
      rfl
  | request req =>
    change (s.tasks ++ [(req.task, none)]).map Prod.fst = s.node.rpc ++ [req.task]
    rw [List.map_append, h.rpc]
    rfl
  | rpc i now =>
    have htask := h.task i
    change _ = (s.node.advanceRpc P now i).1.rpc
    unfold advanced Node.advanceRpc
    dsimp only
    rw [htask]
    cases s.tasks[i]? with
    | none => exact h.rpc
    | some p =>
      obtain ⟨task, mark⟩ := p
      dsimp only [Option.map_some]
      rcases task.advance P now s.node.state with ⟨state, next | response, sent⟩
      · dsimp only
        rw [List.map_set, h.rpc]
      · dsimp only
        rw [← List.eraseIdx_map, h.rpc]
  | restart saved =>
    change (s.tasks.take (s.node.step P (.restart saved)).rpc.length).map Prod.fst = _
    obtain hsame | ⟨db, blocks, hboot⟩ := Node.restart_boot (P := P) s.node saved
    · rw [hsame, ← h.rpc, List.length_map, List.take_length]
    · rw [hboot]
      rfl

theorem take_step_subset (n : Node) (e : Event) {k : ℕ} (hk : k ≤ n.state.mempool.length) :
    (n.step P e).state.mempool.take (min (n.step P e).state.mempool.length k) ⊆ n.state.mempool.take k := by
  cases n.poolStep (P := P) e with
  | emptied hpool _ _ =>
    rw [hpool]
    exact List.nil_subset _
  | imported hpool _ _ =>
    rw [hpool, Nat.min_eq_right hk]
    exact List.Subset.refl _
  | pushed tx hpool _ _ _ =>
    have hle : k ≤ (n.state.mempool ++ [tx]).length := by
      rw [List.length_append]
      omega
    rw [hpool, Nat.min_eq_right hle, List.take_append_of_le_length hk]
    exact List.Subset.refl _

theorem mem_advanced {e : Event} {p : RpcTask × Option ℕ} (hp : p ∈ s.advanced P e) :
    p ∈ s.tasks ∨ p.2 = none ∨
      ∃ (task : RpcTask) (now : Clock), (task.advance P now s.node.state).2.1 = .running p.1 ∧
        p.2 = task.tested s.node.state := by
  cases e with
  | request req =>
    rcases List.mem_append.mp hp with hold | hnew
    · exact Or.inl hold
    · rw [List.mem_singleton.mp hnew]
      exact Or.inr (Or.inl rfl)
  | rpc i now =>
    unfold advanced at hp
    dsimp only at hp
    split at hp
    · exact Or.inl hp
    · rename_i task mark htask
      split at hp
      · rename_i next hnext
        rcases List.mem_or_eq_of_mem_set hp with hold | rfl
        · exact Or.inl hold
        · exact Or.inr (Or.inr ⟨task, now, hnext, rfl⟩)
      · exact Or.inl (List.mem_of_mem_eraseIdx hp)
  | restart saved => exact Or.inl (List.mem_of_mem_take hp)
  | _ => exact Or.inl hp

theorem Watches.step (h : Watches P s) (e : Event) : Watches P (s.step P e) := by
  constructor
  · change ((s.advanced P e).map _).map _ = (s.node.step P e).rpc
    rw [← h.advanced_rpc e, List.map_map]
    rfl
  · intro p' hp' k' hk'
    obtain ⟨p, hp, rfl⟩ := List.mem_map.mp hp'
    obtain ⟨k, hk, rfl⟩ := Option.map_eq_some_iff.mp hk'
    refine ⟨Nat.min_le_left _ _, fun tx htx hin => ?_⟩
    dsimp only at htx
    obtain ⟨hle, hnew⟩ : k ≤ s.node.state.mempool.length ∧
        tx.hash P ∉ (s.node.state.mempool.take k).map (·.hash P) := by
      obtain hold | hnone | ⟨task, now, hnext, htested⟩ := mem_advanced hp
      · exact ⟨(h.tested p hold k hk).1, (h.tested p hold k hk).2 tx htx⟩
      · rw [hk] at hnone
        cases hnone
      · rw [htx] at hnext
        obtain ⟨rfl, hnew⟩ := advance_push hnext (htested.symm.trans hk)
        exact ⟨Nat.le_refl _, by rwa [List.take_length]⟩
    exact hnew (List.map_subset _ (take_step_subset s.node e hle) hin)

theorem Watches.pushesNew_iff (h : Watches P s) (e : Event) : s.node.PushesNew P e ↔ s.Admits P e := by
  cases e with
  | message msg order saves =>
    cases msg with
    | newTransaction tx =>
      change (∀ tx' ∈ some tx, tx'.hash P ∉ s.node.waiting P) ↔ tx.hash P ∉ s.node.waiting P
      simp only [Option.mem_def, Option.some.injEq, forall_eq']
    | _ => exact iff_of_true (fun tx htx => by cases htx) trivial
  | rpc i now =>
    change (∀ tx ∈ s.node.rpc[i]?.bind RpcTask.pushes, tx.hash P ∉ s.node.waiting P) ↔ ∀ p ∈ s.tasks[i]?, _
    rw [h.task i]
    cases htask : s.tasks[i]? with
    | none => simp
    | some p =>
      have hsplit : ∀ tx ∈ p.1.pushes, (tx.hash P ∉ s.node.waiting P ↔
          tx.hash P ∉ (s.node.state.mempool.drop (p.2.getD 0)).map (·.hash P)) := by
        intro tx htx
        cases hmark : p.2 with
        | none => exact Iff.rfl
        | some k =>
          have hpush : p.1 = .push tx := RpcTask.pushes_eq_some.mp htx
          have hseen := (h.tested p (List.mem_of_getElem? htask) k hmark).2 tx hpush
          unfold Node.waiting
          conv_lhs => rw [← List.take_append_drop k s.node.state.mempool]
          rw [List.map_append, List.mem_append, not_or]
          exact and_iff_right hseen
      simpa using forall₂_congr hsplit
  | _ => exact iff_of_true (fun tx htx => by cases htx) trivial

instance (s : Watched) (e : Event) : Decidable (s.Admits P e) :=
  match e with
  | .message (.newTransaction tx) _ _ => inferInstanceAs (Decidable (tx.hash P ∉ s.node.waiting P))
  | .rpc i _ => inferInstanceAs (Decidable (∀ p ∈ s.tasks[i]?, ∀ tx ∈ p.1.pushes, _ ∉ _))
  | .message (.newBlock _) _ _ | .message (.consensusVote _) _ _ | .message (.consensusPropose _) _ _
  | .message (.syncRequest _) _ _ | .message (.syncResponse _) _ _ | .requestSync | .startProducer
  | .tick _ _ | .request _ | .restart _ => inferInstanceAs (Decidable True)

end Watched

namespace Node

theorem pooled_once_iff (P : Primitives) {saved : Bool} {i : Fin 3} {db : BlockDb} {n : Node}
    (hstart : start P saved i db = some n) (es : List Event) :
    AllStates (step P) (PoolDistinct P) n es ↔ AllSteps (Watched.step P) (Watched.Admits P) ⟨n, []⟩ es := by
  have hfirst : n.PoolDistinct P ∧ Watched.Watches P ⟨n, []⟩ := by
    obtain ⟨db', _, rfl⟩ | ⟨blocks, _, rfl⟩ := start_cases hstart
    · exact ⟨List.nodup_nil, rfl, fun p hp => absurd hp List.not_mem_nil⟩
    · exact ⟨List.nodup_nil, rfl, fun p hp => absurd hp List.not_mem_nil⟩
  have hanything : AllSteps (Watched.step P) (fun _ _ => True) ⟨n, []⟩ es :=
    allSteps_of_forall fun _ _ => trivial
  have hmap : AllStates (Watched.step P) (fun s => s.node.PoolDistinct P) ⟨n, []⟩ es ↔
      AllStates (step P) (PoolDistinct P) n es :=
    allStates_map (fun _ _ => rfl) (PoolDistinct P) (Watched.mk n []) es
  rw [← hmap]
  apply allStates_iff_allSteps _ _ hfirst.2 hfirst.1 hanything
  · exact fun s e h _ => h.step e
  · intro s e h _ hdistinct
    rw [← h.pushesNew_iff e]
    exact poolDistinct_step_iff hdistinct e

section Runs

instance (n : Node) : Decidable (n.PoolDistinct P) := inferInstanceAs (Decidable (List.Nodup _))

noncomputable def sentTwice : RpcRequest :=
  .sendTx ⟨(WorldState.treasuryAddr .sample).hex, (sampleAddr 7).hex, 50, 1, 1, none, some 6⟩

noncomputable def pooledRun : List Event :=
  [.request sentTwice, .request (.faucet (sampleAddr 8).hex), .rpc 0 ⟨6, 6⟩, .rpc 1 ⟨7, 7⟩, .rpc 0 ⟨6, 6⟩,
   .rpc 1 ⟨7, 7⟩, .rpc 1 ⟨7, 7⟩, .rpc 1 ⟨7, 7⟩, .rpc 0 ⟨8, 8⟩,
   .message (.newTransaction (Transaction.new 9 (sampleAddr 7) (sampleAddr 8) 1 1 1)) .insertion
   fun _ => true, .startProducer, .tick 10 true]

theorem pooled_once_run : AllStates (step .sample) (PoolDistinct .sample) (fresh .sample 1) pooledRun :=
  (pooled_once_iff .sample (start_fresh sample_roundTrips 1) _).mpr (by decide +kernel)

theorem pooled_twice :
    ¬ AllStates (step .sample) (PoolDistinct .sample) (fresh .sample 0)
      (List.replicate 2 (.message Cluster.announced .insertion fun _ => true)) ∧
    ¬ AllStates (step .sample) (PoolDistinct .sample) (fresh .sample 0)
      [.request sentTwice, .request sentTwice, .rpc 0 ⟨6, 6⟩, .rpc 1 ⟨6, 6⟩, .rpc 0 ⟨6, 6⟩, .rpc 1 ⟨6, 6⟩,
       .rpc 0 ⟨6, 6⟩, .rpc 1 ⟨6, 6⟩] := by
  refine ⟨fun h => ?_, fun h => ?_⟩
  · exact absurd h.last (by decide +kernel)
  · exact absurd h.last (by decide +kernel)

end Runs

end Node

end VelaNetwork
