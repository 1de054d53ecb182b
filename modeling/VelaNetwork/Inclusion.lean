import VelaNetwork.NoFork
import VelaNetwork.Pool

namespace VelaNetwork

open Library.Runs

variable (P : Primitives)

def RpcTask.pushes : RpcTask → Option Transaction
  | .push tx => some tx
  | _ => none

namespace Node

def included (n : Node) : List Hash := n.state.blocks.flatMap fun block => block.transactions.map (·.hash P)

def PoolFresh (n : Node) : Prop := ∀ tx ∈ n.state.mempool, tx.hash P ∉ n.included P

def pushed (n : Node) : Event → Option Transaction
  | .message (.newTransaction tx) _ _ => some tx
  | .rpc i _ => n.rpc[i]?.bind RpcTask.pushes
  | _ => none

structure TakesFresh (n : Node) (e : Event) : Prop where
  pushed : ∀ tx ∈ n.pushed e, tx.hash P ∉ n.included P
  imported : ∀ block ∈ n.imported e, ∀ tx ∈ block.transactions, ∀ waiting ∈ n.state.mempool,
    waiting.hash P ≠ tx.hash P

def ProducesNew (n : Node) (e : Event) : Prop :=
  ∀ block ∈ n.produced P e, ∀ tx ∈ block.transactions, tx.hash P ∉ n.included P

def fills (n : Node) : Event → List Transaction
  | .tick _ _ =>
    match n.round, n.state.blocks.getLast? with
    | some round, some _ => if n.leads round then n.state.mempool.take 100 else []
    | _, _ => []
  | _ => []

inductive PoolStep (n : Node) (e : Event) : Prop where
  | emptied (hpool : (n.step P e).state.mempool = []) (hpushed : n.pushed e = none)
      (himported : n.imported e = [])
  | imported (hpool : (n.step P e).state.mempool = n.state.mempool)
      (hchain : (n.step P e).state.blocks = n.state.blocks ++ n.imported e) (hpushed : n.pushed e = none)
  | pushed (tx : Transaction) (hpool : (n.step P e).state.mempool = n.state.mempool ++ [tx])
      (hchain : (n.step P e).state.blocks = n.state.blocks) (hpushed : n.pushed e = some tx)
        (himported : n.imported e = [])

variable {P}

theorem poolStep_message (n : Node) (msg : NetworkMessage) (order : IterOrder) (saves : ℕ → Bool) :
    n.PoolStep P (.message msg order saves) := by
  have hchain := (message_grows P n msg order saves).chain
  cases msg with
  | newBlock block =>
    refine .imported ?_ hchain rfl
    rw [step_newBlock]
    exact (importBlocks_frame P saves n [block]).2.1
  | newTransaction tx => exact .pushed tx rfl rfl rfl rfl
  | consensusVote vote =>
    refine .imported ?_ hchain rfl
    rw [step_consensusVote]
  | consensusPropose block =>
    refine .imported ?_ hchain rfl
    rw [step_consensusPropose]
  | syncRequest fromHeight => exact .imported rfl hchain rfl
  | syncResponse blocks => exact .imported (importBlocks_frame P saves n blocks).2.1 hchain rfl

theorem poolStep_of_unchanged {n : Node} {e : Event} (hpool : (n.step P e).state.mempool = n.state.mempool)
    (hchain : (n.step P e).state.blocks = n.state.blocks) (hpushed : n.pushed e = none)
    (himported : n.imported e = []) :
    n.PoolStep P e := by
  refine .imported hpool ?_ hpushed
  rw [hchain, himported, List.append_nil]

theorem advance_pool (task : RpcTask) (now : Clock) (s : NodeState) :
    (task.advance P now s).1.mempool = s.mempool ++ task.pushes.toList := by
  obtain hsame | ⟨address, tx, rfl, hmark⟩ | ⟨tx, rfl, hpush⟩ := advance_state P task now s
  · cases task with
    | push tx =>
      have hlength := congrArg (fun s => s.mempool.length) hsame
      simp [RpcTask.advance, NodeState.pushTx] at hlength
    | _ =>
      rw [hsame]
      exact (List.append_nil _).symm
  · rw [hmark]
    exact (List.append_nil _).symm
  · rw [hpush]
    rfl

theorem poolStep_rpc (n : Node) (i : ℕ) (now : Clock) : n.PoolStep P (.rpc i now) := by
  have hpushed : n.pushed (.rpc i now) = n.rpc[i]?.bind RpcTask.pushes := rfl
  obtain ⟨htask, hsame⟩ | ⟨task, rpc, htask, hstep, _⟩ := step_rpc P n i now
  · rw [htask] at hpushed
    apply poolStep_of_unchanged _ _ hpushed rfl
    · rw [hsame]
    · rw [hsame]
  · rw [htask] at hpushed
    have hchain : (n.step P (.rpc i now)).state.blocks = n.state.blocks := by
      rw [hstep]
      exact (advance_ledger P task now n.state).1
    have hpool : (n.step P (.rpc i now)).state.mempool = n.state.mempool ++ task.pushes.toList := by
      rw [hstep]
      exact advance_pool task now n.state
    cases hpushes : task.pushes with
    | none =>
      rw [hpushes, Option.toList_none, List.append_nil] at hpool
      exact poolStep_of_unchanged hpool hchain (hpushed.trans hpushes) rfl
    | some tx =>
      rw [hpushes] at hpool
      exact .pushed tx hpool hchain (hpushed.trans hpushes) rfl

theorem poolStep (n : Node) (e : Event) : n.PoolStep P e := by
  cases e with
  | message msg order saves => exact poolStep_message n msg order saves
  | requestSync =>
    apply poolStep_of_unchanged _ _ rfl rfl
    · rw [step_requestSync]
    · rw [step_requestSync]
  | startProducer =>
    obtain ⟨round, hround⟩ := step_startProducer P n
    apply poolStep_of_unchanged _ _ rfl rfl
    · rw [hround]
    · rw [hround]
  | tick now saved =>
    obtain ⟨_, round, htick⟩ | ⟨round, tip, _, _, _, _, htick⟩ := tick_cases P n now saved
    · apply poolStep_of_unchanged _ _ rfl rfl
      · change (n.tick P now saved).1.state.mempool = _
        rw [htick]
      · change (n.tick P now saved).1.state.blocks = _
        rw [htick]
    · refine .emptied ?_ rfl rfl
      change (n.tick P now saved).1.state.mempool = _
      rw [htick]
      rfl
  | request req => exact poolStep_of_unchanged rfl rfl rfl rfl
  | rpc i now => exact poolStep_rpc n i now
  | restart saved =>
    obtain hsame | ⟨db, blocks, hboot⟩ := restart_boot (P := P) n saved
    · apply poolStep_of_unchanged _ _ rfl rfl
      · rw [hsame]
      · rw [hsame]
    · refine .emptied ?_ rfl rfl
      rw [hboot]
      rfl

theorem mem_included {n : Node} {h : Hash} :
    h ∈ n.included P ↔ ∃ block ∈ n.state.blocks, ∃ tx ∈ block.transactions, tx.hash P = h := by
  simp only [included, List.mem_flatMap, List.mem_map]

theorem poolFresh_step_iff {n : Node} (h : n.PoolFresh P) (e : Event) :
    (n.step P e).PoolFresh P ↔ n.TakesFresh P e := by
  cases n.poolStep (P := P) e with
  | emptied hpool hpushed himported =>
    apply iff_of_true
    · intro tx htx
      rw [hpool] at htx
      exact absurd htx List.not_mem_nil
    · refine ⟨fun tx htx => ?_, fun block hblock => ?_⟩
      · rw [hpushed] at htx
        cases htx
      · rw [himported] at hblock
        exact absurd hblock List.not_mem_nil
  | imported hpool hchain hpushed =>
    have hincluded : ∀ hash, hash ∈ (n.step P e).included P ↔ hash ∈ n.included P ∨
        ∃ block ∈ n.imported e, ∃ tx ∈ block.transactions, tx.hash P = hash := by
      intro hash
      rw [mem_included, mem_included, hchain]
      simp only [List.mem_append, or_and_right, exists_or]
    unfold PoolFresh
    rw [hpool]
    constructor
    · intro hfresh
      refine ⟨fun tx htx => ?_, fun block hblock tx htx waiting hwaiting heq => ?_⟩
      · rw [hpushed] at htx
        cases htx
      · exact hfresh waiting hwaiting ((hincluded _).mpr (Or.inr ⟨block, hblock, tx, htx, heq.symm⟩))
    · intro htakes waiting hwaiting hin
      rcases (hincluded _).mp hin with hold | ⟨block, hblock, tx, htx, heq⟩
      · exact h waiting hwaiting hold
      · exact htakes.imported block hblock tx htx waiting hwaiting heq.symm
  | pushed tx hpool hchain hpushed himported =>
    unfold PoolFresh included
    rw [hpool, hchain]
    constructor
    · intro hfresh
      refine ⟨fun tx' htx' => ?_, fun block hblock => ?_⟩
      · rw [hpushed] at htx'
        obtain rfl := Option.some.inj htx'
        exact hfresh tx (List.mem_append_right _ (List.mem_singleton_self tx))
      · rw [himported] at hblock
        exact absurd hblock List.not_mem_nil
    · intro htakes waiting hwaiting
      rcases List.mem_append.mp hwaiting with hold | hnew
      · exact h waiting hold
      · rw [List.mem_singleton.mp hnew]
        exact htakes.pushed tx hpushed

theorem PoolFresh.producesNew {n : Node} (h : n.PoolFresh P) (e : Event) : n.ProducesNew P e := by
  intro block hblock tx htx
  rw [produced_transactions P hblock] at htx
  exact h tx (List.mem_of_mem_take htx)

theorem fills_of_produced {n : Node} {e : Event} :
    n.fills e = ((n.produced P e).map (·.transactions)).getD [] := by
  cases e with
  | tick now saved =>
    unfold fills produced
    cases n.round with
    | none => rfl
    | some round =>
      cases n.state.blocks.getLast? with
      | none => rfl
      | some tip =>
        dsimp only
        split <;> rfl
  | _ => rfl

theorem mem_fills_iff {n : Node} {e : Event} {tx : Transaction} :
    tx ∈ n.fills e ↔ ∃ block, n.produced P e = some block ∧ tx ∈ block.transactions := by
  rw [fills_of_produced (P := P)]
  cases n.produced P e with
  | none => simp
  | some block => simp

theorem fills_subset (n : Node) (e : Event) : n.fills e ⊆ n.state.mempool := by
  cases e with
  | tick now saved =>
    unfold fills
    dsimp only
    split
    · split
      · exact List.take_subset 100 n.state.mempool
      · exact List.nil_subset _
    · exact List.nil_subset _
  | _ => exact List.nil_subset _

end Node

namespace Cluster

variable (P : Primitives)

def PoolsFresh (c : Cluster) : Prop := ∀ i, (c.node i).PoolFresh P

def BlocksApart (c : Cluster) : Prop := c.produced.Pairwise fun p q =>
  ∀ tx ∈ p.2.transactions, ∀ tx' ∈ q.2.transactions, tx.hash P ≠ tx'.hash P

structure IncludedOnce (c : Cluster) : Prop where
  pools : c.PoolsFresh P
  blocks : c.BlocksApart P

def ProducesNew (c : Cluster) (x : Fin 3 × Event) : Prop := (c.node x.1).ProducesNew P x.2

/-- A leader has received the blocks, among those produced before its own, that have a transaction it
takes. -/
def LeadsInformed (c : Cluster) (x : Fin 3 × Event) : Prop := ∀ tx ∈ (c.node x.1).fills x.2, ∀ p ∈ c.produced,
  (∃ tx' ∈ p.2.transactions, tx'.hash P = tx.hash P) → p.2 ∈ (c.node x.1).state.blocks

structure TakesFresh (c : Cluster) (x : Fin 3 × Event) : Prop where
  pool : (c.node x.1).TakesFresh P x.2
  informed : c.LeadsInformed P x

variable {P}

theorem poolsFresh_step_iff {c : Cluster} (h : c.PoolsFresh P) (x : Fin 3 × Event) :
    (c.step P x).PoolsFresh P ↔ (c.node x.1).TakesFresh P x.2 := by
  rw [← Node.poolFresh_step_iff (h x.1) x.2, ← step_node_self P c x]
  constructor
  · intro hfresh
    exact hfresh x.1
  · intro hself i
    by_cases hi : i = x.1
    · rw [hi]
      exact hself
    · rw [step_node_of_ne P c hi]
      exact h i

theorem blocksApart_step {c : Cluster} (x : Fin 3 × Event) :
    (c.step P x).BlocksApart P ↔ c.BlocksApart P ∧
      ∀ p ∈ c.produced, ∀ block, (c.node x.1).produced P x.2 = some block →
      ∀ tx ∈ p.2.transactions, ∀ tx' ∈ block.transactions, tx.hash P ≠ tx'.hash P := by
  change List.Pairwise _ (c.produced ++ _) ↔ _
  rw [List.pairwise_append]
  cases hproduced : (c.node x.1).produced P x.2 with
  | none => simp [BlocksApart]
  | some block => simp [BlocksApart]

theorem blocksApart_step_iff {c : Cluster} (h : c.IncludedOnce P) (x : Fin 3 × Event) :
    (c.step P x).BlocksApart P ↔ c.LeadsInformed P x := by
  rw [blocksApart_step]
  constructor
  · rintro ⟨_, hapart⟩ tx htx p hp ⟨tx', htx', heq⟩
    obtain ⟨block, hblock, hmem⟩ := Node.mem_fills_iff.mp htx
    exact absurd heq (hapart p hp block hblock tx' htx' tx hmem)
  · intro hinformed
    refine ⟨h.blocks, fun p hp block hblock tx' htx' tx htx heq => ?_⟩
    have hfills := Node.mem_fills_iff.mpr ⟨block, hblock, htx⟩
    have hchain := hinformed tx hfills p hp ⟨tx', htx', heq⟩
    exact h.pools x.1 tx (Node.fills_subset _ _ hfills) (Node.mem_included.mpr ⟨p.2, hchain, tx', htx', heq⟩)

theorem includedOnce_step_iff {c : Cluster} (h : c.IncludedOnce P) (x : Fin 3 × Event) :
    (c.step P x).IncludedOnce P ↔ c.TakesFresh P x := by
  constructor
  · intro hnext
    exact ⟨(poolsFresh_step_iff h.pools x).mp hnext.pools, (blocksApart_step_iff h x).mp hnext.blocks⟩
  · intro htakes
    exact ⟨(poolsFresh_step_iff h.pools x).mpr htakes.pool, (blocksApart_step_iff h x).mpr htakes.informed⟩

theorem init_includedOnce : (init P).IncludedOnce P :=
  ⟨fun _ _ htx => absurd htx List.not_mem_nil, List.Pairwise.nil⟩

theorem included_leave_pools_iff (P : Primitives) (xs : List (Fin 3 × Event)) :
    AllStates (step P) (IncludedOnce P) (init P) xs ∧ AllSteps (step P) (ProducesNew P) (init P) xs ↔
      AllSteps (step P) (TakesFresh P) (init P) xs := by
  have hiff : AllStates (step P) (IncludedOnce P) (init P) xs ↔
      AllSteps (step P) (TakesFresh P) (init P) xs :=
    allStates_iff_of_step (fun c x h => includedOnce_step_iff h x) init_includedOnce
  constructor
  · rintro ⟨honce, _⟩
    exact hiff.mp honce
  · intro htakes
    have honce := hiff.mpr htakes
    exact ⟨honce, honce.allSteps fun c x h => (h.pools x.1).producesNew x.2⟩

section Runs

instance (n : Node) : Decidable (n.PoolFresh P) :=
  inferInstanceAs (Decidable (∀ tx ∈ n.state.mempool, tx.hash P ∉ n.included P))

instance (c : Cluster) : Decidable (c.PoolsFresh P) :=
  inferInstanceAs (Decidable (∀ i, (c.node i).PoolFresh P))

instance (c : Cluster) : Decidable (c.BlocksApart P) :=
  inferInstanceAs (Decidable (c.produced.Pairwise fun p q =>
  ∀ tx ∈ p.2.transactions, ∀ tx' ∈ q.2.transactions, tx.hash P ≠ tx'.hash P))

noncomputable def announced : NetworkMessage := .newTransaction
  { Transaction.new 6 (WorldState.treasuryAddr .sample) (sampleAddr 7) 50 1 1 with signature := none }

noncomputable def blockOfAnnounced : Block :=
  ((Node.fresh .sample 1).step .sample (.message announced .insertion fun _ => true)).newBlock .sample 10
    Block.genesis 1

noncomputable def announcedRun : List (Fin 3 × Event) :=
  [(0, .request (.sendTx ⟨(WorldState.treasuryAddr .sample).hex, (sampleAddr 7).hex, 50, 1, 1, none, none⟩)),
   (0, .rpc 0 ⟨6, 6⟩), (0, .rpc 0 ⟨6, 6⟩), (0, .rpc 0 ⟨6, 6⟩), (0, .rpc 0 ⟨6, 6⟩),
   (1, .message announced .insertion fun _ => true), (1, .startProducer), (1, .tick 10 true),
   (0, .message (.newBlock blockOfAnnounced) .insertion fun _ => true)]

noncomputable def includedTwiceRun : List (Fin 3 × Event) :=
  announcedRun ++ [(0, .startProducer), (0, .tick 20 true), (0, .tick 30 true)]

theorem imported_block_stays_pooled : AllSteps (step .sample) Gossiped (init .sample) includedTwiceRun ∧
    ¬ AllStates (step .sample) (PoolsFresh .sample) (init .sample) includedTwiceRun ∧
    ¬ AllStates (step .sample) (BlocksApart .sample) (init .sample) includedTwiceRun := by
  refine ⟨by decide +kernel, ?_, ?_⟩
  · intro hfresh
    exact absurd (hfresh announcedRun (List.prefix_append _ _)) (by decide +kernel)
  · intro hapart
    exact absurd hapart.last (by decide +kernel)

end Runs

end Cluster

end VelaNetwork
