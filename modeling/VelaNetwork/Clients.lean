import VelaNetwork.Custody
import VelaNetwork.History
import VelaNetwork.InTurn

namespace VelaNetwork

open Library.Runs

variable (P : Primitives)

namespace NodeState

def height (s : NodeState) : UInt64 := (getStatus 0 0 s).blockHeight

structure Answers (s s' : NodeState) : Prop where
  block : ∀ h b, getBlock P s h = .ok b → getBlock P s' h = .ok b
  tx : ∀ hash entry, getTx P s hash = .ok entry → getTx P s' hash = .ok entry
  history : ∀ address, (getTransactions P s address).transactions <+:
    (getTransactions P s' address).transactions
  accounts : s.height = s'.height → (∀ address, getBalance s address = getBalance s' address) ∧
    s.worldState.totalSupply = s'.worldState.totalSupply ∧ s.worldState.totalTxs = s'.worldState.totalTxs

variable {P} {s s' : NodeState}

theorem getBlock_prefix (hbegins : s.blocks <+: s'.blocks) {h : UInt64} {b : BlockResponse}
    (hblock : getBlock P s h = .ok b) :
    getBlock P s' h = .ok b := by
  unfold getBlock at hblock ⊢
  split at hblock
  · rename_i block hfind
    rw [hbegins.find?_eq_some hfind]
    exact hblock
  · cases hblock

theorem getTx_prefix (hbegins : s.blocks <+: s'.blocks) {hash : String} {entry : TxEntry}
    (htx : getTx P s hash = .ok entry) :
    getTx P s' hash = .ok entry := by
  unfold getTx at htx ⊢
  split at htx
  · rename_i found hfind
    rw [hbegins.findSome?_eq_some hfind]
    exact htx
  · cases htx

theorem getTransactions_prefix (hbegins : s.blocks <+: s'.blocks) (address : String) :
    (getTransactions P s address).transactions <+: (getTransactions P s' address).transactions := by
  obtain ⟨rest, hrest⟩ := hbegins
  unfold getTransactions
  rw [← hrest, List.flatMap_append]
  exact List.prefix_append _ _

theorem getTx_of_mem (hheights : Contiguous s.blocks) {block : Block} (hblock : block ∈ s.blocks)
    {tx : Transaction} (htx : tx ∈ block.transactions) :
    ∃ entry, getTx P s (tx.hash P).toHex = .ok entry ∧ entry.hash = (tx.hash P).toHex ∧
      entry.block ≤ block.header.height := by
  obtain ⟨k, hk, rfl⟩ := List.mem_iff_getElem.mp hblock
  obtain ⟨entry, hfound⟩ : ∃ entry, ((s.blocks.take (k + 1)).findSome? fun b =>
      (b.transactions.find? fun t => (t.hash P).toHex = (tx.hash P).toHex).map (txEntry P b)) =
        some entry := by
    rw [← Option.isSome_iff_exists, List.findSome?_isSome_iff]
    refine ⟨s.blocks[k], List.mem_take_iff_getElem.mpr ⟨k, by omega, rfl⟩, ?_⟩
    rw [Option.isSome_map, List.find?_isSome]
    exact ⟨tx, htx, decide_eq_true rfl⟩
  obtain ⟨b, hb, hmap⟩ := List.exists_of_findSome?_eq_some hfound
  obtain ⟨t, ht, rfl⟩ := Option.map_eq_some_iff.mp hmap
  have hhash := List.find?_some ht
  rw [decide_eq_true_eq] at hhash
  refine ⟨txEntry P b t, ?_, hhash, ?_⟩
  · unfold getTx
    rw [(List.take_prefix _ _).findSome?_eq_some hfound]
  · obtain ⟨m, hm, rfl⟩ := List.mem_take_iff_getElem.mp hb
    change (s.blocks[m]).header.height ≤ _
    rw [UInt64.le_iff_toNat_le, hheights m _, hheights k hk]
    omega

theorem answers_of_take {log : List Block} (hchain : s.blocks = log.take (s.height.toNat + 1))
    (hchain' : s'.blocks = log.take (s'.height.toNat + 1))
    (hledger : s.worldState.ledger = (WorldState.new.applyBlocks P s.blocks).ledger)
    (hledger' : s'.worldState.ledger = (WorldState.new.applyBlocks P s'.blocks).ledger)
    (hle : s.height ≤ s'.height) :
    Answers P s s' := by
  have hbegins : s.blocks <+: s'.blocks := by
    rw [hchain, hchain']
    exact List.take_prefix_take_left (Nat.succ_le_succ (UInt64.le_iff_toNat_le.mp hle))
  refine ⟨fun h b hb => getBlock_prefix hbegins hb, fun hash entry htx => getTx_prefix hbegins htx,
    fun address => getTransactions_prefix hbegins address, fun hheight => ?_⟩
  have hsame : s.worldState.ledger = s'.worldState.ledger := by
    rw [hledger, hledger', hchain, hchain', hheight]
  refine ⟨fun address => ?_, WorldState.totalSupply_of_ledger hsame, ?_⟩
  · unfold getBalance
    rw [WorldState.eq_of_ledger hsame]
    rfl
  · rw [WorldState.eq_of_ledger hsame]

end NodeState

namespace Cluster

variable {P} {c c' : Cluster}

theorem known_extends (c : Cluster) (xs : List (Fin 3 × Event)) : c.known <+: (run (step P) c xs).known := by
  induction xs generalizing c with
  | nil => exact List.prefix_rfl
  | cons x xs ih =>
    have hstep : c.known <+: (c.step P x).known := by
      rw [known_step]
      exact List.prefix_append _ _
    exact hstep.trans (ih _)

theorem TookTurns.height (h : TookTurns P c) (i : Fin 3) :
    (c.node i).state.height.toNat + 1 = (c.node i).state.blocks.length := by
  obtain ⟨tip, htip⟩ := Option.isSome_iff_exists.mp (List.getLast?_isSome.mpr (h.consistent i).nonempty)
  rw [show (c.node i).state.height = (c.node i).tipHeight from rfl, Node.tipHeight_eq htip,
    (h.consistent i).heights.last htip]

theorem TookTurns.chain_of_later (h : TookTurns P c) (hlater : c.known <+: c'.known) (i : Fin 3) :
    (c.node i).state.blocks = c'.known.take ((c.node i).state.height.toNat + 1) := by
  obtain ⟨rest, hrest⟩ := hlater
  rw [h.height i, ← hrest, List.take_append_of_le_length (h.length_le i)]
  exact h.chain_eq i

theorem TookTurns.mem_chain_iff (h : TookTurns P c) {block : Block} (hblock : block ∈ c.known) (j : Fin 3) :
    block ∈ (c.node j).state.blocks ↔ block.header.height ≤ (c.node j).state.height := by
  have hheight := h.height j
  constructor
  · intro hmem
    have hlt := h.toKept.height_lt hmem
    rw [UInt64.le_iff_toNat_le]
    omega
  · intro hle
    obtain ⟨k, hk, rfl⟩ := List.mem_iff_getElem.mp hblock
    rw [UInt64.le_iff_toNat_le, h.contiguous k hk] at hle
    rw [h.chain_of_later List.prefix_rfl j]
    exact List.mem_take_iff_getElem.mpr ⟨k, by omega, rfl⟩

theorem TookTurns.history_shows (h : TookTurns P c) {block : Block} (hblock : block ∈ c.known)
    {tx : Transaction} (htx : tx ∈ block.transactions) {address : String}
    (haddress : trimmed address = tx.from.hex ∨ trimmed address = tx.to.hex) (j : Fin 3) :
    txEntry P block tx ∈ (getTransactions P (c.node j).state address).transactions ↔
      block.header.height ≤ (c.node j).state.height := by
  rw [getTransactions_eq, List.mem_filter, entries, List.mem_flatMap]
  constructor
  · rintro ⟨⟨block', hblock', hentry⟩, _⟩
    obtain ⟨tx', _, hsame⟩ := List.mem_map.mp hentry
    have hheight : block'.header.height = block.header.height := congrArg TxEntry.block hsame
    rw [← hheight, ← h.mem_chain_iff ((h.holds j).chain _ hblock')]
    exact hblock'
  · intro hle
    refine ⟨⟨block, (h.mem_chain_iff hblock j).mpr hle, List.mem_map_of_mem htx⟩, ?_⟩
    unfold TxEntry.names txEntry
    rw [decide_eq_true_eq, vela_append_inj, vela_append_inj]
    exact haddress.imp Eq.symm Eq.symm

variable (P) in
def Waits (i : Fin 3) (c : Cluster) (x : Fin 3 × Event) : Prop :=
  x.1 = i → (c.node i).produced P x.2 = none ∧ x.2.isRestart = false

theorem pool_waits {i : Fin 3} {xs : List (Fin 3 × Event)} (h : AllSteps (step P) (Waits P i) c xs) :
    (c.node i).state.mempool <+: ((run (step P) c xs).node i).state.mempool := by
  induction xs generalizing c with
  | nil => exact List.prefix_rfl
  | cons x xs ih =>
    have hstep : (c.node i).state.mempool <+: ((c.step P x).node i).state.mempool := by
      by_cases hi : x.1 = i
      · obtain ⟨hproduced, hrestart⟩ := h.1 hi
        have hpool := (c.node i).pool_step (P := P) x.2
        rw [Node.leaving_of_quiet hproduced hrestart, List.nil_append] at hpool
        subst hi
        rw [step_node_self, ← hpool]
        exact List.prefix_append _ _
      · rw [step_node_of_ne P c (Ne.symm hi)]
    exact hstep.trans (ih h.2)

theorem pool_pushed {i : Fin 3} {e : Event} {tx : Transaction} (hpushed : (c.node i).pushed e = some tx) :
    ((c.step P (i, e)).node i).state.mempool = (c.node i).state.mempool ++ [tx] := by
  obtain ⟨hproduced, hrestart⟩ := Node.quiet_of_pushed (P := P) hpushed
  have hpool := (c.node i).pool_step (P := P) e
  rw [Node.leaving_of_quiet hproduced hrestart, List.nil_append, Node.entering, hpushed,
    Option.toList_some] at hpool
  have hself := c.step_node_self P (i, e)
  rw [hself, hpool]

theorem mem_produced_of_waits {i : Fin 3} {e : Event} {tx : Transaction}
    (hpushed : (c.node i).pushed e = some tx) (hroom : (c.node i).state.mempool.length < 100)
    {ys : List (Fin 3 × Event)} (hwaits : AllSteps (step P) (Waits P i) (c.step P (i, e)) ys) {e' : Event}
    {block : Block} (hblock : ((run (step P) (c.step P (i, e)) ys).node i).produced P e' = some block) :
    tx ∈ block.transactions := by
  obtain ⟨rest, hrest⟩ := pool_waits hwaits
  rw [Node.produced_transactions P hblock, ← hrest, pool_pushed hpushed]
  apply List.mem_of_getElem? (i := (c.node i).state.mempool.length)
  rw [List.getElem?_take_of_lt hroom, List.append_assoc, List.getElem?_append_right (Nat.le_refl _),
    Nat.sub_self]
  rfl

theorem clients_agree (P : Primitives) (hP : P.BincodeRoundTrips) (xs ys : List (Fin 3 × Event))
    (hgossip : AllSteps (step P) Gossiped (init P) (xs ++ ys))
    (hrecorded : AllSteps (step P) (Recorded P) (init P) (xs ++ ys))
    (hturns : AllSteps (step P) (TakesItsTurn P) (init P) (xs ++ ys)) (i j : Fin 3) :
    let s := ((run (step P) (init P) xs).node i).state
    let s' := ((run (step P) (init P) (xs ++ ys)).node j).state
    (s.height ≤ s'.height → s.Answers P s') ∧ (s'.height ≤ s.height → s'.Answers P s) ∧
      (i = j → s.height ≤ s'.height) := by
  intro s s'
  obtain ⟨hstates, hsteps⟩ := tookTurns_run hP hgossip hrecorded hturns
  have h := hstates xs (List.prefix_append _ _)
  have h' := hstates.last
  have hknown : (run (step P) (init P) xs).known <+: (run (step P) (init P) (xs ++ ys)).known := by
    rw [run_append]
    exact known_extends _ ys
  have hchain := h.chain_of_later hknown i
  have hchain' := h'.chain_of_later List.prefix_rfl j
  refine ⟨NodeState.answers_of_take hchain hchain' (h.ledger i) (h'.ledger j),
    NodeState.answers_of_take hchain' hchain (h'.ledger j) (h.ledger i), ?_⟩
  rintro rfl
  have hgrows := (chain_grows (allSteps_append.mp hsteps).2 i).length_le
  rw [← run_append, ← h.height i, ← h'.height i] at hgrows
  exact UInt64.le_iff_toNat_le.mpr (Nat.le_of_succ_le_succ hgrows)

theorem clients_agree_orderlyRun :
    let s := ((run (step .sample) (init .sample) (orderlyRun.take 4)).node 1).state
    let s' := ((run (step .sample) (init .sample) (orderlyRun.take 4 ++ orderlyRun.drop 4)).node 2).state
    (s.height ≤ s'.height → s.Answers .sample s') ∧ (s'.height ≤ s.height → s'.Answers .sample s) ∧
      ((1 : Fin 3) = 2 → s.height ≤ s'.height) := by
  have hwhole : orderlyRun.take 4 ++ orderlyRun.drop 4 = orderlyRun := List.take_append_drop 4 _
  exact clients_agree .sample sample_roundTrips (orderlyRun.take 4) (orderlyRun.drop 4) (by decide +kernel)
    (hwhole ▸ orderlyRun_recorded) (hwhole ▸ orderlyRun_turns) 1 2

theorem payment_shown (P : Primitives) (hP : P.BincodeRoundTrips) (xs ys zs : List (Fin 3 × Event))
    (i : Fin 3) (e e' : Event)
    (hgossip : AllSteps (step P) Gossiped (init P) (xs ++ (i, e) :: (ys ++ (i, e') :: zs)))
    (hrecorded : AllSteps (step P) (Recorded P) (init P) (xs ++ (i, e) :: (ys ++ (i, e') :: zs)))
    (hturns : AllSteps (step P) (TakesItsTurn P) (init P) (xs ++ (i, e) :: (ys ++ (i, e') :: zs)))
    {tx : Transaction} (hpushed : ((run (step P) (init P) xs).node i).pushed e = some tx)
    (hroom : ((run (step P) (init P) xs).node i).state.mempool.length < 100)
    (hwaits : AllSteps (step P) (Waits P i) (run (step P) (init P) (xs ++ [(i, e)])) ys) {block : Block}
    (hblock : ((run (step P) (init P) (xs ++ (i, e) :: ys)).node i).produced P e' = some block)
    {address : String} (haddress : trimmed address = tx.from.hex ∨ trimmed address = tx.to.hex) (j : Fin 3) :
    let s := ((run (step P) (init P) (xs ++ (i, e) :: (ys ++ (i, e') :: zs))).node j).state
    (txEntry P block tx ∈ (getTransactions P s address).transactions ↔ block.header.height ≤ s.height) ∧
      (block.header.height ≤ s.height → ∃ entry, getTx P s (tx.hash P).toHex = .ok entry ∧
        entry.hash = (tx.hash P).toHex ∧ entry.block ≤ block.header.height) := by
  intro s
  obtain ⟨hstates, _⟩ := tookTurns_run hP hgossip hrecorded hturns
  have h := hstates.last
  rw [run_append, run_cons, run_nil] at hwaits
  rw [run_append, run_cons] at hblock
  have htx := mem_produced_of_waits hpushed hroom hwaits hblock
  have hknown : block ∈ (run (step P) (init P) (xs ++ (i, e) :: (ys ++ (i, e') :: zs))).known := by
    rw [run_append, run_cons, run_append, run_cons]
    refine (known_extends _ zs).subset ?_
    rw [known_step, hblock]
    exact List.mem_append_right _ List.mem_cons_self
  refine ⟨h.history_shows hknown htx haddress j, fun hle => ?_⟩
  exact NodeState.getTx_of_mem (h.consistent j).heights ((h.mem_chain_iff hknown j).mpr hle) htx

section Runs

theorem announcedRun_recorded : AllSteps (step .sample) (Recorded .sample) (init .sample) announcedRun := by
  refine ⟨?_, ?_, ?_, ?_, ?_, ?_, ?_, ?_, ?_, trivial⟩ <;> exact ⟨by simp [Event.savesOk], by decide +kernel⟩

theorem payment_shown_announcedRun :
    let s := ((run (step .sample) (init .sample) announcedRun).node 0).state
    let tx : Transaction :=
      { Transaction.new 6 (WorldState.treasuryAddr .sample) (sampleAddr 7) 50 1 1 with signature := none }
    (txEntry .sample blockOfAnnounced tx ∈ (getTransactions .sample s tx.to.hex).transactions ↔
        blockOfAnnounced.header.height ≤ s.height) ∧
      (blockOfAnnounced.header.height ≤ s.height →
        ∃ entry, getTx .sample s (tx.hash .sample).toHex = .ok entry ∧
        entry.hash = (tx.hash .sample).toHex ∧ entry.block ≤ blockOfAnnounced.header.height) :=
  payment_shown .sample sample_roundTrips (announcedRun.take 5) [(1, .startProducer)]
    [(0, .message (.newBlock blockOfAnnounced) .insertion fun _ => true)] 1
     (.message announced .insertion fun _ => true)
    (.tick 10 true) (by decide +kernel) announcedRun_recorded (by decide +kernel) rfl
    (by decide +kernel) ⟨fun _ => by decide +kernel, trivial⟩ (by decide +kernel) (Or.inr (trimmed_hex _)) 0

end Runs

end Cluster

end VelaNetwork
