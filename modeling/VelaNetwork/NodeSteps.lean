import VelaNetwork.Node
import VelaNetwork.Ledger
import VelaNetwork.EngineCalls

namespace VelaNetwork

variable (P : Primitives)

def BlockDb.saveAll (db : BlockDb) (blocks : List Block) : BlockDb :=
  blocks.foldl (fun db block => (db.saveBlock P true block).getD db) db

theorem BlockDb.saveAll_invariant {p : BlockDb → Prop} {blocks : List Block}
    (hsave : ∀ block ∈ blocks, ∀ db db', db.saveBlock P true block = some db' → p db → p db') {db : BlockDb}
    (h : p db) : p (db.saveAll P blocks) := by
  induction blocks generalizing db with
  | nil => exact h
  | cons block rest ih =>
    apply ih fun block' hblock' => hsave block' (List.mem_cons_of_mem _ hblock')
    dsimp only
    cases hdb : db.saveBlock P true block with
    | none => exact h
    | some db' => exact hsave block List.mem_cons_self db db' hdb h

def Event.isRestart : Event → Bool
  | .restart _ => true
  | _ => false

theorem Event.eq_restart {e : Event} (h : e.isRestart = true) : ∃ saved, e = .restart saved := by
  cases e with
  | restart saved => exact ⟨saved, rfl⟩
  | _ => cases h

def Event.savesOk : Event → Prop
  | .message _ _ saves => ∀ i, saves i = true
  | .tick _ saved => saved = true
  | .restart saved => saved = true
  | _ => True

def Follows : UInt64 → List Block → Prop
  | _, [] => True
  | tip, block :: blocks => block.header.height = tip + 1 ∧ Follows block.header.height blocks

namespace Node

def accepted (tip : UInt64) : List Block → List Block
  | [] => []
  | block :: rest =>
    if block.header.height = tip + 1 then block :: accepted block.header.height rest else accepted tip rest

def imported (n : Node) : Event → List Block
  | .message (.newBlock block) _ _ => accepted n.tipHeight [block]
  | .message (.syncResponse blocks) _ _ => accepted n.tipHeight blocks
  | _ => []

def produced (n : Node) : Event → Option Block
  | .tick now _ =>
    match n.round, n.state.blocks.getLast? with
    | some round, some tip => if n.leads round then some (n.newBlock P now tip round) else none
    | _, _ => none
  | _ => none

def appended (n : Node) (e : Event) : List Block := n.imported e ++ (n.produced P e).toList

def executed (n : Node) (e : Event) : List (WorldState × Transaction) :=
  n.state.worldState.executionOfBlocks P (n.appended P e)

/-- `n'` is `n` after the blocks `blocks`: the chain and the ledger have them all, and the database
those whose writes succeeded. -/
structure Grows (allSaved : Prop) (blocks : List Block) (n n' : Node) : Prop where
  chain : n'.state.blocks = n.state.blocks ++ blocks
  ledger : n'.state.worldState.ledger = (n.state.worldState.applyBlocks P blocks).ledger
  index : n'.validatorIndex = n.validatorIndex
  database : ∃ kept : List Block, kept.Sublist blocks ∧ (allSaved → kept = blocks) ∧
    n'.blockDb = n.blockDb.saveAll P kept

section Grows

variable {P} {allSaved : Prop} {blocks blocks' : List Block} {n n' n'' : Node}

theorem Grows.of_frame (hchain : n'.state.blocks = n.state.blocks)
    (hledger : n'.state.worldState.ledger = n.state.worldState.ledger)
    (hindex : n'.validatorIndex = n.validatorIndex) (hdb : n'.blockDb = n.blockDb) :
    Grows P allSaved [] n n' :=
  ⟨by rw [hchain, List.append_nil], hledger, hindex, [], List.Sublist.refl [], fun _ => rfl, hdb⟩

theorem Grows.trans (h : Grows P allSaved blocks n n') (h' : Grows P allSaved blocks' n' n'') :
    Grows P allSaved (blocks ++ blocks') n n'' := by
  obtain ⟨kept, hsub, hall, hdb⟩ := h.database
  obtain ⟨kept', hsub', hall', hdb'⟩ := h'.database
  refine ⟨?_, ?_, h'.index.trans h.index, kept ++ kept', hsub.append hsub', ?_, ?_⟩
  · rw [h'.chain, h.chain, List.append_assoc]
  · rw [h'.ledger, WorldState.applyBlocks_append]
    exact WorldState.ledger_applyBlocks P h.ledger blocks'
  · intro hsaved
    rw [hall hsaved, hall' hsaved]
  · rw [hdb', hdb]
    exact List.foldl_append.symm

theorem Grows.mono {allSaved' : Prop} (himp : allSaved' → allSaved) (h : Grows P allSaved blocks n n') :
    Grows P allSaved' blocks n n' := by
  obtain ⟨kept, hsub, hall, hdb⟩ := h.database
  exact ⟨h.chain, h.ledger, h.index, kept, hsub, fun hsaved => hall (himp hsaved), hdb⟩

theorem drainMempool_grows (allSaved : Prop) (n : Node) : Grows P allSaved [] n n.drainMempool :=
  Grows.of_frame rfl rfl rfl rfl

theorem nextRound_grows (allSaved : Prop) (n : Node) (round : UInt64) :
    Grows P allSaved [] n (n.nextRound round) := Grows.of_frame rfl rfl rfl rfl

theorem append_grows (saved : Bool) (n : Node) (block : Block) :
    Grows P (saved = true) [block] n (n.append P saved block) := by
  refine ⟨rfl, rfl, rfl, ?_⟩
  cases saved with
  | true => exact ⟨[block], List.Sublist.refl _, fun _ => rfl, rfl⟩
  | false =>
    refine ⟨[], List.nil_sublist _, fun h => absurd h (by decide), ?_⟩
    change (n.blockDb.saveBlock P false block).getD n.blockDb = n.blockDb
    rw [BlockDb.saveBlock_failed]
    rfl

end Grows

section Handlers

variable (n : Node)

theorem step_newBlock (order : IterOrder) (saves : ℕ → Bool) (block : Block) :
    n.step P (.message (.newBlock block) order saves) = n.importBlocks P saves [block] := by
  change (n.handleNewBlock P (saves 0) block).1 = _
  unfold handleNewBlock importBlocks
  split <;> rfl

theorem step_consensusVote (order : IterOrder) (saves : ℕ → Bool) (vote : Vote) :
    n.step P (.message (.consensusVote vote) order saves) =
      { n with hotstuff := (n.hotstuff.handleVote P order vote).1 } := by
  change (n.handleConsensusVote P order vote).1 = _
  unfold handleConsensusVote
  split <;> (rename_i heq; rw [heq])

theorem step_consensusPropose (order : IterOrder) (saves : ℕ → Bool) (block : Block) :
    n.step P (.message (.consensusPropose block) order saves) =
      { n with hotstuff := (n.hotstuff.handlePropose P block none).1 } := by
  change (n.handleConsensusPropose P block).1 = _
  unfold handleConsensusPropose
  split <;> (rename_i heq; rw [heq])

theorem step_requestSync : n.step P .requestSync = { n with syncDue := false } := by
  obtain ⟨_, _, _, _, syncDue, _, _⟩ := n
  cases syncDue <;> rfl

theorem step_startProducer : ∃ round, n.step P .startProducer = { n with round } := by
  change ∃ round, n.startProducer = { n with round }
  unfold startProducer
  split
  · exact ⟨_, rfl⟩
  · exact ⟨n.round, rfl⟩

theorem step_rpc (i : ℕ) (now : Clock) : (n.rpc[i]? = none ∧ n.step P (.rpc i now) = n) ∨
    ∃ task rpc, n.rpc[i]? = some task ∧
      n.step P (.rpc i now) = { n with state := (task.advance P now n.state).1, rpc } ∧
      ∀ next ∈ rpc, next ∈ n.rpc ∨ (task.advance P now n.state).2.1 = .running next := by
  change (_ ∧ (n.advanceRpc P now i).1 = n) ∨ ∃ task rpc, n.rpc[i]? = some task ∧
    (n.advanceRpc P now i).1 = _ ∧ _
  unfold advanceRpc
  cases htask : n.rpc[i]? with
  | none => exact Or.inl ⟨rfl, rfl⟩
  | some task =>
    refine Or.inr ⟨task, ?_⟩
    dsimp only
    split
    · rename_i state next sent heq
      rw [heq]
      refine ⟨_, rfl, rfl, ?_⟩
      intro next' hnext
      rcases List.mem_or_eq_of_mem_set hnext with hold | rfl
      · exact Or.inl hold
      · exact Or.inr rfl
    · rename_i state response sent heq
      rw [heq]
      exact ⟨_, rfl, rfl, fun next hnext => Or.inl (List.mem_of_mem_eraseIdx hnext)⟩

end Handlers

section Append

@[simp] theorem append_tipHeight (saved : Bool) (n : Node) (block : Block) :
    (n.append P saved block).tipHeight = block.header.height := by
  simp [tipHeight, append]

theorem tipHeight_eq {n : Node} {tip : Block} (h : n.state.blocks.getLast? = some tip) :
    n.tipHeight = tip.header.height := by
  rw [tipHeight, h]; rfl

theorem importBlocks_grows (saves : ℕ → Bool) (n : Node) (blocks : List Block) :
    Grows P (∀ i, saves i = true) (accepted n.tipHeight blocks) n (n.importBlocks P saves blocks) := by
  induction blocks generalizing n saves with
  | nil => exact Grows.of_frame rfl rfl rfl rfl
  | cons block rest ih =>
    rw [importBlocks, accepted]
    by_cases hheight : block.header.height = n.tipHeight + 1
    · rw [if_pos hheight, if_pos hheight]
      have hfirst := (append_grows (P := P) (saves 0) n block).mono fun h : ∀ i, saves i = true => h 0
      have hrest := (ih (fun i => saves (i + 1)) (n.append P (saves 0) block)).mono
        fun h : ∀ i, saves i = true => fun i => h (i + 1)
      rw [append_tipHeight] at hrest
      exact hfirst.trans hrest
    · rw [if_neg hheight, if_neg hheight]
      exact (ih (fun i => saves (i + 1)) n).mono fun h i => h (i + 1)

theorem importBlocks_frame (saves : ℕ → Bool) (n : Node) (blocks : List Block) :
    (n.importBlocks P saves blocks).hotstuff = n.hotstuff ∧
      (n.importBlocks P saves blocks).state.mempool = n.state.mempool ∧
      (n.importBlocks P saves blocks).rpc = n.rpc := by
  induction blocks generalizing n saves with
  | nil => exact ⟨rfl, rfl, rfl⟩
  | cons block rest ih =>
    rw [importBlocks]
    split
    · exact ih (fun i => saves (i + 1)) (n.append P (saves 0) block)
    · exact ih (fun i => saves (i + 1)) n

end Append

section Step

variable (n : Node)

theorem message_grows (msg : NetworkMessage) (order : IterOrder) (saves : ℕ → Bool) :
    Grows P (∀ i, saves i = true) (n.imported (.message msg order saves)) n
      (n.step P (.message msg order saves)) := by
  cases msg with
  | newBlock block =>
    rw [step_newBlock]
    exact importBlocks_grows P saves n [block]
  | newTransaction tx => exact Grows.of_frame rfl rfl rfl rfl
  | consensusVote vote =>
    rw [step_consensusVote]
    exact Grows.of_frame rfl rfl rfl rfl
  | consensusPropose block =>
    rw [step_consensusPropose]
    exact Grows.of_frame rfl rfl rfl rfl
  | syncRequest fromHeight => exact Grows.of_frame rfl rfl rfl rfl
  | syncResponse blocks => exact importBlocks_grows P saves n blocks

theorem tick_cases (now : Int64) (saved : Bool) :
    (n.produced P (.tick now saved) = none ∧ ∃ round, n.tick P now saved = ({ n with round }, [])) ∨
    ∃ round tip, n.round = some round ∧ n.leads round = true ∧ n.state.blocks.getLast? = some tip ∧
      n.produced P (.tick now saved) = some (n.newBlock P now tip round) ∧
      n.tick P now saved =
        ((n.drainMempool.append P saved (n.newBlock P now tip round)).nextRound round,
          [.consensusPropose (n.newBlock P now tip round), .newBlock (n.newBlock P now tip round)]) := by
  unfold tick produced
  cases hround : n.round with
  | none => exact Or.inl ⟨rfl, none, by simp [← hround]⟩
  | some round =>
    by_cases hlead : n.leads round = true
    · cases htip : n.state.blocks.getLast? with
      | none => exact Or.inl ⟨rfl, some round, by simp [hlead, ← hround]⟩
      | some tip => exact Or.inr ⟨round, tip, rfl, hlead, rfl, by simp [hlead], by simp [hlead]⟩
    · refine Or.inl ⟨?_, some (round + 1), by simp [hlead, nextRound]⟩
      cases n.state.blocks.getLast? <;> simp [hlead]

theorem tick_grows (now : Int64) (saved : Bool) :
    Grows P (saved = true) (n.produced P (.tick now saved)).toList n (n.tick P now saved).1 := by
  obtain ⟨hprod, round, htick⟩ | ⟨round, tip, _, _, _, hprod, htick⟩ := tick_cases P n now saved
  · rw [hprod, htick]
    exact Grows.of_frame rfl rfl rfl rfl
  · rw [hprod, htick]
    have happend := append_grows (P := P) saved n.drainMempool (n.newBlock P now tip round)
    exact ((drainMempool_grows _ n).trans happend).trans (nextRound_grows _ _ round)

theorem advance_state (task : RpcTask) (now : Clock) (s : NodeState) : (task.advance P now s).1 = s ∨
    (∃ address tx, task = .faucetMark address tx ∧ (task.advance P now s).1 = s.markFaucet now.secs address) ∨
    ∃ tx, task = .push tx ∧ (task.advance P now s).1 = s.pushTx tx := by
  cases task with
  | faucetCheck address =>
    refine Or.inl ?_
    unfold RpcTask.advance
    dsimp only
    split
    · rfl
    · split <;> rfl
  | sendTxCheck req =>
    refine Or.inl ?_
    unfold RpcTask.advance
    dsimp only
    split <;> rfl
  | sendTxDuplicate tx =>
    refine Or.inl ?_
    unfold RpcTask.advance
    dsimp only
    split <;> rfl
  | faucetNonce address recipient => exact Or.inl rfl
  | faucetMark address tx => exact Or.inr (Or.inl ⟨address, tx, rfl, rfl⟩)
  | push tx => exact Or.inr (Or.inr ⟨tx, rfl, rfl⟩)
  | broadcast tx => exact Or.inl rfl

theorem advance_ledger (task : RpcTask) (now : Clock) (s : NodeState) :
    (task.advance P now s).1.blocks = s.blocks ∧
      (task.advance P now s).1.worldState.ledger = s.worldState.ledger := by
  obtain hsame | ⟨address, tx, _, hmark⟩ | ⟨tx, _, hpush⟩ := advance_state P task now s
  · rw [hsame]
    exact ⟨rfl, rfl⟩
  · rw [hmark]
    exact ⟨rfl, rfl⟩
  · rw [hpush]
    exact ⟨rfl, rfl⟩

theorem step_grows {e : Event} (he : e.isRestart = false) :
    Grows P e.savesOk (n.appended P e) n (n.step P e) := by
  cases e with
  | message msg order saves =>
    have h := message_grows P n msg order saves
    rwa [← List.append_nil (n.imported _)] at h
  | requestSync =>
    rw [step_requestSync]
    exact Grows.of_frame rfl rfl rfl rfl
  | startProducer =>
    obtain ⟨round, hround⟩ := step_startProducer P n
    rw [hround]
    exact Grows.of_frame rfl rfl rfl rfl
  | tick now saved => exact tick_grows P n now saved
  | request req => exact Grows.of_frame rfl rfl rfl rfl
  | rpc i now =>
    obtain ⟨_, hsame⟩ | ⟨task, rpc, _, hstep, _⟩ := step_rpc P n i now
    · rw [hsame]
      exact Grows.of_frame rfl rfl rfl rfl
    · rw [hstep]
      have hframe := advance_ledger P task now n.state
      exact Grows.of_frame hframe.1 hframe.2 rfl rfl
  | restart saved => cases he

end Step

section Heights

theorem accepted_follows (tip : UInt64) (blocks : List Block) : Follows tip (accepted tip blocks) := by
  induction blocks generalizing tip with
  | nil => trivial
  | cons block rest ih =>
    rw [accepted]
    by_cases hheight : block.header.height = tip + 1
    · rw [if_pos hheight]
      exact ⟨hheight, ih block.header.height⟩
    · rw [if_neg hheight]
      exact ih tip

theorem produced_height {n : Node} {e : Event} {block : Block} (h : n.produced P e = some block) :
    block.header.height = n.tipHeight + 1 := by
  cases e with
  | tick now saved =>
    obtain ⟨hnone, _⟩ | ⟨round, tip, _, _, htip, hsome, _⟩ := tick_cases P n now saved
    · rw [h] at hnone
      cases hnone
    · obtain rfl := Option.some.inj (h.symm.trans hsome)
      rw [tipHeight_eq htip]
      rfl
  | _ => cases h

theorem produced_transactions {n : Node} {e : Event} {block : Block} (h : n.produced P e = some block) :
    block.transactions = n.state.mempool.take 100 := by
  cases e with
  | tick now saved =>
    obtain ⟨hnone, _⟩ | ⟨round, tip, _, _, _, hsome, _⟩ := tick_cases P n now saved
    · rw [h] at hnone
      cases hnone
    · obtain rfl := Option.some.inj (h.symm.trans hsome)
      rfl
  | _ => cases h

theorem imported_of_produced {n : Node} {e : Event} {block : Block} (h : n.produced P e = some block) :
    n.imported e = [] := by
  cases e with
  | tick now saved => rfl
  | _ => cases h

theorem appended_follows (n : Node) (e : Event) : Follows n.tipHeight (n.appended P e) := by
  unfold appended
  cases hprod : n.produced P e with
  | none =>
    rw [Option.toList_none, List.append_nil]
    unfold imported
    split
    · exact accepted_follows _ _
    · exact accepted_follows _ _
    · trivial
  | some block =>
    rw [imported_of_produced P hprod]
    exact ⟨produced_height P hprod, trivial⟩

theorem tip_follows {n : Node} (hne : n.state.blocks ≠ []) (e : Event) :
    ∃ tip, n.state.blocks.getLast? = some tip ∧ Follows tip.header.height (n.appended P e) := by
  have htip := List.getLast?_eq_some_getLast hne
  refine ⟨_, htip, ?_⟩
  rw [← tipHeight_eq htip]
  exact appended_follows P n e

end Heights

section Engine

def engineCall : Event → Option EngineCall
  | .message (.consensusVote vote) order _ => some (.handleVote vote order)
  | .message (.consensusPropose block) _ _ => some (.handlePropose block none)
  | _ => none

theorem step_engine (n : Node) {e : Event} (he : e.isRestart = false) :
    (n.step P e).hotstuff = ((engineCall e).map (n.hotstuff.after P)).getD n.hotstuff := by
  cases e with
  | message msg order saves =>
    cases msg with
    | newBlock block =>
      rw [step_newBlock]
      exact (importBlocks_frame P saves n [block]).1
    | newTransaction tx => rfl
    | consensusVote vote => rw [step_consensusVote]; rfl
    | consensusPropose block => rw [step_consensusPropose]; rfl
    | syncRequest fromHeight => rfl
    | syncResponse blocks => exact (importBlocks_frame P saves n blocks).1
  | requestSync => rw [step_requestSync]; rfl
  | startProducer =>
    obtain ⟨round, hround⟩ := step_startProducer P n
    rw [hround]
    rfl
  | tick now saved =>
    change (n.tick P now saved).1.hotstuff = n.hotstuff
    obtain ⟨_, round, htick⟩ | ⟨round, tip, _, _, _, _, htick⟩ := tick_cases P n now saved
    · rw [htick]
    · rw [htick]; rfl
  | request req => rfl
  | rpc i now =>
    obtain ⟨_, hsame⟩ | ⟨task, rpc, _, hstep, _⟩ := step_rpc P n i now
    · rw [hsame]; rfl
    · rw [hstep]; rfl
  | restart saved => cases he

end Engine

section Start

variable {P}

theorem loadAllBlocks_empty : BlockDb.empty.loadAllBlocks P = some [] := by
  have hnil : BlockDb.empty.tree.toList = [] := Std.ExtTreeMap.toList_eq_nil_iff.mpr rfl
  rw [BlockDb.loadAllBlocks, hnil]
  simp

theorem start_empty {saved : Bool} {i : Fin 3} {n : Node} (h : start P saved i .empty = some n) :
    ∃ db, BlockDb.empty.saveBlock P saved Block.genesis = some db ∧ n = boot P i db [Block.genesis] := by
  rw [start, loadAllBlocks_empty] at h
  cases hsave : BlockDb.empty.saveBlock P saved Block.genesis with
  | none => rw [hsave] at h; exact absurd h (by simp)
  | some db =>
    rw [hsave] at h
    exact ⟨db, rfl, (Option.some.inj h).symm⟩

def fresh (P : Primitives) (i : Fin 3) : Node :=
  boot P i (BlockDb.empty.saveAll P [Block.genesis]) [Block.genesis]

theorem start_fresh (hP : P.BincodeRoundTrips) (i : Fin 3) : start P true i .empty = some (fresh P i) := by
  obtain ⟨val, hval, _⟩ := hP Block.genesis
  rw [start, loadAllBlocks_empty]
  simp [BlockDb.saveBlock, fresh, BlockDb.saveAll, hval]

theorem start_cases {saved : Bool} {i : Fin 3} {db : BlockDb} {n : Node} (h : start P saved i db = some n) :
    (∃ db', db.saveBlock P saved Block.genesis = some db' ∧ n = boot P i db' [Block.genesis]) ∨
      ∃ blocks, db.loadAllBlocks P = some blocks ∧ n = boot P i db blocks := by
  unfold start at h
  split at h
  · cases h
  · split at h
    · cases h
    · rename_i db' hsave
      exact Or.inl ⟨db', hsave, (Option.some.inj h).symm⟩
  · rename_i blocks _ hload
    exact Or.inr ⟨blocks, hload, (Option.some.inj h).symm⟩

theorem restart_cases (n : Node) (saved : Bool) : n.step P (.restart saved) = n ∨
    start P saved n.validatorIndex n.blockDb = some (n.step P (.restart saved)) := by
  change (start P saved n.validatorIndex n.blockDb).getD n = n ∨
    start P saved n.validatorIndex n.blockDb = some ((start P saved n.validatorIndex n.blockDb).getD n)
  cases start P saved n.validatorIndex n.blockDb with
  | none => exact Or.inl rfl
  | some n' => exact Or.inr rfl

theorem restart_boot (n : Node) (saved : Bool) : n.step P (.restart saved) = n ∨
    ∃ db blocks, n.step P (.restart saved) = boot P n.validatorIndex db blocks := by
  rcases restart_cases (P := P) n saved with hsame | hstart
  · exact Or.inl hsame
  · obtain ⟨db, _, hboot⟩ | ⟨blocks, _, hboot⟩ := start_cases hstart
    · exact Or.inr ⟨db, [Block.genesis], hboot⟩
    · exact Or.inr ⟨n.blockDb, blocks, hboot⟩

theorem step_validatorIndex (n : Node) (e : Event) : (n.step P e).validatorIndex = n.validatorIndex := by
  cases he : e.isRestart with
  | false => exact (step_grows P n he).index
  | true =>
    obtain ⟨saved, rfl⟩ := Event.eq_restart he
    obtain hsame | ⟨db, blocks, hboot⟩ := restart_boot (P := P) n saved
    · rw [hsame]
    · rw [hboot]; rfl

theorem step_replay {n : Node}
    (h : n.state.worldState.ledger = (WorldState.new.applyBlocks P n.state.blocks).ledger) (e : Event) :
    (n.step P e).state.worldState.ledger =
      (WorldState.new.applyBlocks P (n.step P e).state.blocks).ledger := by
  cases he : e.isRestart with
  | false =>
    have hgrows := step_grows P n he
    rw [hgrows.ledger, hgrows.chain, WorldState.applyBlocks_append]
    exact WorldState.ledger_applyBlocks P h _
  | true =>
    obtain ⟨saved, rfl⟩ := Event.eq_restart he
    obtain hsame | ⟨db, blocks, hboot⟩ := restart_boot (P := P) n saved
    · rwa [hsame]
    · rw [hboot]; rfl

end Start

section Traced

structure Traced (n : Node) : Prop where
  genesis : ∃ rest, n.state.blocks = Block.genesis :: rest
  ledger : n.state.worldState.ledger = (WorldState.new.applyBlocks P n.state.blocks).ledger

variable {P}

theorem Traced.step {n : Node} (h : Traced P n) {e : Event} (he : e.isRestart = false) :
    Traced P (n.step P e) := by
  obtain ⟨rest, hrest⟩ := h.genesis
  constructor
  · rw [(step_grows P n he).chain, hrest]
    exact ⟨rest ++ n.appended P e, rfl⟩
  · exact step_replay h.ledger e

theorem start_traced {saved : Bool} {i : Fin 3} {n : Node} (h : start P saved i .empty = some n) :
    Traced P n := by
  obtain ⟨db, _, rfl⟩ := start_empty h
  exact ⟨⟨[], rfl⟩, rfl⟩

end Traced

end Node

end VelaNetwork
