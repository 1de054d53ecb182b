import VelaNetwork.Inclusion
import Mathlib.Data.UInt

namespace VelaNetwork

open Library.ByteStrings Library.Logs Library.Runs

variable (P : Primitives)

namespace WorldState

def skipped (w : WorldState) : List Transaction → List Transaction
  | [] => []
  | tx :: txs => (if w.executes tx then [] else [tx]) ++ skipped (w.applyTx tx) txs

def skippedOfBlocks (w : WorldState) : List Block → List Transaction
  | [] => []
  | block :: blocks =>
      (w.mint P block).skipped block.transactions ++ skippedOfBlocks (w.applyBlock P block) blocks

def paidTo (txs : List Transaction) (a : Address) : UInt64 :=
  ((txs.filter fun tx => tx.to = a).map (·.amount)).sum

def owedBy (txs : List Transaction) (a : Address) : UInt64 :=
  ((txs.filter fun tx => tx.from = a).map fun tx => tx.amount + tx.fee).sum

variable {P} {w w' : WorldState}

theorem skipped_cons_nil {tx : Transaction} {txs : List Transaction} :
    w.skipped (tx :: txs) = [] ↔ w.executes tx = true ∧ (w.applyTx tx).skipped txs = [] := by
  rw [skipped, List.append_eq_nil_iff]
  by_cases hx : w.executes tx = true
  · simp [hx]
  · simp [hx]

theorem skipped_append (w : WorldState) (txs txs' : List Transaction) :
    w.skipped (txs ++ txs') = w.skipped txs ++ (w.applyTxs txs).skipped txs' := by
  induction txs generalizing w with
  | nil => rfl
  | cons tx txs ih => simp only [List.cons_append, skipped, ih, List.append_assoc]; rfl

theorem skipped_take {txs : List Transaction} (h : w.skipped txs = []) (k : ℕ) :
    w.skipped (txs.take k) = [] := by
  rw [← List.take_append_drop k txs, skipped_append] at h
  exact (List.append_eq_nil_iff.mp h).1

theorem skipped_singleton (tx : Transaction) : w.skipped [tx] = [] ↔ w.executes tx = true := by
  simp [skipped]

theorem paidTo_cons (tx : Transaction) (txs : List Transaction) (a : Address) :
    paidTo (tx :: txs) a = (if tx.to = a then tx.amount else 0) + paidTo txs a := by
  unfold paidTo
  by_cases ha : tx.to = a
  · simp [ha]
  · simp [ha]

theorem owedBy_cons (tx : Transaction) (txs : List Transaction) (a : Address) :
    owedBy (tx :: txs) a = (if tx.from = a then tx.amount + tx.fee else 0) + owedBy txs a := by
  unfold owedBy
  by_cases ha : tx.from = a
  · simp [ha]
  · simp [ha]

theorem balance_applyTx_eq {tx : Transaction} (h : w.executes tx = true) (a : Address) :
    (w.applyTx tx).balance a = w.balance a + (if tx.to = a then tx.amount else 0) -
      (if tx.from = a then tx.amount + tx.fee else 0) := by
  rw [balance_applyTx a h, balance_debited]
  grind

theorem balance_applyTxs {txs : List Transaction} (h : w.skipped txs = []) (a : Address) :
    (w.applyTxs txs).balance a = w.balance a + paidTo txs a - owedBy txs a := by
  induction txs generalizing w with
  | nil => simp [applyTxs, paidTo, owedBy]
  | cons tx txs ih =>
    obtain ⟨hx, hrest⟩ := skipped_cons_nil.mp h
    rw [applyTxs_cons, ih hrest, balance_applyTx_eq hx, paidTo_cons, owedBy_cons]
    grind

theorem skipped_concat_iff {txs : List Transaction} (h : w.skipped txs = []) {tx : Transaction} :
    w.skipped (txs ++ [tx]) = [] ↔
      tx.amount + tx.fee ≤ w.balance tx.from + paidTo txs tx.from - owedBy txs tx.from := by
  rw [skipped_append, h, List.nil_append, skipped_singleton, ← balance_applyTxs h]
  exact decide_eq_true_iff

theorem skipped_of_ledger (h : w.ledger = w'.ledger) (txs : List Transaction) :
    w.skipped txs = w'.skipped txs := by
  induction txs generalizing w w' with
  | nil => rfl
  | cons tx txs ih => rw [skipped, skipped, executes_of_ledger h, ih (ledger_applyTx h tx)]

theorem skippedOfBlocks_append (w : WorldState) (blocks blocks' : List Block) :
    w.skippedOfBlocks P (blocks ++ blocks') =
      w.skippedOfBlocks P blocks ++ (w.applyBlocks P blocks).skippedOfBlocks P blocks' := by
  induction blocks generalizing w with
  | nil => rfl
  | cons block blocks ih =>
    rw [List.cons_append, skippedOfBlocks, ih, skippedOfBlocks, List.append_assoc, applyBlocks_cons]

theorem skipped_subset (w : WorldState) (txs : List Transaction) : w.skipped txs ⊆ txs := by
  induction txs generalizing w with
  | nil => exact List.Subset.refl _
  | cons tx txs ih =>
    rw [skipped]
    apply List.append_subset.mpr
    constructor
    · split
      · exact List.nil_subset _
      · exact List.cons_subset_cons tx (List.nil_subset txs)
    · exact List.Subset.trans (ih _) (List.subset_cons_self tx txs)

theorem skippedOfBlocks_subset {w : WorldState} {blocks : List Block} :
    w.skippedOfBlocks P blocks ⊆ blocks.flatMap (·.transactions) := by
  induction blocks generalizing w with
  | nil => exact List.Subset.refl _
  | cons block blocks ih =>
    rw [skippedOfBlocks, List.flatMap_cons]
    apply List.append_subset.mpr
    constructor
    · exact List.Subset.trans (skipped_subset _ _) (List.subset_append_left _ _)
    · exact List.Subset.trans ih (List.subset_append_right _ _)

theorem skippedOfBlocks_of_ledger (h : w.ledger = w'.ledger) (blocks : List Block) :
    w.skippedOfBlocks P blocks = w'.skippedOfBlocks P blocks := by
  induction blocks generalizing w w' with
  | nil => rfl
  | cons block blocks ih =>
    rw [skippedOfBlocks, skippedOfBlocks, skipped_of_ledger (ledger_mint P h block),
      ih (ledger_applyBlock P h block)]

theorem supply_applyBlocks_of_supply (h : w.totalSupply ≠ 0) (blocks : List Block) :
    (w.applyBlocks P blocks).totalSupply ≠ 0 := by
  rwa [applyBlocks_flat P h, totalSupply_applyTxs]

theorem supply_applyBlocks {blocks : List Block} {root : Block} (hroot : root ∈ blocks)
    (hheight : root.header.height = 0) (w : WorldState) : (w.applyBlocks P blocks).totalSupply ≠ 0 := by
  induction blocks generalizing w with
  | nil => exact absurd hroot List.not_mem_nil
  | cons block rest ih =>
    rw [applyBlocks_cons]
    rcases List.mem_cons.mp hroot with rfl | hrest
    · apply supply_applyBlocks_of_supply
      rw [applyBlock, totalSupply_applyTxs]
      by_cases hsupply : w.totalSupply = 0
      · rw [mint, if_pos ⟨hheight, hsupply⟩]
        exact genesisState_supply P
      · rwa [mint_of_supply P hsupply]
    · exact ih hrest _

end WorldState

section Roots

def BlockDb.Rooted (db : BlockDb) : Prop :=
  ∃ val block, db.tree[u64BeBytes 0]? = some val ∧ P.deserializeBlock val = some block ∧
    block.header.height = 0

structure Node.Rooted (n : Node) : Prop where
  chain : ∃ block ∈ n.state.blocks, block.header.height = 0
  database : n.blockDb.Rooted P

variable {P}

theorem BlockDb.rooted_saveBlock (hP : P.BincodeRoundTrips) {saved : Bool} {db db' : BlockDb}
    {block : Block} (hsave : db.saveBlock P saved block = some db')
    (h : block.header.height = 0 ∨ db.Rooted P) : db'.Rooted P := by
  obtain ⟨_, val, hback, rfl⟩ := saveBlock_cases hP hsave
  rw [Rooted, Std.ExtTreeMap.getElem?_insert]
  by_cases hzero : block.header.height = 0
  · refine ⟨val, block, ?_, hback, hzero⟩
    rw [hzero, if_pos Std.ReflCmp.compare_self]
  · obtain ⟨val', root, hentry, hroot⟩ := h.resolve_left hzero
    refine ⟨val', root, ?_, hroot⟩
    rw [if_neg, hentry]
    intro heq
    have hcompare : compare block.header.height.toNat (0 : UInt64).toNat = .eq := by
      rwa [← compare_beBytes (w := 8) (by simpa using block.header.height.toNat_lt) (by decide)]
    exact hzero (UInt64.toNat_inj.mp (compare_eq_iff_eq.mp hcompare))

theorem BlockDb.Rooted.saveAll (hP : P.BincodeRoundTrips) {db : BlockDb} (h : db.Rooted P)
    (blocks : List Block) :
    (db.saveAll P blocks).Rooted P := by
  refine saveAll_invariant P ?_ h
  intro block _ db db' hsave h
  exact rooted_saveBlock hP hsave (Or.inr h)

theorem BlockDb.Rooted.load {db : BlockDb} (h : db.Rooted P) {blocks : List Block}
    (hload : db.loadAllBlocks P = some blocks) : ∃ block ∈ blocks, block.header.height = 0 := by
  obtain ⟨val, root, hentry, hback, hroot⟩ := h
  unfold loadAllBlocks at hload
  split at hload
  · rename_i decoded hdecoded
    obtain rfl := Option.some.inj hload
    refine ⟨root, List.mem_mergeSort.mpr ?_, hroot⟩
    exact mem_of_mapM_of_mem hdecoded (Std.ExtTreeMap.mem_toList_iff_getElem?_eq_some.mpr hentry) hback
  · cases hload

namespace Node

theorem Rooted.step (hP : P.BincodeRoundTrips) {n : Node} (h : n.Rooted P) (e : Event) :
    (n.step P e).Rooted P := by
  cases he : e.isRestart with
  | false =>
    have hgrows := step_grows P n he
    obtain ⟨root, hmem, hroot⟩ := h.chain
    obtain ⟨kept, _, _, hdb⟩ := hgrows.database
    constructor
    · rw [hgrows.chain]
      exact ⟨root, List.mem_append_left _ hmem, hroot⟩
    · rw [hdb]
      exact h.database.saveAll hP kept
  | true =>
    obtain ⟨saved, rfl⟩ := Event.eq_restart he
    rcases restart_cases (P := P) n saved with hsame | hstart
    · rwa [hsame]
    · obtain ⟨db, hsave, hboot⟩ | ⟨blocks, hload, hboot⟩ := start_cases hstart
      · rw [hboot]
        exact ⟨⟨Block.genesis, List.mem_singleton_self _, rfl⟩,
          BlockDb.rooted_saveBlock hP hsave (Or.inl rfl)⟩
      · rw [hboot]
        exact ⟨h.database.load hload, h.database⟩

theorem start_rooted (hP : P.BincodeRoundTrips) {saved : Bool} {i : Fin 3} {n : Node}
    (h : start P saved i .empty = some n) : n.Rooted P := by
  obtain ⟨db, hsave, rfl⟩ := start_empty h
  exact ⟨⟨Block.genesis, List.mem_singleton_self _, rfl⟩, BlockDb.rooted_saveBlock hP hsave (Or.inl rfl)⟩

end Node

end Roots

/-- What `apply_block` skips in the blocks of a step, or in the stored blocks that a restart replays. -/
def Node.skips (n : Node) : Event → List Transaction
  | .restart _ => ((n.blockDb.loadAllBlocks P).map (WorldState.new.skippedOfBlocks P)).getD []
  | e => n.state.worldState.skippedOfBlocks P (n.appended P e)

def Event.fromPeer : Event → Bool
  | .message (.newTransaction _) _ _ => true
  | .message (.newBlock _) _ _ => true
  | .message (.syncResponse _) _ _ => true
  | _ => false

theorem Node.skips_of_not_restart {P : Primitives} (n : Node) {e : Event} (he : e.isRestart = false) :
    n.skips P e = n.state.worldState.skippedOfBlocks P (n.appended P e) := by
  cases e with
  | restart saved => cases he
  | _ => rfl

/-- A node with two histories: the transactions that went into its pool, each answered with `accepted`,
and those of them that `apply_block` has skipped. -/
structure Intake where
  node : Node
  accepted : List Transaction
  skipped : List Transaction

namespace Intake

def step (c : Intake) (e : Event) : Intake where
  node := c.node.step P e
  accepted := c.accepted ++ (c.node.pushed e).toList
  skipped := c.skipped ++ (c.node.skips P e).filter fun tx => tx ∈ c.accepted

structure AcceptedExecute (c : Intake) : Prop where
  pending : c.node.state.worldState.skipped c.node.state.mempool = []
  applied : c.skipped = []
  apart : c.node.state.mempool.Pairwise fun tx tx' => tx.from = tx'.from → tx.nonce ≠ tx'.nonce

structure Alone (c : Intake) (e : Event) : Prop where
  peers : e.fromPeer = false
  database : e.isRestart = true → c.node.blockDb.loadAllBlocks P = some c.node.state.blocks

/-- The sender of a new transaction has its cost left of the balance and what is pending to and from it,
and none of what is pending from it has the nonce. -/
structure Admits (c : Intake) (e : Event) : Prop where
  affords : ∀ tx ∈ c.node.pushed e, tx.amount + tx.fee ≤ c.node.state.worldState.balance tx.from +
    WorldState.paidTo c.node.state.mempool tx.from - WorldState.owedBy c.node.state.mempool tx.from
  apart : ∀ tx ∈ c.node.pushed e, ∀ waiting ∈ c.node.state.mempool, waiting.from = tx.from →
    waiting.nonce ≠ tx.nonce

structure Settled (c : Intake) : Prop where
  root : Block.genesis ∈ c.node.state.blocks
  ledger : c.node.state.worldState.ledger = (WorldState.new.applyBlocks P c.node.state.blocks).ledger
  pool : ∀ tx ∈ c.node.state.mempool, tx ∈ c.accepted
  replays : c.skipped = [] → WorldState.new.skippedOfBlocks P c.node.state.blocks = []

variable {P} {c : Intake} {e : Event}

theorem Alone.imported (h : Alone P c e) : c.node.imported e = [] := by
  have hpeers := h.peers
  cases e with
  | message msg order saves =>
    cases msg with
    | newBlock block => cases hpeers
    | syncResponse blocks => cases hpeers
    | _ => rfl
  | _ => rfl

theorem Alone.appended (h : Alone P c e) : c.node.appended P e = (c.node.produced P e).toList := by
  rw [Node.appended, h.imported, List.nil_append]

theorem Settled.supply (h : Settled P c) : c.node.state.worldState.totalSupply ≠ 0 := by
  rw [WorldState.totalSupply_of_ledger h.ledger]
  exact WorldState.supply_applyBlocks h.root rfl _

theorem Settled.ledger_step (h : Settled P c) {blocks : List Block}
    (hchain : (c.step P e).node.state.blocks = c.node.state.blocks ++ blocks) :
    (c.step P e).node.state.worldState.ledger = (c.node.state.worldState.applyBlocks P blocks).ledger := by
  have hnext : (c.step P e).node.state.worldState.ledger =
      (WorldState.new.applyBlocks P (c.step P e).node.state.blocks).ledger := Node.step_replay h.ledger e
  rw [hnext, hchain, WorldState.applyBlocks_append]
  exact (WorldState.ledger_applyBlocks P h.ledger blocks).symm

theorem Alone.chain (h : Alone P c e) (hroot : Block.genesis ∈ c.node.state.blocks) :
    (c.step P e).node.state.blocks = c.node.state.blocks ++ (c.node.produced P e).toList := by
  cases he : e.isRestart with
  | false =>
    rw [← h.appended]
    exact (Node.step_grows P c.node he).chain
  | true =>
    have hload := h.database he
    obtain ⟨saved, rfl⟩ := Event.eq_restart he
    change (c.node.step P (.restart saved)).state.blocks = _
    rw [Node.restart_of_load (List.ne_nil_of_mem hroot) hload]
    exact (List.append_nil _).symm

theorem Settled.skips_produced (h : Settled P c) :
    c.node.state.worldState.skippedOfBlocks P (c.node.produced P e).toList ⊆ c.accepted := by
  intro tx htx
  cases hprod : c.node.produced P e with
  | none =>
    rw [hprod] at htx
    exact absurd htx List.not_mem_nil
  | some block =>
    rw [hprod] at htx
    obtain ⟨_, hblock, hmem⟩ := List.mem_flatMap.mp (WorldState.skippedOfBlocks_subset htx)
    obtain rfl := List.mem_singleton.mp hblock
    rw [Node.produced_transactions P hprod] at hmem
    exact h.pool tx (List.mem_of_mem_take hmem)

theorem Settled.pool_step (h : Settled P c) :
    ∀ tx ∈ (c.step P e).node.state.mempool, tx ∈ (c.step P e).accepted := by
  intro tx htx
  change tx ∈ (c.node.step P e).state.mempool at htx
  change tx ∈ c.accepted ++ _
  rw [List.mem_append]
  cases c.node.poolStep (P := P) e with
  | emptied hpool _ _ =>
    rw [hpool] at htx
    exact absurd htx List.not_mem_nil
  | imported hpool _ _ =>
    rw [hpool] at htx
    exact Or.inl (h.pool tx htx)
  | pushed tx' hpool _ hpushed _ =>
    rw [hpool] at htx
    rw [hpushed]
    exact (List.mem_append.mp htx).imp (h.pool tx) id

theorem Settled.replays_step (h : Settled P c) (halone : Alone P c e) (hnone : (c.step P e).skipped = []) :
    WorldState.new.skippedOfBlocks P (c.step P e).node.state.blocks = [] := by
  obtain ⟨hbefore, hskips⟩ := List.append_eq_nil_iff.mp hnone
  rw [halone.chain h.root, WorldState.skippedOfBlocks_append, h.replays hbefore, List.nil_append,
    ← WorldState.skippedOfBlocks_of_ledger h.ledger]
  cases he : e.isRestart with
  | false =>
    rw [Node.skips_of_not_restart c.node he, halone.appended, List.filter_eq_nil_iff] at hskips
    apply List.eq_nil_iff_forall_not_mem.mpr
    intro tx htx
    exact hskips tx htx (decide_eq_true (h.skips_produced htx))
  | true =>
    obtain ⟨saved, rfl⟩ := Event.eq_restart he
    rfl

theorem Settled.step (h : Settled P c) (halone : Alone P c e) : Settled P (c.step P e) where
  root := by
    rw [halone.chain h.root]
    exact List.mem_append_left _ h.root
  ledger := Node.step_replay h.ledger e
  pool := h.pool_step
  replays := h.replays_step halone

theorem Settled.skipped_produced (h : Settled P c)
    (hpending : c.node.state.worldState.skipped c.node.state.mempool = []) (e : Event) :
    c.node.state.worldState.skippedOfBlocks P (c.node.produced P e).toList = [] := by
  cases hprod : c.node.produced P e with
  | none => rfl
  | some block =>
    simp only [Option.toList_some, WorldState.skippedOfBlocks, WorldState.mint_of_supply P h.supply,
      Node.produced_transactions P hprod, WorldState.skipped_take hpending, List.append_nil]

theorem Settled.applied_step (h : Settled P c) (halone : Alone P c e) (hok : c.AcceptedExecute) :
    (c.step P e).skipped = [] := by
  have hskips : c.node.skips P e = [] := by
    cases he : e.isRestart with
    | false =>
      rw [Node.skips_of_not_restart c.node he, halone.appended]
      exact h.skipped_produced hok.pending e
    | true =>
      have hload := halone.database he
      obtain ⟨saved, rfl⟩ := Event.eq_restart he
      rw [Node.skips, hload]
      exact h.replays hok.applied
  change c.skipped ++ (c.node.skips P e).filter _ = []
  rw [hok.applied, hskips]
  rfl

theorem admits_of_not_pushed (hpushed : c.node.pushed e = none) : c.Admits e :=
  ⟨by simp [hpushed], by simp [hpushed]⟩

theorem acceptedExecute_next {pool : List Transaction} (happlied : (c.step P e).skipped = [])
    (hpool : (c.node.step P e).state.mempool = pool) :
    (c.step P e).AcceptedExecute ↔ (c.step P e).node.state.worldState.skipped pool = [] ∧
      pool.Pairwise fun tx tx' => tx.from = tx'.from → tx.nonce ≠ tx'.nonce := by
  subst hpool
  exact ⟨fun hnext => ⟨hnext.pending, hnext.apart⟩, fun hnext => ⟨hnext.1, happlied, hnext.2⟩⟩

theorem acceptedExecute_step_iff (h : Settled P c) (halone : Alone P c e) (hok : c.AcceptedExecute) :
    (c.step P e).AcceptedExecute ↔ c.Admits e := by
  have happlied := h.applied_step halone hok
  cases c.node.poolStep (P := P) e with
  | emptied hpool hpushed himported =>
    rw [acceptedExecute_next happlied hpool]
    exact iff_of_true ⟨rfl, List.Pairwise.nil⟩ (admits_of_not_pushed hpushed)
  | imported hpool hchain hpushed =>
    rw [halone.imported] at hchain
    rw [acceptedExecute_next happlied hpool, WorldState.skipped_of_ledger (h.ledger_step hchain)]
    exact iff_of_true ⟨hok.pending, hok.apart⟩ (admits_of_not_pushed hpushed)
  | pushed tx hpool hchain hpushed himported =>
    have hledger : (c.step P e).node.state.worldState.ledger = c.node.state.worldState.ledger :=
      h.ledger_step (hchain.trans (List.append_nil _).symm)
    rw [acceptedExecute_next happlied hpool, WorldState.skipped_of_ledger hledger,
      WorldState.skipped_concat_iff hok.pending, List.pairwise_append]
    constructor
    · rintro ⟨haffords, _, _, hapart⟩
      refine ⟨?_, ?_⟩
      · simpa [hpushed] using haffords
      · simpa [hpushed] using hapart
    · intro hadmits
      refine ⟨hadmits.affords tx hpushed, hok.apart, List.pairwise_singleton _ tx, ?_⟩
      simpa using hadmits.apart tx hpushed

theorem alone_of_saved (hP : P.BincodeRoundTrips) {es : List Event} (h : Node.Consistent P c.node)
    (hpeers : ∀ e ∈ es, e.fromPeer = false) (hsaves : ∀ e ∈ es, e.savesOk)
    (hlen : c.node.state.blocks.length + (Node.appends P c.node es).length ≤ 2 ^ 64) :
    AllSteps (step P) (Alone P) c es := by
  induction es generalizing c with
  | nil => trivial
  | cons e es ih =>
    rw [Node.appends, List.length_append] at hlen
    refine ⟨⟨hpeers e List.mem_cons_self, fun _ => ?_⟩, ?_⟩
    · exact BlockDb.loadAllBlocks_of_holds hP h.database h.heights.ascending
    · have hnext := h.step hP (hsaves e List.mem_cons_self) (by rw [List.length_append]; omega)
      apply ih (c := c.step P e) hnext (fun e' he' => hpeers e' (List.mem_cons_of_mem _ he'))
        (fun e' he' => hsaves e' (List.mem_cons_of_mem _ he'))
      change (c.node.step P e).state.blocks.length + _ ≤ _
      rw [h.chain hP, List.length_append]
      exact (Nat.add_assoc _ _ _).trans_le hlen

theorem start_settled {saved : Bool} {i : Fin 3} {n : Node} (hstart : Node.start P saved i .empty = some n) :
    Settled P ⟨n, [], []⟩ ∧ AcceptedExecute ⟨n, [], []⟩ := by
  have hledger := (Node.start_traced hstart).ledger
  obtain ⟨db, _, rfl⟩ := Node.start_empty hstart
  constructor
  · exact ⟨List.mem_singleton_self _, hledger, fun _ htx => absurd htx List.not_mem_nil, fun _ => rfl⟩
  · exact ⟨rfl, rfl, List.Pairwise.nil⟩

theorem accepted_execute_iff (P : Primitives) {saved : Bool} {i : Fin 3} {n : Node}
    (hstart : Node.start P saved i .empty = some n) {es : List Event}
    (halone : AllSteps (step P) (Alone P) ⟨n, [], []⟩ es) :
    AllStates (step P) AcceptedExecute ⟨n, [], []⟩ es ↔ AllSteps (step P) Admits ⟨n, [], []⟩ es := by
  obtain ⟨hsettled, hok⟩ := start_settled hstart
  apply allStates_iff_allSteps _ _ hsettled hok halone
  · exact fun c e h halone => h.step halone
  · exact fun c e h halone hok => acceptedExecute_step_iff h halone hok

section Runs

instance (c : Intake) (e : Event) : Decidable (c.Admits e) :=
  decidable_of_iff
    ((∀ tx ∈ c.node.pushed e, tx.amount + tx.fee ≤ c.node.state.worldState.balance tx.from +
        WorldState.paidTo c.node.state.mempool tx.from - WorldState.owedBy c.node.state.mempool tx.from) ∧
      ∀ tx ∈ c.node.pushed e, ∀ waiting ∈ c.node.state.mempool, waiting.from = tx.from →
        waiting.nonce ≠ tx.nonce)
    ⟨fun h => ⟨h.1, h.2⟩, fun h => ⟨h.affords, h.apart⟩⟩

noncomputable def payment (i : ℕ) (amount : UInt64) : RpcRequest :=
  .sendTx ⟨(WorldState.treasuryAddr .sample).hex, (sampleAddr i).hex, amount, 1, 1, none, none⟩

def answered : List Event := List.replicate 4 (.rpc 0 ⟨5, 5⟩)

noncomputable def payThenLead (requests : List RpcRequest) : List Event :=
  requests.map .request ++ requests.flatMap (fun _ => answered) ++ [.startProducer, .tick 10 true]

theorem accepted_execute_payment : AllStates (step .sample) AcceptedExecute ⟨Node.fresh .sample 1, [], []⟩
    (payThenLead [payment 7 500000000, .faucet (sampleAddr 8).hex] ++ [.restart true]) := by
  apply (accepted_execute_iff .sample (Node.start_fresh sample_roundTrips 1) ?_).mpr
  · decide +kernel
  · have hstart := Node.start_consistent sample_roundTrips (Node.start_fresh sample_roundTrips 1)
    apply alone_of_saved sample_roundTrips hstart.1
    · decide
    · simp [payThenLead, answered, Event.savesOk]
    · decide +kernel

theorem accepted_then_skipped : ∃ n, Node.start .sample true 1 .empty = some n ∧
    (∀ e ∈ payThenLead [payment 7 500000000, payment 8 500000000], e.fromPeer = false) ∧
    ¬ AllStates (step .sample) AcceptedExecute ⟨n, [], []⟩
      (payThenLead [payment 7 500000000, payment 8 500000000]) := by
  refine ⟨_, Node.start_fresh sample_roundTrips 1, by decide, ?_⟩
  intro h
  exact absurd h.last.applied (by decide +kernel)

end Runs

end Intake

namespace Node

def TakesInOrder (n : Node) (e : Event) (block : Block) : Prop :=
  block.transactions ++ (n.step P e).state.mempool = n.state.mempool ∧ block.transactions.length ≤ 100

variable {P}

theorem mempool_of_produced {n : Node} {e : Event} {block : Block} (h : n.produced P e = some block) :
    (n.step P e).state.mempool = [] := by
  cases e with
  | tick now saved =>
    obtain ⟨hnone, _⟩ | ⟨round, tip, _, _, _, _, htick⟩ := tick_cases P n now saved
    · rw [h] at hnone
      cases hnone
    · change (n.tick P now saved).1.state.mempool = []
      rw [htick]
      rfl
  | _ => cases h

theorem takes_in_order_iff (P : Primitives) {n : Node} {e : Event} {block : Block}
    (h : n.produced P e = some block) :
    n.TakesInOrder P e block ↔ n.state.mempool.length ≤ 100 := by
  rw [TakesInOrder, mempool_of_produced h, produced_transactions P h, List.append_nil]
  constructor
  · rintro ⟨hall, hlength⟩
    rwa [hall] at hlength
  · intro hlength
    rw [List.take_of_length_le hlength]
    exact ⟨rfl, hlength⟩

section Runs

def small : Transaction := Transaction.new 5 (sampleAddr 6) (sampleAddr 7) 0 0 1

noncomputable def crowded (k : ℕ) : Node :=
  run (step .sample) (fresh .sample 1)
    (List.replicate k (.message (.newTransaction small) .insertion fun _ => true) ++ [.startProducer])

theorem takes_in_order_two : ∃ block, (crowded 2).produced .sample (.tick 10 true) = some block ∧
    ((crowded 2).TakesInOrder .sample (.tick 10 true) block ↔ (crowded 2).state.mempool.length ≤ 100) :=
  ⟨_, rfl, takes_in_order_iff .sample rfl⟩

theorem last_of_101_lost : ∃ block, (crowded 101).produced .sample (.tick 10 true) = some block ∧
    ¬ (crowded 101).TakesInOrder .sample (.tick 10 true) block := by
  refine ⟨_, rfl, ?_⟩
  rintro ⟨hall, _⟩
  have hlength := congrArg List.length hall
  exact absurd hlength (by decide +kernel)

end Runs

end Node

end VelaNetwork
