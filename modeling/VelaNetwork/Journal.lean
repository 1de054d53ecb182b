import VelaNetwork.Replay
import VelaNetwork.Library.Logs

namespace VelaNetwork

open Library.Logs Library.Runs

variable (P : Primitives)

def acceptedWrites (tip : UInt64) (saves : ℕ → Bool) : List Block → List (Block × Bool)
  | [] => []
  | block :: rest =>
    if block.header.height = tip + 1 then
      (block, saves 0) :: acceptedWrites block.header.height (fun i => saves (i + 1)) rest
    else acceptedWrites tip (fun i => saves (i + 1)) rest

def kept (writes : List (Block × Bool)) : List Block := (writes.filter (·.2)).map (·.1)

def Node.writes (n : Node) : Event → List (Block × Bool)
  | .message (.newBlock block) _ saves => acceptedWrites n.tipHeight saves [block]
  | .message (.syncResponse blocks) _ saves => acceptedWrites n.tipHeight saves blocks
  | .tick now saved => (n.produced P (.tick now saved)).toList.map fun block => (block, saved)
  | _ => []

section Writes

variable {P}

theorem acceptedWrites_blocks (tip : UInt64) (saves : ℕ → Bool) (blocks : List Block) :
    (acceptedWrites tip saves blocks).map (·.1) = Node.accepted tip blocks := by
  induction blocks generalizing tip saves with
  | nil => rfl
  | cons block rest ih =>
    rw [acceptedWrites, Node.accepted]
    split
    · rw [List.map_cons, ih]
    · exact ih _ _

theorem kept_append (writes writes' : List (Block × Bool)) :
    kept (writes ++ writes') = kept writes ++ kept writes' := by
  rw [kept, List.filter_append, List.map_append]
  rfl

theorem kept_sublist (writes : List (Block × Bool)) : (kept writes).Sublist (writes.map (·.1)) :=
  List.filter_sublist.map _

theorem kept_eq_map {writes : List (Block × Bool)} (h : ∀ w ∈ writes, w.2 = true) :
    kept writes = writes.map (·.1) := by
  rw [kept, List.filter_eq_self.mpr h]

theorem mem_kept {writes : List (Block × Bool)} {block : Block} (h : block ∈ kept writes) :
    (block, true) ∈ writes := by
  obtain ⟨⟨block', saved⟩, hw, rfl⟩ := List.mem_map.mp h
  obtain ⟨hmem, hsaved⟩ := List.mem_filter.mp hw
  obtain rfl : saved = true := hsaved
  exact hmem

theorem append_database (saved : Bool) (n : Node) (block : Block) :
    (n.append P saved block).blockDb = n.blockDb.saveAll P (kept [(block, saved)]) := by
  cases saved with
  | true => rfl
  | false =>
    change (n.blockDb.saveBlock P false block).getD n.blockDb = n.blockDb
    rw [BlockDb.saveBlock_failed]
    rfl

theorem saveAll_append (db : BlockDb) (blocks blocks' : List Block) :
    db.saveAll P (blocks ++ blocks') = (db.saveAll P blocks).saveAll P blocks' := List.foldl_append

theorem importBlocks_database (saves : ℕ → Bool) (n : Node) (blocks : List Block) :
    (n.importBlocks P saves blocks).blockDb = n.blockDb.saveAll P
      (kept (acceptedWrites n.tipHeight saves blocks)) := by
  induction blocks generalizing n saves with
  | nil => rfl
  | cons block rest ih =>
    rw [Node.importBlocks, acceptedWrites]
    split
    · rw [ih, append_database, Node.append_tipHeight, ← saveAll_append, ← kept_append]
      rfl
    · exact ih _ n

namespace Node

theorem writes_blocks (n : Node) (e : Event) : (n.writes P e).map (·.1) = n.appended P e := by
  cases e with
  | message msg order saves =>
    cases msg with
    | newBlock block => exact (acceptedWrites_blocks _ _ _).trans (List.append_nil _).symm
    | syncResponse blocks => exact (acceptedWrites_blocks _ _ _).trans (List.append_nil _).symm
    | _ => rfl
  | tick now saved =>
    change ((n.produced P (.tick now saved)).toList.map fun block => (block, saved)).map (·.1) = _
    rw [List.map_map]
    exact List.map_id _
  | _ => rfl

theorem step_database (n : Node) {e : Event} (he : e.isRestart = false) :
    (n.step P e).blockDb = n.blockDb.saveAll P (kept (n.writes P e)) := by
  cases e with
  | message msg order saves =>
    cases msg with
    | newBlock block =>
      rw [step_newBlock]
      exact importBlocks_database saves n [block]
    | consensusVote vote => rw [step_consensusVote]; rfl
    | consensusPropose block => rw [step_consensusPropose]; rfl
    | syncResponse blocks => exact importBlocks_database saves n blocks
    | _ => rfl
  | requestSync => rw [step_requestSync]; rfl
  | startProducer =>
    obtain ⟨round, hround⟩ := step_startProducer P n
    rw [hround]
    rfl
  | tick now saved =>
    change (n.tick P now saved).1.blockDb = n.blockDb.saveAll P
      (kept ((n.produced P (.tick now saved)).toList.map _))
    obtain ⟨hnone, round, htick⟩ | ⟨round, tip, _, _, _, hsome, htick⟩ := tick_cases P n now saved
    · rw [htick, hnone]
      rfl
    · rw [htick, hsome]
      exact append_database saved n.drainMempool (n.newBlock P now tip round)
  | rpc i now =>
    obtain ⟨_, hsame⟩ | ⟨task, rpc, _, hstep, _⟩ := step_rpc P n i now
    · rw [hsame]; rfl
    · rw [hstep]; rfl
  | request req => rfl
  | restart saved => cases he

end Node

end Writes

structure Journal where
  node : Node
  writes : List (Block × Bool)

namespace Journal

def step (c : Journal) (e : Event) : Journal where
  node := c.node.step P e
  writes := if e.isRestart then [] else c.writes ++ c.node.writes P e

def StoredPrefix (c : Journal) : Prop :=
  ∃ stored, c.node.blockDb.loadAllBlocks P = some stored ∧ stored <+: c.node.state.blocks ∧
    Contiguous stored ∧
    ∀ saved, (c.node.step P (.restart saved)).state.blocks = stored ∧
      (c.node.step P (.restart saved)).state.worldState = WorldState.new.applyBlocks P stored

structure Gapless (c : Journal) : Prop where
  ordered : c.writes.Pairwise fun w w' => w'.2 = true → w.2 = true
  unwrapped : ∀ w ∈ c.writes, w.2 = true → w.1.header.height ≠ 0

/-- The chain is `base`, which the last start has loaded, and what was appended since; the database has
what was written of it. -/
structure Continues (base : List Block) (c : Journal) : Prop where
  nonempty : base ≠ []
  chain : c.node.state.blocks = base ++ c.writes.map (·.1)
  database : c.node.blockDb.Holds P (base ++ kept c.writes)

variable {P} {c : Journal} {base : List Block}

theorem Gapless.kept_prefix (h : c.Gapless) : kept c.writes <+: c.writes.map (·.1) :=
  (filter_prefix_of_pairwise h.ordered).map _

theorem Continues.chain_ne_nil (h : Continues P base c) : c.node.state.blocks ≠ [] := by
  rw [h.chain]
  exact List.append_ne_nil_of_left_ne_nil h.nonempty _

theorem Continues.restart (hP : P.BincodeRoundTrips) (h : Continues P base c)
    (hstored : Ascending (base ++ kept c.writes)) (saved : Bool) : c.node.step P (.restart saved) =
      Node.boot P c.node.validatorIndex c.node.blockDb (base ++ kept c.writes) := by
  have hne : base ++ kept c.writes ≠ [] := List.append_ne_nil_of_left_ne_nil h.nonempty _
  exact Node.restart_of_holds hP hne h.database hstored saved

theorem Continues.storedPrefix (hP : P.BincodeRoundTrips) (h : Continues P base c)
    (hstored : Contiguous (base ++ kept c.writes)) (hgapless : c.Gapless) : c.StoredPrefix P := by
  refine ⟨_, BlockDb.loadAllBlocks_of_holds hP h.database hstored.ascending, ?_, hstored, fun saved => ?_⟩
  · rw [h.chain]
    exact (List.prefix_append_right_inj base).mpr hgapless.kept_prefix
  · rw [h.restart hP hstored.ascending]
    exact ⟨rfl, rfl⟩

theorem step_writes (c : Journal) {e : Event} (he : e.isRestart = false) :
    (c.step P e).writes = c.writes ++ c.node.writes P e := by
  change (if e.isRestart = true then [] else _) = _
  rw [he]
  rfl

theorem Continues.step_chain (h : Continues P base c) {e : Event} (he : e.isRestart = false) :
    (c.step P e).node.state.blocks = base ++ (c.step P e).writes.map (·.1) := by
  rw [step_writes c he, List.map_append, Node.writes_blocks, ← List.append_assoc, ← h.chain]
  exact (Node.step_grows P c.node he).chain

theorem Continues.step (hP : P.BincodeRoundTrips) (h : Continues P base c) {e : Event}
    (he : e.isRestart = false) (hstored : Ascending (base ++ kept (c.step P e).writes)) :
    Continues P base (c.step P e) := by
  refine ⟨h.nonempty, h.step_chain he, ?_⟩
  rw [step_writes c he, kept_append, ← List.append_assoc] at hstored ⊢
  change (c.node.step P e).blockDb.Holds P _
  rw [Node.step_database c.node he]
  exact BlockDb.holds_saveAll hP h.database hstored

theorem Continues.step_restart (hP : P.BincodeRoundTrips) (h : Continues P base c)
    (hstored : Ascending (base ++ kept c.writes)) (saved : Bool) :
    Continues P (base ++ kept c.writes) (c.step P (.restart saved)) := by
  have hnode : (c.step P (.restart saved)).node =
      Node.boot P c.node.validatorIndex c.node.blockDb (base ++ kept c.writes) :=
    h.restart hP hstored saved
  refine ⟨List.append_ne_nil_of_left_ne_nil h.nonempty _, ?_, ?_⟩
  · rw [hnode]
    exact (List.append_nil _).symm
  · rw [hnode]
    change c.node.blockDb.Holds P (base ++ kept c.writes ++ [])
    rw [List.append_nil]
    exact h.database

theorem follows_of_prefix {tip : UInt64} {blocks blocks' : List Block} (h : Follows tip blocks)
    (hfront : blocks' <+: blocks) :
    Follows tip blocks' := by
  induction blocks generalizing tip blocks' with
  | nil =>
    rw [List.prefix_nil.mp hfront]
    trivial
  | cons block rest ih =>
    cases blocks' with
    | nil => trivial
    | cons block' rest' =>
      obtain ⟨rfl, hrest⟩ := List.cons_prefix_cons.mp hfront
      exact ⟨h.1, ih h.2 hrest⟩

theorem Continues.contiguous_step (h : Continues P base c) (hstored : Contiguous (base ++ kept c.writes))
    {e : Event} (he : e.isRestart = false) (hgapless : (c.step P e).Gapless) :
    Contiguous (base ++ kept (c.step P e).writes) := by
  obtain ⟨hordered, hunwrapped⟩ := hgapless
  rw [step_writes c he] at hordered hunwrapped ⊢
  obtain ⟨_, hnew, hafter⟩ := List.pairwise_append.mp hordered
  rw [kept_append, ← List.append_assoc]
  -- Writes go on only while the database has the whole chain.
  by_cases hall : ∀ w ∈ c.writes, w.2 = true
  · rw [kept_eq_map hall, ← h.chain] at hstored ⊢
    obtain ⟨tip, htip, hfollows⟩ := Node.tip_follows P h.chain_ne_nil e
    rw [← Node.writes_blocks] at hfollows
    apply contiguous_append_of_nonzero hstored htip
    · exact follows_of_prefix hfollows ((filter_prefix_of_pairwise hnew).map _)
    · intro block hblock
      exact hunwrapped _ (List.mem_append_right _ (mem_kept hblock)) rfl
  · have hnone : kept (c.node.writes P e) = [] := by
      rw [List.eq_nil_iff_forall_not_mem]
      intro block hblock
      exact hall fun w hw => hafter w hw _ (mem_kept hblock) rfl
    rw [hnone, List.append_nil]
    exact hstored

def Sound (P : Primitives) (c : Journal) : Prop :=
  ∃ base, Continues P base c ∧ Contiguous (base ++ kept c.writes)

theorem Sound.step (hP : P.BincodeRoundTrips) (h : Sound P c) {e : Event} (hgapless : (c.step P e).Gapless) :
    Sound P (c.step P e) := by
  obtain ⟨base, hbase, hstored⟩ := h
  cases he : e.isRestart with
  | false =>
    have hnext := hbase.contiguous_step hstored he hgapless
    exact ⟨base, hbase.step hP he hnext.ascending, hnext⟩
  | true =>
    obtain ⟨saved, rfl⟩ := Event.eq_restart he
    refine ⟨_, hbase.step_restart hP hstored.ascending saved, ?_⟩
    change Contiguous (base ++ kept c.writes ++ [])
    rwa [List.append_nil]

theorem start_sound (hP : P.BincodeRoundTrips) {saved : Bool} {i : Fin 3} {n : Node}
    (h : Node.start P saved i .empty = some n) : Sound P ⟨n, []⟩ ∧ Contiguous n.state.blocks := by
  have hsaved : saved = true := by
    obtain ⟨db, hsave, _⟩ := Node.start_empty h
    exact (BlockDb.saveBlock_cases hP hsave).1
  subst hsaved
  obtain ⟨hn, _⟩ := Node.start_consistent hP h
  have hstored : n.state.blocks ++ kept [] = n.state.blocks := List.append_nil _
  refine ⟨⟨n.state.blocks, ⟨hn.nonempty, hstored.symm, ?_⟩, ?_⟩, hn.heights⟩
  · rw [hstored]
    exact hn.database
  · rw [hstored]
    exact hn.heights

theorem storedPrefix_run (hP : P.BincodeRoundTrips) {es : List Event} (h : Sound P c)
    (hgapless : AllStates (step P) Gapless c es) : AllStates (step P) (StoredPrefix P) c es := by
  have hnext : AllSteps (step P) (fun c e => (c.step P e).Gapless) c es :=
    allSteps_of_allStates (fun _ _ (h : True) _ => h) (fun _ _ _ (_ : True) _ hnext => hnext) trivial
      (allSteps_of_forall fun _ _ => trivial) hgapless
  have hsound : AllStates (step P) (Sound P) c es :=
    invariant (fun _ _ h hgapless => h.step hP hgapless) h hnext
  intro es' hes
  obtain ⟨base, hbase, hstored⟩ := hsound es' hes
  exact hbase.storedPrefix hP hstored (hgapless es' hes)

section Bounded

theorem gapless_of_stored (hP : P.BincodeRoundTrips) (h : Continues P base c)
    (hchain : Contiguous c.node.state.blocks) (hstored : c.StoredPrefix P) : c.Gapless := by
  have hascending := hchain.ascending
  rw [h.chain] at hascending
  obtain ⟨_, hwrites, habove⟩ := List.pairwise_append.mp hascending
  obtain ⟨stored, hload, hfront, _⟩ := hstored
  have hkept : Ascending (base ++ kept c.writes) :=
    hascending.sublist ((kept_sublist c.writes).append_left base)
  rw [BlockDb.loadAllBlocks_of_holds hP h.database hkept] at hload
  obtain rfl := Option.some.inj hload
  rw [h.chain, List.prefix_append_right_inj] at hfront
  constructor
  · apply pairwise_of_filter_prefix (hwrites.imp _) hfront
    rintro b b' hlt rfl
    exact absurd hlt (UInt64.lt_irrefl _)
  · intro w hw _ hzero
    have hlt := habove (base.head h.nonempty) (List.head_mem h.nonempty) w.1 (List.mem_map_of_mem hw)
    rw [hzero] at hlt
    exact UInt64.not_lt_zero hlt

theorem Continues.contiguous_chain (h : Continues P base c) (hchain : Contiguous c.node.state.blocks)
    {e : Event} (he : e.isRestart = false)
    (hlen : (c.node.state.blocks ++ c.node.appended P e).length ≤ 2 ^ 64) :
    Contiguous (c.step P e).node.state.blocks := by
  change Contiguous (c.node.step P e).state.blocks
  obtain ⟨tip, htip, hfollows⟩ := Node.tip_follows P h.chain_ne_nil e
  rw [(Node.step_grows P c.node he).chain]
  exact contiguous_append hchain htip hfollows hlen

theorem Sound.step_bounded (hP : P.BincodeRoundTrips) (h : Sound P c)
    (hchain : Contiguous c.node.state.blocks) {e : Event}
    (hlen : c.node.state.blocks.length + (c.node.appended P e).length ≤ 2 ^ 64)
    (hstored : (c.step P e).StoredPrefix P) :
    (c.step P e).Gapless ∧ Contiguous (c.step P e).node.state.blocks ∧
      (c.step P e).node.state.blocks.length ≤ c.node.state.blocks.length + (c.node.appended P e).length := by
  obtain ⟨base, hbase, hkept⟩ := h
  cases he : e.isRestart with
  | false =>
    have hnext := hbase.contiguous_chain hchain he (by rwa [List.length_append])
    have hascending := hnext.ascending
    rw [hbase.step_chain he] at hascending
    have hcontinues := hbase.step hP he (hascending.sublist ((kept_sublist _).append_left base))
    refine ⟨gapless_of_stored hP hcontinues hnext hstored, hnext, ?_⟩
    change (c.node.step P e).state.blocks.length ≤ _
    rw [(Node.step_grows P c.node he).chain, List.length_append]
  | true =>
    obtain ⟨saved, rfl⟩ := Event.eq_restart he
    have hloaded := (hbase.step_restart hP hkept.ascending saved).chain
    rw [show (c.step P (.restart saved)).writes = [] from rfl, List.map_nil, List.append_nil] at hloaded
    refine ⟨⟨List.Pairwise.nil, fun w hw => absurd hw List.not_mem_nil⟩, ?_, ?_⟩
    · rw [hloaded]
      exact hkept
    · rw [hloaded, hbase.chain]
      exact Nat.le_add_right_of_le ((kept_sublist c.writes).append_left base).length_le

theorem gapless_run (hP : P.BincodeRoundTrips) {es : List Event} (h : Sound P c) (hgapless : c.Gapless)
    (hchain : Contiguous c.node.state.blocks)
    (hlen : c.node.state.blocks.length + (Node.appends P c.node es).length ≤ 2 ^ 64)
    (hstored : AllStates (step P) (StoredPrefix P) c es) : AllStates (step P) Gapless c es := by
  induction es generalizing c with
  | nil => rwa [allStates_nil]
  | cons e es ih =>
    obtain ⟨_, hrest⟩ := (allStates_cons _ c e es).mp hstored
    rw [Node.appends, List.length_append] at hlen
    obtain ⟨hnext, hcontiguous, hgrown⟩ := h.step_bounded hP hchain (by omega) hrest.first
    refine (allStates_cons _ c e es).mpr ⟨hgapless, ih (h.step hP hnext) hnext hcontiguous ?_ hrest⟩
    change (c.step P e).node.state.blocks.length + (Node.appends P (c.node.step P e) es).length ≤ 2 ^ 64
    omega

end Bounded

theorem stored_prefix_iff (P : Primitives) (hP : P.BincodeRoundTrips) {saved : Bool} {i : Fin 3} {n : Node}
    (hstart : Node.start P saved i .empty = some n) (es : List Event) :
    (AllStates (step P) Gapless ⟨n, []⟩ es → AllStates (step P) (StoredPrefix P) ⟨n, []⟩ es) ∧
      ((Node.appends P n es).length < 2 ^ 64 →
        AllStates (step P) (StoredPrefix P) ⟨n, []⟩ es → AllStates (step P) Gapless ⟨n, []⟩ es) := by
  obtain ⟨hsound, hchain⟩ := start_sound hP hstart
  refine ⟨storedPrefix_run hP hsound, ?_⟩
  intro hcount
  have hlen : n.state.blocks.length = 1 := by
    obtain ⟨db, _, rfl⟩ := Node.start_empty hstart
    rfl
  refine gapless_run hP hsound ⟨List.Pairwise.nil, fun w hw => absurd hw List.not_mem_nil⟩ hchain ?_
  change n.state.blocks.length + (Node.appends P n es).length ≤ 2 ^ 64
  omega

section Runs

instance (c : Journal) : Decidable c.Gapless :=
  decidable_of_iff ((c.writes.Pairwise fun w w' => w'.2 ≤ w.2) ∧
    ∀ w ∈ c.writes, w.2 = true → w.1.header.height ≠ 0)
      ⟨fun h => ⟨h.1, h.2⟩, fun h => ⟨h.ordered, h.unwrapped⟩⟩

noncomputable def synced (saves : ℕ → Bool) : List Event :=
  [.message (.syncResponse [Block.new .sample 1 1 (Block.genesis.hash .sample) [] Address.zero 1,
    Block.new .sample 2 2 (Block.genesis.hash .sample) [] Address.zero 2]) .insertion saves]

theorem stored_prefix_lastFailed : AllStates (step .sample) (StoredPrefix .sample) ⟨Node.fresh .sample 1, []⟩
    (synced (fun i => i = 0) ++ [.restart true]) := by
  apply (stored_prefix_iff .sample sample_roundTrips (Node.start_fresh sample_roundTrips 1) _).1
  rw [synced, List.cons_append, List.nil_append, allStates_cons, allStates_cons, allStates_nil]
  decide +kernel

theorem hole_in_database : ∃ n, Node.start .sample true 1 .empty = some n ∧
    ¬ AllStates (step .sample) (StoredPrefix .sample) ⟨n, []⟩ (synced fun i => i = 1) := by
  refine ⟨_, Node.start_fresh sample_roundTrips 1, ?_⟩
  intro h
  obtain ⟨hsound, hchain⟩ := start_sound sample_roundTrips (Node.start_fresh sample_roundTrips 1)
  have hgapless :=
    gapless_run sample_roundTrips hsound ⟨List.Pairwise.nil, fun w hw => absurd hw List.not_mem_nil⟩
    hchain (by decide +kernel) h
  exact absurd hgapless.last (by decide +kernel)

end Runs

end Journal

end VelaNetwork
