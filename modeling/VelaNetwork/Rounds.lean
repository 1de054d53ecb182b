import VelaNetwork.NoFork

namespace VelaNetwork

open Library.Logs Library.Runs

variable (P : Primitives)

def RoundsIncrease (blocks : List Block) : Prop := blocks.IsChain fun b b' => b.header.round < b'.header.round

def BuildsOn (parent child : Block) : Prop :=
  child.header.parentHash = parent.hash P ∧ parent.header.height < child.header.height

def Climbs (b b' : Block) : Prop := b.header.round < b'.header.round ∧ b.header.height < b'.header.height

structure Climbing (blocks : List Block) : Prop where
  linked : blocks.IsChain Climbs
  bounded : ∀ b ∈ blocks, b.header.height ≤ b.header.round

section Chains

variable {P} {blocks blocks' : List Block} {tip : Block}

instance : Trans Climbs Climbs Climbs :=
  ⟨fun h h' => ⟨UInt64.lt_trans h.1 h'.1, UInt64.lt_trans h.2 h'.2⟩⟩

theorem Climbing.sublist (h : Climbing blocks) (hsub : blocks'.Sublist blocks) : Climbing blocks' :=
  ⟨h.linked.sublist hsub, fun b hb => h.bounded b (hsub.subset hb)⟩

theorem Climbing.roundsIncrease (h : Climbing blocks) : RoundsIncrease blocks := h.linked.imp fun _ _ h => h.1

theorem Climbing.ascending (h : Climbing blocks) : Ascending blocks :=
  (List.isChain_iff_pairwise.mp h.linked).imp fun h => h.2

theorem height_succ_of_round_lt {block : Block} (hbound : tip.header.height ≤ tip.header.round)
    (hround : tip.header.round < block.header.round) (hheight : block.header.height = tip.header.height + 1) :
    tip.header.height < block.header.height ∧ block.header.height ≤ block.header.round := by
  have htop := block.header.round.toNat_lt
  rw [UInt64.le_iff_toNat_le] at hbound
  rw [UInt64.lt_iff_toNat_lt] at hround
  rw [hheight, UInt64.lt_iff_toNat_lt, UInt64.le_iff_toNat_le, UInt64.toNat_add, UInt64.toNat_one]
  omega

theorem climbing_cons (hbound : tip.header.height ≤ tip.header.round)
    (hfollows : Follows tip.header.height blocks) (hrounds : RoundsIncrease (tip :: blocks)) :
    Climbing (tip :: blocks) := by
  induction blocks generalizing tip with
  | nil =>
    refine ⟨List.isChain_singleton tip, ?_⟩
    intro b hb
    rwa [List.mem_singleton.mp hb]
  | cons block rest ih =>
    obtain ⟨hheight, hfollows⟩ := hfollows
    obtain ⟨hround, hrounds⟩ := List.isChain_cons_cons.mp hrounds
    obtain ⟨hlt, hle⟩ := height_succ_of_round_lt hbound hround hheight
    obtain ⟨hlinked, hbounded⟩ := ih hle hfollows hrounds
    refine ⟨List.isChain_cons_cons.mpr ⟨⟨hround, hlt⟩, hlinked⟩, ?_⟩
    intro b hb
    rcases List.mem_cons.mp hb with rfl | hb
    · exact hbound
    · exact hbounded b hb

theorem Climbing.append (h : Climbing blocks) (htip : blocks.getLast? = some tip)
    (hfollows : Follows tip.header.height blocks') (hrounds : RoundsIncrease (tip :: blocks')) :
    Climbing (blocks ++ blocks') := by
  have hnew := climbing_cons (h.bounded tip (List.mem_of_getLast? htip)) hfollows hrounds
  refine ⟨(isChain_append_of_getLast? h.linked htip).mpr hnew.linked, ?_⟩
  intro b hb
  rcases List.mem_append.mp hb with hold | hnew'
  · exact h.bounded b hold
  · exact hnew.bounded b (List.mem_cons_of_mem _ hnew')

end Chains

namespace Node

structure Rising (n : Node) : Prop where
  chain : Climbing n.state.blocks
  database : ∃ kept, kept ≠ [] ∧ kept.Sublist n.state.blocks ∧ n.blockDb.Holds P kept

variable {P}

theorem Rising.nonempty {n : Node} (h : Rising P n) : n.state.blocks ≠ [] := by
  obtain ⟨kept, hne, hsub, _⟩ := h.database
  rintro hnil
  rw [hnil, List.sublist_nil] at hsub
  exact hne hsub

theorem Rising.restart (hP : P.BincodeRoundTrips) {n : Node} (h : Rising P n) (saved : Bool) :
    Rising P (n.step P (.restart saved)) := by
  obtain ⟨kept, hne, hsub, hholds⟩ := h.database
  have hkept := h.chain.sublist hsub
  rw [restart_of_holds hP hne hholds hkept.ascending]
  exact ⟨hkept, kept, hne, List.Sublist.refl kept, hholds⟩

theorem Rising.step (hP : P.BincodeRoundTrips) {n : Node} (h : Rising P n) {e : Event}
    (hrounds : ∀ tip ∈ n.state.blocks.getLast?, RoundsIncrease (tip :: n.appended P e)) :
    Rising P (n.step P e) := by
  cases he : e.isRestart with
  | true =>
    obtain ⟨saved, rfl⟩ := Event.eq_restart he
    exact h.restart hP saved
  | false =>
    have hgrows := step_grows P n he
    obtain ⟨tip, htip, hfollows⟩ := tip_follows P h.nonempty e
    have hchain : Climbing (n.step P e).state.blocks := by
      rw [hgrows.chain]
      exact h.chain.append htip hfollows (hrounds _ htip)
    obtain ⟨kept, hne, hsub, hholds⟩ := h.database
    obtain ⟨kept', hsub', _, hdb⟩ := hgrows.database
    have hall : (kept ++ kept').Sublist (n.step P e).state.blocks := by
      rw [hgrows.chain]
      exact hsub.append hsub'
    refine ⟨hchain, kept ++ kept', List.append_ne_nil_of_left_ne_nil hne _, hall, ?_⟩
    rw [hdb]
    exact BlockDb.holds_saveAll hP hholds (hchain.sublist hall).ascending

theorem fresh_rising (hP : P.BincodeRoundTrips) (i : Fin 3) : Rising P (fresh P i) := by
  have hgenesis : Climbing [Block.genesis] := by
    refine ⟨List.isChain_singleton _, ?_⟩
    intro b hb
    rw [List.mem_singleton.mp hb]
    exact UInt64.le_refl _
  exact ⟨hgenesis, [Block.genesis], List.cons_ne_nil _ _, List.Sublist.refl _, BlockDb.holds_genesis hP⟩

theorem produced_origin {n : Node} {e : Event} {block : Block} (h : n.produced P e = some block) :
    ∃ round tip, n.round = some round ∧ n.state.blocks.getLast? = some tip ∧
      block.header.parentHash = tip.hash P ∧ block.header.round = round := by
  cases e with
  | tick now saved =>
    obtain ⟨hnone, _⟩ | ⟨round, tip, hround, _, htip, hsome, _⟩ := tick_cases P n now saved
    · rw [h] at hnone
      cases hnone
    · obtain rfl := Option.some.inj (h.symm.trans hsome)
      exact ⟨round, tip, hround, htip, rfl, rfl⟩
  | _ => cases h

end Node

namespace Cluster

def RoundsRise (c : Cluster) : Prop := ∀ i, RoundsIncrease (c.node i).state.blocks

/-- The counter of a leader is ahead of its tip when it builds on it, and a block that is imported behind
another one than its parent is of a later round than that. -/
structure RoundsAhead (c : Cluster) (x : Fin 3 × Event) : Prop where
  counter : ((c.node x.1).produced P x.2).isSome → ∀ round ∈ (c.node x.1).round,
    ∀ tip ∈ (c.node x.1).state.blocks.getLast?, tip.header.round < round
  imported : ∀ tip ∈ (c.node x.1).state.blocks.getLast?,
    (tip :: (c.node x.1).imported x.2).IsChain fun b b' => BuildsOn P b b' ∨ b.header.round < b'.header.round

def Lineage (c : Cluster) : Prop :=
  ∀ b ∈ c.known, b = Block.genesis ∨
    ∃ parent ∈ c.known, b.header.parentHash = parent.hash P ∧ parent.header.round < b.header.round

structure Ordered (c : Cluster) : Prop extends Sourced P c where
  rising : ∀ i, (c.node i).Rising P
  lineage : c.Lineage P

variable {P} {c : Cluster} {x : Fin 3 × Event}

theorem Lineage.round_lt (h : c.Lineage P) (hfree : CollisionFree P c.known) {b b' : Block} (hb : b ∈ c.known)
    (hb' : b' ∈ c.known) (hbuilds : BuildsOn P b b') : b.header.round < b'.header.round := by
  obtain ⟨hparent, hheight⟩ := hbuilds
  rcases h b' hb' with rfl | ⟨parent, hknown, hhash, hround⟩
  · exact absurd hheight UInt64.not_lt_zero
  · have hsame := hfree parent hknown b hb (hhash.symm.trans hparent)
    rwa [hsame] at hround

theorem Ordered.appended (h : Ordered P c) (hx : c.Gossiped x) (hfree : CollisionFree P c.known)
    (hahead : c.RoundsAhead P x) {tip : Block} (htip : tip ∈ (c.node x.1).state.blocks.getLast?) :
    RoundsIncrease (tip :: (c.node x.1).appended P x.2) := by
  unfold Node.appended
  cases hprod : (c.node x.1).produced P x.2 with
  | none =>
    rw [Option.toList_none, List.append_nil]
    have hknown : ∀ b ∈ tip :: (c.node x.1).imported x.2, b ∈ c.known := by
      intro b hb
      rcases List.mem_cons.mp hb with rfl | hb
      · exact (h.holds x.1).chain b (List.mem_of_getLast? htip)
      · exact h.toSourced.imported hx b hb
    apply (hahead.imported tip htip).imp_of_mem_imp
    rintro b b' hb hb' (hbuilds | hround)
    · exact h.lineage.round_lt hfree (hknown b hb) (hknown b' hb') hbuilds
    · exact hround
  | some block =>
    obtain ⟨round, tip', hround, htip', _, hblock⟩ := Node.produced_origin hprod
    rw [Node.imported_of_produced P hprod]
    refine List.isChain_pair.mpr ?_
    rw [hblock]
    exact hahead.counter (by rw [hprod]; rfl) round hround tip htip

theorem Ordered.step (hP : P.BincodeRoundTrips) (h : Ordered P c) (hx : c.Gossiped x)
    (hfree : CollisionFree P c.known) (hahead : c.RoundsAhead P x) : Ordered P (c.step P x) := by
  refine ⟨h.toSourced.step hP hx, ?_, ?_⟩
  · apply forall_step_node P (fun _ n => n.Rising P) _ (fun i _ => h.rising i)
    exact (h.rising x.1).step hP fun tip htip => h.appended hx hfree hahead htip
  · intro b hb
    rcases mem_known_step.mp hb with hold | hprod
    · obtain hgenesis | ⟨parent, hknown, hparent⟩ := h.lineage b hold
      · exact Or.inl hgenesis
      · exact Or.inr ⟨parent, known_mono hknown, hparent⟩
    · obtain ⟨round, tip, hround, htip, hhash, hblock⟩ := Node.produced_origin hprod
      refine Or.inr ⟨tip, known_mono ((h.holds x.1).chain tip (List.mem_of_getLast? htip)), hhash, ?_⟩
      rw [hblock]
      exact hahead.counter (by rw [hprod]; rfl) round hround tip htip

theorem init_ordered (hP : P.BincodeRoundTrips) : Ordered P (init P) := by
  refine ⟨(init_agreed hP).toSourced, Node.fresh_rising hP, ?_⟩
  intro b hb
  exact Or.inl (List.mem_singleton.mp hb)

theorem roundsAhead_of_rise (hrise : RoundsRise c) (h : RoundsRise (c.step P x)) : c.RoundsAhead P x := by
  cases he : x.2.isRestart with
  | true =>
    obtain ⟨i, e⟩ := x
    obtain ⟨saved, rfl⟩ := Event.eq_restart he
    refine ⟨fun hprod => absurd hprod Bool.false_ne_true, ?_⟩
    intro tip _
    exact List.isChain_singleton tip
  | false =>
    -- What the step has put behind the tip shows whether the condition was met.
    have hself := h x.1
    rw [step_node_self, (Node.step_grows P _ he).chain] at hself
    have htail : ∀ tip ∈ (c.node x.1).state.blocks.getLast?,
        RoundsIncrease (tip :: (c.node x.1).appended P x.2) := by
      intro tip htip
      exact (isChain_append_of_getLast? (hrise x.1) htip).mp hself
    constructor
    · intro hprod round hround tip htip
      obtain ⟨block, hblock⟩ := Option.isSome_iff_exists.mp hprod
      obtain ⟨round', _, hround', _, _, heq⟩ := Node.produced_origin hblock
      have hpair := htail tip htip
      rw [Node.appended, Node.imported_of_produced P hblock, hblock] at hpair
      obtain rfl := Option.some.inj (hround.symm.trans hround')
      rw [← heq]
      obtain ⟨hlt, _⟩ := List.isChain_cons_cons.mp hpair
      exact hlt
    · intro tip htip
      have hpair := htail tip htip
      rw [Node.appended, ← List.cons_append] at hpair
      exact hpair.left_of_append.imp fun _ _ hlt => Or.inr hlt

theorem rounds_increase_iff (P : Primitives) (hP : P.BincodeRoundTrips) (xs : List (Fin 3 × Event))
    (hgossip : AllSteps (step P) Gossiped (init P) xs)
    (hfree : CollisionFree P (run (step P) (init P) xs).known) :
    AllStates (step P) RoundsRise (init P) xs ↔ AllSteps (step P) (RoundsAhead P) (init P) xs := by
  constructor
  · intro h
    have hcond : ∀ (c : Cluster) x, True → c.Gossiped x → c.RoundsRise → (c.step P x).RoundsRise →
        c.RoundsAhead P x :=
      fun _ _ _ _ hrise hnext => roundsAhead_of_rise hrise hnext
    exact allSteps_of_allStates (fun _ _ _ _ => trivial) hcond trivial hgossip h
  · intro hahead
    have hfrees : AllStates (step P) (fun c => CollisionFree P c.known) (init P) xs := by
      rintro xs' ⟨rest, rfl⟩
      rw [run, List.foldl_append] at hfree
      exact fun b hb b' hb' => hfree b (known_run_mono hb) b' (known_run_mono hb')
    have hall : AllSteps (step P) (fun c x => c.Gossiped x ∧ CollisionFree P c.known ∧ c.RoundsAhead P x)
        (init P) xs :=
      allSteps_and.mpr ⟨hgossip, allSteps_and.mpr ⟨hfrees.allSteps fun _ _ h => h, hahead⟩⟩
    have hinv : AllStates (step P) (Ordered P) (init P) xs :=
      invariant (fun _ _ h hx => h.step hP hx.1 hx.2.1 hx.2.2) (init_ordered hP) hall
    exact hinv.mono fun _ h i => (h.rising i).chain.roundsIncrease

section Runs

instance : DecidableRel (BuildsOn P) := fun parent child =>
  inferInstanceAs
    (Decidable (child.header.parentHash = parent.hash P ∧ parent.header.height < child.header.height))

instance (blocks : List Block) : Decidable (RoundsIncrease blocks) :=
  inferInstanceAs (Decidable (blocks.IsChain fun b b' => b.header.round < b'.header.round))

instance (o : Option UInt64) (p : UInt64 → Prop) [DecidablePred p] : Decidable (∀ r ∈ o, p r) :=
  o.decidableForallMem

instance (c : Cluster) (x : Fin 3 × Event) : Decidable (c.RoundsAhead P x) :=
  decidable_of_iff
    ((((c.node x.1).produced P x.2).isSome → ∀ round ∈ (c.node x.1).round,
        ∀ tip ∈ (c.node x.1).state.blocks.getLast?, tip.header.round < round) ∧
      ∀ tip ∈ (c.node x.1).state.blocks.getLast?,
        (tip :: (c.node x.1).imported x.2).IsChain
          fun b b' => BuildsOn P b b' ∨ b.header.round < b'.header.round)
    ⟨fun h => ⟨h.1, h.2⟩, fun h => ⟨h.counter, h.imported⟩⟩

noncomputable def blockOfTwo : Block :=
  (Node.startProducer (Node.fresh .sample 2)).newBlock .sample 20 Block.genesis 2

noncomputable def twoLeads : List (Fin 3 × Event) :=
  [(2, .startProducer), (2, .tick 10 true), (2, .tick 20 true)]

theorem rounds_increase_twoLeads : AllStates (step .sample) RoundsRise (init .sample)
    (twoLeads ++ [(1, .message (.newBlock blockOfTwo) .insertion fun _ => true), (0, .restart true)]) :=
  (rounds_increase_iff .sample sample_roundTrips _ (by decide +kernel) (by decide +kernel)).mpr
    (by decide +kernel)

theorem round_falls_back : AllSteps (step .sample) Gossiped (init .sample)
      (twoLeads ++ [(1, .startProducer), (1, .message (.newBlock blockOfTwo) .insertion fun _ => true),
        (1, .tick 30 true)]) ∧
    ¬ AllStates (step .sample) RoundsRise (init .sample)
      (twoLeads ++ [(1, .startProducer), (1, .message (.newBlock blockOfTwo) .insertion fun _ => true),
        (1, .tick 30 true)]) := by
  refine ⟨by decide +kernel, ?_⟩
  intro h
  exact absurd (h.last 1) (by decide +kernel)

end Runs

end Cluster

end VelaNetwork
