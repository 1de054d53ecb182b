import VelaNetwork.NodeSteps
import VelaNetwork.Sample
import VelaNetwork.Library.Logs

namespace VelaNetwork

open Library.Logs Library.Runs

variable (P : Primitives)

def Extends (parent child : Block) : Prop :=
  child.header.parentHash = parent.hash P ∧ child.header.height = parent.header.height + 1

def NamesParent (parent child : Block) : Prop := child.header.parentHash = parent.hash P

def CommitsTxs (block : Block) : Prop := block.header.txRoot = merkleRoot P block.transactions

structure ChainIntegrity (blocks : List Block) : Prop where
  linked : blocks.IsChain (Extends P)
  roots : ∀ block ∈ blocks, CommitsTxs P block

section Chains

variable {P} {blocks blocks' : List Block} {tip : Block}

theorem isChain_extends_iff (hfollows : Follows tip.header.height blocks) :
    (tip :: blocks).IsChain (Extends P) ↔ (tip :: blocks).IsChain (NamesParent P) := by
  induction blocks generalizing tip with
  | nil => simp
  | cons block blocks ih =>
    obtain ⟨hheight, hrest⟩ := hfollows
    rw [List.isChain_cons_cons, List.isChain_cons_cons, ih hrest]
    exact ⟨fun h => ⟨h.1.1, h.2⟩, fun h => ⟨⟨h.1, hheight⟩, h.2⟩⟩

theorem chainIntegrity_append (h : ChainIntegrity P blocks) (htip : blocks.getLast? = some tip)
    (hfollows : Follows tip.header.height blocks') : ChainIntegrity P (blocks ++ blocks') ↔
      (tip :: blocks').IsChain (NamesParent P) ∧ ∀ block ∈ blocks', CommitsTxs P block := by
  rw [← isChain_extends_iff hfollows, ← isChain_append_of_getLast? h.linked htip]
  constructor
  · rintro ⟨hlinked, hroots⟩
    refine ⟨hlinked, ?_⟩
    intro block hblock
    exact hroots block (List.mem_append_right _ hblock)
  · rintro ⟨hlinked, hroots⟩
    refine ⟨hlinked, ?_⟩
    intro block hblock
    rcases List.mem_append.mp hblock with hold | hnew
    · exact h.roots block hold
    · exact hroots block hnew

end Chains

namespace Node

def Authentic (n : Node) (e : Event) : Prop :=
  (∀ tip ∈ n.state.blocks.getLast?, (tip :: n.imported e).IsChain (NamesParent P)) ∧
    ∀ block ∈ n.imported e, CommitsTxs P block

variable {P}

theorem produced_authentic {n : Node} {e : Event} {block tip : Block} (h : n.produced P e = some block)
    (htip : n.state.blocks.getLast? = some tip) : NamesParent P tip block ∧ CommitsTxs P block := by
  cases e with
  | tick now saved =>
    obtain ⟨hnone, _⟩ | ⟨round, tip', _, _, htip', hsome, _⟩ := tick_cases P n now saved
    · rw [h] at hnone
      cases hnone
    · obtain rfl := Option.some.inj (h.symm.trans hsome)
      obtain rfl := Option.some.inj (htip.symm.trans htip')
      exact ⟨rfl, rfl⟩
  | _ => cases h

theorem authentic_iff {n : Node} {e : Event} {tip : Block} (htip : n.state.blocks.getLast? = some tip) :
    Authentic P n e ↔ (tip :: n.appended P e).IsChain (NamesParent P) ∧
      ∀ block ∈ n.appended P e, CommitsTxs P block := by
  unfold Authentic appended
  cases hprod : n.produced P e with
  | none =>
    rw [Option.toList_none, List.append_nil, htip]
    constructor
    · rintro ⟨hchain, hroots⟩
      exact ⟨hchain tip rfl, hroots⟩
    · rintro ⟨hchain, hroots⟩
      refine ⟨?_, hroots⟩
      rintro _ ⟨⟩
      exact hchain
  | some block =>
    obtain ⟨hparent, hroot⟩ := produced_authentic hprod htip
    rw [imported_of_produced P hprod, Option.toList_some, List.nil_append]
    constructor
    · intro _
      refine ⟨List.isChain_pair.mpr hparent, ?_⟩
      intro b hb
      rw [List.mem_singleton.mp hb]
      exact hroot
    · intro _
      exact ⟨fun tip' _ => List.isChain_singleton tip', fun b hb => absurd hb List.not_mem_nil⟩

theorem chain_integrity_iff (P : Primitives) {saved : Bool} {i : Fin 3} {n : Node}
    (hstart : start P saved i .empty = some n) (es : List Event) (hrun : ∀ e ∈ es, e.isRestart = false) :
    AllStates (step P) (fun n => ChainIntegrity P n.state.blocks) n es ↔
      AllSteps (step P) (Authentic P) n es := by
  have htraced : ∀ n e, Traced P n → e.isRestart = false → Traced P (n.step P e) :=
    fun _ _ hn he => hn.step he
  apply allStates_iff_allSteps htraced
  · intro n e hn he hintact
    obtain ⟨rest, hrest⟩ := hn.genesis
    have hne : n.state.blocks ≠ [] := by
      rw [hrest]
      exact List.cons_ne_nil _ _
    obtain ⟨tip, htip, hfollows⟩ := tip_follows P hne e
    rw [(step_grows P n he).chain, authentic_iff htip]
    exact chainIntegrity_append hintact htip hfollows
  · exact start_traced hstart
  · obtain ⟨db, _, rfl⟩ := start_empty hstart
    refine ⟨List.isChain_singleton _, ?_⟩
    intro block hblock
    rw [List.mem_singleton.mp hblock]
    rfl
  · exact allSteps_of_forall hrun

section Runs

instance : DecidableRel (Extends P) := fun _ _ => inferInstanceAs (Decidable (_ ∧ _))

instance : DecidableRel (NamesParent P) := fun parent child =>
  inferInstanceAs (Decidable (child.header.parentHash = parent.hash P))

instance (block : Block) : Decidable (CommitsTxs P block) :=
  inferInstanceAs (Decidable (block.header.txRoot = merkleRoot P block.transactions))

instance (n : Node) (e : Event) : Decidable (Authentic P n e) :=
  inferInstanceAs (Decidable ((∀ tip ∈ n.state.blocks.getLast?, _) ∧ _))

noncomputable def childOf (parentHash : Hash) : Block := Block.new .sample 5 1 parentHash [] Address.zero 1

noncomputable def importThenLead (block : Block) : List Event :=
  [.message (.syncResponse [block]) .insertion fun _ => true, .startProducer, .tick 10 true, .tick 20 true]

theorem chain_integrity_child :
    AllStates (step .sample) (fun n => ChainIntegrity .sample n.state.blocks) (fresh .sample 0)
      (importThenLead (childOf (Block.genesis.hash .sample))) :=
  (chain_integrity_iff .sample (start_fresh sample_roundTrips 0) _ (by decide)).mpr (by decide +kernel)

theorem orphan_imported : ∃ n, start .sample true 0 .empty = some n ∧
    (∀ e ∈ importThenLead (childOf Hash.zero), e.isRestart = false) ∧
    ¬ AllStates (step .sample) (fun n => ChainIntegrity .sample n.state.blocks) n
      (importThenLead (childOf Hash.zero)) := by
  refine ⟨_, start_fresh sample_roundTrips 0, by decide, ?_⟩
  intro h
  exact absurd h.last.linked (by decide +kernel)

end Runs

end Node

end VelaNetwork
