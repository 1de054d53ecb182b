import VelaNetwork.NodeSteps
import VelaNetwork.Sample
import VelaNetwork.Library.Numbering

namespace VelaNetwork

open Library.FiniteMaps Library.Numbering Library.Runs WorldState

variable (P : Primitives)

def executedTxs (blocks : List Block) : List Transaction :=
  (WorldState.new.executionOfBlocks P blocks).map (·.2)

def NextNonce (w : WorldState) (tx : Transaction) : Prop := tx.nonce.toNat = (w.nonce tx.from).toNat + 1

structure NonceLaw (txs : List Transaction) : Prop where
  numbered : Numbered Transaction.from (fun tx => tx.nonce.toNat) txs
  nodup : txs.Nodup

theorem nonceLaw_iff {txs : List Transaction} :
    NonceLaw txs ↔ Numbered Transaction.from (fun tx => tx.nonce.toNat) txs := by
  constructor
  · exact fun h => h.numbered
  · exact fun h => ⟨h, h.nodup⟩

namespace WorldState

def Counts (w : WorldState) (done : List Transaction) : Prop :=
  ∀ a, (w.nonce a).toNat = (owned Transaction.from done a).length

variable {w : WorldState} {tx : Transaction} {done : List Transaction}

theorem nonceLaw_concat (hcounts : w.Counts done) :
    NonceLaw (done ++ [tx]) ↔ NonceLaw done ∧ NextNonce w tx := by
  rw [nonceLaw_iff, nonceLaw_iff, numbered_concat, NextNonce, hcounts tx.from]

theorem Counts.applyTx (hcounts : w.Counts done) (h : w.executes tx = true) (hnext : NextNonce w tx) :
    (w.applyTx tx).Counts (done ++ [tx]) := by
  intro a
  rw [nonce_applyTx a h]
  by_cases ha : a = tx.from
  · subst ha
    have hlt := tx.nonce.toNat_lt
    rw [hnext] at hlt
    rw [if_pos rfl, owned_concat_self, List.length_append, List.length_singleton, ← hcounts tx.from,
      UInt64.toNat_add, UInt64.toNat_one]
    omega
  · rw [if_neg ha, owned_concat_of_ne ha]
    exact hcounts a

theorem nonceLaw_execution (hlaw : NonceLaw done) (hcounts : w.Counts done) (txs : List Transaction) :
    (NonceLaw (done ++ (w.execution txs).map (·.2)) ↔ ∀ p ∈ w.execution txs, NextNonce p.1 p.2) ∧
    (NonceLaw (done ++ (w.execution txs).map (·.2)) →
      (w.applyTxs txs).Counts (done ++ (w.execution txs).map (·.2))) := by
  induction txs generalizing w done with
  | nil =>
    simp only [execution, List.map_nil, List.append_nil]
    exact ⟨⟨fun _ p hp => absurd hp List.not_mem_nil, fun _ => hlaw⟩, fun _ => hcounts⟩
  | cons tx txs ih =>
    rw [execution, applyTxs_cons]
    by_cases hx : w.executes tx = true
    · rw [if_pos hx, List.cons_append, List.nil_append, List.map_cons, List.append_cons]
      by_cases hnext : NextNonce w tx
      · have hdone := (nonceLaw_concat hcounts).mpr ⟨hlaw, hnext⟩
        obtain ⟨hiff, hcount⟩ := ih hdone (hcounts.applyTx hx hnext)
        refine ⟨?_, hcount⟩
        rw [hiff, List.forall_mem_cons]
        exact ⟨fun h => ⟨hnext, h⟩, fun h => h.2⟩
      · have hbad : ¬ NonceLaw (done ++ [tx] ++ ((w.applyTx tx).execution txs).map (·.2)) := by
          intro h
          have hfront := nonceLaw_iff.mpr h.numbered.of_append
          exact hnext ((nonceLaw_concat hcounts).mp hfront).2
        exact ⟨⟨fun h => absurd h hbad, fun h => absurd (h _ List.mem_cons_self) hnext⟩,
          fun h => absurd h hbad⟩
    · rw [if_neg hx, List.nil_append, applyTx_of_not_executes hx]
      exact ih hlaw hcounts

theorem genesisState_counts : (genesisState P).Counts [] := by
  intro a
  rw [genesisState_nonce]
  rfl

end WorldState

section Chains

variable {P}

theorem executedTxs_genesis (blocks : List Block) : executedTxs P (Block.genesis :: blocks) =
    ((genesisState P).execution (blocks.flatMap (·.transactions))).map (·.2) := by
  rw [executedTxs, executionOfBlocks_from_genesis]

theorem counts_of_nonceLaw {blocks : List Block} (h : NonceLaw (executedTxs P (Block.genesis :: blocks))) :
    (WorldState.new.applyBlocks P (Block.genesis :: blocks)).Counts
      (executedTxs P (Block.genesis :: blocks)) := by
  rw [executedTxs_genesis] at h ⊢
  rw [applyBlocks_from_genesis]
  have hnil : NonceLaw [] := nonceLaw_iff.mpr numbered_nil
  exact (nonceLaw_execution hnil (genesisState_counts P) _).2 h

theorem nonceLaw_append {blocks blocks' : List Block}
    (h : NonceLaw (executedTxs P (Block.genesis :: blocks))) :
    NonceLaw (executedTxs P (Block.genesis :: blocks ++ blocks')) ↔
      ∀ p ∈ (WorldState.new.applyBlocks P (Block.genesis :: blocks)).executionOfBlocks P blocks',
        NextNonce p.1 p.2 := by
  have hsupply : (WorldState.new.applyBlocks P (Block.genesis :: blocks)).totalSupply ≠ 0 := by
    rw [applyBlocks_from_genesis, totalSupply_applyTxs]
    exact genesisState_supply P
  have hiff := (nonceLaw_execution h (counts_of_nonceLaw h) (blocks'.flatMap (·.transactions))).1
  rwa [← executionOfBlocks_flat P hsupply, executedTxs, ← List.map_append, ← executionOfBlocks_append] at hiff

end Chains

namespace Node

def NextNonces (n : Node) (e : Event) : Prop := ∀ p ∈ n.executed P e, NextNonce p.1 p.2

variable {P}

theorem nextNonces_iff {n : Node} (h : Traced P n) (e : Event) : NextNonces P n e ↔
    ∀ p ∈ (WorldState.new.applyBlocks P n.state.blocks).executionOfBlocks P (n.appended P e),
      NextNonce p.1 p.2 := by
  have hviews := executionOfBlocks_of_ledger P h.ledger (n.appended P e)
  have hview : ∀ l l' : List (WorldState × Transaction),
      l.map (fun p => (p.1.ledger, p.2)) = l'.map (fun p => (p.1.ledger, p.2)) →
      (∀ p ∈ l, NextNonce p.1 p.2) → ∀ p ∈ l', NextNonce p.1 p.2 := by
    intro l l' hll h p hp
    have hmem : (p.1.ledger, p.2) ∈ l.map (fun p => (p.1.ledger, p.2)) := by
      rw [hll]
      exact List.mem_map.mpr ⟨p, hp, rfl⟩
    obtain ⟨q, hq, heq⟩ := List.mem_map.mp hmem
    obtain ⟨hledger, htx⟩ := Prod.mk.inj heq
    have hnext := h q hq
    rwa [NextNonce, htx, nonce_of_ledger hledger] at hnext
  exact ⟨hview _ _ hviews, hview _ _ hviews.symm⟩

theorem nonce_law_iff (P : Primitives) {saved : Bool} {i : Fin 3} {n : Node}
    (hstart : start P saved i .empty = some n) (es : List Event) (hrun : ∀ e ∈ es, e.isRestart = false) :
    AllStates (step P) (fun n => NonceLaw (executedTxs P n.state.blocks)) n es ↔
      AllSteps (step P) (NextNonces P) n es := by
  have htraced : ∀ n e, Traced P n → e.isRestart = false → Traced P (n.step P e) :=
    fun _ _ hn he => hn.step he
  apply allStates_iff_allSteps htraced
  · intro n e hn he hlaw
    rw [nextNonces_iff hn, (step_grows P n he).chain]
    obtain ⟨rest, hrest⟩ := hn.genesis
    rw [hrest] at hlaw ⊢
    exact nonceLaw_append hlaw
  · exact start_traced hstart
  · obtain ⟨db, _, rfl⟩ := start_empty hstart
    exact nonceLaw_iff.mpr numbered_nil
  · exact allSteps_of_forall hrun

section Runs

instance (n : Node) (e : Event) : Decidable (NextNonces P n e) :=
  inferInstanceAs (Decidable (∀ p ∈ n.executed P e, p.2.nonce.toNat = (p.1.nonce p.2.from).toNat + 1))

noncomputable def transfer (nonce : UInt64) : Transaction :=
  (Transaction.new 5 (treasuryAddr .sample) (sampleAddr 7) 50 1 nonce).sign .sample treasuryKey

noncomputable def gossip (txs : List Transaction) : List Event :=
  txs.map (fun tx => .message (.newTransaction tx) .insertion fun _ => true) ++
    [.startProducer, .tick 10 true]

theorem nonce_law_transfers :
    AllStates (step .sample) (fun n => NonceLaw (executedTxs .sample n.state.blocks)) (fresh .sample 1)
      (gossip [transfer 1, transfer 2]) :=
  (nonce_law_iff .sample (start_fresh sample_roundTrips 1) _ (by simp [gossip, Event.isRestart])).mpr
    (by decide +kernel)

theorem transfer_replayed : ∃ n, start .sample true 1 .empty = some n ∧
    (∀ e ∈ gossip [transfer 1, transfer 1], e.isRestart = false) ∧
    ¬ AllStates (step .sample) (fun n => NonceLaw (executedTxs .sample n.state.blocks)) n
      (gossip [transfer 1, transfer 1]) := by
  refine ⟨_, start_fresh sample_roundTrips 1, by simp [gossip, Event.isRestart], ?_⟩
  intro h
  have hlast := h.last.nodup
  exact absurd hlast (by decide +kernel)

end Runs

end Node

end VelaNetwork
