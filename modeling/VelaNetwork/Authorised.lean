import VelaNetwork.Pool
import VelaNetwork.Supply
import VelaNetwork.Sample

namespace VelaNetwork

open Library.Runs WorldState

variable (P : Primitives)

def Transaction.Sound (tx : Transaction) : Prop := tx.verify P = true ∧ debitOverflows tx = false

def Debits (w : WorldState) (tx : Transaction) (a : Address) : Prop :=
  (w.applyTx tx).balance a < w.balance a ∨ w.nonce a < (w.applyTx tx).nonce a

def Authorises (w : WorldState) (tx : Transaction) : Prop :=
  ∀ a, Debits w tx a → tx.from = a ∧ tx.verify P = true

section Execution

variable {w : WorldState} {tx : Transaction}

theorem authorises_of_sound (h : w.executes tx = true) (hw : w.totalBalance ≤ TOTAL_SUPPLY.toNat)
    (hsound : tx.Sound P) : Authorises P w tx := by
  intro a hdebit
  by_cases ha : a = tx.from
  · exact ⟨ha.symm, hsound.1⟩
  · exfalso
    rcases hdebit with hbalance | hnonce
    · rw [balance_applyTx _ h, balance_debited, if_neg ha] at hbalance
      by_cases hto : a = tx.to
      · have hfits := credit_fits hw h hsound.2
        simp only [creditOverflows, decide_eq_false_iff_not] at hfits
        rw [← hto, balance_debited, if_neg ha] at hfits
        rw [if_pos hto, UInt64.lt_iff_toNat_lt, UInt64.toNat_add] at hbalance
        omega
      · rw [if_neg hto] at hbalance
        exact UInt64.lt_irrefl _ hbalance
    · rw [nonce_applyTx _ h, if_neg ha] at hnonce
      exact UInt64.lt_irrefl _ hnonce

end Execution

section Requests

variable {P}

theorem faucetTx_sound (hP : P.SignVerifies) (now : Int64) (s : NodeState) (recipient : Address) :
    (faucetTx P now s recipient).Sound P := by
  constructor
  · exact Transaction.verify_sign P hP _ faucetKey rfl
  · change decide (2 ^ 64 ≤ FAUCET_AMOUNT.toNat + (1 : UInt64).toNat) = false
    decide

theorem sendTxAdmit_verify {now : Int64} {s : NodeState} {req : SendTxRequest} {tx : Transaction}
    (h : sendTxAdmit P now s req = .ok tx) (hsigned : tx.signature.isSome = true) : tx.verify P = true := by
  unfold sendTxAdmit at h
  cases haddr : sendTxAddresses req with
  | error e => rw [haddr] at h; cases h
  | ok addrs =>
    cases hcheck : sendTxCheck s req addrs.1 with
    | error e => rw [haddr] at h; simp only [bind, Except.bind, hcheck] at h; cases h
    | ok _ =>
      rw [haddr] at h
      simp only [bind, Except.bind, hcheck, sendTxVerify] at h
      split at h
      · cases h
      · rename_i hok
        split at hok
        · cases hok
        · rename_i hverify
          obtain rfl : _ = tx := Except.ok.inj h
          by_contra hbad
          exact hverify ⟨hsigned, hbad⟩

end Requests

namespace Node

/-- A `send_tx` request that passes the checks of its handler has a signature, which then was verified,
and its amount and fee do not overflow. -/
def AdmitsRequest (n : Node) (now : Clock) : RpcTask → Prop
  | .sendTxCheck req =>
    match sendTxAdmit P now.millis n.state req with
    | .ok tx => tx.signature.isSome = true ∧ debitOverflows tx = false
    | .error _ => True
  | _ => True

def AdmitsInput (n : Node) : Event → Prop
  | .message (.newTransaction tx) _ _ => tx.Sound P
  | .rpc i now => ∀ task ∈ n.rpc[i]?, n.AdmitsRequest P now task
  | _ => True

def Admits (n : Node) (e : Event) : Prop :=
  (∀ block ∈ n.imported e, ∀ tx ∈ block.transactions, tx.Sound P) ∧ n.AdmitsInput P e

instance (tx : Transaction) : Decidable (tx.Sound P) :=
  inferInstanceAs (Decidable (tx.verify P = true ∧ debitOverflows tx = false))

instance (n : Node) (now : Clock) (task : RpcTask) : Decidable (n.AdmitsRequest P now task) := by
  unfold AdmitsRequest
  split
  · split <;> infer_instance
  · infer_instance

instance (n : Node) (e : Event) : Decidable (n.AdmitsInput P e) := by
  unfold AdmitsInput
  split <;> infer_instance

instance (n : Node) (e : Event) : Decidable (n.Admits P e) := by
  unfold Admits
  infer_instance

structure Secured (n : Node) : Prop where
  pooled : n.Pooled (Transaction.Sound P)
  supply : n.state.worldState.totalSupply ≠ 0
  balances : n.state.worldState.totalBalance ≤ TOTAL_SUPPLY.toNat

variable {P} {n : Node}

theorem Secured.appended_sound (h : Secured P n) {e : Event} (hadmits : Admits P n e) :
    ∀ block ∈ n.appended P e, ∀ tx ∈ block.transactions, tx.Sound P := by
  intro block hblock
  rcases List.mem_append.mp hblock with himport | hprod
  · exact hadmits.1 block himport
  · intro tx htx
    cases e with
    | tick now saved =>
      obtain ⟨hnone, _⟩ | ⟨round, tip, _, _, _, hsome, _⟩ := tick_cases P n now saved
      · rw [hnone] at hprod
        exact absurd hprod List.not_mem_nil
      · rw [hsome, Option.toList_some, List.mem_singleton] at hprod
        rw [hprod] at htx
        exact h.pooled.mempool tx (List.mem_of_mem_take htx)
    | _ => exact absurd hprod List.not_mem_nil

theorem Secured.executed_authorised (h : Secured P n) {e : Event} (hadmits : Admits P n e) :
    ∀ p ∈ n.executed P e, Authorises P p.1 p.2 := by
  intro p hp
  rw [executed, executionOfBlocks_flat P h.supply] at hp
  have hsound : ∀ tx ∈ (n.appended P e).flatMap (·.transactions), tx.Sound P := by
    intro tx htx
    obtain ⟨block, hblock, htx⟩ := List.mem_flatMap.mp htx
    exact h.appended_sound hadmits block hblock tx htx
  obtain ⟨hx, hmem⟩ := mem_execution p hp
  have htotal := totalBalance_execution_le (fun tx htx => (hsound tx htx).2) p hp
  exact authorises_of_sound P hx (Nat.le_trans htotal h.balances) (hsound p.2 hmem)

theorem Admits.entering (hP : P.SignVerifies) {e : Event} {tx : Transaction} (h : Admits P n e)
    (htx : n.Enters P e tx) : tx.Sound P := by
  cases htx with
  | gossip tx order saves => exact h.2
  | faucet i now address recipient htask => exact faucetTx_sound hP _ _ _
  | sendTx i now req tx htask hbuilt =>
    have hrequest := h.2 (.sendTxCheck req) htask
    simp only [AdmitsRequest, hbuilt] at hrequest
    exact ⟨sendTxAdmit_verify hbuilt hrequest.1, hrequest.2⟩

theorem Secured.step (hP : P.SignVerifies) (h : Secured P n) {e : Event} (he : e.isRestart = false)
    (hadmits : Admits P n e) : Secured P (n.step P e) := by
  have hledger := (step_grows P n he).ledger
  refine ⟨h.pooled.step fun tx htx => hadmits.entering hP htx, ?_, ?_⟩
  · rw [totalSupply_of_ledger hledger, applyBlocks_flat P h.supply, totalSupply_applyTxs]
    exact h.supply
  · rw [totalBalance_of_ledger hledger, applyBlocks_flat P h.supply]
    apply Nat.le_trans (totalBalance_applyTxs_le _) h.balances
    intro tx htx
    obtain ⟨block, hblock, htx⟩ := List.mem_flatMap.mp htx
    exact (h.appended_sound hadmits block hblock tx htx).2

theorem start_secured (hkeys : treasuryAddr P ≠ faucetAddr P) {saved : Bool} {i : Fin 3}
    (h : start P saved i .empty = some n) : Secured P n := by
  obtain ⟨db, _, rfl⟩ := start_empty h
  refine ⟨boot_pooled i db _, ?_, ?_⟩
  · exact genesisState_supply P
  · exact Nat.le_of_eq (totalBalance_genesisState P hkeys)

theorem every_debit_authorised (P : Primitives) (hP : P.SignVerifies) (hkeys : treasuryAddr P ≠ faucetAddr P)
    {saved : Bool} {i : Fin 3} {n : Node} (hstart : start P saved i .empty = some n) (es : List Event)
    (hrun : ∀ e ∈ es, e.isRestart = false) (hadmits : AllSteps (step P) (Admits P) n es) :
    AllSteps (step P) (fun n e => ∀ p ∈ n.executed P e, Authorises P p.1 p.2) n es := by
  have hboth : AllSteps (step P) (fun n e => e.isRestart = false ∧ Admits P n e) n es :=
    allSteps_and.mpr ⟨allSteps_of_forall hrun, hadmits⟩
  apply allSteps_of_invariant _ _ (start_secured hkeys hstart) hboth
  · intro n e hn he
    exact hn.step hP he.1 he.2
  · intro n e hn he
    exact hn.executed_authorised he.2

section Runs

noncomputable def payment (sender : Address) : Transaction := Transaction.new 5 sender (sampleAddr 7) 50 1 1

noncomputable def signedRun : List Event :=
  [.message (.newTransaction ((payment (treasuryAddr .sample)).sign .sample treasuryKey))
     .insertion fun _ => true,
   .request (.faucet (sampleAddr 8).hex), .rpc 0 ⟨6, 6⟩, .rpc 0 ⟨6, 6⟩, .rpc 0 ⟨6, 6⟩, .rpc 0 ⟨6, 6⟩,
   .startProducer, .tick 10 true]

theorem every_debit_authorised_signedRun :
    AllSteps (step .sample) (fun n e => ∀ p ∈ n.executed .sample e, Authorises .sample p.1 p.2)
      (fresh .sample 1) signedRun :=
  every_debit_authorised .sample sample_signVerifies sample_treasury_ne_faucet
    (start_fresh sample_roundTrips 1)
    signedRun (by decide) (by decide +kernel)

noncomputable def unsignedRun : List Event :=
  [.request (.sendTx ⟨(treasuryAddr .sample).hex, (sampleAddr 7).hex, 50, 1, 1, none, none⟩), .rpc 0 ⟨6, 6⟩,
   .rpc 0 ⟨6, 6⟩, .rpc 0 ⟨6, 6⟩, .startProducer, .tick 10 true]

theorem debit_without_signature : ∃ n, start .sample true 1 .empty = some n ∧
    (∀ e ∈ unsignedRun, e.isRestart = false) ∧
    ¬ AllSteps (step .sample) (fun n e => ∀ p ∈ n.executed .sample e, Authorises .sample p.1 p.2) n
      unsignedRun := by
  refine ⟨_, start_fresh sample_roundTrips 1, by decide, ?_⟩
  intro h
  have hlast := h.2.2.2.2.2.1
  have hbad : ∃ p ∈ (run (step .sample) (fresh .sample 1) (unsignedRun.take 5)).executed .sample
      (.tick 10 true), (p.1.applyTx p.2).balance (treasuryAddr .sample) < p.1.balance (treasuryAddr .sample) ∧
        p.2.verify .sample = false := by
    decide +kernel
  obtain ⟨p, hp, hlower, hverify⟩ := hbad
  have hauth := hlast p hp (treasuryAddr .sample) (Or.inl hlower)
  rw [hverify] at hauth
  exact absurd hauth.2 (by decide)

end Runs

end Node

end VelaNetwork
