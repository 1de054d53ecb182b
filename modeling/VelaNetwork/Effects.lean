import VelaNetwork.Supply
import VelaNetwork.Library.Traces

namespace VelaNetwork

open Library.FiniteMaps Library.Traces

variable (P : Primitives)

def Conflicting (tx tx' : Transaction) : Prop :=
  tx.from = tx'.from ∨ tx.from = tx'.to ∨ tx.to = tx'.from ∨ tx.to = tx'.to

instance : DecidableRel Conflicting := fun _ _ => inferInstanceAs (Decidable (_ ∨ _ ∨ _ ∨ _))

namespace WorldState

def executedIn (w : WorldState) (block : Block) : List Transaction :=
  ((w.mint P block).execution block.transactions).map (·.2)

def outcomesIn (w : WorldState) (block : Block) : List (Transaction × Bool) :=
  outputs applyTx executes (w.mint P block) block.transactions

section Commuting

variable {w : WorldState} {tx tx' : Transaction}

theorem conflicting_symm (h : Conflicting tx tx') : Conflicting tx' tx := by
  unfold Conflicting at *
  simp only [eq_comm]
  tauto

theorem executes_applyTx (h : ¬ Conflicting tx tx') : (w.applyTx tx).executes tx' = w.executes tx' := by
  by_cases hx : w.executes tx = true
  · have hbalance : (w.applyTx tx).balance tx'.from = w.balance tx'.from := by
      unfold Conflicting at h
      rw [balance_applyTx _ hx, balance_debited, if_neg (by tauto), if_neg (by tauto)]
    unfold executes
    rw [hbalance]
  · rw [applyTx_of_not_executes hx]

def Touches (tx : Transaction) (k : String) : Prop := k = tx.from.hex ∨ k = tx.to.hex

theorem localTo_transfer (tx : Transaction) : LocalTo (Touches tx) fun m => credit (debit m tx) tx := by
  have hfrom : Touches tx tx.from.hex := Or.inl rfl
  have hto : Touches tx tx.to.hex := Or.inr rfl
  exact (localTo_upsert hto _ _).comp ((localTo_modify hfrom _).comp (localTo_upsert hfrom _ _))

theorem touches_disjoint (h : ¬ Conflicting tx tx') (k : String) (hk : Touches tx k) : ¬ Touches tx' k := by
  intro hk'
  apply h
  unfold Conflicting
  rcases hk with rfl | rfl <;> rcases hk' with hk' | hk' <;> simp [Address.hex_inj.mp hk']

theorem applyTx_comm (h : ¬ Conflicting tx tx') (w : WorldState) :
    (w.applyTx tx).applyTx tx' = (w.applyTx tx').applyTx tx := by
  have hx' := executes_applyTx (w := w) h
  have hx := executes_applyTx (w := w) (mt conflicting_symm h)
  by_cases hw : w.executes tx = true
  · by_cases hw' : w.executes tx' = true
    · rw [applyTx_of_executes (hx'.trans hw'), applyTx_of_executes hw, applyTx_of_executes (hx.trans hw),
        applyTx_of_executes hw']
      have haccounts := (localTo_transfer tx).commute (localTo_transfer tx') (touches_disjoint h) w.accounts
      simp only [haccounts]
    · rw [applyTx_of_not_executes (w := w.applyTx tx) (by rwa [hx']), applyTx_of_not_executes hw']
  · rw [applyTx_of_not_executes hw, applyTx_of_not_executes (w := w.applyTx tx') (by rwa [hx])]

theorem independence_applyTx : Independence applyTx executes Conflicting where
  symm := fun _ _ => conflicting_symm
  commute := fun w _ _ h => applyTx_comm h w
  unseen := fun _ _ _ h => executes_applyTx h

end Commuting

section Blocks

variable {P} {w : WorldState} {b b' : Block}

theorem executed_eq_outputs (w : WorldState) (txs : List Transaction) :
    (w.execution txs).map (·.2) = ((outputs applyTx executes w txs).filter (·.2)).map (·.1) := by
  induction txs generalizing w with
  | nil => rfl
  | cons tx txs ih =>
    rw [execution, outputs, List.map_append, ih]
    by_cases hx : w.executes tx = true
    · simp [hx]
    · simp [hx]

theorem mint_of_height (h : b.header.height = b'.header.height) (w : WorldState) :
    w.mint P b = w.mint P b' := by
  rw [mint, mint, h]

theorem independent_commute (P : Primitives) (w : WorldState) {b b' : Block}
    (hheight : b.header.height = b'.header.height)
    (h : Rearranged Conflicting b.transactions b'.transactions) :
    w.applyBlock P b = w.applyBlock P b' ∧ (w.executedIn P b).Perm (w.executedIn P b') ∧
      ∀ tx, (w.outcomesIn P b).filter (fun p => p.1 = tx) =
        (w.outcomesIn P b').filter (fun p => p.1 = tx) := by
  obtain ⟨hstate, houtcomes⟩ := independence_applyTx.rearranged h (w.mint P b)
  unfold applyBlock executedIn outcomesIn
  rw [← mint_of_height hheight w]
  refine ⟨hstate, ?_, houtcomes⟩
  rw [executed_eq_outputs, executed_eq_outputs]
  exact ((perm_of_filter_fst houtcomes).filter _).map _

theorem execution_executed (w : WorldState) (txs : List Transaction) :
    w.execution ((w.execution txs).map (·.2)) = w.execution txs ∧
      w.applyTxs ((w.execution txs).map (·.2)) = w.applyTxs txs := by
  induction txs generalizing w with
  | nil => exact ⟨rfl, rfl⟩
  | cons tx txs ih =>
    obtain ⟨hexecution, hstate⟩ := ih (w.applyTx tx)
    rw [execution]
    by_cases hx : w.executes tx = true
    · simp only [if_pos hx, List.singleton_append, List.map_cons]
      rw [execution, if_pos hx, hexecution, applyTxs_cons, applyTxs_cons, hstate]
      exact ⟨rfl, rfl⟩
    · simp only [if_neg hx, List.nil_append]
      rw [applyTx_of_not_executes hx] at hexecution hstate ⊢
      rw [applyTxs_cons, applyTx_of_not_executes hx]
      exact ⟨hexecution, hstate⟩

theorem skipped_leave_no_trace (P : Primitives) (w : WorldState) {b b' : Block}
    (hheight : b'.header.height = b.header.height) (htransactions : b'.transactions = w.executedIn P b) :
    w.executedIn P b' = b'.transactions ∧ w.applyBlock P b' = w.applyBlock P b := by
  obtain ⟨hexecution, hstate⟩ := (w.mint P b).execution_executed b.transactions
  unfold applyBlock
  rw [executedIn, mint_of_height hheight w, htransactions]
  exact ⟨congrArg (List.map (·.2)) hexecution, hstate⟩

section Runs

noncomputable def blockOf (txs : List Transaction) : Block :=
  Block.new .sample 0 1 (Block.genesis.hash .sample) txs Address.zero 1

noncomputable def payments : List Transaction :=
  [Transaction.new 0 (treasuryAddr .sample) (sampleAddr 7) 500 1 1,
   Transaction.new 0 (faucetAddr .sample) (sampleAddr 8) 300 1 1,
   Transaction.new 0 (sampleAddr 9) (sampleAddr 5) 100 1 1]

noncomputable def chained : List Transaction :=
  [Transaction.new 0 (treasuryAddr .sample) (sampleAddr 7) 500 1 1,
   Transaction.new 0 (faucetAddr .sample) (sampleAddr 8) 300 1 1,
   Transaction.new 0 (sampleAddr 7) (sampleAddr 5) 100 1 1]

noncomputable def rechained : List Transaction :=
  [Transaction.new 0 (treasuryAddr .sample) (sampleAddr 7) 500 1 1,
   Transaction.new 0 (sampleAddr 7) (sampleAddr 5) 100 1 1,
   Transaction.new 0 (faucetAddr .sample) (sampleAddr 8) 300 1 1]

theorem independent_commute_chained :
    (genesisState .sample).applyBlock .sample (blockOf chained) =
        (genesisState .sample).applyBlock .sample (blockOf rechained) ∧
      ((genesisState .sample).executedIn .sample (blockOf chained)).Perm
        ((genesisState .sample).executedIn .sample (blockOf rechained)) ∧
      ∀ tx, ((genesisState .sample).outcomesIn .sample (blockOf chained)).filter (fun p => p.1 = tx) =
        ((genesisState .sample).outcomesIn .sample (blockOf rechained)).filter (fun p => p.1 = tx) := by
  have h : Rearranged Conflicting chained rechained := by decide +kernel
  exact independent_commute .sample (genesisState .sample) rfl h

theorem skipped_leave_no_trace_payments :
    (genesisState .sample).executedIn .sample
      (blockOf ((genesisState .sample).executedIn .sample (blockOf payments))) =
        (genesisState .sample).executedIn .sample (blockOf payments) ∧
      (genesisState .sample).applyBlock .sample
        (blockOf ((genesisState .sample).executedIn .sample (blockOf payments))) =
        (genesisState .sample).applyBlock .sample (blockOf payments) :=
  skipped_leave_no_trace .sample (genesisState .sample) rfl rfl

end Runs

end Blocks

end WorldState

end VelaNetwork
