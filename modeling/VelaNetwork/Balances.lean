import VelaNetwork.Accounting
import VelaNetwork.Admission

namespace VelaNetwork.WorldState

variable (P : Primitives)

def debitWraps (executed : Execution) : List Address :=
  (executed.filter fun p => debitOverflows p.2).map (·.2.from)

def creditWraps (executed : Execution) : List Address :=
  (executed.filter fun p => p.1.creditOverflows p.2).map (·.2.to)

theorem debitWraps_append (executed executed' : Execution) :
    debitWraps (executed ++ executed') = debitWraps executed ++ debitWraps executed' := by
  unfold debitWraps
  rw [List.filter_append, List.map_append]

theorem creditWraps_append (executed executed' : Execution) :
    creditWraps (executed ++ executed') = creditWraps executed ++ creditWraps executed' := by
  unfold creditWraps
  rw [List.filter_append, List.map_append]

section Balances

variable {w : WorldState} {tx : Transaction}

theorem balance_debited_exact (h : w.executes tx = true) (a : Address) :
    (((w.debited tx).balance a).toNat : ℤ) + (if tx.from =
      a then (tx.amount.toNat + tx.fee.toNat : ℤ) else 0) =
      (w.balance a).toNat + 2 ^ 64 * (if tx.from = a ∧ debitOverflows tx = true then 1 else 0) := by
  have hle : tx.amount + tx.fee ≤ w.balance tx.from := of_decide_eq_true h
  have hsub := UInt64.toNat_sub_of_le _ _ hle
  have hnat := UInt64.le_iff_toNat_le.mp hle
  have hamount := tx.amount.toNat_lt
  have hfee := tx.fee.toNat_lt
  rw [UInt64.toNat_add] at hsub hnat
  rw [balance_debited]
  by_cases ha : a = tx.from
  · subst ha
    simp only [debitOverflows, decide_eq_true_eq, true_and, if_true]
    split <;> omega
  · have ha' : ¬ tx.from = a := fun h => ha h.symm
    simp only [if_neg ha, ha', false_and, if_false, mul_zero, add_zero]

theorem balance_applyTx_exact (h : w.executes tx = true) (a : Address) :
    (((w.applyTx tx).balance a).toNat : ℤ) + 2 ^ 64 * (if tx.to = a ∧
      w.creditOverflows tx = true then 1 else 0) =
      ((w.debited tx).balance a).toNat + (if tx.to = a then (tx.amount.toNat : ℤ) else 0) := by
  have hbalance := ((w.debited tx).balance tx.to).toNat_lt
  have hamount := tx.amount.toNat_lt
  rw [balance_applyTx a h]
  by_cases ha : a = tx.to
  · subst ha
    simp only [creditOverflows, decide_eq_true_eq, true_and, if_true, UInt64.toNat_add]
    split <;> omega
  · have ha' : ¬ tx.to = a := fun h => ha h.symm
    simp only [if_neg ha, ha', false_and, if_false, mul_zero, add_zero]

theorem balance_applyTxs_exact (w : WorldState) (txs : List Transaction) (a : Address) :
    (((w.applyTxs txs).balance a).toNat : ℤ) + spent (w.execution txs) a +
        2 ^ 64 * (creditWraps (w.execution txs)).count a =
      (w.balance a).toNat + received (w.execution txs) a +
        2 ^ 64 * (debitWraps (w.execution txs)).count a := by
  induction txs generalizing w with
  | nil => simp [applyTxs, execution, spent, received, creditWraps, debitWraps]
  | cons tx txs ih =>
    have hrest := ih (w.applyTx tx)
    rw [applyTxs_cons, execution]
    by_cases hx : w.executes tx = true
    · have hdebit := balance_debited_exact hx a
      have hcredit := balance_applyTx_exact hx a
      have hcredits : ((creditWraps ((w, tx) :: (w.applyTx tx).execution txs)).count a : ℤ) =
          (creditWraps ((w.applyTx tx).execution txs)).count a +
            (if tx.to = a ∧ w.creditOverflows tx = true then 1 else 0) := by
        unfold creditWraps
        rw [List.filter_cons]
        by_cases hover : w.creditOverflows tx = true
        · simp [hover, List.count_cons]
        · simp [hover]
      have hdebits : ((debitWraps ((w, tx) :: (w.applyTx tx).execution txs)).count a : ℤ) =
          (debitWraps ((w.applyTx tx).execution txs)).count a +
            (if tx.from = a ∧ debitOverflows tx = true then 1 else 0) := by
        unfold debitWraps
        rw [List.filter_cons]
        by_cases hover : debitOverflows tx = true
        · simp [hover, List.count_cons]
        · simp [hover]
      rw [if_pos hx, List.singleton_append, hcredits, hdebits]
      unfold spent received at hrest ⊢
      rw [List.map_cons, List.sum_cons, List.map_cons, List.sum_cons]
      dsimp only
      linarith
    · rw [applyTx_of_not_executes hx] at hrest ⊢
      simpa [hx] using hrest

end Balances

section Chains

variable {P} {w w' : WorldState}

theorem executed_of_skipped {txs : List Transaction} (h : w.skipped txs = []) :
    (w.execution txs).map (·.2) = txs := by
  induction txs generalizing w with
  | nil => rfl
  | cons tx txs ih =>
    obtain ⟨hx, hrest⟩ := skipped_cons_nil.mp h
    rw [execution, if_pos hx, List.singleton_append, List.map_cons, ih hrest]

theorem executed_length (w : WorldState) (txs : List Transaction) :
    ((w.execution txs).map (·.2)).length + (w.skipped txs).length = txs.length := by
  induction txs generalizing w with
  | nil => rfl
  | cons tx txs ih =>
    have hrest := ih (w.applyTx tx)
    rw [execution, skipped, List.map_append, List.length_append, List.length_append, List.length_cons]
    by_cases hx : w.executes tx = true
    · rw [if_pos hx, if_pos hx, List.map_singleton, List.length_singleton, List.length_nil]
      omega
    · rw [if_neg hx, if_neg hx, List.map_nil, List.length_nil, List.length_singleton]
      omega

theorem executed_sublist (w : WorldState) (txs : List Transaction) :
    ((w.execution txs).map (·.2)).Sublist txs := by
  induction txs generalizing w with
  | nil => exact List.Sublist.refl _
  | cons tx txs ih =>
    rw [execution, List.map_append]
    by_cases hx : w.executes tx = true
    · rw [if_pos hx]
      exact (ih (w.applyTx tx)).cons_cons tx
    · rw [if_neg hx]
      exact (ih (w.applyTx tx)).cons tx

theorem executedOfBlocks_of_skipped {blocks : List Block} (h : w.skippedOfBlocks P blocks = []) :
    (w.executionOfBlocks P blocks).map (·.2) = blocks.flatMap (·.transactions) := by
  induction blocks generalizing w with
  | nil => rfl
  | cons block blocks ih =>
    obtain ⟨hfirst, hrest⟩ := List.append_eq_nil_iff.mp h
    rw [executionOfBlocks, List.map_append, executed_of_skipped hfirst, ih hrest, List.flatMap_cons]

theorem wraps_of_ledger {executed executed' : Execution}
    (h : executed.map (fun p => (p.1.ledger, p.2)) = executed'.map (fun p => (p.1.ledger, p.2))) :
    debitWraps executed = debitWraps executed' ∧ creditWraps executed = creditWraps executed' := by
  have hdebits : ∀ executed : Execution, debitWraps executed =
      ((executed.map fun p => (p.1.ledger, p.2)).filter fun p => debitOverflows p.2).map (·.2.from) := by
    intro executed
    rw [List.filter_map, List.map_map]
    rfl
  have hcredits : ∀ executed : Execution, creditWraps executed =
      ((executed.map fun p => (p.1.ledger, p.2)).filter
      fun p => creditOverflows ⟨p.1.1, p.1.2.1, p.1.2.2, ∅⟩ p.2).map (·.2.to) := by
    intro executed
    rw [List.filter_map, List.map_map]
    rfl
  rw [hdebits, hdebits, hcredits, hcredits, h]
  exact ⟨rfl, rfl⟩

theorem mint_root {root : Block} (h : root.header.height = 0) : new.mint P root = genesisState P :=
  if_pos ⟨h, rfl⟩

theorem applyBlocks_from_root {root : Block} (h : root.header.height = 0) (rest : List Block) :
    new.applyBlocks P (root :: rest) = (genesisState P).applyTxs
      ((root :: rest).flatMap (·.transactions)) := by
  rw [← applyBlocks_flat P (genesisState_supply P), applyBlocks_cons, applyBlocks_cons, applyBlock,
    mint_root h, applyBlock, mint_of_supply P (genesisState_supply P)]

theorem executionOfBlocks_from_root {root : Block} (h : root.header.height = 0) (rest : List Block) :
    new.executionOfBlocks P (root :: rest) = (genesisState P).execution
      ((root :: rest).flatMap (·.transactions)) := by
  rw [← executionOfBlocks_flat P (genesisState_supply P), executionOfBlocks, executionOfBlocks, applyBlock,
    mint_root h, applyBlock, mint_of_supply P (genesisState_supply P)]

end Chains

end VelaNetwork.WorldState
