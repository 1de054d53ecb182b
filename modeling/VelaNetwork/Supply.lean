import VelaNetwork.Ledger
import VelaNetwork.Sample

namespace VelaNetwork.WorldState

open Library.FiniteMaps

def totalBalance (w : WorldState) : ℕ := total (fun a => a.balance.toNat) w.accounts

def debitOverflows (tx : Transaction) : Bool := 2 ^ 64 ≤ tx.amount.toNat + tx.fee.toNat

def creditOverflows (w : WorldState) (tx : Transaction) : Bool :=
  2 ^ 64 ≤ ((w.debited tx).balance tx.to).toNat + tx.amount.toNat

theorem totalBalance_of_ledger {w w' : WorldState} (h : w.ledger = w'.ledger) :
    w.totalBalance = w'.totalBalance := by
  rw [eq_of_ledger h]; rfl

theorem weight_eq_balance (w : WorldState) (a : Address) :
    ((w.accounts.lookup a.hex).map fun acc => acc.balance.toNat).getD 0 = (w.balance a).toNat := by
  unfold balance
  cases w.accounts.lookup a.hex <;> rfl

theorem total_insert_balance (w : WorldState) (a : Address) (acc : Account) :
    total (fun acc => acc.balance.toNat) (w.accounts.insert a.hex acc) + (w.balance a).toNat =
      w.totalBalance + acc.balance.toNat := by
  rw [← weight_eq_balance]
  exact total_insert (fun acc : Account => acc.balance.toNat) w.accounts a.hex acc

theorem totalBalance_debited {w : WorldState} {tx : Transaction} (h : w.executes tx = true) :
    (w.debited tx).totalBalance + (tx.amount + tx.fee).toNat = w.totalBalance := by
  have hle : tx.amount + tx.fee ≤ w.balance tx.from := by simpa [executes] using h
  have hnat := UInt64.le_iff_toNat_le.mp hle
  have hsub := UInt64.toNat_sub_of_le _ _ hle
  have hinsert := total_insert_balance w tx.from
    { (w.accounts.lookup tx.from.hex).getD (Account.new tx.from) with
      balance := ((w.accounts.lookup tx.from.hex).getD (Account.new tx.from)).balance - (tx.amount + tx.fee)
      nonce := ((w.accounts.lookup tx.from.hex).getD (Account.new tx.from)).nonce + 1 }
  rw [← debit_eq_insert] at hinsert
  simp only [balance_getD] at hinsert
  change (w.debited tx).totalBalance + _ = _ + (w.balance tx.from - (tx.amount + tx.fee)).toNat at hinsert
  omega

theorem totalBalance_credited {w : WorldState} {tx : Transaction} (h : w.executes tx = true) :
    (w.applyTx tx).totalBalance + (if w.creditOverflows tx then 2 ^ 64 else 0) =
      (w.debited tx).totalBalance + tx.amount.toNat := by
  have hadd : (if w.creditOverflows tx then 2 ^ 64 else 0) +
      ((w.debited tx).balance tx.to + tx.amount).toNat =
      ((w.debited tx).balance tx.to).toNat + tx.amount.toNat := by
    have hb := ((w.debited tx).balance tx.to).toNat_lt
    have ha := tx.amount.toNat_lt
    rw [UInt64.toNat_add]
    simp only [creditOverflows, decide_eq_true_eq]
    split <;> omega
  have hinsert := total_insert_balance (w.debited tx) tx.to
    { ((w.debited tx).accounts.lookup tx.to.hex).getD (Account.new tx.to) with
      balance := (((w.debited tx).accounts.lookup tx.to.hex).getD (Account.new tx.to)).balance + tx.amount }
  have hcredit : (w.applyTx tx).totalBalance = total (fun acc => acc.balance.toNat)
      ((w.debited tx).accounts.insert tx.to.hex
        { ((w.debited tx).accounts.lookup tx.to.hex).getD (Account.new tx.to) with
          balance := (((w.debited tx).accounts.lookup tx.to.hex).getD (Account.new tx.to)).balance +
            tx.amount }) := by
    rw [applyTx_of_executes h]; rfl
  rw [← hcredit] at hinsert
  simp only [balance_getD] at hinsert
  change (w.applyTx tx).totalBalance + _ = _ + ((w.debited tx).balance tx.to + tx.amount).toNat at hinsert
  omega

theorem totalBalance_applyTx {w : WorldState} {tx : Transaction} (h : w.executes tx = true) :
    (w.applyTx tx).totalBalance + tx.fee.toNat + (if w.creditOverflows tx then 2 ^ 64 else 0) =
      w.totalBalance + (if debitOverflows tx then 2 ^ 64 else 0) := by
  have hdebit := totalBalance_debited h
  have hcredit := totalBalance_credited h
  have hsum : (tx.amount + tx.fee).toNat + (if debitOverflows tx then 2 ^ 64 else 0) =
      tx.amount.toNat + tx.fee.toNat := by
    have ha := tx.amount.toNat_lt
    have hf := tx.fee.toNat_lt
    rw [UInt64.toNat_add]
    simp only [debitOverflows, decide_eq_true_eq]
    split <;> omega
  omega

def fees (executed : List (WorldState × Transaction)) : ℕ := (executed.map fun p => p.2.fee.toNat).sum

theorem fees_append (executed executed' : List (WorldState × Transaction)) :
    fees (executed ++ executed') = fees executed + fees executed' := by
  unfold fees
  rw [List.map_append, List.sum_append]

theorem totalBalance_genesisState (P : Primitives) (hkeys : treasuryAddr P ≠ faucetAddr P) :
    (genesisState P).totalBalance = TOTAL_SUPPLY.toNat := by
  have hne : (faucetAddr P).hex ≠ (treasuryAddr P).hex := fun h => hkeys (Address.hex_inj.mp h).symm
  have hfirst := total_insert (fun a : Account => a.balance.toNat) ∅ (treasuryAddr P).hex
    ⟨treasuryAddr P, 900000000, 0⟩
  have hsecond := total_insert (fun a : Account => a.balance.toNat)
    ((∅ : Accounts).insert (treasuryAddr P).hex ⟨treasuryAddr P, 900000000, 0⟩) (faucetAddr P).hex
    ⟨faucetAddr P, 100000000, 0⟩
  rw [Finmap.lookup_insert_of_ne _ hne] at hsecond
  simp only [Finmap.lookup_empty, Option.map_none, Option.getD_none, total_empty] at hfirst hsecond
  have h₁ : (900000000 : UInt64).toNat = 900000000 := by decide
  have h₂ : (100000000 : UInt64).toNat = 100000000 := by decide
  have h₃ : TOTAL_SUPPLY.toNat = 1000000000 := by decide
  change total _ (((∅ : Accounts).insert _ _).insert _ _) = _
  omega

section Bounded

variable {w : WorldState} {tx : Transaction}

theorem balance_le_totalBalance (w : WorldState) (a : Address) : (w.balance a).toNat ≤ w.totalBalance := by
  rw [← weight_eq_balance]
  exact weight_le_total _ _ _

theorem credit_fits (hw : w.totalBalance ≤ TOTAL_SUPPLY.toNat) (h : w.executes tx = true)
    (hfits : debitOverflows tx = false) : w.creditOverflows tx = false := by
  have hdebit := totalBalance_debited h
  have hto := balance_le_totalBalance (w.debited tx) tx.to
  have hsum : (tx.amount + tx.fee).toNat = tx.amount.toNat + tx.fee.toNat := by
    rw [UInt64.toNat_add]
    simp only [debitOverflows, decide_eq_false_iff_not] at hfits
    omega
  have hsupply : TOTAL_SUPPLY.toNat = 1000000000 := by decide
  simp only [creditOverflows, decide_eq_false_iff_not]
  omega

theorem totalBalance_applyTx_le (hfits : debitOverflows tx = false) :
    (w.applyTx tx).totalBalance ≤ w.totalBalance := by
  by_cases h : w.executes tx = true
  · have hone := totalBalance_applyTx h
    rw [hfits] at hone
    simp only [Bool.false_eq_true, if_false] at hone
    omega
  · rw [applyTx_of_not_executes h]

theorem totalBalance_applyTxs_le {txs : List Transaction} (hfits : ∀ tx ∈ txs, debitOverflows tx = false) :
    (w.applyTxs txs).totalBalance ≤ w.totalBalance := by
  induction txs generalizing w with
  | nil => exact Nat.le_refl _
  | cons tx txs ih =>
    rw [applyTxs_cons]
    apply Nat.le_trans (ih (fun t ht => hfits t (List.mem_cons_of_mem _ ht)))
    exact totalBalance_applyTx_le (hfits tx List.mem_cons_self)

theorem totalBalance_execution_le {txs : List Transaction} (hfits : ∀ tx ∈ txs, debitOverflows tx = false) :
    ∀ p ∈ w.execution txs, p.1.totalBalance ≤ w.totalBalance := by
  intro p hp
  obtain ⟨_, done, rest, rfl, hw⟩ := execution_cases hp
  rw [hw]
  exact totalBalance_applyTxs_le fun tx htx => hfits tx (List.mem_append_left _ htx)

theorem conserved_of_paired {txs : List Transaction} (hw : w.totalBalance ≤ TOTAL_SUPPLY.toNat)
    (hpaired : ∀ p ∈ w.execution txs, debitOverflows p.2 = true → p.1.creditOverflows p.2 = true) :
    (w.applyTxs txs).totalBalance + fees (w.execution txs) = w.totalBalance := by
  induction txs generalizing w with
  | nil => rfl
  | cons tx txs ih =>
    rw [execution] at hpaired ⊢
    rw [applyTxs_cons]
    by_cases hx : w.executes tx = true
    · rw [if_pos hx, List.singleton_append] at hpaired ⊢
      have hone := totalBalance_applyTx hx
      have hsame : w.creditOverflows tx = debitOverflows tx := by
        cases hdebit : debitOverflows tx with
        | false => exact credit_fits hw hx hdebit
        | true => exact hpaired (w, tx) List.mem_cons_self hdebit
      rw [hsame] at hone
      have hrest := ih (w := w.applyTx tx) (by omega) fun p hp => hpaired p (List.mem_cons_of_mem _ hp)
      have hfees : fees ((w, tx) :: (w.applyTx tx).execution txs) =
          tx.fee.toNat + fees ((w.applyTx tx).execution txs) := rfl
      omega
    · rw [if_neg hx, List.nil_append] at hpaired ⊢
      rw [applyTx_of_not_executes hx] at hpaired ⊢
      exact ih hw hpaired

end Bounded

section Chains

variable (P : Primitives)

def SupplyConserved (blocks : List Block) : Prop :=
  (new.applyBlocks P (Block.genesis :: blocks)).totalBalance +
      fees (new.executionOfBlocks P (Block.genesis :: blocks)) = TOTAL_SUPPLY.toNat

/-- At every cut of the chain, also in the middle of a block. -/
def SupplyKept (blocks : List Block) : Prop :=
  ∀ cut : List Block, cut.flatMap (·.transactions) <+: blocks.flatMap (·.transactions) → SupplyConserved P cut

/-- A transaction that executes and overflows its sum takes as much from its recipient as it makes. -/
def OverflowsPaired (blocks : List Block) : Prop :=
  ∀ p ∈ new.executionOfBlocks P (Block.genesis :: blocks),
    debitOverflows p.2 = true → p.1.creditOverflows p.2 = true

variable {P}

theorem supplyConserved_flat (hkeys : treasuryAddr P ≠ faucetAddr P) (blocks : List Block) :
    SupplyConserved P blocks ↔
      ((genesisState P).applyTxs (blocks.flatMap (·.transactions))).totalBalance +
        fees ((genesisState P).execution (blocks.flatMap (·.transactions))) =
          (genesisState P).totalBalance := by
  unfold SupplyConserved
  rw [applyBlocks_from_genesis, executionOfBlocks_from_genesis, totalBalance_genesisState P hkeys]

theorem SupplyKept.at_prefix {blocks : List Block} (h : SupplyKept P blocks)
    (hkeys : treasuryAddr P ≠ faucetAddr P) (done rest : List Transaction)
    (hcut : blocks.flatMap (·.transactions) = done ++ rest) :
    ((genesisState P).applyTxs done).totalBalance + fees ((genesisState P).execution done) =
      (genesisState P).totalBalance := by
  have hflat : [{ Block.genesis with transactions := done }].flatMap (·.transactions) = done :=
    List.append_nil done
  have hdone := h [{ Block.genesis with transactions := done }] (by rw [hflat, hcut]; exact ⟨rest, rfl⟩)
  rwa [supplyConserved_flat hkeys, hflat] at hdone

theorem supply_conserved_iff (P : Primitives) (hkeys : treasuryAddr P ≠ faucetAddr P) (blocks : List Block) :
    SupplyKept P blocks ↔ OverflowsPaired P blocks := by
  unfold OverflowsPaired
  rw [executionOfBlocks_from_genesis]
  constructor
  · intro hkept p hp hdebit
    obtain ⟨hx, done, rest, hcut, hw⟩ := execution_cases hp
    have hbefore := hkept.at_prefix hkeys done (p.2 :: rest) hcut
    have hafter := hkept.at_prefix hkeys (done ++ [p.2]) rest (by rw [hcut, List.append_cons])
    have hone := totalBalance_applyTx hx
    rw [← hw] at hbefore
    have hstate : (genesisState P).applyTxs (done ++ [p.2]) = p.1.applyTx p.2 := by
      rw [hw]
      exact List.foldl_append
    have hlast : p.1.execution [p.2] = [(p.1, p.2)] := by simp [execution, hx]
    rw [hstate, execution_append, ← hw, hlast, fees_append] at hafter
    have hfee : fees [(p.1, p.2)] = p.2.fee.toNat := Nat.add_zero _
    rw [hdebit, if_pos rfl] at hone
    by_contra hcredit
    rw [if_neg hcredit] at hone
    omega
  · intro hpaired cut hcut
    obtain ⟨rest, hrest⟩ := hcut
    rw [supplyConserved_flat hkeys]
    apply conserved_of_paired (Nat.le_of_eq (totalBalance_genesisState P hkeys))
    intro p hp
    apply hpaired p
    rw [← hrest, execution_append]
    exact List.mem_append_left _ hp

end Chains

section Runs

theorem sample_treasury_ne_faucet : treasuryAddr .sample ≠ faucetAddr .sample := by decide +kernel

noncomputable def transferBlock (sender : Address) (amount fee : UInt64) : Block :=
  Block.new .sample 0 1 (Block.genesis.hash .sample)
    [Transaction.new 0 sender (sampleAddr 7) amount fee 1] Address.zero 1

theorem supply_not_conserved :
    ¬ SupplyConserved .sample [transferBlock (sampleAddr 9) 18446744073709551615 1] := by
  unfold SupplyConserved
  decide +kernel

theorem supply_conserved_transfer :
    SupplyKept .sample [transferBlock (treasuryAddr .sample) 500 1,
      transferBlock (treasuryAddr .sample) 18446744073709551615 11] :=
  (supply_conserved_iff .sample sample_treasury_ne_faucet _).mpr (by unfold OverflowsPaired; decide +kernel)

end Runs

end VelaNetwork.WorldState
