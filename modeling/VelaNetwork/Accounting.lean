import VelaNetwork.Supply
import Mathlib.Data.Int.ModEq

namespace VelaNetwork.WorldState

open Library.FiniteMaps

abbrev Execution := List (WorldState × Transaction)

def received (executed : Execution) (a : Address) : ℤ :=
  (executed.map fun p => if p.2.to = a then (p.2.amount.toNat : ℤ) else 0).sum

def spent (executed : Execution) (a : Address) : ℤ :=
  (executed.map fun p => if p.2.from = a then (p.2.amount.toNat + p.2.fee.toNat : ℤ) else 0).sum

def sentBy (executed : Execution) (a : Address) : ℕ := executed.countP fun p => p.2.from = a

def Keyed (m : Accounts) : Prop := ∀ k account, m.lookup k = some account → k = account.address.hex

def genesisAllocation (P : Primitives) (a : Address) : ℤ :=
  if a = treasuryAddr P then 900000000 else if a = faucetAddr P then 100000000 else 0

structure AccountsFor (P : Primitives) (w : WorldState) (executed : Execution) : Prop where
  balance : ∀ a, ((w.balance a).toNat : ℤ) ≡
    genesisAllocation P a + received executed a - spent executed a [ZMOD 2 ^ 64]
  nonce : ∀ a, (w.nonce a).toNat = sentBy executed a % 2 ^ 64
  totalTxs : w.totalTxs.toNat = executed.length % 2 ^ 64
  debits : ∀ p ∈ executed, p.2.amount + p.2.fee ≤
    ((p.1.accounts.lookup p.2.from.hex).getD (Account.new p.2.from)).balance
  keyed : Keyed w.accounts

section Words

theorem toNat_add_modEq (x y : UInt64) : ((x + y).toNat : ℤ) ≡ x.toNat + y.toNat [ZMOD 2 ^ 64] := by
  rw [UInt64.toNat_add, Int.ModEq]
  omega

theorem toNat_sub_modEq (x y : UInt64) : ((x - y).toNat : ℤ) ≡ x.toNat - y.toNat [ZMOD 2 ^ 64] := by
  have hy := y.toNat_lt
  rw [UInt64.toNat_sub, Int.ModEq]
  omega

end Words

variable {P : Primitives} {w : WorldState} {tx : Transaction}

theorem balance_debited_modEq (w : WorldState) (tx : Transaction) (a : Address) :
    (((w.debited tx).balance a).toNat : ℤ) ≡
      (w.balance a).toNat - (if tx.from = a then (tx.amount.toNat + tx.fee.toNat : ℤ) else 0)
        [ZMOD 2 ^ 64] := by
  rw [balance_debited]
  by_cases ha : a = tx.from
  · rw [if_pos ha, if_pos ha.symm]
    exact (toNat_sub_modEq _ _).trans (Int.ModEq.sub rfl (toNat_add_modEq _ _))
  · rw [if_neg ha, if_neg (Ne.symm ha), Int.sub_zero]

theorem balance_applyTx_modEq (h : w.executes tx = true) (a : Address) :
    (((w.applyTx tx).balance a).toNat : ℤ) ≡
      (w.balance a).toNat + (if tx.to = a then (tx.amount.toNat : ℤ) else 0) -
        (if tx.from = a then (tx.amount.toNat + tx.fee.toNat : ℤ) else 0) [ZMOD 2 ^ 64] := by
  have hdebit := balance_debited_modEq w tx a
  rw [balance_applyTx a h]
  by_cases ha : a = tx.to
  · rw [if_pos ha, if_pos ha.symm]
    have hcredit := (toNat_add_modEq ((w.debited tx).balance a) tx.amount).trans (hdebit.add_right _)
    rwa [sub_add_eq_add_sub] at hcredit
  · rw [if_neg ha, if_neg (Ne.symm ha), Int.add_zero]
    exact hdebit

section Keys

variable {m : Accounts}

theorem Keyed.entry (h : Keyed m) (a : Address) :
    a.hex = ((m.lookup a.hex).getD (Account.new a)).address.hex := by
  cases hlookup : m.lookup a.hex with
  | none => rfl
  | some account => exact h _ account hlookup

theorem Keyed.debit (h : Keyed m) (tx : Transaction) : Keyed (debit m tx) := by
  intro k account hlookup
  rw [lookup_debit] at hlookup
  split at hlookup
  · rename_i hk
    obtain rfl := Option.some.inj hlookup
    exact hk.trans (h.entry tx.from)
  · exact h k account hlookup

theorem Keyed.credit (h : Keyed m) (tx : Transaction) : Keyed (credit m tx) := by
  intro k account hlookup
  rw [lookup_credit] at hlookup
  split at hlookup
  · rename_i hk
    obtain rfl := Option.some.inj hlookup
    exact hk.trans (h.entry tx.to)
  · exact h k account hlookup

theorem Keyed.applyTxs (h : Keyed w.accounts) (txs : List Transaction) : Keyed (w.applyTxs txs).accounts := by
  induction txs generalizing w with
  | nil => exact h
  | cons tx txs ih =>
    rw [applyTxs_cons]
    apply ih
    by_cases hx : w.executes tx = true
    · rw [applyTx_of_executes hx]
      exact (h.debit tx).credit tx
    · rwa [applyTx_of_not_executes hx]

theorem Keyed.insert (h : Keyed m) (account : Account) : Keyed (m.insert account.address.hex account) := by
  intro k account' hlookup
  by_cases hk : k = account.address.hex
  · rw [hk, Finmap.lookup_insert] at hlookup
    obtain rfl := Option.some.inj hlookup
    exact hk
  · rw [Finmap.lookup_insert_of_ne _ hk] at hlookup
    exact h k account' hlookup

theorem genesisState_keyed (P : Primitives) : Keyed (genesisState P).accounts := by
  have hempty : Keyed ∅ := by
    intro k account hlookup
    cases hlookup
  exact (hempty.insert ⟨treasuryAddr P, 900000000, 0⟩).insert ⟨faucetAddr P, 100000000, 0⟩

end Keys

section Run

variable (w : WorldState) (txs : List Transaction) (a : Address)

theorem balance_applyTxs_modEq : (((w.applyTxs txs).balance a).toNat : ℤ) ≡
    (w.balance a).toNat + received (w.execution txs) a - spent (w.execution txs) a [ZMOD 2 ^ 64] := by
  induction txs generalizing w with
  | nil => simp [applyTxs, execution, received, spent]
  | cons tx txs ih =>
    rw [applyTxs_cons, execution]
    by_cases hx : w.executes tx = true
    · have hone := balance_applyTx_modEq hx a
      have hrest := ih (w.applyTx tx)
      simp only [hx, if_true, List.cons_append, List.nil_append, received, spent, List.map_cons,
        List.sum_cons] at hrest ⊢
      refine hrest.trans ?_
      have hsum := (hone.add_right (received ((w.applyTx tx).execution txs) a)).sub_right
        (spent ((w.applyTx tx).execution txs) a)
      refine hsum.trans ?_
      unfold received spent
      rw [Int.ModEq]
      congr 1
      ring
    · rw [applyTx_of_not_executes hx]
      simpa [hx] using ih w

theorem nonce_applyTxs : ((w.applyTxs txs).nonce a).toNat =
    ((w.nonce a).toNat + sentBy (w.execution txs) a) % 2 ^ 64 := by
  induction txs generalizing w with
  | nil =>
    have hlt := (w.nonce a).toNat_lt
    change (w.nonce a).toNat = ((w.nonce a).toNat + 0) % 2 ^ 64
    omega
  | cons tx txs ih =>
    rw [applyTxs_cons, execution]
    by_cases hx : w.executes tx = true
    · have hrest := ih (w.applyTx tx)
      rw [nonce_applyTx a hx] at hrest
      rw [if_pos hx, sentBy, List.singleton_append, List.countP_cons]
      unfold sentBy at hrest
      by_cases ha : a = tx.from
      · subst ha
        rw [if_pos rfl, UInt64.toNat_add, UInt64.toNat_one] at hrest
        rw [hrest, if_pos (decide_eq_true rfl)]
        omega
      · rw [if_neg ha] at hrest
        rw [hrest, if_neg (by simpa using Ne.symm ha)]
        rfl
    · rw [applyTx_of_not_executes hx]
      simpa [hx] using ih w

theorem totalTxs_applyTxs : (w.applyTxs txs).totalTxs.toNat =
    (w.totalTxs.toNat + (w.execution txs).length) % 2 ^ 64 := by
  induction txs generalizing w with
  | nil =>
    have hlt := w.totalTxs.toNat_lt
    change w.totalTxs.toNat = (w.totalTxs.toNat + 0) % 2 ^ 64
    omega
  | cons tx txs ih =>
    rw [applyTxs_cons, execution]
    by_cases hx : w.executes tx = true
    · have hone : (w.applyTx tx).totalTxs = w.totalTxs + 1 := by rw [applyTx_of_executes hx]
      rw [ih, hone, if_pos hx, List.singleton_append, List.length_cons, UInt64.toNat_add, UInt64.toNat_one]
      omega
    · rw [applyTx_of_not_executes hx]
      simpa [hx] using ih w

end Run

theorem genesisState_balance (hkeys : treasuryAddr P ≠ faucetAddr P) (a : Address) :
    (((genesisState P).balance a).toNat : ℤ) = genesisAllocation P a := by
  unfold balance genesisAllocation
  rw [genesisState_lookup]
  by_cases htreasury : a = treasuryAddr P
  · rw [if_neg (htreasury ▸ hkeys), if_pos htreasury, if_pos htreasury]
    rfl
  · rw [if_neg htreasury, if_neg htreasury]
    by_cases hfaucet : a = faucetAddr P
    · rw [if_pos hfaucet, if_pos hfaucet]
      rfl
    · rw [if_neg hfaucet, if_neg hfaucet]
      rfl

theorem accounts_are_ledger (P : Primitives) (hkeys : treasuryAddr P ≠ faucetAddr P) (blocks : List Block) :
    AccountsFor P (new.applyBlocks P (Block.genesis :: blocks))
      (new.executionOfBlocks P (Block.genesis :: blocks)) := by
  rw [applyBlocks_from_genesis, executionOfBlocks_from_genesis]
  constructor
  · intro a
    rw [← genesisState_balance hkeys]
    exact balance_applyTxs_modEq (genesisState P) _ a
  · intro a
    rw [nonce_applyTxs, genesisState_nonce]
    simp
  · rw [totalTxs_applyTxs]
    simp [genesisState, applyGenesis, new]
  · intro p hp
    rw [balance_getD]
    exact of_decide_eq_true (mem_execution p hp).1
  · exact (genesisState_keyed P).applyTxs _

section Runs

theorem accounts_are_ledger_transfer :
    AccountsFor .sample (new.applyBlocks .sample [Block.genesis, transferBlock (treasuryAddr .sample) 500 1])
      (new.executionOfBlocks .sample [Block.genesis, transferBlock (treasuryAddr .sample) 500 1]) :=
  accounts_are_ledger .sample sample_treasury_ne_faucet [transferBlock (treasuryAddr .sample) 500 1]

end Runs

end VelaNetwork.WorldState
