import VelaNetwork.WorldState

namespace VelaNetwork.WorldState

open Library.FiniteMaps

variable (P : Primitives)

def ledger (w : WorldState) : Accounts × UInt64 × UInt64 := (w.accounts, w.totalSupply, w.totalTxs)

def debited (w : WorldState) (tx : Transaction) : WorldState := { w with accounts := debit w.accounts tx }

def execution (w : WorldState) : List Transaction → List (WorldState × Transaction)
  | [] => []
  | tx :: txs => (if w.executes tx then [(w, tx)] else []) ++ execution (w.applyTx tx) txs

def executionOfBlocks (w : WorldState) : List Block → List (WorldState × Transaction)
  | [] => []
  | block :: blocks => (w.mint P block).execution block.transactions ++
      executionOfBlocks (w.applyBlock P block) blocks

section Reading

theorem lookup_debit (m : Accounts) (tx : Transaction) (k : String) :
    (debit m tx).lookup k = if k = tx.from.hex then
      some { (m.lookup tx.from.hex).getD (Account.new tx.from) with
        balance := ((m.lookup tx.from.hex).getD (Account.new tx.from)).balance - (tx.amount + tx.fee)
        nonce := ((m.lookup tx.from.hex).getD (Account.new tx.from)).nonce + 1 }
    else m.lookup k := by
  rw [debit, lookup_modify, lookup_upsert]
  by_cases hk : k = tx.from.hex
  · simp [hk]
  · simp [hk, lookup_upsert]

theorem debit_eq_insert (m : Accounts) (tx : Transaction) : debit m tx = m.insert tx.from.hex
    { (m.lookup tx.from.hex).getD (Account.new tx.from) with
      balance := ((m.lookup tx.from.hex).getD (Account.new tx.from)).balance - (tx.amount + tx.fee)
      nonce := ((m.lookup tx.from.hex).getD (Account.new tx.from)).nonce + 1 } := by
  apply Finmap.ext_lookup
  intro k
  rw [lookup_debit]
  by_cases hk : k = tx.from.hex
  · rw [if_pos hk, hk, Finmap.lookup_insert]
  · rw [if_neg hk, Finmap.lookup_insert_of_ne _ hk]

theorem lookup_credit (m : Accounts) (tx : Transaction) (k : String) :
    (credit m tx).lookup k = if k = tx.to.hex then
      some { (m.lookup tx.to.hex).getD (Account.new tx.to) with
        balance := ((m.lookup tx.to.hex).getD (Account.new tx.to)).balance + tx.amount }
    else m.lookup k := lookup_upsert m _ k _ _

theorem balance_getD (m : Accounts) (a b : Address) :
    ((m.lookup a.hex).getD (Account.new b)).balance = ((m.lookup a.hex).map (·.balance)).getD 0 := by
  cases m.lookup a.hex <;> rfl

theorem nonce_getD (m : Accounts) (a b : Address) :
    ((m.lookup a.hex).getD (Account.new b)).nonce = ((m.lookup a.hex).map (·.nonce)).getD 0 := by
  cases m.lookup a.hex <;> rfl

variable (w : WorldState) (tx : Transaction) (a : Address)

theorem balance_debited : (w.debited tx).balance a =
    if a = tx.from then w.balance a - (tx.amount + tx.fee) else w.balance a := by
  unfold balance debited
  rw [lookup_debit]
  by_cases ha : a = tx.from
  · subst ha; simp [balance_getD]
  · simp [ha, Address.hex_inj]

theorem nonce_debited : (w.debited tx).nonce a = if a = tx.from then w.nonce a + 1 else w.nonce a := by
  unfold nonce debited
  rw [lookup_debit]
  by_cases ha : a = tx.from
  · subst ha; simp [nonce_getD]
  · simp [ha, Address.hex_inj]

variable {w tx}

theorem applyTx_of_executes (h : w.executes tx = true) :
    w.applyTx tx = { w with accounts := credit (debit w.accounts tx) tx, totalTxs := w.totalTxs + 1 } :=
      if_pos h

theorem applyTx_of_not_executes (h : ¬ w.executes tx = true) : w.applyTx tx = w := if_neg h

theorem balance_applyTx (h : w.executes tx = true) : (w.applyTx tx).balance a =
    if a = tx.to then (w.debited tx).balance a + tx.amount else (w.debited tx).balance a := by
  rw [applyTx_of_executes h]
  unfold balance debited
  simp only [lookup_credit, Address.hex_inj]
  by_cases ha : a = tx.to
  · subst ha; simp [balance_getD]
  · simp [ha]

theorem nonce_applyTx (h : w.executes tx = true) : (w.applyTx tx).nonce a =
    if a = tx.from then w.nonce a + 1 else w.nonce a := by
  rw [applyTx_of_executes h, ← nonce_debited]
  unfold nonce debited
  simp only [lookup_credit, Address.hex_inj]
  by_cases ha : a = tx.to
  · subst ha; simp [nonce_getD]
  · simp [ha]

theorem totalSupply_applyTx (w : WorldState) (tx : Transaction) :
    (w.applyTx tx).totalSupply = w.totalSupply := by
  unfold applyTx; split <;> rfl

end Reading

section Blocks

theorem applyTxs_cons (w : WorldState) (tx : Transaction) (txs : List Transaction) :
    w.applyTxs (tx :: txs) = (w.applyTx tx).applyTxs txs := rfl

theorem totalSupply_applyTxs (w : WorldState) (txs : List Transaction) :
    (w.applyTxs txs).totalSupply = w.totalSupply := by
  induction txs generalizing w with
  | nil => rfl
  | cons tx txs ih => rw [applyTxs_cons, ih, totalSupply_applyTx]

theorem applyBlocks_cons (w : WorldState) (block : Block) (blocks : List Block) :
    w.applyBlocks P (block :: blocks) = (w.applyBlock P block).applyBlocks P blocks := rfl

theorem applyBlocks_append (w : WorldState) (blocks blocks' : List Block) :
    w.applyBlocks P (blocks ++ blocks') = (w.applyBlocks P blocks).applyBlocks P blocks' := List.foldl_append

theorem executionOfBlocks_append (w : WorldState) (blocks blocks' : List Block) :
    w.executionOfBlocks P (blocks ++ blocks') =
      w.executionOfBlocks P blocks ++ (w.applyBlocks P blocks).executionOfBlocks P blocks' := by
  induction blocks generalizing w with
  | nil => rfl
  | cons block blocks ih => simp only [List.cons_append, executionOfBlocks, ih, List.append_assoc]; rfl

theorem mint_of_supply {w : WorldState} (h : w.totalSupply ≠ 0) (block : Block) : w.mint P block = w :=
  if_neg fun hm => h hm.2

theorem totalSupply_applyBlock {w : WorldState} (h : w.totalSupply ≠ 0) (block : Block) :
    (w.applyBlock P block).totalSupply = w.totalSupply := by
  rw [applyBlock, mint_of_supply P h, totalSupply_applyTxs]

def genesisState : WorldState := new.applyGenesis P

theorem applyBlock_genesis : new.applyBlock P Block.genesis = genesisState P := rfl

theorem genesisState_supply : (genesisState P).totalSupply ≠ 0 := show TOTAL_SUPPLY ≠ 0 by decide

theorem genesisState_lookup (a : Address) : (genesisState P).accounts.lookup a.hex =
    if a = faucetAddr P then some ⟨faucetAddr P, 100000000, 0⟩
    else if a = treasuryAddr P then some ⟨treasuryAddr P, 900000000, 0⟩ else none := by
  change (((∅ : Accounts).insert (treasuryAddr P).hex _).insert (faucetAddr P).hex _).lookup a.hex = _
  by_cases hfaucet : a = faucetAddr P
  · rw [if_pos hfaucet, hfaucet, Finmap.lookup_insert]
  · rw [if_neg hfaucet, Finmap.lookup_insert_of_ne _ (mt Address.hex_inj.mp hfaucet)]
    by_cases htreasury : a = treasuryAddr P
    · rw [if_pos htreasury, htreasury, Finmap.lookup_insert]
    · rw [if_neg htreasury, Finmap.lookup_insert_of_ne _ (mt Address.hex_inj.mp htreasury),
        Finmap.lookup_empty]

theorem genesisState_nonce (a : Address) : (genesisState P).nonce a = 0 := by
  unfold nonce
  rw [genesisState_lookup]
  split
  · rfl
  · split <;> rfl

theorem execution_append (w : WorldState) (txs txs' : List Transaction) :
    w.execution (txs ++ txs') = w.execution txs ++ (w.applyTxs txs).execution txs' := by
  induction txs generalizing w with
  | nil => rfl
  | cons tx txs ih => simp only [List.cons_append, execution, ih, List.append_assoc]; rfl

theorem execution_cases {w : WorldState} {txs : List Transaction} {p : WorldState × Transaction}
    (hp : p ∈ w.execution txs) :
    p.1.executes p.2 = true ∧ ∃ done rest, txs = done ++ p.2 :: rest ∧ p.1 = w.applyTxs done := by
  induction txs generalizing w with
  | nil => exact absurd hp List.not_mem_nil
  | cons tx txs ih =>
    rw [execution, List.mem_append] at hp
    rcases hp with hp | hp
    · split at hp
      · rename_i hx
        rw [List.mem_singleton.mp hp]
        exact ⟨hx, [], txs, rfl, rfl⟩
      · exact absurd hp List.not_mem_nil
    · obtain ⟨hx, done, rest, rfl, hw⟩ := ih hp
      exact ⟨hx, tx :: done, rest, rfl, hw⟩

theorem mem_execution {w : WorldState} {txs : List Transaction} :
    ∀ p ∈ w.execution txs, p.1.executes p.2 = true ∧ p.2 ∈ txs := by
  intro p hp
  obtain ⟨hx, done, rest, rfl, _⟩ := execution_cases hp
  exact ⟨hx, List.mem_append_right done List.mem_cons_self⟩

theorem applyBlocks_flat {w : WorldState} (h : w.totalSupply ≠ 0) (blocks : List Block) :
    w.applyBlocks P blocks = w.applyTxs (blocks.flatMap (·.transactions)) := by
  induction blocks generalizing w with
  | nil => rfl
  | cons block blocks ih =>
    have hsupply : (w.applyBlock P block).totalSupply ≠ 0 := by rwa [totalSupply_applyBlock P h]
    rw [applyBlocks_cons, ih hsupply, applyBlock, mint_of_supply P h, List.flatMap_cons]
    exact List.foldl_append.symm

theorem executionOfBlocks_flat {w : WorldState} (h : w.totalSupply ≠ 0) (blocks : List Block) :
    w.executionOfBlocks P blocks = w.execution (blocks.flatMap (·.transactions)) := by
  induction blocks generalizing w with
  | nil => rfl
  | cons block blocks ih =>
    have hsupply : (w.applyBlock P block).totalSupply ≠ 0 := by rwa [totalSupply_applyBlock P h]
    rw [executionOfBlocks, ih hsupply, applyBlock, mint_of_supply P h, List.flatMap_cons, execution_append]

theorem applyBlocks_from_genesis (blocks : List Block) : new.applyBlocks P (Block.genesis :: blocks) =
    (genesisState P).applyTxs (blocks.flatMap (·.transactions)) := by
  rw [applyBlocks_cons, applyBlock_genesis, applyBlocks_flat P (genesisState_supply P)]

theorem executionOfBlocks_from_genesis (blocks : List Block) :
    new.executionOfBlocks P (Block.genesis :: blocks) =
      (genesisState P).execution (blocks.flatMap (·.transactions)) :=
  executionOfBlocks_flat P (genesisState_supply P) blocks

end Blocks

section Faucet

variable {w w' : WorldState}

theorem eq_of_ledger (h : w.ledger = w'.ledger) : w = { w' with faucetLast := w.faucetLast } := by
  obtain ⟨accounts, totalSupply, totalTxs, faucetLast⟩ := w
  simp only [ledger, Prod.mk.injEq] at h
  obtain ⟨rfl, rfl, rfl⟩ := h
  rfl

theorem executes_of_ledger (h : w.ledger = w'.ledger) (tx : Transaction) :
    w.executes tx = w'.executes tx := by
  rw [eq_of_ledger h]; rfl

theorem totalSupply_of_ledger (h : w.ledger = w'.ledger) : w.totalSupply = w'.totalSupply := by
  rw [eq_of_ledger h]

theorem nonce_of_ledger (h : w.ledger = w'.ledger) (a : Address) : w.nonce a = w'.nonce a := by
  rw [eq_of_ledger h]; rfl

theorem ledger_applyTx (h : w.ledger = w'.ledger) (tx : Transaction) :
    (w.applyTx tx).ledger = (w'.applyTx tx).ledger := by
  have hx := executes_of_ledger h tx
  by_cases hw : w.executes tx = true
  · rw [applyTx_of_executes hw, applyTx_of_executes (hx ▸ hw), eq_of_ledger h]
    rfl
  · rwa [applyTx_of_not_executes hw, applyTx_of_not_executes (hx ▸ hw)]

theorem ledger_applyTxs (h : w.ledger = w'.ledger) (txs : List Transaction) :
    (w.applyTxs txs).ledger = (w'.applyTxs txs).ledger := by
  induction txs generalizing w w' with
  | nil => exact h
  | cons tx txs ih => exact ih (ledger_applyTx h tx)

theorem ledger_mint (h : w.ledger = w'.ledger) (block : Block) :
    (w.mint P block).ledger = (w'.mint P block).ledger := by
  rw [eq_of_ledger h]
  unfold mint
  split <;> rfl

theorem ledger_applyBlock (h : w.ledger = w'.ledger) (block : Block) :
    (w.applyBlock P block).ledger = (w'.applyBlock P block).ledger :=
  ledger_applyTxs (ledger_mint P h block) block.transactions

theorem ledger_applyBlocks (h : w.ledger = w'.ledger) (blocks : List Block) :
    (w.applyBlocks P blocks).ledger = (w'.applyBlocks P blocks).ledger := by
  induction blocks generalizing w w' with
  | nil => exact h
  | cons block blocks ih => exact ih (ledger_applyBlock P h block)

theorem execution_of_ledger (h : w.ledger = w'.ledger) (txs : List Transaction) :
    (w.execution txs).map (fun p => (p.1.ledger, p.2)) =
      (w'.execution txs).map (fun p => (p.1.ledger, p.2)) := by
  induction txs generalizing w w' with
  | nil => rfl
  | cons tx txs ih =>
    simp only [execution, List.map_append, ih (ledger_applyTx h tx), executes_of_ledger h tx]
    by_cases hw : w'.executes tx = true
    · simp [hw, h]
    · simp [hw]

theorem executionOfBlocks_of_ledger (h : w.ledger = w'.ledger) (blocks : List Block) :
    (w.executionOfBlocks P blocks).map (fun p => (p.1.ledger, p.2)) =
      (w'.executionOfBlocks P blocks).map (fun p => (p.1.ledger, p.2)) := by
  induction blocks generalizing w w' with
  | nil => rfl
  | cons block blocks ih =>
    simp only [executionOfBlocks, List.map_append, ih (ledger_applyBlock P h block),
      execution_of_ledger (ledger_mint P h block)]

end Faucet

end VelaNetwork.WorldState
