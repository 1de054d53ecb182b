import VelaNetwork.Supply

namespace VelaNetwork.WorldState

open Library.FiniteMaps

variable (P : Primitives)

def checkedAdd (x y : UInt64) : Option UInt64 := if x.toNat + y.toNat < 2 ^ 64 then some (x + y) else none

def paid (accounts : Accounts) (tx : Transaction) (cost : UInt64) : Accounts :=
  upsert accounts tx.from.hex (Account.new tx.from) fun a => { a with balance := a.balance - cost }

/-- One turn of the loop of `apply_block` with overflow checks; an error is the state that a panic leaves. -/
def applyTxChecked (w : WorldState) (tx : Transaction) : Except WorldState WorldState :=
  match checkedAdd tx.amount tx.fee with
  -- in the balance test, before anything is changed
  | none => .error w
  | some cost =>
    if cost ≤ w.balance tx.from then
      let accounts := paid w.accounts tx cost
      match checkedAdd (((accounts.lookup tx.from.hex).map (·.nonce)).getD 0) 1 with
      -- `a.nonce += 1`, after the debit, which the test has made safe
      | none => .error { w with accounts }
      | some _ =>
        let accounts := modify accounts tx.from.hex fun a => { a with nonce := a.nonce + 1 }
        let opened := upsert accounts tx.to.hex (Account.new tx.to) id
        match checkedAdd (((opened.lookup tx.to.hex).map (·.balance)).getD 0) tx.amount with
        -- the credit, after `or_insert` has put in the account
        | none => .error { w with accounts := opened }
        | some _ =>
          match checkedAdd w.totalTxs 1 with
          | none => .error { w with accounts := credit accounts tx }
          | some totalTxs => .ok { w with accounts := credit accounts tx, totalTxs }
    else .ok w

def applyTxsChecked (w : WorldState) (txs : List Transaction) : Except WorldState WorldState :=
  txs.foldlM applyTxChecked w

def applyBlockChecked (w : WorldState) (block : Block) : Except WorldState WorldState :=
  (w.mint P block).applyTxsChecked block.transactions

def left : Except WorldState WorldState → WorldState
  | .ok w => w
  | .error w => w

inductive Reachable : WorldState → Prop where
  | new : Reachable new
  | applied {w : WorldState} (h : Reachable w) (block : Block) :
      Reachable (left (w.applyBlockChecked P block))
  | marked {w : WorldState} (h : Reachable w) (now : UInt64) (addr : String) :
      Reachable (w.markFaucet now addr)

structure Bounded (w : WorldState) : Prop where
  unfunded : w.totalSupply = 0 → w.totalBalance = 0
  supply : w.totalBalance ≤ TOTAL_SUPPLY.toNat
  nonce : ∀ a, (w.nonce a).toNat ≤ w.totalTxs.toNat

section Turn

variable {w : WorldState} {tx : Transaction}

theorem checkedAdd_some {x y : UInt64} (h : x.toNat + y.toNat < 2 ^ 64) : checkedAdd x y = some (x + y) :=
  if_pos h

theorem checkedAdd_none {x y : UInt64} (h : 2 ^ 64 ≤ x.toNat + y.toNat) : checkedAdd x y = none :=
  if_neg (Nat.not_lt.mpr h)

theorem checkedAdd_cost (h : debitOverflows tx = false) :
    checkedAdd tx.amount tx.fee = some (tx.amount + tx.fee) :=
  checkedAdd_some (Nat.not_le.mp (of_decide_eq_false h))

theorem lookup_paid (m : Accounts) (tx : Transaction) (cost : UInt64) (a : Address) :
    (paid m tx cost).lookup a.hex =
      if a = tx.from then some { (m.lookup tx.from.hex).getD (Account.new tx.from) with
        balance := ((m.lookup tx.from.hex).getD (Account.new tx.from)).balance - cost }
      else m.lookup a.hex := by
  unfold paid
  rw [lookup_upsert]
  simp only [Address.hex_inj]

theorem nonce_paid (w : WorldState) (tx : Transaction) (cost : UInt64) (a : Address) :
    (({ w with accounts := paid w.accounts tx cost } : WorldState).nonce a) = w.nonce a := by
  unfold nonce
  dsimp only
  rw [lookup_paid]
  by_cases ha : a = tx.from
  · rw [if_pos ha, ha, Option.map_some, Option.getD_some]
    exact nonce_getD w.accounts tx.from tx.from
  · rw [if_neg ha]

theorem opened_balance (w : WorldState) (tx : Transaction) :
    (((upsert (debit w.accounts tx) tx.to.hex (Account.new tx.to) id).lookup tx.to.hex).map
      (·.balance)).getD 0 = (w.debited tx).balance tx.to := by
  rw [lookup_upsert, if_pos rfl, Option.map_some, Option.getD_some]
  exact balance_getD (debit w.accounts tx) tx.to tx.to

theorem applyTxChecked_overflow (h : debitOverflows tx = true) : w.applyTxChecked tx = .error w := by
  unfold applyTxChecked
  rw [checkedAdd_none (of_decide_eq_true h)]

theorem applyTxChecked_skipped (hfits : debitOverflows tx = false) (h : ¬ w.executes tx = true) :
    w.applyTxChecked tx = .ok w := by
  unfold applyTxChecked
  rw [checkedAdd_cost hfits]
  exact if_neg fun hle => h (decide_eq_true hle)

theorem applyTxChecked_nonce (hfits : debitOverflows tx = false) (h : w.executes tx = true)
    (hnonce : 2 ^ 64 ≤ (w.nonce tx.from).toNat + 1) :
    w.applyTxChecked tx = .error { w with accounts := paid w.accounts tx (tx.amount + tx.fee) } := by
  have hread := nonce_paid w tx (tx.amount + tx.fee) tx.from
  unfold nonce at hread
  unfold applyTxChecked
  rw [checkedAdd_cost hfits]
  dsimp only
  rw [if_pos (of_decide_eq_true h), hread, checkedAdd_none hnonce]

theorem applyTxChecked_total (hfits : debitOverflows tx = false) (h : w.executes tx = true)
    (hnonce : (w.nonce tx.from).toNat + 1 < 2 ^ 64) (hcredit : w.creditOverflows tx = false) :
    w.applyTxChecked tx = if w.totalTxs.toNat + 1 < 2 ^ 64 then .ok (w.applyTx tx)
      else .error { w with accounts := (w.applyTx tx).accounts } := by
  have hread := nonce_paid w tx (tx.amount + tx.fee) tx.from
  have hopened := opened_balance w tx
  unfold nonce at hread
  unfold applyTxChecked
  rw [checkedAdd_cost hfits]
  dsimp only
  rw [if_pos (of_decide_eq_true h), hread, checkedAdd_some hnonce]
  dsimp only
  change (match
      checkedAdd (((upsert (debit w.accounts tx) _ _ id).lookup tx.to.hex).map _ |>.getD 0) tx.amount with
    | none => _
    | some _ => _) = _
  rw [hopened, checkedAdd_some (Nat.not_le.mp (of_decide_eq_false hcredit)), applyTx_of_executes h]
  dsimp only
  by_cases htotal : w.totalTxs.toNat + 1 < 2 ^ 64
  · rw [if_pos htotal, checkedAdd_some htotal]
    rfl
  · rw [if_neg htotal, checkedAdd_none (Nat.not_lt.mp htotal)]
    rfl

end Turn

section Invariant

variable {P} {w : WorldState} {tx : Transaction}

theorem Bounded.credit_fits (h : Bounded w) (hx : w.executes tx = true) (hfits : debitOverflows tx = false) :
    w.creditOverflows tx = false := WorldState.credit_fits h.supply hx hfits

theorem totalBalance_paid (hx : w.executes tx = true) :
    ({ w with accounts := paid w.accounts tx (tx.amount + tx.fee) } : WorldState).totalBalance ≤
      w.totalBalance := by
  have hcost : tx.amount + tx.fee ≤ w.balance tx.from := of_decide_eq_true hx
  have hsub := UInt64.toNat_sub_of_le _ _ hcost
  have hinsert :=
    total_insert_balance w tx.from { (w.accounts.lookup tx.from.hex).getD (Account.new tx.from) with
    balance := ((w.accounts.lookup tx.from.hex).getD (Account.new tx.from)).balance - (tx.amount + tx.fee) }
  have hnat := UInt64.le_iff_toNat_le.mp hcost
  have hread : ((w.accounts.lookup tx.from.hex).getD (Account.new tx.from)).balance = w.balance tx.from :=
    balance_getD _ _ _
  change ({ w with accounts := paid w.accounts tx (tx.amount + tx.fee) } : WorldState).totalBalance + _ =
    _ + (((w.accounts.lookup tx.from.hex).getD (Account.new tx.from)).balance -
      (tx.amount + tx.fee)).toNat at hinsert
  rw [hread] at hinsert
  omega

/-- How one turn ends: by its first sum, by the test, at the end of the count, or as in the release build. -/
inductive Turn (w : WorldState) (tx : Transaction) : Prop where
  | sum (hover : debitOverflows tx = true) (heq : w.applyTxChecked tx = .error w)
  | skipped (hfits : debitOverflows tx = false) (hx : ¬ w.executes tx = true)
      (heq : w.applyTxChecked tx = .ok w)
  | lastNonce (hfits : debitOverflows tx = false) (hx : w.executes tx = true)
      (hfull : w.totalTxs.toNat + 1 = 2 ^ 64)
      (hlast : (w.nonce tx.from).toNat + 1 = 2 ^ 64)
      (heq : w.applyTxChecked tx = .error { w with accounts := paid w.accounts tx (tx.amount + tx.fee) })
  | lastCount (hfits : debitOverflows tx = false) (hx : w.executes tx = true)
      (hfull : w.totalTxs.toNat + 1 = 2 ^ 64)
      (hbefore : (w.nonce tx.from).toNat + 1 < 2 ^ 64)
      (heq : w.applyTxChecked tx = .error { w with accounts := (w.applyTx tx).accounts })
  | applied (hfits : debitOverflows tx = false) (hx : w.executes tx = true)
      (hroom : w.totalTxs.toNat + 1 < 2 ^ 64)
      (heq : w.applyTxChecked tx = .ok (w.applyTx tx))

theorem Bounded.turn (h : Bounded w) (tx : Transaction) : w.Turn tx := by
  have hnonce := h.nonce tx.from
  have hcount := w.totalTxs.toNat_lt
  cases hfits : debitOverflows tx with
  | true => exact .sum hfits (applyTxChecked_overflow hfits)
  | false =>
    by_cases hx : w.executes tx = true
    · by_cases hlast : 2 ^ 64 ≤ (w.nonce tx.from).toNat + 1
      · exact .lastNonce hfits hx (by omega) (by omega) (applyTxChecked_nonce hfits hx hlast)
      · have hchecked := applyTxChecked_total hfits hx (Nat.not_le.mp hlast) (h.credit_fits hx hfits)
        by_cases htotal : w.totalTxs.toNat + 1 < 2 ^ 64
        · rw [if_pos htotal] at hchecked
          exact .applied hfits hx htotal hchecked
        · rw [if_neg htotal] at hchecked
          exact .lastCount hfits hx (by omega) (by omega) hchecked
    · exact .skipped hfits hx (applyTxChecked_skipped hfits hx)

theorem totalTxs_applyTx (hx : w.executes tx = true) (htotal : w.totalTxs.toNat + 1 < 2 ^ 64) :
    (w.applyTx tx).totalTxs.toNat = w.totalTxs.toNat + 1 := by
  rw [applyTx_of_executes hx]
  change (w.totalTxs + 1).toNat = _
  rw [UInt64.toNat_add, UInt64.toNat_one, Nat.mod_eq_of_lt htotal]

theorem Bounded.applyTx (h : Bounded w) (hfits : debitOverflows tx = false) (hx : w.executes tx = true)
    (htotal : w.totalTxs.toNat + 1 < 2 ^ 64) : Bounded (w.applyTx tx) := by
  have hle := totalBalance_applyTx_le (w := w) hfits
  refine ⟨fun hzero => ?_, Nat.le_trans hle h.supply, fun a => ?_⟩
  · rw [totalSupply_applyTx] at hzero
    have hnone := h.unfunded hzero
    omega
  · have hnonce := h.nonce a
    rw [totalTxs_applyTx hx htotal, nonce_applyTx a hx]
    split
    · rw [UInt64.toNat_add, UInt64.toNat_one]
      omega
    · omega

theorem Bounded.turn_left (h : Bounded w) (tx : Transaction) : Bounded (left (w.applyTxChecked tx)) := by
  cases h.turn tx with
  | sum _ heq =>
    rw [heq]
    exact h
  | skipped _ _ heq =>
    rw [heq]
    exact h
  | lastNonce _ hx _ _ heq =>
    have hle := totalBalance_paid hx
    rw [heq]
    refine ⟨fun hzero => ?_, Nat.le_trans hle h.supply, fun a => ?_⟩
    · have hnone := h.unfunded hzero
      exact Nat.le_zero.mp (hnone ▸ hle)
    · exact (congrArg UInt64.toNat (nonce_paid w tx _ a)).trans_le (h.nonce a)
  | lastCount hfits _ hfull _ heq =>
    have hle := totalBalance_applyTx_le (w := w) hfits
    rw [heq]
    refine ⟨fun hzero => ?_, Nat.le_trans hle h.supply, fun a => ?_⟩
    · have hnone := h.unfunded hzero
      exact Nat.le_zero.mp (hnone ▸ hle)
    · -- the count is at its end, so it bounds any nonce
      have hlt := (({ w with accounts := (w.applyTx tx).accounts } : WorldState).nonce a).toNat_lt
      change (({ w with accounts := (w.applyTx tx).accounts } : WorldState).nonce a).toNat ≤ w.totalTxs.toNat
      omega
  | applied hfits hx hroom heq =>
    rw [heq]
    exact h.applyTx hfits hx hroom

theorem applyTxsChecked_cons (w : WorldState) (tx : Transaction) (txs : List Transaction) :
    w.applyTxsChecked (tx :: txs) = match w.applyTxChecked tx with
      | .ok w' => w'.applyTxsChecked txs
      | .error w' => .error w' := by
  unfold applyTxsChecked
  rw [List.foldlM_cons]
  cases w.applyTxChecked tx <;> rfl

theorem Bounded.txs_left (h : Bounded w) (txs : List Transaction) :
    Bounded (left (w.applyTxsChecked txs)) := by
  induction txs generalizing w with
  | nil => exact h
  | cons tx txs ih =>
    have hturn := h.turn_left tx
    rw [applyTxsChecked_cons]
    cases heq : w.applyTxChecked tx with
    | ok w' =>
      rw [heq] at hturn
      exact ih hturn
    | error w' =>
      rw [heq] at hturn
      exact hturn

theorem Bounded.mint (h : Bounded w) (block : Block) : Bounded (w.mint P block) := by
  by_cases hmints : block.header.height = 0 ∧ w.totalSupply = 0
  · have htreasury := total_insert_balance w (treasuryAddr P) ⟨treasuryAddr P, 900000000, 0⟩
    have hfaucet := total_insert_balance
      { w with accounts := w.accounts.insert (treasuryAddr P).hex ⟨treasuryAddr P, 900000000, 0⟩ }
      (faucetAddr P) ⟨faucetAddr P, 100000000, 0⟩
    have hnone := h.unfunded hmints.2
    rw [WorldState.mint, if_pos hmints]
    refine ⟨fun hzero => absurd hzero (show TOTAL_SUPPLY ≠ 0 by decide), ?_, fun a => ?_⟩
    · have h₁ : (900000000 : UInt64).toNat = 900000000 := by decide
      have h₂ : (100000000 : UInt64).toNat = 100000000 := by decide
      have h₃ : TOTAL_SUPPLY.toNat = 1000000000 := by decide
      change total _ ((w.accounts.insert _ _).insert _ _) ≤ _
      change total _ ((w.accounts.insert _ _).insert _ _) + _ = total _ (w.accounts.insert _ _) + _ at hfaucet
      dsimp only at htreasury hfaucet
      omega
    · have hold := h.nonce a
      unfold WorldState.nonce at hold ⊢
      unfold applyGenesis
      dsimp only
      by_cases hf : a = faucetAddr P
      · rw [hf, Finmap.lookup_insert]
        exact Nat.zero_le _
      · rw [Finmap.lookup_insert_of_ne _ (mt Address.hex_inj.mp hf)]
        by_cases ht : a = treasuryAddr P
        · rw [ht, Finmap.lookup_insert]
          exact Nat.zero_le _
        · rw [Finmap.lookup_insert_of_ne _ (mt Address.hex_inj.mp ht)]
          exact hold
  · rw [WorldState.mint, if_neg hmints]
    exact h

theorem Reachable.bounded (h : Reachable P w) : Bounded w := by
  induction h with
  | new =>
    refine ⟨fun _ => total_empty _, ?_, fun a => Nat.zero_le _⟩
    exact (total_empty _).trans_le (Nat.zero_le _)
  | applied _ block ih => exact (ih.mint block).txs_left block.transactions
  | marked _ now addr ih => exact ⟨ih.unfunded, ih.supply, ih.nonce⟩

end Invariant

end VelaNetwork.WorldState
