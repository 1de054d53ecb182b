import VelaNetwork.CheckedApply

namespace VelaNetwork.WorldState

open Library.FiniteMaps

variable (P : Primitives)

def Atomic (w : WorldState) (block : Block) : Prop := ∀ w', w.applyBlockChecked P block = .error w' →
  w'.accounts = w.accounts ∧ w'.totalSupply = w.totalSupply ∧ w'.totalTxs = w.totalTxs

structure FitsWhole (w : WorldState) (txs : List Transaction) : Prop where
  sums : ∀ tx ∈ txs, debitOverflows tx = false
  total : w.totalTxs.toNat + (w.execution txs).length < 2 ^ 64

/-- The first transaction that is not skipped is one whose sum overflows, or one of nothing from an account
whose nonce is at its end. -/
def StopsAtOnce (w : WorldState) (txs : List Transaction) : Prop :=
  ∃ before bad after, txs = before ++ bad :: after ∧
    (∀ tx ∈ before, debitOverflows tx = false ∧ w.executes tx = false) ∧
    (debitOverflows bad = true ∨ bad.amount = 0 ∧ bad.fee = 0 ∧ (w.nonce bad.from).toNat + 1 = 2 ^ 64)

section Endings

variable {P} {w : WorldState} {tx : Transaction} {txs : List Transaction}

theorem Bounded.turn_frame (h : Bounded w) (tx : Transaction) :
    (left (w.applyTxChecked tx)).totalSupply = w.totalSupply ∧
      w.totalTxs.toNat ≤ (left (w.applyTxChecked tx)).totalTxs.toNat := by
  cases h.turn tx with
  | applied _ hx hroom heq =>
    rw [heq]
    refine ⟨totalSupply_applyTx w tx, ?_⟩
    exact (totalTxs_applyTx hx hroom).symm ▸ Nat.le_succ _
  | _ =>
    rename_i heq
    rw [heq]
    exact ⟨rfl, Nat.le_refl _⟩

theorem Bounded.txs_frame (h : Bounded w) (txs : List Transaction) :
    (left (w.applyTxsChecked txs)).totalSupply = w.totalSupply ∧
      w.totalTxs.toNat ≤ (left (w.applyTxsChecked txs)).totalTxs.toNat := by
  induction txs generalizing w with
  | nil => exact ⟨rfl, Nat.le_refl _⟩
  | cons tx txs ih =>
    have hturn := h.turn_left tx
    have hframe := h.turn_frame tx
    rw [applyTxsChecked_cons]
    cases heq : w.applyTxChecked tx with
    | ok w' =>
      rw [heq] at hturn hframe
      obtain ⟨hsupply, htotal⟩ := ih hturn
      exact ⟨hsupply.trans hframe.1, Nat.le_trans hframe.2 htotal⟩
    | error w' =>
      rw [heq] at hframe
      exact hframe

theorem execution_cons_length (w : WorldState) (tx : Transaction) (txs : List Transaction) :
    (w.execution (tx :: txs)).length =
      (if w.executes tx then 1 else 0) + ((w.applyTx tx).execution txs).length := by
  rw [execution, List.length_append]
  split <;> rfl

theorem fitsWhole_skipped_iff (hfits : debitOverflows tx = false) (hx : ¬ w.executes tx = true) :
    FitsWhole w (tx :: txs) ↔ FitsWhole w txs := by
  have hlength := execution_cons_length w tx txs
  rw [if_neg hx, applyTx_of_not_executes hx, Nat.zero_add] at hlength
  constructor
  · rintro ⟨hsums, htotal⟩
    exact ⟨fun tx' htx' => hsums tx' (List.mem_cons_of_mem tx htx'), hlength ▸ htotal⟩
  · rintro ⟨hsums, htotal⟩
    exact ⟨List.forall_mem_cons.mpr ⟨hfits, hsums⟩, hlength ▸ htotal⟩

theorem fitsWhole_executed_iff (hfits : debitOverflows tx = false) (hx : w.executes tx = true)
    (hroom : w.totalTxs.toNat + 1 < 2 ^ 64) : FitsWhole w (tx :: txs) ↔ FitsWhole (w.applyTx tx) txs := by
  have hlength := execution_cons_length w tx txs
  have hcount := totalTxs_applyTx hx hroom
  rw [if_pos hx] at hlength
  constructor
  · rintro ⟨hsums, htotal⟩
    exact ⟨fun tx' htx' => hsums tx' (List.mem_cons_of_mem tx htx'), by omega⟩
  · rintro ⟨hsums, htotal⟩
    exact ⟨List.forall_mem_cons.mpr ⟨hfits, hsums⟩, by omega⟩

theorem not_fitsWhole (hx : w.executes tx = true) (hfull : w.totalTxs.toNat + 1 = 2 ^ 64) :
    ¬ FitsWhole w (tx :: txs) := by
  rintro ⟨_, htotal⟩
  rw [execution_cons_length, if_pos hx] at htotal
  omega

theorem Bounded.completes_iff (h : Bounded w) (txs : List Transaction) :
    (∃ w', w.applyTxsChecked txs = .ok w') ↔ FitsWhole w txs := by
  induction txs generalizing w with
  | nil =>
    apply iff_of_true ⟨w, rfl⟩
    exact ⟨fun tx htx => absurd htx List.not_mem_nil, w.totalTxs.toNat_lt⟩
  | cons tx txs ih =>
    rw [applyTxsChecked_cons]
    cases h.turn tx with
    | sum hover heq =>
      rw [heq]
      apply iff_of_false
      · rintro ⟨w', ⟨⟩⟩
      · rintro ⟨hsums, _⟩
        rw [hsums tx List.mem_cons_self] at hover
        cases hover
    | skipped hfits hx heq =>
      rw [heq, fitsWhole_skipped_iff hfits hx]
      exact ih h
    | lastNonce _ hx hfull _ heq =>
      rw [heq]
      exact iff_of_false (by rintro ⟨w', ⟨⟩⟩) (not_fitsWhole hx hfull)
    | lastCount _ hx hfull _ heq =>
      rw [heq]
      exact iff_of_false (by rintro ⟨w', ⟨⟩⟩) (not_fitsWhole hx hfull)
    | applied hfits hx hroom heq =>
      rw [heq, fitsWhole_executed_iff hfits hx hroom]
      exact ih (h.applyTx hfits hx hroom)

theorem not_stopsAtOnce (hfits : debitOverflows tx = false) (hx : w.executes tx = true)
    (hnonce : tx.amount = 0 ∧ tx.fee = 0 → (w.nonce tx.from).toNat + 1 ≠ 2 ^ 64) :
    ¬ StopsAtOnce w (tx :: txs) := by
  rintro ⟨before, bad, after, heq, hbefore, hbad⟩
  cases before with
  | nil =>
    obtain ⟨rfl, rfl⟩ := List.cons_eq_cons.mp heq
    rcases hbad with hover | ⟨hamount, hfee, hlast⟩
    · rw [hfits] at hover
      cases hover
    · exact hnonce ⟨hamount, hfee⟩ hlast
  | cons first before =>
    obtain ⟨rfl, rfl⟩ := List.cons_eq_cons.mp heq
    rw [(hbefore tx List.mem_cons_self).2] at hx
    cases hx

theorem stopsAtOnce_skipped_iff (hfits : debitOverflows tx = false) (hx : ¬ w.executes tx = true) :
    StopsAtOnce w (tx :: txs) ↔ StopsAtOnce w txs := by
  constructor
  · rintro ⟨before, bad, after, heq, hbefore, hbad⟩
    cases before with
    | nil =>
      obtain ⟨rfl, rfl⟩ := List.cons_eq_cons.mp heq
      rcases hbad with hover | ⟨hamount, hfee, _⟩
      · rw [hfits] at hover
        cases hover
      · have hfree : tx.amount + tx.fee ≤ w.balance tx.from := by
          rw [hamount, hfee]
          exact UInt64.le_iff_toNat_le.mpr (Nat.zero_le _)
        exact absurd (decide_eq_true hfree) hx
    | cons first before =>
      obtain ⟨rfl, rfl⟩ := List.cons_eq_cons.mp heq
      exact ⟨before, bad, after, rfl, fun tx' htx' => hbefore tx' (List.mem_cons_of_mem _ htx'), hbad⟩
  · rintro ⟨before, bad, after, rfl, hbefore, hbad⟩
    exact ⟨tx :: before, bad, after, rfl,
      List.forall_mem_cons.mpr ⟨⟨hfits, Bool.eq_false_iff.mpr hx⟩, hbefore⟩, hbad⟩

theorem ledger_paid_iff (hfits : debitOverflows tx = false) (hx : w.executes tx = true)
    (hnonce : (w.nonce tx.from).toNat + 1 = 2 ^ 64) :
    ({ w with accounts := paid w.accounts tx (tx.amount + tx.fee) } : WorldState).ledger = w.ledger ↔
      tx.amount = 0 ∧ tx.fee = 0 := by
  have hcost : tx.amount + tx.fee ≤ w.balance tx.from := of_decide_eq_true hx
  have hsub := UInt64.toNat_sub_of_le _ _ hcost
  have hnat := UInt64.le_iff_toNat_le.mp hcost
  have hsum : (tx.amount + tx.fee).toNat = tx.amount.toNat + tx.fee.toNat := by
    rw [UInt64.toNat_add]
    exact Nat.mod_eq_of_lt (Nat.not_le.mp (of_decide_eq_false hfits))
  constructor
  · intro hsame
    have haccounts : paid w.accounts tx (tx.amount + tx.fee) = w.accounts := congrArg Prod.fst hsame
    have hbalance : w.balance tx.from - (tx.amount + tx.fee) = w.balance tx.from := by
      have hread := congrArg (fun m => ((Finmap.lookup tx.from.hex m).map (·.balance)).getD 0) haccounts
      rw [lookup_paid, if_pos rfl, Option.map_some, Option.getD_some] at hread
      rwa [balance_getD] at hread
    have hnone := congrArg UInt64.toNat hbalance
    exact ⟨UInt64.toNat_inj.mp (by rw [UInt64.toNat_zero]; omega),
      UInt64.toNat_inj.mp (by rw [UInt64.toNat_zero]; omega)⟩
  · rintro ⟨hamount, hfee⟩
    have haccounts : paid w.accounts tx (tx.amount + tx.fee) = w.accounts := by
      rw [hamount, hfee]
      unfold paid upsert
      cases hlookup : w.accounts.lookup tx.from.hex with
      | none =>
        unfold nonce at hnonce
        rw [hlookup] at hnonce
        cases hnonce
      | some account =>
        apply Finmap.ext_lookup
        intro k
        by_cases hk : k = tx.from.hex
        · rw [hk, Finmap.lookup_insert, hlookup]
          exact congrArg some (by simp)
        · rw [Finmap.lookup_insert_of_ne _ hk]
    rw [haccounts]

theorem Bounded.keeps_iff (h : Bounded w) (txs : List Transaction) :
    (∃ w', w.applyTxsChecked txs = .error w' ∧ w'.ledger = w.ledger) ↔ StopsAtOnce w txs := by
  induction txs generalizing w with
  | nil =>
    apply iff_of_false
    · rintro ⟨w', ⟨⟩, _⟩
    · rintro ⟨before, bad, after, heq, _⟩
      exact List.cons_ne_nil _ _ (List.append_eq_nil_iff.mp heq.symm).2
  | cons tx txs ih =>
    rw [applyTxsChecked_cons]
    cases h.turn tx with
    | sum hover heq =>
      rw [heq]
      apply iff_of_true
      · exact ⟨w, rfl, rfl⟩
      · exact ⟨[], tx, txs, rfl, fun tx' htx' => absurd htx' List.not_mem_nil, Or.inl hover⟩
    | skipped hfits hx heq =>
      rw [heq, stopsAtOnce_skipped_iff hfits hx]
      exact ih h
    | lastNonce hfits hx _ hlast heq =>
      rw [heq]
      have hpaid := ledger_paid_iff hfits hx hlast
      by_cases hfree : tx.amount = 0 ∧ tx.fee = 0
      · apply iff_of_true
        · exact ⟨_, rfl, hpaid.mpr hfree⟩
        · exact ⟨[], tx, txs, rfl, fun tx' htx' => absurd htx' List.not_mem_nil,
            Or.inr ⟨hfree.1, hfree.2, hlast⟩⟩
      · apply iff_of_false
        · rintro ⟨w', hw', hledger⟩
          obtain rfl := Except.error.inj hw'
          exact hfree (hpaid.mp hledger)
        · exact not_stopsAtOnce hfits hx fun hnone => absurd hnone hfree
    | lastCount hfits hx _ hbefore heq =>
      -- the nonce of the sender has been counted up
      rw [heq]
      apply iff_of_false
      · rintro ⟨w', hw', hledger⟩
        obtain rfl := Except.error.inj hw'
        have hnonce := nonce_of_ledger hledger tx.from
        have hcounted : (w.applyTx tx).nonce tx.from = w.nonce tx.from + 1 := by
          rw [nonce_applyTx _ hx, if_pos rfl]
        have hsame := congrArg UInt64.toNat (hcounted.symm.trans hnonce)
        rw [UInt64.toNat_add, UInt64.toNat_one] at hsame
        omega
      · exact not_stopsAtOnce hfits hx fun _ hlast => absurd hlast (Nat.ne_of_lt hbefore)
    | applied hfits hx hroom heq =>
      -- the count has gone up, and never comes down again
      rw [heq]
      have hnext := h.applyTx hfits hx hroom
      have hnonce := h.nonce tx.from
      apply iff_of_false
      · rintro ⟨w', hw', hledger⟩
        have htotal := (hnext.txs_frame txs).2
        have hcount := totalTxs_applyTx hx hroom
        have hsame : w'.totalTxs = w.totalTxs := congrArg (fun l => l.2.2) hledger
        change (w.applyTx tx).applyTxsChecked txs = .error w' at hw'
        rw [hw', left, hsame] at htotal
        omega
      · exact not_stopsAtOnce hfits hx fun _ => by omega

theorem Bounded.txs_completed {w w' : WorldState} (h : Bounded w) {txs : List Transaction}
    (hrun : w.applyTxsChecked txs = .ok w') : w' = w.applyTxs txs := by
  induction txs generalizing w with
  | nil => exact (Except.ok.inj hrun).symm
  | cons tx txs ih =>
    rw [applyTxsChecked_cons] at hrun
    cases h.turn tx with
    | skipped _ hx heq =>
      rw [heq] at hrun
      rw [applyTxs_cons, applyTx_of_not_executes hx]
      exact ih h hrun
    | applied hfits hx hroom heq =>
      rw [heq] at hrun
      exact ih (h.applyTx hfits hx hroom) hrun
    | _ =>
      rename_i heq
      rw [heq] at hrun
      cases hrun

end Endings

theorem atomic_iff {w : WorldState} (h : Reachable P w) (block : Block) : Atomic P w block ↔
    FitsWhole (w.mint P block) block.transactions ∨
      ¬ (block.header.height = 0 ∧ w.totalSupply = 0) ∧ StopsAtOnce w block.transactions := by
  have hbounded := h.bounded.mint (P := P) block
  have hcompletes := hbounded.completes_iff block.transactions
  have hsupply := (hbounded.txs_frame block.transactions).1
  unfold Atomic applyBlockChecked
  cases hrun : (w.mint P block).applyTxsChecked block.transactions with
  | ok w' =>
    apply iff_of_true
    · rintro w'' ⟨⟩
    · exact Or.inl (hcompletes.mp ⟨w', hrun⟩)
  | error w' =>
    have hbroken : ¬ FitsWhole (w.mint P block) block.transactions := by
      intro hfits
      obtain ⟨w'', hw''⟩ := hcompletes.mpr hfits
      rw [hrun] at hw''
      cases hw''
    rw [hrun, left] at hsupply
    by_cases hmints : block.header.height = 0 ∧ w.totalSupply = 0
    · apply iff_of_false
      · intro hatomic
        obtain ⟨_, hsame, _⟩ := hatomic w' rfl
        rw [hsame, hmints.2, mint, if_pos hmints] at hsupply
        exact absurd hsupply (show (0 : UInt64) ≠ TOTAL_SUPPLY by decide)
      · rintro (hfits | ⟨hnot, _⟩)
        · exact hbroken hfits
        · exact hnot hmints
    · have hmint : w.mint P block = w := if_neg hmints
      have hkeeps := h.bounded.keeps_iff block.transactions
      rw [hmint] at hrun hbroken
      rw [hrun] at hkeeps
      constructor
      · intro hatomic
        obtain ⟨haccounts, hsame, htotal⟩ := hatomic w' rfl
        refine Or.inr ⟨hmints, hkeeps.mp ⟨w', rfl, ?_⟩⟩
        unfold ledger
        rw [haccounts, hsame, htotal]
      · rintro (hfits | ⟨_, hstops⟩)
        · exact absurd (hmint ▸ hfits) hbroken
        · obtain ⟨w'', hw'', hledger⟩ := hkeeps.mpr hstops
          obtain rfl := Except.error.inj hw''
          rintro w'' hsame
          obtain rfl := Except.error.inj hsame
          rw [eq_of_ledger hledger]
          exact ⟨rfl, rfl, rfl⟩

theorem applyBlockChecked_completed {w w' : WorldState} (h : Reachable P w) {block : Block}
    (hrun : w.applyBlockChecked P block = .ok w') : w' = w.applyBlock P block :=
  (h.bounded.mint block).txs_completed hrun

section Runs

theorem genesisState_reachable (P : Primitives) : Reachable P (genesisState P) :=
  Reachable.new.applied Block.genesis

theorem atomic_transfer :
    Atomic .sample (genesisState .sample) (transferBlock (treasuryAddr .sample) 500 1) :=
  (atomic_iff .sample (genesisState_reachable .sample) _).mpr (Or.inl ⟨by decide +kernel, by decide +kernel⟩)

noncomputable def brokenOff : Block := Block.new .sample 0 1 (Block.genesis.hash .sample)
  [Transaction.new 0 (treasuryAddr .sample) (sampleAddr 7) 500 1 1,
   Transaction.new 0 (sampleAddr 9) (sampleAddr 7) 18446744073709551615 1 1] Address.zero 1

theorem payment_stays : ∃ w, Reachable .sample w ∧ ¬ Atomic .sample w brokenOff := by
  refine ⟨genesisState .sample, genesisState_reachable .sample, fun h => ?_⟩
  have hfails : ((genesisState .sample).applyBlockChecked .sample brokenOff).isOk = false := by decide +kernel
  have hleft : (left ((genesisState .sample).applyBlockChecked .sample brokenOff)).totalTxs = 1 := by
    decide +kernel
  cases hrun : (genesisState .sample).applyBlockChecked .sample brokenOff with
  | ok w' =>
    rw [hrun] at hfails
    cases hfails
  | error w' =>
    rw [hrun, left, (h w' hrun).2.2] at hleft
    exact absurd hleft (show (0 : UInt64) ≠ 1 by decide)

end Runs

end VelaNetwork.WorldState
