import VelaNetwork.Queries
import VelaNetwork.Balances
import VelaNetwork.Effects

namespace VelaNetwork

open Library.ByteStrings Library.Runs

variable (P : Primitives)

section Entries

def entries (blocks : List Block) : List TxEntry :=
  blocks.flatMap fun block => block.transactions.map (txEntry P block)

def effectiveEntries (w : WorldState) : List Block → List TxEntry
  | [] => []
  | block :: blocks =>
      (w.executedIn P block).map (txEntry P block) ++ effectiveEntries (w.applyBlock P block) blocks

def TxEntry.names (address : String) (entry : TxEntry) : Bool :=
  entry.from = "vela:" ++ address ∨ entry.to = "vela:" ++ address

def earned (shown : List TxEntry) (a : Address) : ℤ :=
  (shown.map fun entry => if entry.to = "vela:" ++ a.hex then (entry.amount.toNat : ℤ) else 0).sum

def paid (shown : List TxEntry) (a : Address) : ℤ :=
  (shown.map fun entry => if entry.from = "vela:" ++ a.hex then
    (entry.amount.toNat + entry.fee.toNat : ℤ) else 0).sum

variable {P} {w : WorldState}

theorem vela_append_inj {s s' : String} : "vela:" ++ s = "vela:" ++ s' ↔ s = s' := by
  rw [← String.toList_inj, String.toList_append, String.toList_append, List.append_cancel_left_eq,
    String.toList_inj]

theorem vela_hex_inj {a b : Address} : "vela:" ++ a.hex = "vela:" ++ b.hex ↔ a = b :=
  vela_append_inj.trans Address.hex_inj

theorem getTransactions_eq (s : NodeState) (address : String) :
    (getTransactions P s address).transactions =
      (entries P s.blocks).filter (TxEntry.names (trimmed address)) := by
  unfold getTransactions entries
  rw [List.filter_flatMap]
  apply List.flatMap_congr
  intro block _
  rw [List.filter_map]
  congr 2
  funext tx
  simp only [Function.comp_apply, TxEntry.names, txEntry, vela_append_inj]

theorem mem_entries_of_getTx {s : NodeState} {hash : String} {entry : TxEntry}
    (h : getTx P s hash = .ok entry) :
    entry ∈ entries P s.blocks := by
  unfold getTx at h
  split at h
  · rename_i found hfound
    obtain rfl := Except.ok.inj h
    obtain ⟨block, hblock, hmap⟩ := List.exists_of_findSome?_eq_some hfound
    obtain ⟨tx, htx, rfl⟩ := Option.map_eq_some_iff.mp hmap
    exact List.mem_flatMap.mpr ⟨block, hblock, List.mem_map_of_mem (List.mem_of_find?_eq_some htx)⟩
  · cases h

theorem effectiveEntries_sublist (w : WorldState) (blocks : List Block) :
    (effectiveEntries P w blocks).Sublist (entries P blocks) := by
  induction blocks generalizing w with
  | nil => exact List.Sublist.refl _
  | cons block blocks ih =>
    exact ((WorldState.executed_sublist _ _).map _).append (ih (w.applyBlock P block))

theorem effectiveEntries_length (w : WorldState) (blocks : List Block) :
    (effectiveEntries P w blocks).length + (w.skippedOfBlocks P blocks).length =
      (entries P blocks).length := by
  induction blocks generalizing w with
  | nil => rfl
  | cons block blocks ih =>
    have hblock := WorldState.executed_length (w.mint P block) block.transactions
    have hrest := ih (w.applyBlock P block)
    rw [effectiveEntries, WorldState.skippedOfBlocks, entries, List.flatMap_cons]
    rw [List.length_append, List.length_append, List.length_append, List.length_map, List.length_map]
    unfold WorldState.executedIn
    unfold entries at hrest
    omega

theorem effectiveEntries_eq_iff {blocks : List Block} :
    effectiveEntries P w blocks = entries P blocks ↔ w.skippedOfBlocks P blocks = [] := by
  have hlength := effectiveEntries_length (P := P) w blocks
  constructor
  · intro heq
    rw [heq] at hlength
    exact List.length_eq_zero_iff.mp (by omega)
  · intro hskipped
    rw [hskipped, List.length_nil] at hlength
    exact (effectiveEntries_sublist w blocks).eq_of_length hlength

theorem effective_of_histories {blocks : List Block}
    (h : ∀ a : Address, ((entries P blocks).filter (TxEntry.names a.hex)).Sublist
      (effectiveEntries P w blocks)) :
    effectiveEntries P w blocks = entries P blocks := by
  have hsubperm : (entries P blocks).Subperm (effectiveEntries P w blocks) := by
    rw [List.subperm_ext_iff]
    intro entry hentry
    obtain ⟨block, _, htx⟩ := List.mem_flatMap.mp hentry
    obtain ⟨tx, _, rfl⟩ := List.mem_map.mp htx
    have hnames : TxEntry.names tx.from.hex (txEntry P block tx) = true := decide_eq_true (Or.inl rfl)
    rw [← List.count_filter hnames]
    exact (h tx.from).count_le _
  exact (effectiveEntries_sublist w blocks).eq_of_length_le hsubperm.length_le

theorem sum_filter_names {a : Address} {g : TxEntry → ℤ}
    (hg : ∀ entry, ¬ entry.names a.hex = true → g entry = 0) (shown : List TxEntry) :
    ((shown.filter (TxEntry.names a.hex)).map g).sum = (shown.map g).sum := by
  induction shown with
  | nil => rfl
  | cons entry rest ih =>
    rw [List.filter_cons, List.map_cons, List.sum_cons]
    split
    · rw [List.map_cons, List.sum_cons, ih]
    · rename_i hnames
      rw [ih, hg entry hnames, zero_add]

theorem earned_filter (shown : List TxEntry) (a : Address) :
    earned (shown.filter (TxEntry.names a.hex)) a = earned shown a := by
  apply sum_filter_names
  intro entry hnames
  exact if_neg fun hto => hnames (decide_eq_true (Or.inr hto))

theorem paid_filter (shown : List TxEntry) (a : Address) :
    paid (shown.filter (TxEntry.names a.hex)) a = paid shown a := by
  apply sum_filter_names
  intro entry hnames
  exact if_neg fun hfrom => hnames (decide_eq_true (Or.inl hfrom))

theorem sum_entries {blocks : List Block} (h : w.skippedOfBlocks P blocks = []) {g : TxEntry → ℤ}
    {f : Transaction → ℤ} (hg : ∀ block tx, g (txEntry P block tx) = f tx) :
    ((entries P blocks).map g).sum = ((w.executionOfBlocks P blocks).map fun p => f p.2).sum := by
  have hexecuted : (w.executionOfBlocks P blocks).map (fun p => f p.2) =
      (blocks.flatMap (·.transactions)).map f := by
    rw [← WorldState.executedOfBlocks_of_skipped h, List.map_map]
    rfl
  have hentries : (entries P blocks).map g = (blocks.flatMap (·.transactions)).map f := by
    unfold entries
    rw [List.map_flatMap, List.map_flatMap]
    apply List.flatMap_congr
    intro block _
    rw [List.map_map]
    exact List.map_congr_left fun tx _ => hg block tx
  rw [hexecuted, hentries]

theorem earned_entries {blocks : List Block} (h : w.skippedOfBlocks P blocks = []) (a : Address) :
    earned (entries P blocks) a = WorldState.received (w.executionOfBlocks P blocks) a := by
  apply sum_entries h (f := fun tx => if tx.to = a then (tx.amount.toNat : ℤ) else 0)
  intro block tx
  simp only [txEntry, vela_hex_inj]

theorem paid_entries {blocks : List Block} (h : w.skippedOfBlocks P blocks = []) (a : Address) :
    paid (entries P blocks) a = WorldState.spent (w.executionOfBlocks P blocks) a := by
  apply sum_entries h (f := fun tx => if tx.from = a then (tx.amount.toNat + tx.fee.toNat : ℤ) else 0)
  intro block tx
  simp only [txEntry, vela_hex_inj]

end Entries

structure Reconciles (s : NodeState) : Prop where
  balance : ∀ a : Address, (((WorldState.genesisState P).balance a).toNat : ℤ) +
      earned (getTransactions P s a.hex).transactions a - paid (getTransactions P s a.hex).transactions a =
    (getBalance s a.hex).balance.toNat
  shown : ∀ a : Address, (getTransactions P s a.hex).transactions.Sublist (effectiveEntries P .new s.blocks)
  found : ∀ hash entry, getTx P s hash = .ok entry → entry ∈ effectiveEntries P .new s.blocks

/-- The blocks have no transaction that their balance test skips, and each account gains by wrapping debits
what it loses by wrapping credits. -/
structure Honoured (w : WorldState) (blocks : List Block) : Prop where
  executed : w.skippedOfBlocks P blocks = []
  wraps : (WorldState.debitWraps (w.executionOfBlocks P blocks)).Perm
    (WorldState.creditWraps (w.executionOfBlocks P blocks))

namespace Node

def Honours (n : Node) : Event → Prop
  | .restart _ => ∀ blocks ∈ n.blockDb.loadAllBlocks P, Honoured P .new blocks
  | e => Honoured P n.state.worldState (n.appended P e)

structure Seated (n : Node) : Prop where
  chain : ∃ root rest, n.state.blocks = root :: rest ∧ root.header.height = 0
  database : n.blockDb.Rooted P
  ledger : n.state.worldState.ledger = (WorldState.new.applyBlocks P n.state.blocks).ledger

variable {P} {n : Node}

theorem Seated.reconciles_iff (h : Seated P n) : Reconciles P n.state ↔ Honoured P .new n.state.blocks := by
  obtain ⟨root, rest, hblocks, hroot⟩ := h.chain
  have hhistory : ∀ a : Address, (getTransactions P n.state a.hex).transactions =
      (entries P n.state.blocks).filter (TxEntry.names a.hex) := by
    intro a
    rw [getTransactions_eq, trimmed_hex]
  have hbalance : ∀ a : Address, ((getBalance n.state a.hex).balance.toNat : ℤ) +
      WorldState.spent (WorldState.new.executionOfBlocks P n.state.blocks) a +
        2 ^ 64 * (WorldState.creditWraps (WorldState.new.executionOfBlocks P n.state.blocks)).count a =
      ((WorldState.genesisState P).balance a).toNat +
        WorldState.received (WorldState.new.executionOfBlocks P n.state.blocks) a +
        2 ^ 64 * (WorldState.debitWraps (WorldState.new.executionOfBlocks P n.state.blocks)).count a := by
    intro a
    have hread : (getBalance n.state a.hex).balance =
        (WorldState.new.applyBlocks P n.state.blocks).balance a := by
      change n.state.worldState.balance (balanceAddress a.hex) = _
      rw [balanceAddress_of_trimmed (trimmed_hex a), WorldState.eq_of_ledger h.ledger]
      rfl
    rw [hread, hblocks, WorldState.applyBlocks_from_root hroot, WorldState.executionOfBlocks_from_root hroot]
    exact WorldState.balance_applyTxs_exact _ _ a
  constructor
  · intro hreconciles
    have heffective := effective_of_histories fun a => hhistory a ▸ hreconciles.shown a
    have hexecuted := effectiveEntries_eq_iff.mp heffective
    refine ⟨hexecuted, List.perm_iff_count.mpr fun a => ?_⟩
    have hsum := hreconciles.balance a
    rw [hhistory, earned_filter, paid_filter, earned_entries hexecuted, paid_entries hexecuted] at hsum
    have hexact := hbalance a
    omega
  · intro hhonoured
    have heffective := effectiveEntries_eq_iff.mpr hhonoured.executed
    refine ⟨fun a => ?_, fun a => ?_, fun hash entry hfound => ?_⟩
    · rw [hhistory, earned_filter, paid_filter, earned_entries hhonoured.executed,
        paid_entries hhonoured.executed]
      have hcount := List.perm_iff_count.mp hhonoured.wraps a
      have hexact := hbalance a
      rw [hcount] at hexact
      omega
    · rw [hhistory, heffective]
      exact List.filter_sublist
    · rw [heffective]
      exact mem_entries_of_getTx hfound

theorem honoured_append_iff {w : WorldState} {blocks blocks' : List Block} (h : Honoured P w blocks) :
    Honoured P w (blocks ++ blocks') ↔ Honoured P (w.applyBlocks P blocks) blocks' := by
  have hskipped : w.skippedOfBlocks P (blocks ++ blocks') = [] ↔
      (w.applyBlocks P blocks).skippedOfBlocks P blocks' = [] := by
    rw [WorldState.skippedOfBlocks_append, h.executed, List.nil_append]
  constructor
  · rintro ⟨hexecuted, hperm⟩
    refine ⟨hskipped.mp hexecuted, ?_⟩
    rw [WorldState.executionOfBlocks_append, WorldState.debitWraps_append,
      WorldState.creditWraps_append] at hperm
    exact (List.perm_append_left_iff _).mp (hperm.trans (h.wraps.symm.append_right _))
  · rintro ⟨hexecuted, hperm⟩
    refine ⟨hskipped.mpr hexecuted, ?_⟩
    rw [WorldState.executionOfBlocks_append, WorldState.debitWraps_append, WorldState.creditWraps_append]
    exact h.wraps.append hperm

theorem honoured_of_ledger {w w' : WorldState} (h : w.ledger = w'.ledger) (blocks : List Block) :
    Honoured P w blocks ↔ Honoured P w' blocks := by
  obtain ⟨hdebits, hcredits⟩ := WorldState.wraps_of_ledger (WorldState.executionOfBlocks_of_ledger P h blocks)
  have hskipped := WorldState.skippedOfBlocks_of_ledger (P := P) h blocks
  constructor
  · rintro ⟨hexecuted, hperm⟩
    exact ⟨hskipped ▸ hexecuted, hdebits ▸ hcredits ▸ hperm⟩
  · rintro ⟨hexecuted, hperm⟩
    exact ⟨hskipped.symm ▸ hexecuted, hdebits.symm ▸ hcredits.symm ▸ hperm⟩

theorem restart_of_unreadable (n : Node) (saved : Bool) (hload : n.blockDb.loadAllBlocks P = none) :
    n.step P (.restart saved) = n := by
  change (start P saved n.validatorIndex n.blockDb).getD n = _
  rw [start, hload]
  rfl

theorem loaded_sorted {db : BlockDb} {blocks : List Block} (hload : db.loadAllBlocks P = some blocks) :
    blocks.Pairwise fun a b => a.header.height ≤ b.header.height := by
  unfold BlockDb.loadAllBlocks at hload
  split at hload
  · obtain rfl := Option.some.inj hload
    refine (List.pairwise_mergeSort ?_ ?_ _).imp of_decide_eq_true
    · intro a b c hab hbc
      exact decide_eq_true (UInt64.le_trans (of_decide_eq_true hab) (of_decide_eq_true hbc))
    · intro a b
      rcases UInt64.le_total a.header.height b.header.height with hab | hba
      · rw [decide_eq_true hab, Bool.true_or]
      · rw [decide_eq_true hba, Bool.or_true]
  · cases hload

theorem root_of_load {db : BlockDb} (h : db.Rooted P) {blocks : List Block}
    (hload : db.loadAllBlocks P = some blocks) :
    ∃ root rest, blocks = root :: rest ∧ root.header.height = 0 := by
  obtain ⟨block, hblock, hzero⟩ := h.load hload
  cases blocks with
  | nil => exact absurd hblock List.not_mem_nil
  | cons root rest =>
    refine ⟨root, rest, rfl, ?_⟩
    rcases List.mem_cons.mp hblock with rfl | hrest
    · exact hzero
    · have hle := (List.pairwise_cons.mp (loaded_sorted hload)).1 block hrest
      rw [hzero] at hle
      exact UInt64.le_zero_iff.mp hle

theorem Seated.step (hP : P.BincodeRoundTrips) (h : Seated P n) (e : Event) : Seated P (n.step P e) := by
  obtain ⟨root, rest, hblocks, hroot⟩ := h.chain
  have hrooted : n.Rooted P := ⟨⟨root, hblocks ▸ List.mem_cons_self, hroot⟩, h.database⟩
  refine ⟨?_, (hrooted.step hP e).database, step_replay h.ledger e⟩
  cases he : e.isRestart with
  | false =>
    rw [(step_grows P n he).chain, hblocks]
    exact ⟨root, rest ++ n.appended P e, rfl, hroot⟩
  | true =>
    obtain ⟨saved, rfl⟩ := Event.eq_restart he
    cases hload : n.blockDb.loadAllBlocks P with
    | none =>
      rw [restart_of_unreadable n saved hload]
      exact h.chain
    | some blocks =>
      obtain ⟨root', rest', rfl, hroot'⟩ := root_of_load h.database hload
      rw [restart_of_load (List.cons_ne_nil _ _) hload]
      exact ⟨root', rest', rfl, hroot'⟩

theorem Seated.reconciles_step_iff (hP : P.BincodeRoundTrips) (h : Seated P n) (hn : Reconciles P n.state)
    (e : Event) : Reconciles P (n.step P e).state ↔ n.Honours P e := by
  have hhonoured := h.reconciles_iff.mp hn
  rw [(h.step hP e).reconciles_iff]
  cases he : e.isRestart with
  | false =>
    have happended : n.Honours P e ↔ Honoured P n.state.worldState (n.appended P e) := by
      cases e with
      | restart saved => cases he
      | _ => exact Iff.rfl
    rw [happended, (step_grows P n he).chain, honoured_append_iff hhonoured]
    exact (honoured_of_ledger h.ledger _).symm
  | true =>
    obtain ⟨saved, rfl⟩ := Event.eq_restart he
    unfold Honours
    cases hload : n.blockDb.loadAllBlocks P with
    | none =>
      rw [restart_of_unreadable n saved hload]
      apply iff_of_true hhonoured
      intro blocks hblocks
      cases hblocks
    | some blocks =>
      obtain ⟨root, rest, rfl, _⟩ := root_of_load h.database hload
      rw [restart_of_load (List.cons_ne_nil _ _) hload]
      constructor
      · intro hloaded blocks hblocks
        obtain rfl := Option.some.inj hblocks
        exact hloaded
      · intro hloaded
        exact hloaded _ rfl

theorem start_seated (hP : P.BincodeRoundTrips) {saved : Bool} {i : Fin 3}
    (h : start P saved i .empty = some n) :
    Seated P n := by
  have hrooted := start_rooted hP h
  obtain ⟨db, hsave, rfl⟩ := start_empty h
  exact ⟨⟨Block.genesis, [], rfl, rfl⟩, hrooted.database, rfl⟩

theorem histories_reconcile_iff (P : Primitives) (hP : P.BincodeRoundTrips) {saved : Bool} {i : Fin 3}
    {n : Node} (hstart : start P saved i .empty = some n) (es : List Event) :
    AllStates (step P) (fun n => Reconciles P n.state) n es ↔ AllSteps (step P) (Honours P) n es := by
  have hseated := start_seated hP hstart
  have hfirst : Reconciles P n.state := by
    obtain ⟨db, hsave, rfl⟩ := start_empty hstart
    exact hseated.reconciles_iff.mpr ⟨rfl, List.Perm.refl _⟩
  have hanything : AllSteps (step P) (fun _ _ => True) n es := allSteps_of_forall fun _ _ => trivial
  apply allStates_iff_allSteps _ _ hseated hfirst hanything
  · exact fun n e h _ => h.step hP e
  · exact fun n e h _ hn => h.reconciles_step_iff hP hn e

section Runs

instance (w : WorldState) (blocks : List Block) : Decidable (Honoured P w blocks) :=
  decidable_of_iff
    (w.skippedOfBlocks P blocks = [] ∧ (WorldState.debitWraps (w.executionOfBlocks P blocks)).Perm
      (WorldState.creditWraps (w.executionOfBlocks P blocks)))
    ⟨fun h => ⟨h.1, h.2⟩, fun h => ⟨h.executed, h.wraps⟩⟩

instance (n : Node) (e : Event) : Decidable (n.Honours P e) := by
  unfold Honours
  split
  · cases n.blockDb.loadAllBlocks P with
    | none => exact isTrue fun blocks hblocks => by cases hblocks
    | some blocks =>
      exact decidable_of_iff (Honoured P .new blocks) ⟨fun h b hb => Option.some.inj hb ▸ h, fun h => h _ rfl⟩
  · infer_instance

theorem histories_reconcile_payment :
    AllStates (step .sample) (fun n => Reconciles .sample n.state) (fresh .sample 1)
      (Intake.payThenLead [Intake.payment 7 500000000, .faucet (sampleAddr 8).hex]) :=
  (histories_reconcile_iff .sample sample_roundTrips (start_fresh sample_roundTrips 1) _).mpr
    (by decide +kernel)

theorem skipped_payment_shown : ∃ n, start .sample true 1 .empty = some n ∧
    ¬ AllStates (step .sample) (fun n => Reconciles .sample n.state) n
      (Intake.payThenLead [Intake.payment 7 500000000, Intake.payment 8 500000000]) := by
  refine ⟨_, start_fresh sample_roundTrips 1, ?_⟩
  intro h
  exact absurd (h.last.balance (WorldState.treasuryAddr .sample)) (by decide +kernel)

end Runs

end Node

end VelaNetwork
