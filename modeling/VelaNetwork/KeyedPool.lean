import VelaNetwork.Duplicates
import VelaNetwork.Library.Flows
import VelaNetwork.Mempool

namespace Library.FiniteMaps

theorem kerase_eq_filter {κ ν : Type*} [DecidableEq κ] (k : κ) {l : List ((_ : κ) × ν)} (h : l.NodupKeys) :
    l.kerase k = l.filter fun e => e.1 ≠ k := by
  induction l with
  | nil => rfl
  | cons e l ih =>
    rw [List.nodupKeys_cons] at h
    by_cases he : k = e.1
    · have hrest : ∀ e' ∈ l, decide (e'.1 ≠ k) = true := fun e' he' =>
        decide_eq_true fun heq => h.1 (heq.trans he ▸ List.mem_keys_of_mem he')
      rw [List.kerase_cons_eq he, List.filter_cons_of_neg (by simpa using he.symm),
        List.filter_eq_self.mpr hrest]
    · rw [List.kerase_cons_ne he, List.filter_cons_of_pos (by simpa using Ne.symm he), ih h.2]

end Library.FiniteMaps

namespace VelaNetwork

open Library.Flows Library.Runs

variable {P : Primitives}

namespace Mempool

theorem remove_values (pool : Mempool P) (tx : Transaction) :
    (pool.remove tx).values = pool.values.filter fun t => t.hash P ≠ tx.hash P := by
  have hkeys : ∀ e ∈ pool.transactions.entries, (e.1 ≠ (tx.hash P).toHex ↔ e.2.hash P ≠ tx.hash P) := by
    intro e he
    rw [pool.keyed e he, ne_eq, ne_eq, Hash.toHex_inj]
  have hentries : (pool.remove tx).transactions.entries =
      pool.transactions.entries.filter fun e => e.2.hash P ≠ tx.hash P := by
    rw [show (pool.remove tx).transactions.entries =
      pool.transactions.entries.kerase (tx.hash P).toHex from rfl,
      Library.FiniteMaps.kerase_eq_filter _ pool.transactions.nodupKeys]
    exact List.filter_congr fun e he => decide_eq_decide.mpr (hkeys e he)
  unfold values
  rw [hentries, List.filter_map]
  rfl

theorem removeCommitted_values (pool : Mempool P) (txs : List Transaction) :
    (pool.removeCommitted txs).values = pool.values.filter
      fun t => t.hash P ∉ txs.map (Transaction.hash P) := by
  induction txs generalizing pool with
  | nil => exact (List.filter_eq_self.mpr fun t _ => decide_eq_true List.not_mem_nil).symm
  | cons tx txs ih =>
    change ((pool.remove tx).removeCommitted txs).values = _
    rw [ih, remove_values, List.filter_filter]
    apply List.filter_congr
    intro t _
    rw [List.map_cons, ← Bool.decide_and, decide_eq_decide, List.mem_cons, not_or, and_comm]

theorem add_values (pool : Mempool P) (tx : Transaction) :
    (pool.add tx).1.values = tx :: pool.values.filter fun t => t.hash P ≠ tx.hash P := by
  rw [← remove_values]
  unfold values add
  rw [AList.entries_insert, List.map_cons]
  rfl

theorem hashes_nodup (pool : Mempool P) : (pool.values.map (Transaction.hash P)).Nodup := by
  have hkeys : pool.transactions.entries.keys = (pool.values.map (Transaction.hash P)).map Hash.toHex := by
    unfold values List.keys
    rw [List.map_map, List.map_map]
    exact List.map_congr_left fun e he => pool.keyed e he
  have hnodup : pool.transactions.entries.keys.Nodup := pool.transactions.nodupKeys
  rw [hkeys] at hnodup
  exact hnodup.of_map _

theorem take_perm (order : PoolOrder) (pool : Mempool P) (limit : ℕ) :
    pool.values.Perm (pool.take order limit ++ (pool.removeCommitted (pool.take order limit)).values) := by
  have hsplit : pool.values.Perm (pool.take order limit ++ (order.apply pool.values).drop limit) := by
    unfold take
    rw [List.take_append_drop]
    exact (order.perm pool.values).symm
  have hnodup := (hsplit.map (Transaction.hash P)).nodup_iff.mp pool.hashes_nodup
  rw [List.map_append, List.nodup_append] at hnodup
  obtain ⟨_, _, hapart⟩ := hnodup
  rw [removeCommitted_values]
  refine hsplit.trans (List.Perm.append_left _ ?_)
  have htaken : (pool.take order limit).filter
      (fun t => t.hash P ∉ (pool.take order limit).map (Transaction.hash P)) = [] :=
    List.filter_eq_nil_iff.mpr fun t ht hnot => of_decide_eq_true hnot (List.mem_map_of_mem ht)
  have hrest : ((order.apply pool.values).drop limit).filter
      (fun t => t.hash P ∉ (pool.take order limit).map (Transaction.hash P)) =
        (order.apply pool.values).drop limit :=
    List.filter_eq_self.mpr
      fun t ht => decide_eq_true fun hmem => hapart _ hmem _ (List.mem_map_of_mem ht) rfl
  have hfilter := hsplit.filter fun t => t.hash P ∉ (pool.take order limit).map (Transaction.hash P)
  rw [List.filter_append, htaken, hrest, List.nil_append] at hfilter
  exact hfilter.symm

end Mempool

inductive PoolEvent where
  | add (tx : Transaction)
  | fill (order : PoolOrder) (limit : ℕ)
  | committed (txs : List Transaction)

namespace Mempool

def step (pool : Mempool P) : PoolEvent → Mempool P
  | .add tx => (pool.add tx).1
  | .fill order limit => pool.removeCommitted (pool.take order limit)
  | .committed txs => pool.removeCommitted txs

def incoming (_ : Mempool P) : PoolEvent → List Transaction
  | .add tx => [tx]
  | _ => []

def outgoing (pool : Mempool P) : PoolEvent → List Transaction
  | .add tx => pool.values.filter fun t => t.hash P = tx.hash P
  | .fill order limit => pool.take order limit
  | .committed txs => pool.values.filter fun t => t.hash P ∈ txs.map (Transaction.hash P)

theorem filter_perm {p : Transaction → Prop} [DecidablePred p] (txs : List Transaction) :
    txs.Perm (txs.filter (fun t => p t) ++ txs.filter fun t => ¬ p t) := by
  have hsplit := List.filter_append_perm (fun t => decide (p t)) txs
  have hnot : (fun t => !decide (p t)) = fun t => decide (¬ p t) := by
    funext t
    exact decide_not.symm
  rw [hnot] at hsplit
  exact hsplit.symm

theorem step_perm (pool : Mempool P) (e : PoolEvent) :
    (pool.values ++ pool.incoming e).Perm (pool.outgoing e ++ (pool.step e).values) := by
  cases e with
  | add tx =>
    change (pool.values ++ [tx]).Perm (_ ++ (pool.add tx).1.values)
    rw [add_values]
    exact ((filter_perm pool.values).append_right [tx]).trans
      (by rw [List.append_assoc]; exact (List.perm_append_singleton tx _).append_left _)
  | fill order limit =>
    change (pool.values ++ []).Perm _
    rw [List.append_nil]
    exact pool.take_perm order limit
  | committed txs =>
    change (pool.values ++ []).Perm (_ ++ (pool.removeCommitted txs).values)
    rw [List.append_nil, removeCommitted_values]
    exact filter_perm pool.values

theorem keyed_pool_accounted (P : Primitives) (pool : Mempool P) (es : List PoolEvent) :
    (pool.values ++ collect step incoming pool es).Perm
      (collect step outgoing pool es ++ (run step pool es).values) ∧
      AllStates step (fun pool => (pool.values.map (Transaction.hash P)).Nodup) pool es ∧
      AllSteps step (fun pool e => ∀ order limit, e = .fill order limit →
        (pool.outgoing e).length = min limit pool.len ∧
          ∀ tx ∈ pool.outgoing e, tx ∉ (pool.step e).values) pool es := by
  refine ⟨collect_bag step_perm pool es, fun es' _ => hashes_nodup _, ?_⟩
  have hany : AllSteps step (fun (_ : Mempool P) (_ : PoolEvent) => True) pool es :=
    allSteps_of_forall fun _ _ => trivial
  refine allSteps_mono (fun pool e _ => ?_) hany
  rintro order limit rfl
  constructor
  · change (pool.take order limit).length = _
    rw [take, List.length_take, (order.perm pool.values).length_eq, len]
  · intro tx htx hmem
    change tx ∈ (pool.removeCommitted (pool.take order limit)).values at hmem
    rw [removeCommitted_values, List.mem_filter] at hmem
    exact of_decide_eq_true hmem.2 (List.mem_map_of_mem htx)

end Mempool

end VelaNetwork
