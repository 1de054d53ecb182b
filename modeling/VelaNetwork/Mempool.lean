import VelaNetwork.Merkle
import VelaNetwork.NodeSteps
import VelaNetwork.Library.Selections
import Mathlib.Data.List.AList

namespace VelaNetwork

open Library.Runs Library.Selections

variable (P : Primitives)

/-- The pool of `src/mempool`, a hash map by transaction hash. -/
structure Mempool where
  transactions : AList (fun _ : String => Transaction)
  keyed : ∀ e ∈ transactions.entries, e.1 = (e.2.hash P).toHex

/-- The order in which the hash map yields its values: any permutation of them. -/
structure PoolOrder where
  apply : List Transaction → List Transaction
  perm : ∀ txs, (apply txs).Perm txs

def PoolOrder.insertion : PoolOrder := ⟨id, fun _ => List.Perm.refl _⟩

namespace Mempool

variable {P}

def new (_max : ℕ) : Mempool P := ⟨∅, fun _ he => absurd he List.not_mem_nil⟩

def add (pool : Mempool P) (tx : Transaction) : Mempool P × Hash :=
  (⟨pool.transactions.insert (tx.hash P).toHex tx, by
    intro e he
    rw [AList.entries_insert, List.mem_cons] at he
    rcases he with rfl | hold
    · rfl
    · exact pool.keyed e ((List.kerase_sublist _ _).subset hold)⟩, tx.hash P)

def values (pool : Mempool P) : List Transaction := pool.transactions.entries.map (·.2)

def take (order : PoolOrder) (pool : Mempool P) (limit : ℕ) : List Transaction :=
  (order.apply pool.values).take limit

def remove (pool : Mempool P) (tx : Transaction) : Mempool P :=
  ⟨pool.transactions.erase (tx.hash P).toHex, fun e he => pool.keyed e ((List.kerase_sublist _ _).subset he)⟩

def removeCommitted (pool : Mempool P) (txs : List Transaction) : Mempool P := txs.foldl remove pool

def len (pool : Mempool P) : ℕ := pool.values.length

end Mempool

theorem PoolOrder.exists_apply {order txs : List Transaction} (h : order.Perm txs) :
    ∃ o : PoolOrder, o.apply txs = order := by
  -- The iteration that has this order for `txs`, and leaves all others as they are.
  refine ⟨⟨fun txs' => if txs' = txs then order else txs', fun txs' => ?_⟩, if_pos rfl⟩
  split
  · rename_i heq
    rwa [heq]
  · exact List.Perm.refl txs'

def FilledByFee (pool selected : List Transaction) : Prop := Prefers (·.fee.toNat) pool selected

section Selection

variable {P}

theorem Mempool.filledByFee_iff (pool : Mempool P) (limit : ℕ) :
    (∀ order : PoolOrder, FilledByFee pool.values (pool.take order limit)) ↔
      limit = 0 ∨ pool.len ≤ limit ∨ ∀ tx ∈ pool.values, ∀ tx' ∈ pool.values,
        tx'.fee.toNat ≤ tx.fee.toNat := by
  rw [len, ← prefers_every_order_iff]
  constructor
  · intro hall order horder
    obtain ⟨o, ho⟩ := PoolOrder.exists_apply horder
    have hfilled := hall o
    rwa [take, ho] at hfilled
  · intro hall order
    exact hall (order.apply pool.values) (order.perm pool.values)

theorem Mempool.exists_take_iff (pool : Mempool P) (limit : ℕ) (selected : List Transaction) :
    (∃ order : PoolOrder, pool.take order limit = selected) ↔
      selected.Subperm pool.values ∧ selected.length = min limit pool.len := by
  rw [len, ← Library.Selections.exists_take_iff]
  constructor
  · rintro ⟨order, htake⟩
    exact ⟨order.apply pool.values, order.perm pool.values, htake⟩
  · rintro ⟨order, horder, htake⟩
    obtain ⟨o, ho⟩ := PoolOrder.exists_apply horder
    refine ⟨o, ?_⟩
    rwa [take, ho]

theorem Node.newBlock_filledByFee_iff (now : Int64) (n : Node) (tip : Block) (round : UInt64) :
    FilledByFee n.state.mempool (n.newBlock P now tip round).transactions ↔
      ∀ tx ∈ n.state.mempool.take 100, ∀ tx' ∈ n.state.mempool.drop 100, tx'.fee.toNat ≤ tx.fee.toNat :=
  prefers_take_iff (List.Perm.refl _)

end Selection

theorem filled_by_fee_iff (P : Primitives) :
    (∀ (n : Node) (now : Int64) (tip : Block) (round : UInt64),
      (n.newBlock P now tip round).transactions = n.state.mempool.take 100 ∧
        (FilledByFee n.state.mempool (n.newBlock P now tip round).transactions ↔
          ∀ tx ∈ n.state.mempool.take 100, ∀ tx' ∈ n.state.mempool.drop 100, tx'.fee.toNat ≤ tx.fee.toNat)) ∧
      ∀ (pool : Mempool P) (limit : ℕ),
        (∀ selected, (∃ order : PoolOrder, pool.take order limit = selected) ↔
          selected.Subperm pool.values ∧ selected.length = min limit pool.len) ∧
        ((∀ order : PoolOrder, FilledByFee pool.values (pool.take order limit)) ↔
          limit = 0 ∨ pool.len ≤ limit ∨
            ∀ tx ∈ pool.values, ∀ tx' ∈ pool.values, tx'.fee.toNat ≤ tx.fee.toNat) := by
  constructor
  · intro n now tip round
    exact ⟨rfl, n.newBlock_filledByFee_iff now tip round⟩
  · intro pool limit
    exact ⟨pool.exists_take_iff limit, pool.filledByFee_iff limit⟩

section Runs

instance (pool selected : List Transaction) : Decidable (FilledByFee pool selected) :=
  inferInstanceAs (Decidable (∀ tx ∈ selected, ∀ tx' ∈ pool.diff selected, tx'.fee.toNat ≤ tx.fee.toNat))

noncomputable def paying (fee amount : UInt64) : Transaction :=
  Transaction.new 5 (WorldState.treasuryAddr .sample) (sampleAddr 7) amount fee 1

noncomputable def crowded : Node := run (Node.step .sample) (Node.fresh .sample 1)
  (((List.range 100).map fun i => paying 1 (UInt64.ofNat i)) ++ [paying 5 100] |>.map fun tx =>
    .message (.newTransaction tx) .insertion fun _ => true)

noncomputable def twoFees : Mempool .sample := (((Mempool.new 100).add (paying 5 1)).1.add (paying 1 2)).1

theorem low_fee_first :
    ¬ FilledByFee crowded.state.mempool (crowded.newBlock .sample 10 Block.genesis 1).transactions ∧
      ¬ FilledByFee twoFees.values (twoFees.take .insertion 1) := by
  refine ⟨?_, by decide +kernel⟩
  rw [Node.newBlock_filledByFee_iff]
  decide +kernel

end Runs

end VelaNetwork
