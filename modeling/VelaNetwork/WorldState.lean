import VelaNetwork.Types
import VelaNetwork.Library.FiniteMaps

namespace VelaNetwork

open Library.FiniteMaps

def TOTAL_SUPPLY : UInt64 := 1000000000

def FAUCET_AMOUNT : UInt64 := 100

def FAUCET_COOLDOWN_SECS : UInt64 := 86400

def FAUCET_SEED : Bytes32 :=
  #v[0xFA, 0xCE, 0x00, 0x00, 0x00, 0x00, 0x00, 0x00,
     0x00, 0x00, 0x00, 0x00, 0x00, 0x00, 0x00, 0x00,
     0x00, 0x00, 0x00, 0x00, 0x00, 0x00, 0x00, 0x00,
     0x00, 0x00, 0x00, 0x00, 0x00, 0x00, 0x00, 0x01]

def treasuryKey : SigningKey := ⟨Vector.replicate 32 1⟩

def faucetKey : SigningKey := ⟨FAUCET_SEED⟩

abbrev Accounts := Finmap (fun _ : String => Account)

structure WorldState where
  accounts : Accounts
  totalSupply : UInt64
  totalTxs : UInt64
  faucetLast : Finmap (fun _ : String => UInt64)

namespace WorldState

variable (P : Primitives)

def new : WorldState where
  accounts := ∅
  totalSupply := 0
  totalTxs := 0
  faucetLast := ∅

def treasuryAddr : Address := Address.fromPubkey P treasuryKey

def faucetAddr : Address := Address.fromPubkey P faucetKey

def applyGenesis (w : WorldState) : WorldState :=
  { w with
    accounts := (w.accounts.insert (treasuryAddr P).hex ⟨treasuryAddr P, 900000000, 0⟩).insert
      (faucetAddr P).hex ⟨faucetAddr P, 100000000, 0⟩
    totalSupply := TOTAL_SUPPLY }

def balance (w : WorldState) (addr : Address) : UInt64 :=
  ((w.accounts.lookup addr.hex).map (·.balance)).getD 0

def nonce (w : WorldState) (addr : Address) : UInt64 := ((w.accounts.lookup addr.hex).map (·.nonce)).getD 0

/-- The balance test of `apply_block`, in the wrapping arithmetic of the release build. -/
def executes (w : WorldState) (tx : Transaction) : Bool := tx.amount + tx.fee ≤ w.balance tx.from

def debit (accounts : Accounts) (tx : Transaction) : Accounts :=
  modify
    (upsert accounts tx.from.hex (Account.new tx.from)
      fun a => { a with balance := a.balance - (tx.amount + tx.fee) })
    tx.from.hex fun a => { a with nonce := a.nonce + 1 }

def credit (accounts : Accounts) (tx : Transaction) : Accounts :=
  upsert accounts tx.to.hex (Account.new tx.to) fun a => { a with balance := a.balance + tx.amount }

def applyTx (w : WorldState) (tx : Transaction) : WorldState :=
  if w.executes tx then
    { w with accounts := credit (debit w.accounts tx) tx, totalTxs := w.totalTxs + 1 }
  else w

def mint (w : WorldState) (block : Block) : WorldState :=
  if block.header.height = 0 ∧ w.totalSupply = 0 then w.applyGenesis P else w

def applyTxs (w : WorldState) (txs : List Transaction) : WorldState := txs.foldl applyTx w

def applyBlock (w : WorldState) (block : Block) : WorldState := (w.mint P block).applyTxs block.transactions

def applyBlocks (w : WorldState) (blocks : List Block) : WorldState := blocks.foldl (applyBlock P) w

def canFaucet (now : UInt64) (w : WorldState) (addr : String) : Bool :=
  match w.faucetLast.lookup addr with
  | none => true
  | some last => FAUCET_COOLDOWN_SECS ≤ now - last

def markFaucet (now : UInt64) (w : WorldState) (addr : String) : WorldState :=
  { w with faucetLast := w.faucetLast.insert addr now }

end WorldState

end VelaNetwork
