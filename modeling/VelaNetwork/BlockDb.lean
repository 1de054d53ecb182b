import VelaNetwork.Types
import Std.Data.ExtTreeMap

namespace VelaNetwork

/-- The sled tree: an ordered map from byte strings to byte strings. -/
structure BlockDb where
  tree : Std.ExtTreeMap Bytes Bytes

namespace BlockDb

variable (P : Primitives)

def empty : BlockDb := ⟨∅⟩

/-- `saved` says whether the write to sled succeeds; `none` is the error of `save_block`. -/
def saveBlock (saved : Bool) (db : BlockDb) (block : Block) : Option BlockDb :=
  match P.serializeBlock block with
  | some val => if saved then some ⟨db.tree.insert (u64BeBytes block.header.height) val⟩ else none
  | none => none

def loadAllBlocks (db : BlockDb) : Option (List Block) :=
  match db.tree.toList.mapM fun item => P.deserializeBlock item.2 with
  | some blocks => some (blocks.mergeSort fun a b => a.header.height ≤ b.header.height)
  | none => none

def height (db : BlockDb) : UInt64 := UInt64.ofNat db.tree.size

variable {P}

theorem saveBlock_failed (db : BlockDb) (block : Block) : db.saveBlock P false block = none := by
  unfold saveBlock
  cases P.serializeBlock block <;> rfl

theorem saveBlock_cases (hP : P.BincodeRoundTrips) {saved : Bool} {db db' : BlockDb} {block : Block}
    (h : db.saveBlock P saved block = some db') : saved = true ∧
      ∃ val, P.deserializeBlock val = some block ∧
        db' = ⟨db.tree.insert (u64BeBytes block.header.height) val⟩ := by
  cases saved with
  | false =>
    rw [saveBlock_failed] at h
    cases h
  | true =>
    obtain ⟨val, hval, hback⟩ := hP block
    unfold saveBlock at h
    rw [hval] at h
    exact ⟨rfl, val, hback, (Option.some.inj h).symm⟩

end BlockDb

end VelaNetwork
