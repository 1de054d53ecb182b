import VelaNetwork.Types

namespace VelaNetwork

inductive NetworkMessage where
  | newBlock (block : Block)
  | newTransaction (tx : Transaction)
  | consensusVote (vote : Vote)
  | consensusPropose (block : Block)
  | syncRequest (fromHeight : UInt64)
  | syncResponse (blocks : List Block)
deriving DecidableEq

end VelaNetwork
