import VelaNetwork.Library.Traffic
import VelaNetwork.SyncRequests
import VelaNetwork.Pool
import VelaNetwork.Independence

namespace VelaNetwork

open Library.Gossip
open Library.Runs

namespace Node

variable {P : Primitives} {n : Node} (d : ℕ)

end Node

namespace Overlay

variable {P : Primitives} {W : Wire} {ι : Type} [DecidableEq ι] [Fintype ι]

end Overlay

end VelaNetwork
