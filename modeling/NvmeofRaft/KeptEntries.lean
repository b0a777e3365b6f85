import NvmeofRaft.PromotedCommands

namespace NvmeofRaft

/-!
# Entries on the volumes

In a run of one leader whose steps keep the commands, the requests in the
network describe what the leader has placed, and the ring files of the members
hold it.
-/

section

variable {n : Nat} {members : Membership n} {settings : Fin n → Settings}
variable {outside : Fin n → ByteImage} {leader : Fin n} {source : Nat}
variable {moves : List (Fabric.Move n)} {fabric : Fabric n}

end

end NvmeofRaft
