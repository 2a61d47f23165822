import Yclib.Rtmp.Boundaries
import Yclib.Util.Loop

namespace Yclib.Rtmp.Chunking
open Network Sending Boundaries Loop

/-! How `rtmp_msg_send` cuts a stored message: into chunks for the player, and at the ends of
the blocks it is stored in. -/

section
variable {store : Store} {size chunkid timestamp rounds offset ochunklen : Nat} {bs : List UInt8}

end

end Yclib.Rtmp.Chunking
