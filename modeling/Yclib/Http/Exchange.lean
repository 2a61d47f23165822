import Yclib.Http.Delivery
import Yclib.Http.HeaderText
import Yclib.Http.Url

namespace Yclib.Http.HeaderMap
open Rbt Reading

/-! What one side of a connection writes, as the other side reads it. -/

/-- A line of a header without its end. -/
def bare (entry : Str × List UInt8) : List UInt8 := entry.1.bytes ++ ascii ": " ++ entry.2

section
variable {key : Str} {data : List UInt8} {entries : List (Str × List UInt8)} {body : List UInt8}

end

section
variable {headers : Headers} {map : Map} {linked : List (Str × Item)} {body : List UInt8}

end

end Yclib.Http.HeaderMap
