import Marginalia.Json.Reader
import Marginalia.Server.Frame

/-
  This file defines what arrives from a client: the messages of
  a stream, and what else in it has to be noticed.

  Key definitions include:
    * `ReadFault`
    * `Incoming`
    * `Incoming.ofBody`
    * `Incoming.ofStream`
-/

namespace Marginalia

/-
  Why the reading of a frame fails for good: its body is too long
  to be held, or has a number in it that is too large.
-/
inductive ReadFault where
| overlong
| overflow
deriving DecidableEq, Repr

/-
  Something that arrives: a message, a body that is not JSON, a
  header line with a faulty length, or a frame that cannot be
  read.
-/
inductive Incoming where
| message (value : Json)
| garbled
| faultyLength
| unreadable (fault : ReadFault)
deriving Repr

namespace Incoming

/-
  What a body is.  A body that is not JSON is passed over, but
  nobody is prepared for a number that is too large.
-/
def ofBody (body : Bytes) : Incoming :=
  match Json.parse body with
  | .ok value => .message value
  | .error .malformed => .garbled
  | .error .overflow => .unreadable .overflow

/- All that arrives on a stream before it ends or is closed. -/
def ofStream (s : Bytes) : List Incoming :=
  match _hDecode : Frame.decode s with
  | (.body content rest, faults) =>
      List.replicate faults .faultyLength ++
        ofBody content :: ofStream rest
  | (.overlong rest, faults) =>
      List.replicate faults .faultyLength ++
        .unreadable .overlong :: ofStream rest
  | (.closed, faults) => List.replicate faults .faultyLength
  | (.incomplete, faults) => List.replicate faults .faultyLength
termination_by s.length
decreasing_by
  · exact Frame.length_rest_of_body _hDecode
  · exact Frame.length_rest_of_overlong _hDecode

end Incoming

end Marginalia
