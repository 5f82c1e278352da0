import WorkflowModel.CString
import WorkflowModel.Kernel.Communicator

/-!
# Writing a message

`send_message_sync` over the bytes themselves. A vector is the list of the bytes that it points at, so a
vector that is moved forward loses its first bytes. `writev` takes the first bytes of the vectors it is
given, in order. The answers of the kernel are an input; where they run out, the loop has not returned yet.
-/

namespace WorkflowModel.Kernel.SendMessage

open WorkflowModel WorkflowModel.Kernel.Communicator

/-- The loop over the vectors after `writev` wrote `n` bytes: the index that it reaches, and the vectors, of
which the first that is not written whole has been moved forward. -/
def skipWritten : Nat → List Bytes → Nat × List Bytes
  | _, [] => (0, [])
  | n, vector :: rest =>
      if vector.length ≤ n then
        let result := skipWritten (n - vector.length) rest
        (result.1 + 1, vector :: result.2)
      else
        (0, vector.drop n :: rest)

/-- The return value, the vectors as they are left, and the bytes that `writev` has taken. -/
structure Sent where
  ret : Int
  vectors : List Bytes
  accepted : Bytes
  deriving DecidableEq, Repr

/-- The vectors that one call of `writev` offers. -/
def offered (vectors : List Bytes) : List Bytes :=
  vectors.take (if vectors.length ≤ iovMax then vectors.length else iovMax)

/-- The loop of `send_message_sync`. -/
def sendMessageSync : List WritevResult → List Bytes → Option Sent
  | [], _ => none
  | .eagain :: _, vectors => some { ret := vectors.length, vectors := vectors, accepted := [] }
  | .error _ :: _, vectors => some { ret := -1, vectors := vectors, accepted := [] }
  | .wrote n :: results, vectors =>
      let accepted := (offered vectors).flatten.take n
      let skipped := skipWritten n vectors
      let cnt := vectors.length - skipped.1
      if cnt = 0 then
        some { ret := 0, vectors := skipped.2, accepted := accepted }
      else if skipped.1 < iovMax then
        some { ret := cnt, vectors := skipped.2, accepted := accepted }
      else
        (sendMessageSync results (skipped.2.drop skipped.1)).map fun sent =>
          { ret := sent.ret
            vectors := skipped.2.take skipped.1 ++ sent.vectors
            accepted := accepted ++ sent.accepted }

/-- No call of `writev` takes more than it is offered. -/
def Obeys : List WritevResult → List Bytes → Prop
  | .wrote n :: results, vectors =>
      n ≤ (offered vectors).flatten.length
        ∧ Obeys results ((skipWritten n vectors).2.drop (skipWritten n vectors).1)
  | _, _ => True

end WorkflowModel.Kernel.SendMessage
