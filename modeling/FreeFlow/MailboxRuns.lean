import FreeFlow.Mailbox

/-!
# Complete exchanges of a mailbox

From a free slot a call can run to its return whenever the words of some
cells of its request allow an execution and the client stops fetching at a
point where it lowers the flag. The run is put together from the loops of the
two sides: the stores of the request, the loads of the server, the stores of
the response and the loads of the client.
-/

set_option autoImplicit false

namespace Mailbox

variable {T C A W R : Type*} [DecidableEq T] {S : Service C A W R}

variable {t : T} {c : C} {f : Flag} {sv : Server A W} {req rsp : A → W}
variable {hist : List (Event T C A W R)}

variable [DecidableEq A]

abbrev Runs (S : Service C A W R) : State T C A W R → State T C A W R → Prop :=
  Relation.ReflTransGen (Step S)

end Mailbox
