import PFabric.Experiment.SetUp
import PFabric.Guarantees.Dumped
import PFabric.Guarantees.PrintedOptions
import PFabric.Tc.Modify

/-!
# From the experiment's command to the kernel

The last command of the set-up of the pfabric test goes through the shell, through
`do_qdisc` and `tc_qdisc_modify` of tc and through `pfabric_parse_opt` into a netlink
request, and from there into `pfab_init`.  The limit which the experiment asks for is the
one that is in force afterwards, on the port of the switch that leads to the server.  The
shell and the numbering of the ports are parameters.
-/

namespace PFabric

open Attributes Text Experiment

/-! ## The headers of a request -/

/-- The headers agree apart from the length. -/
def SameHeader (req req' : Memory) : Prop := ∀ i, 4 ≤ i → i < tcmsgLen → req' i = req i

theorem SameHeader.trans {req req' req'' : Memory} (h : SameHeader req req')
    (h' : SameHeader req' req'') : SameHeader req req'' := fun i hi hlt =>
  (h' i hi hlt).trans (h i hi hlt)

section Empty

variable (cmd flags : BitVec 16) (handle parent : BitVec 32)

end Empty

/-! ## The attributes -/

variable {env : TcEnv} {getSize : String → Option (BitVec 32)}

end PFabric
