import PFabric.Tc.Handles
import PFabric.Tc.Options

/-!
# The commands on qdiscs

`do_qdisc` and `tc_qdisc_modify` of `tc_qdisc.c`, which make a request out of the words of
a command.  The parts of tc that they call for other kinds of qdiscs, for estimators and
for size tables are parameters, and so is the table of the devices.  Characters are bytes.
-/

namespace PFabric

open Attributes

variable (env : TcEnv) (s : ModifyState)

end PFabric
