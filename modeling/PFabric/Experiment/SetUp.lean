import PFabric.Experiment.Runner

/-!
# Setting up the switch

The commands with which the tests of `pfabric.py` put qdiscs on the ports of the switch,
and the topology they are meant for.  The bandwidth is given as the whole number that `%d`
shows of it.  How Mininet numbers the ports is a parameter.
-/

namespace PFabric
namespace Experiment

open Text Template Comprehension

/-! ## The source -/

/-- `self.server` -/
def server (n : ℕ) : Option Text := format "h%d".toList [.int ((n : ℤ) - 1)]

end Experiment
end PFabric
