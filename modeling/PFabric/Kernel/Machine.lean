import PFabric.Kernel.Qdisc
import PFabric.Support.Runs

/-!
# The qdisc as a machine

The calls the kernel makes on a live qdisc, what each returns, and the states a
successful `pfab_init` hands over.  `pfab_drop` is not an entry of the qdisc's
operation table; it only runs inside `pfab_enqueue`.
-/

namespace PFabric

/-- A call on a live qdisc. -/
inductive Op
  | enqueue (skb : SkBuff)
  | dequeue
  | peek
  | change (opt : Option Nlattr)
  | reset
deriving DecidableEq

/-- What a call returns. -/
inductive Ret
  | xmit (verdict : NetXmit)
  | skb (packet : Option SkBuff)
  | code (errno : ℤ)
  | none
deriving DecidableEq

/-- One call, made on the context it finds. -/
def callQdisc (c : Ctx) : Op → Ret × Ctx
  | .enqueue skb => (.xmit (pfabEnqueue skb c).1, (pfabEnqueue skb c).2)
  | .dequeue => (.skb (pfabDequeue c).1, (pfabDequeue c).2)
  | .peek => (.skb (pfabPeek c), c)
  | .change opt => (.code (pfabChange opt c).1, (pfabChange opt c).2)
  | .reset => (.none, pfabReset c)

/-- The machine whose runs are the call sequences on one qdisc. -/
def qdisc : Machine Ctx Op Ret := ⟨callQdisc⟩

/-- The options a call sets. -/
def Op.sets : Op → Option TcPfabricQopt
  | .change opt => opt.bind Nlattr.qopt?
  | _ => none

/-- The options in force after `pfab_init`. -/
def initialOptions (opt : Option Nlattr) : TcPfabricQopt :=
  (opt.bind Nlattr.qopt?).getD ⟨defaultLimit, 0⟩

/-- The contexts in which `pfab_init` has just returned 0 on a newly allocated
qdisc.  The log of freed packets starts there. -/
def Started (c : Ctx) : Prop :=
  ∃ opt dev created kern, kern.freed = [] ∧
    pfabInit opt dev created ⟨Qdisc.alloc, kern⟩ = (0, c)

/-! ## The inputs of `pfabric_tests.c` -/

/-- `alloc_ip_skb`: an Ethernet and an IP header, with the given TOS byte. -/
def allocIpSkb (id : ℕ) (priority : BitVec 8) : SkBuff where
  id := id
  frame := List.replicate ethHeaderLen 0 ++ [0x40, priority] ++
    List.replicate (ipHeaderLen - 2) 0
  networkHeader := ethHeaderLen
  pktLen := 34
  priority := 0
  frame_lt := by simp [ethHeaderLen, ipHeaderLen]
  pktLen_lt := by decide

/-- `setup`: a pFabric qdisc on the loopback device. -/
def setup : Ctx :=
  (pfabInit none "lo" (fun _ => true) ⟨Qdisc.alloc, ⟨.zero, [], ∅⟩⟩).2

/-- `set_limit` and `disable_dequeue`, as a configuration request. -/
def configure (limit disable : BitVec 32) : Op :=
  .change (some (TcPfabricQopt.nlattr ⟨limit, disable⟩))

theorem setup_started : Started setup :=
  ⟨none, "lo", fun _ => true, ⟨.zero, [], ∅⟩, rfl, rfl⟩

/-! ## Arrivals -/

/-- The packets passed to `pfab_enqueue`, in order of arrival. -/
def arrivals (ops : List Op) : List SkBuff :=
  ops.filterMap fun op =>
    match op with
    | .enqueue skb => some skb
    | _ => none

theorem arrivals_append (ops ops' : List Op) :
    arrivals (ops ++ ops') = arrivals ops ++ arrivals ops' := by
  simp [arrivals]

theorem arrivals_cons (op : Op) (ops : List Op) :
    arrivals (op :: ops) = arrivals [op] ++ arrivals ops :=
  arrivals_append [op] ops

end PFabric
