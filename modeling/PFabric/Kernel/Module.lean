import PFabric.Kernel.Machine

/-!
# The loaded module and its qdiscs

The kernel creates, uses and destroys pFabric qdiscs on several network devices.
Each qdisc has its own `struct Qdisc`; the statistics and the proc directory
are shared.  A qdisc whose `pfab_init` fails is discarded by the kernel without
a call of `pfab_destroy`.
-/

namespace PFabric

/-- The live qdiscs, by device, and the kernel around them. -/
structure Module where
  qdiscs : String → Option Qdisc
  kern : Kernel

/-- A request the kernel makes of the module.  `created` is as in
`pfabStatsInit`. -/
inductive Request
  | init (dev : String) (opt : Option Nlattr) (created : String → Bool)
  | call (dev : String) (op : Op)
  | destroy (dev : String)

/-- What the module answers. -/
inductive Answer
  | init (code : ℤ)
  | call (ret : Ret)
  | destroyed
  | absent
deriving DecidableEq

/-- The device a request is about. -/
def Request.dev : Request → String
  | .init dev _ _ => dev
  | .call dev _ => dev
  | .destroy dev => dev

/-- One request.  Calls on a device without a live qdisc do not reach the
module. -/
def serve (m : Module) : Request → Answer × Module
  | .init dev opt created =>
      let r := pfabInit opt dev created ⟨Qdisc.alloc, m.kern⟩
      if r.1 = 0 then
        (.init r.1, ⟨Function.update m.qdiscs dev (some r.2.sch), r.2.kern⟩)
      else (.init r.1, ⟨m.qdiscs, r.2.kern⟩)
  | .call dev op =>
      match m.qdiscs dev with
      | none => (.absent, m)
      | some sch =>
          let r := callQdisc ⟨sch, m.kern⟩ op
          (.call r.1, ⟨Function.update m.qdiscs dev (some r.2.sch), r.2.kern⟩)
  | .destroy dev =>
      match m.qdiscs dev with
      | none => (.absent, m)
      | some sch =>
          (.destroyed, ⟨Function.update m.qdiscs dev none,
            (pfabDestroy dev ⟨sch, m.kern⟩).kern⟩)

/-- The machine whose runs are the request sequences to the module. -/
def pfabModule : Machine Module Request Answer := ⟨serve⟩

/-- The module as `module_init` leaves it: no qdisc and no proc entry. -/
def Module.loaded : Module := ⟨fun _ => none, ⟨.zero, [], ∅⟩⟩

/-! ## What one request does -/

theorem serve_init_of_eq_zero {m : Module} {dev : String} {opt : Option Nlattr}
    {created : String → Bool}
    (h : (pfabInit opt dev created ⟨Qdisc.alloc, m.kern⟩).1 = 0) :
    pfabModule.next m (.init dev opt created) =
      ⟨Function.update m.qdiscs dev
          (some (pfabInit opt dev created ⟨Qdisc.alloc, m.kern⟩).2.sch),
        (pfabInit opt dev created ⟨Qdisc.alloc, m.kern⟩).2.kern⟩ := by
  simp only [pfabModule, Machine.next, serve, h, if_true]

theorem serve_init_of_ne_zero {m : Module} {dev : String} {opt : Option Nlattr}
    {created : String → Bool}
    (h : (pfabInit opt dev created ⟨Qdisc.alloc, m.kern⟩).1 ≠ 0) :
    pfabModule.next m (.init dev opt created) =
      ⟨m.qdiscs, (pfabInit opt dev created ⟨Qdisc.alloc, m.kern⟩).2.kern⟩ := by
  simp only [pfabModule, Machine.next, serve, h, if_false]

theorem serve_call {m : Module} {dev : String} {sch : Qdisc}
    (h : m.qdiscs dev = some sch) (op : Op) :
    pfabModule.step m (.call dev op) =
      (.call (qdisc.out ⟨sch, m.kern⟩ op),
        ⟨Function.update m.qdiscs dev (some (qdisc.next ⟨sch, m.kern⟩ op).sch),
          (qdisc.next ⟨sch, m.kern⟩ op).kern⟩) := by
  simp only [pfabModule, serve, h]
  rfl

theorem serve_call_absent {m : Module} {dev : String} (h : m.qdiscs dev = none) (op : Op) :
    pfabModule.next m (.call dev op) = m := by
  simp only [pfabModule, Machine.next, serve, h]

theorem serve_destroy {m : Module} {dev : String} {sch : Qdisc}
    (h : m.qdiscs dev = some sch) :
    pfabModule.next m (.destroy dev) =
      ⟨Function.update m.qdiscs dev none, (pfabDestroy dev ⟨sch, m.kern⟩).kern⟩ := by
  simp only [pfabModule, Machine.next, serve, h]

/-- A request leaves the qdiscs of all other devices alone. -/
theorem qdiscs_next_of_ne (m : Module) (request : Request) {dev : String}
    (h : request.dev ≠ dev) :
    (pfabModule.next m request).qdiscs dev = m.qdiscs dev := by
  cases request with
  | init dev' opt created =>
      by_cases hinit : (pfabInit opt dev' created ⟨Qdisc.alloc, m.kern⟩).1 = 0
      · rw [serve_init_of_eq_zero hinit]
        exact Function.update_of_ne (Ne.symm h) _ _
      · rw [serve_init_of_ne_zero hinit]
  | call dev' op =>
      cases hdev : m.qdiscs dev' with
      | none => rw [serve_call_absent hdev]
      | some sch =>
          rw [Machine.next, serve_call hdev]
          exact Function.update_of_ne (Ne.symm h) _ _
  | destroy dev' =>
      cases hdev : m.qdiscs dev' with
      | none => simp only [pfabModule, Machine.next, serve, hdev]
      | some sch =>
          rw [serve_destroy hdev]
          exact Function.update_of_ne (Ne.symm h) _ _

end PFabric
