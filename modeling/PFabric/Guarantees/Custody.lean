import PFabric.Guarantees.Conservation
import PFabric.Guarantees.ProcEntries

/-!
# Packets in the custody of the module

The balance of packets over all devices.  Qdiscs are created, used and destroyed in any
order; a packet that reaches one of them is at every moment in a list of a live qdisc, handed
out or freed, and this exactly as often as it has come in.  Nothing is left behind when the
last qdisc is gone.

A device gets a qdisc only when it has none, as for its proc entries.
-/

namespace PFabric

/-! ## Traffic of the module -/

/-- The packets that a request passes to the module. -/
def Request.arrived : Request → Answer → List SkBuff
  | .call _ op, .call _ => arrivals [op]
  | _, _ => []

/-- The packets that an answer hands out. -/
def Request.handed : Request → Answer → List SkBuff
  | .call _ op, .call ret => PFabric.handed op ret
  | _, _ => []

/-- The packets passed to the module in a run, in order. -/
def taken (m : Module) (requests : List Request) : List SkBuff :=
  pfabModule.observe (fun skbs request answer => skbs ++ request.arrived answer) [] m requests

/-- The packets handed out in a run, in order. -/
def delivered (m : Module) (requests : List Request) : List SkBuff :=
  pfabModule.observe (fun skbs request answer => skbs ++ request.handed answer) [] m requests

theorem taken_cons (m : Module) (request : Request) (requests : List Request) :
    taken m (request :: requests) =
      request.arrived (pfabModule.out m request) ++ taken (pfabModule.next m request) requests := by
  rw [taken, Machine.observe, Machine.observe_append_eq, List.nil_append]
  rfl

theorem delivered_cons (m : Module) (request : Request) (requests : List Request) :
    delivered m (request :: requests) =
      request.handed (pfabModule.out m request) ++
        delivered (pfabModule.next m request) requests := by
  rw [delivered, Machine.observe, Machine.observe_append_eq, List.nil_append]
  rfl

/-- The packets held on a device. -/
def Module.heldOn (m : Module) (dev : String) : List SkBuff :=
  (m.qdiscs dev).elim [] fun sch => Lanes.flat sch.priv.queues

theorem heldOn_update (qdiscs : String → Option Qdisc) (dev : String) (sch : Option Qdisc)
    (kern : Kernel) :
    (Module.mk (Function.update qdiscs dev sch) kern).heldOn dev =
      sch.elim [] fun sch => Lanes.flat sch.priv.queues := by
  rw [Module.heldOn]
  simp

/-! ## One request -/

/-- A creation leaves its device without packets, whether it succeeds or not, and frees
none. -/
theorem serve_init_conserves {m : Module} {dev : String} (hnone : m.qdiscs dev = none)
    (opt : Option Nlattr) (created : String → Bool) :
    (pfabModule.next m (.init dev opt created)).heldOn dev = [] ∧
      (pfabModule.next m (.init dev opt created)).kern.freed = m.kern.freed := by
  obtain ⟨hfresh, hfreed⟩ := pfabInit_fresh (c := ⟨Qdisc.alloc, m.kern⟩) rfl opt dev created
  by_cases hinit : (pfabInit opt dev created ⟨Qdisc.alloc, m.kern⟩).1 = 0
  · rw [serve_init_of_eq_zero hinit, heldOn_update]
    exact ⟨Lanes.flat_eq_nil_iff.mpr (congrFun hfresh.2.2), hfreed⟩
  · rw [serve_init_of_ne_zero hinit, Module.heldOn, hnone]
    exact ⟨rfl, hfreed⟩

/-- On its device, a request turns what was held and has come in into what is held, handed
out and freed. -/
theorem serve_conserves (m : Module) (request : Request) (horder : InOrder m request) :
    ∃ freed, (pfabModule.next m request).kern.freed = m.kern.freed ++ freed ∧
      ((pfabModule.next m request).heldOn request.dev ++
          (request.handed (pfabModule.out m request) ++ freed)).Perm
        (m.heldOn request.dev ++ (request.arrived (pfabModule.out m request)).map classified) := by
  cases request with
  | init dev opt created =>
      have hnone : m.qdiscs dev = none := horder
      obtain ⟨hheld, hfreed⟩ := serve_init_conserves hnone opt created
      refine ⟨[], by rw [hfreed, List.append_nil], List.Perm.of_eq ?_⟩
      rw [Request.dev, hheld, Module.heldOn, hnone]
      rfl
  | call dev op =>
      cases hdev : m.qdiscs dev with
      | none =>
          have hserve : pfabModule.step m (.call dev op) = (.absent, m) := by
            simp only [pfabModule, serve, hdev]
          rw [Machine.next, Machine.out, hserve]
          exact ⟨[], (List.append_nil _).symm, List.Perm.refl _⟩
      | some sch =>
          obtain ⟨freed, hstep, hfreed⟩ := step_qdisc ⟨sch, m.kern⟩ op
          rw [Machine.next, Machine.out, serve_call hdev]
          refine ⟨freed, hfreed, ?_⟩
          rw [Request.dev, heldOn_update, Module.heldOn, hdev]
          exact hstep.conserves
  | destroy dev =>
      cases hdev : m.qdiscs dev with
      | none => exact absurd hdev horder
      | some sch =>
          obtain ⟨-, hfreed⟩ := pfabDestroy_purges dev ⟨sch, m.kern⟩
          rw [serve_destroy hdev]
          refine ⟨Lanes.flat sch.priv.queues, hfreed, List.Perm.of_eq ?_⟩
          rw [Request.dev, heldOn_update, Module.heldOn, hdev]
          exact (List.append_nil _).symm

/-! ## Runs -/

/-- A run turns what was held on the devices and has come in into what is held there, handed
out and freed. -/
theorem run_conserves {devs : List String} (hdevs : devs.Nodup) {m : Module}
    {requests : List Request} (hmem : ∀ request ∈ requests, request.dev ∈ devs)
    (horder : pfabModule.Meets InOrder m requests) :
    ∃ freed, (pfabModule.exec m requests).kern.freed = m.kern.freed ++ freed ∧
      (devs.flatMap (pfabModule.exec m requests).heldOn ++
          (delivered m requests ++ freed)).Perm
        (devs.flatMap m.heldOn ++ (taken m requests).map classified) := by
  induction requests generalizing m with
  | nil => exact ⟨[], (List.append_nil _).symm, List.Perm.refl _⟩
  | cons request requests ih =>
      obtain ⟨hdev, hmem⟩ := List.forall_mem_cons.mp hmem
      rw [Machine.meets_cons] at horder
      obtain ⟨freed, hfreed, hserve⟩ := serve_conserves m request horder.1
      obtain ⟨later, hlater, hrun⟩ := ih hmem horder.2
      refine ⟨freed ++ later, by rw [Machine.exec_cons, hlater, hfreed, List.append_assoc], ?_⟩
      -- Only the lists of the device of the request have changed.
      have hother : ∀ dev, request.dev ≠ dev →
          (pfabModule.next m request).heldOn dev = m.heldOn dev := by
        intro dev hne
        rw [Module.heldOn, qdiscs_next_of_ne m request hne, Module.heldOn]
      have hframe := Lanes.flatMap_perm_of_eq_off hdevs hdev hother
      rw [Machine.exec_cons, taken_cons, delivered_cons, List.map_append]
      rw [List.perm_iff_count] at hserve hrun hframe ⊢
      intro skb
      have hserve := hserve skb
      have hrun := hrun skb
      have hframe := hframe skb
      simp only [List.count_append] at hserve hrun hframe ⊢
      omega

/-- Of a module that has just been loaded: over all devices, the packets held, handed out and
freed are those that have come in, each as often as it has come in.  If no qdisc is left,
each has been handed out or freed. -/
theorem module_keeps_account (devs : List String) (hdevs : devs.Nodup)
    (requests : List Request) (hmem : ∀ request ∈ requests, request.dev ∈ devs)
    (horder : pfabModule.Meets InOrder .loaded requests) :
    (devs.flatMap (pfabModule.exec .loaded requests).heldOn ++
        (delivered .loaded requests ++ (pfabModule.exec .loaded requests).kern.freed)).Perm
      ((taken .loaded requests).map classified) ∧
    ((∀ dev ∈ devs, (pfabModule.exec .loaded requests).qdiscs dev = none) →
      (delivered .loaded requests ++ (pfabModule.exec .loaded requests).kern.freed).Perm
        ((taken .loaded requests).map classified)) := by
  obtain ⟨freed, hfreed, hrun⟩ := run_conserves hdevs hmem horder
  have hloaded : devs.flatMap Module.loaded.heldOn = [] :=
    List.flatMap_eq_nil_iff.mpr fun _ _ => rfl
  rw [hloaded, List.nil_append] at hrun
  have haccount : (devs.flatMap (pfabModule.exec .loaded requests).heldOn ++
      (delivered .loaded requests ++ (pfabModule.exec .loaded requests).kern.freed)).Perm
        ((taken .loaded requests).map classified) := by
    rw [hfreed]
    exact hrun
  refine ⟨haccount, fun hnone => ?_⟩
  have hempty : devs.flatMap (pfabModule.exec .loaded requests).heldOn = [] :=
    List.flatMap_eq_nil_iff.mpr fun dev hdev => by rw [Module.heldOn, hnone dev hdev, Option.elim]
  rw [hempty, List.nil_append] at haccount
  exact haccount

/-- A packet leaves one device while another is created, the creation of a third fails, and
both qdiscs are destroyed, one of them with a packet in it. -/
theorem module_keeps_account_two_devices :
    (delivered .loaded
        [.init "eth0" none fun _ => true, .call "eth0" (.enqueue (allocIpSkb 0 5)),
          .init "eth1" none fun _ => true, .init "eth2" none fun _ => false,
          .call "eth1" (.enqueue (allocIpSkb 1 3)), .call "eth0" .dequeue, .destroy "eth1",
          .destroy "eth0"] ++
      (pfabModule.exec .loaded
        [.init "eth0" none fun _ => true, .call "eth0" (.enqueue (allocIpSkb 0 5)),
          .init "eth1" none fun _ => true, .init "eth2" none fun _ => false,
          .call "eth1" (.enqueue (allocIpSkb 1 3)), .call "eth0" .dequeue, .destroy "eth1",
          .destroy "eth0"]).kern.freed).Perm
      [classified (allocIpSkb 0 5), classified (allocIpSkb 1 3)] :=
  (module_keeps_account ["eth0", "eth1", "eth2"] (by decide) _ (by decide) (by decide)).2
    (by decide)

end PFabric
