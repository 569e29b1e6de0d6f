import PFabric.Kernel.Module

/-!
# Isolation of qdiscs that share the statistics

All pFabric qdiscs write to the same `pfab_stats`, so a call on one of them
changes what `/proc` shows for the others.  It changes nothing else for them:
no function of `sch_pfab.c` reads the shared state back into a decision.
-/

namespace PFabric

/-! ## No call depends on the shared state -/

/-- `f` neither returns nor leaves in the qdisc anything that depends on the
state it shares with the other qdiscs. -/
def KernelBlind {α : Type*} (f : Ctx → α × Ctx) : Prop :=
  ∀ sch kern kern', (f ⟨sch, kern⟩).1 = (f ⟨sch, kern'⟩).1 ∧
    (f ⟨sch, kern⟩).2.sch = (f ⟨sch, kern'⟩).2.sch

/-- What a kernel-blind function does in a context is determined by its qdisc. -/
theorem KernelBlind.of_sch_eq {α : Type*} {f : Ctx → α × Ctx} (hf : KernelBlind f)
    {c c' : Ctx} (h : c.sch = c'.sch) :
    (f c).1 = (f c').1 ∧ (f c).2.sch = (f c').2.sch := by
  obtain ⟨sch, kern⟩ := c
  obtain ⟨sch', kern'⟩ := c'
  obtain rfl : sch = sch' := h
  exact hf sch kern kern'

theorem qdiscDrop_blind (skb : SkBuff) : KernelBlind (qdiscDrop skb) :=
  fun _ _ _ => ⟨rfl, rfl⟩

theorem qdiscDequeueHead_blind (list : Band) : KernelBlind (qdiscDequeueHead list) := by
  intro sch kern kern'
  unfold qdiscDequeueHead
  cases h : sch.priv.queues list with
  | nil => exact ⟨rfl, rfl⟩
  | cons skb rest => exact ⟨rfl, rfl⟩

theorem qdiscQueueDropHead_blind (list : Band) : KernelBlind (qdiscQueueDropHead list) := by
  intro sch kern kern'
  unfold qdiscQueueDropHead
  cases h : sch.priv.queues list with
  | nil => exact ⟨rfl, rfl⟩
  | cons skb rest => exact ⟨rfl, rfl⟩

theorem pfabDrop_blind : KernelBlind pfabDrop := by
  intro sch kern kern'
  unfold pfabDrop
  dsimp only
  split_ifs with hband
  · exact ⟨rfl, rfl⟩
  · obtain ⟨hlen, hsch⟩ :=
      qdiscQueueDropHead_blind (band2list (bitmapLowPrio sch.priv.bitmap)) sch kern kern'
    exact ⟨hlen, by rw [hsch]⟩

theorem acceptSkb_blind (skb : SkBuff) : KernelBlind (acceptSkb skb) := by
  intro sch kern kern'
  have hstore : (storeSkb skb ⟨sch, kern⟩).sch = (storeSkb skb ⟨sch, kern'⟩).sch := rfl
  obtain ⟨hlen, hsch⟩ := pfabDrop_blind.of_sch_eq hstore
  unfold acceptSkb
  dsimp only
  rw [hstore, hlen]
  split_ifs
  · exact ⟨rfl, hsch⟩
  · exact ⟨rfl, hsch⟩
  · exact ⟨rfl, hstore⟩

theorem pfabEnqueue_blind (skb : SkBuff) : KernelBlind (pfabEnqueue skb) := by
  intro sch kern kern'
  unfold pfabEnqueue
  dsimp only
  have hsch : (countNonIp skb ⟨sch, kern⟩).sch = (countNonIp skb ⟨sch, kern'⟩).sch := by
    rw [countNonIp_sch, countNonIp_sch]
  generalize countNonIp skb ⟨sch, kern⟩ = c at hsch ⊢
  generalize countNonIp skb ⟨sch, kern'⟩ = c' at hsch ⊢
  have hcount : ∀ band, (countBand band c).sch = (countBand band c').sch := fun _ => hsch
  simp only [hcount]
  split_ifs
  · exact (qdiscDrop_blind _).of_sch_eq hsch
  · exact (qdiscDrop_blind _).of_sch_eq (hcount _)
  · exact (acceptSkb_blind _).of_sch_eq (hcount _)

theorem departSkb_sch (band : ℤ) {c c' : Ctx} (h : c.sch = c'.sch) :
    (departSkb band c).sch = (departSkb band c').sch := by
  obtain ⟨sch, kern⟩ := c
  obtain ⟨sch', kern'⟩ := c'
  obtain rfl : sch = sch' := h
  unfold departSkb
  dsimp only
  split_ifs
  · rfl
  · rfl

theorem pfabDequeue_blind : KernelBlind pfabDequeue := by
  intro sch kern kern'
  unfold pfabDequeue
  dsimp only
  split_ifs with hdisable hband
  · exact ⟨rfl, rfl⟩
  · exact ⟨rfl, rfl⟩
  · obtain ⟨hskb, hsch⟩ :=
      qdiscDequeueHead_blind (band2list (bitmapHighPrio sch.priv.bitmap)) sch kern kern'
    rw [← hskb]
    cases (qdiscDequeueHead (band2list (bitmapHighPrio sch.priv.bitmap)) ⟨sch, kern⟩).1 with
    | none => exact ⟨rfl, hsch⟩
    | some skb => exact ⟨rfl, departSkb_sch _ hsch⟩

theorem pfabChange_blind (opt : Option Nlattr) : KernelBlind (pfabChange opt) := by
  intro sch kern kern'
  cases opt with
  | none => exact ⟨rfl, rfl⟩
  | some opt =>
      unfold pfabChange
      dsimp only
      split_ifs
      · exact ⟨rfl, rfl⟩
      · exact ⟨rfl, rfl⟩

/-- No call on a qdisc depends on the state it shares with the others. -/
theorem qdisc_step_blind (op : Op) : KernelBlind fun c => qdisc.step c op := by
  intro sch kern kern'
  cases op with
  | enqueue skb =>
      obtain ⟨hret, hsch⟩ := pfabEnqueue_blind skb sch kern kern'
      exact ⟨congrArg Ret.xmit hret, hsch⟩
  | dequeue =>
      obtain ⟨hret, hsch⟩ := pfabDequeue_blind sch kern kern'
      exact ⟨congrArg Ret.skb hret, hsch⟩
  | peek => exact ⟨rfl, rfl⟩
  | change opt =>
      obtain ⟨hret, hsch⟩ := pfabChange_blind opt sch kern kern'
      exact ⟨congrArg Ret.code hret, hsch⟩
  | reset =>
      refine ⟨rfl, ?_⟩
      simp only [qdisc, callQdisc, pfabReset, purgeAll_eq]

/-! ## Interleaved calls -/

/-- The call a request makes on the qdisc of `dev`, if it makes one. -/
def Request.callOn (dev : String) : Request → Option Op
  | .call dev' op => if dev' = dev then some op else none
  | _ => none

/-- The request neither creates nor destroys the qdisc of `dev`. -/
def Request.Keeps (dev : String) : Request → Prop
  | .call _ _ => True
  | request => request.dev ≠ dev

instance (dev : String) : ∀ request, Decidable (Request.Keeps dev request)
  | .init _ _ _ => inferInstanceAs (Decidable (_ ≠ _))
  | .call _ _ => isTrue trivial
  | .destroy _ => inferInstanceAs (Decidable (_ ≠ _))

theorem Request.eq_call_of_callOn {dev : String} {request : Request} {op : Op}
    (h : request.callOn dev = some op) : request = .call dev op := by
  cases request with
  | init dev' opt created => exact absurd h (by simp [callOn])
  | call dev' op' =>
      by_cases hdev : dev' = dev
      · simp only [callOn, hdev, if_true, Option.some.injEq] at h
        rw [hdev, h]
      · simp [callOn, hdev] at h
  | destroy dev' => exact absurd h (by simp [callOn])

theorem Request.dev_ne_of_callOn {dev : String} {request : Request}
    (hkeeps : request.Keeps dev) (h : request.callOn dev = none) :
    request.dev ≠ dev := by
  cases request with
  | init dev' opt created => exact hkeeps
  | call dev' op =>
      intro hdev
      have hself : dev' = dev := hdev
      simp [callOn, hself] at h
  | destroy dev' => exact hkeeps

/-- While the qdisc of a device lives, every answer it gives and every state it
reaches are those of its own calls alone, whatever is done meanwhile on other
devices. -/
theorem shared_statistics_noninterference (m : Module) {dev : String} {sch : Qdisc}
    (hdev : m.qdiscs dev = some sch) (requests : List Request)
    (hkeeps : ∀ request ∈ requests, request.Keeps dev) (kern : Kernel) :
    let own := requests.filterMap (Request.callOn dev)
    pfabModule.traceOf (Request.callOn dev) m requests =
        (qdisc.trace ⟨sch, kern⟩ own).map .call ∧
      (pfabModule.exec m requests).qdiscs dev =
        some (qdisc.exec ⟨sch, kern⟩ own).sch := by
  refine Machine.project_of_simulation
    (R := fun (m : Module) (c : Ctx) => m.qdiscs dev = some c.sch) ?_ ?_ hdev hkeeps
  · intro m c request op hlive _ hown
    obtain rfl := Request.eq_call_of_callOn hown
    obtain ⟨hret, hsch⟩ := qdisc_step_blind op c.sch m.kern c.kern
    rw [Machine.out, Machine.next, serve_call hlive]
    exact ⟨congrArg Answer.call hret,
      (Function.update_self dev _ m.qdiscs).trans (congrArg some hsch)⟩
  · intro m c request hlive hkeep hother
    rw [qdiscs_next_of_ne m request (Request.dev_ne_of_callOn hkeep hother)]
    exact hlive

/-- Fresh qdiscs on two devices. -/
def twoDevices : Module :=
  ⟨fun dev => if dev = "eth0" ∨ dev = "eth1" then some setup.sch else none, setup.kern⟩

/-- Calls on the two devices that alternate, with a reset of the statistics in
between. -/
def alternating : List Request :=
  [.call "eth0" (.enqueue (allocIpSkb 0 3)), .call "eth1" (configure 1 0),
    .call "eth1" .reset, .call "eth0" .dequeue]

theorem noninterference_twoDevices :
    pfabModule.traceOf (Request.callOn "eth0") twoDevices alternating =
        (qdisc.trace setup [.enqueue (allocIpSkb 0 3), .dequeue]).map .call ∧
      (pfabModule.exec twoDevices alternating).qdiscs "eth0" =
        some (qdisc.exec setup [.enqueue (allocIpSkb 0 3), .dequeue]).sch :=
  @shared_statistics_noninterference twoDevices "eth0" setup.sch (by simp [twoDevices])
    alternating (by decide) setup.kern

end PFabric
