import PFabric.Experiment.Runner
import PFabric.Guarantees.Classification

/-!
# Shorter flows first

The clients of the pfabric test ask for a type of service of four times the bucket of
their flow.  The network stack keeps the two low bits of the byte for congestion
marks; the switch reads the whole byte as a priority.  Together they schedule by flow
size: a departure never overtakes a packet of a shorter flow, and a full buffer never
keeps a packet of a longer flow than the one it loses.
-/

namespace PFabric

open Experiment

/-! ## Bands of packets -/

theorem bandOf_eq_of_mem_map {skbs : List SkBuff} {x : SkBuff} (h : x ∈ skbs.map classified) :
    bandOf x = x.priority.toNat := by
  obtain ⟨skb, -, rfl⟩ := List.mem_map.mp h
  exact (toNat_priority_classified skb).symm

/-- An arrival of no band is itself what is lost. -/
theorem Buffer.Step.freed_illegal {B B' : Buffer} {e : Effect} {skb : SkBuff}
    (hstep : Buffer.Step B (.enqueue skb) e B') (h : ¬ Legal skb) : e.freed = [classified skb] := by
  cases hstep with
  | illegal => rfl
  | reject hl | store hl | evict hl => exact absurd hl h

/-- A packet is held in the band its frame asks for. -/
theorem Started.bandOf_eq {c : Ctx} (h : Started c) (ops : List Op) {b : Band} {q : SkBuff}
    (hq : q ∈ (qdisc.exec c ops).sch.priv.queues b) : bandOf q = b := by
  have hsub := (List.sublist_append_right _ _).trans (h.lane_sublist ops b)
  rw [bandOf_eq_of_mem_map (hsub.subset hq)]
  exact h.banded ops b q hq

/-- A packet freed still has the priority its frame asks for. -/
theorem Started.bandOf_freed {c : Ctx} (h : Started c) (ops : List Op) {x : SkBuff}
    (hx : x ∈ (qdisc.exec c ops).kern.freed) : bandOf x = x.priority.toNat := by
  refine bandOf_eq_of_mem_map ((h.conserves ops).subset ?_)
  exact List.mem_append_right _ (List.mem_append_right _ hx)

/-- A packet that can be handed out is one of those held and of the least band held. -/
theorem Started.departs_least {c : Ctx} (h : Started c) (ops : List Op) {p : SkBuff}
    (hp : (pfabDequeue (qdisc.exec c ops)).1 = some p ∨ pfabPeek (qdisc.exec c ops) = some p)
    {b : Band} {q : SkBuff} (hq : q ∈ (qdisc.exec c ops).sch.priv.queues b) :
    bandOf p ≤ bandOf q := by
  have hpeek : (view (qdisc.exec c ops)).peek = some p := by
    rw [← pfabPeek_eq]
    rcases hp with hdeq | hpeek
    · rw [pfabDequeue_eq] at hdeq
      split at hdeq
      · exact hdeq
      · simp at hdeq
    · exact hpeek
  obtain ⟨m, -, hleast, hhead⟩ := Buffer.exists_of_peek_eq_some hpeek
  rw [h.bandOf_eq ops (List.mem_of_mem_head? hhead), h.bandOf_eq ops hq]
  exact hleast b (h.covered ops b (List.ne_nil_of_mem hq))

/-- No packet held after a loss is of a greater band than the lost one. -/
theorem Started.loses_greatest {c : Ctx} (h : Started c) (ops : List Op) {skb x : SkBuff}
    (hx : (pfabEnqueue skb (qdisc.exec c ops)).2.kern.freed =
      (qdisc.exec c ops).kern.freed ++ [x])
    {b : Band} {q : SkBuff}
    (hq : q ∈ (pfabEnqueue skb (qdisc.exec c ops)).2.sch.priv.queues b) :
    bandOf q ≤ bandOf x := by
  have hafter : qdisc.exec c (ops ++ [.enqueue skb]) =
      (pfabEnqueue skb (qdisc.exec c ops)).2 := Machine.exec_append ..
  have hband : bandOf q = b := h.bandOf_eq (ops ++ [.enqueue skb]) (by rwa [hafter])
  have hprio : bandOf x = x.priority.toNat := by
    refine h.bandOf_freed (ops ++ [.enqueue skb]) ?_
    rw [hafter, hx]
    exact List.mem_append_right _ (List.mem_singleton_self x)
  obtain ⟨freed, hstep, hlog⟩ := step_qdisc (qdisc.exec c ops) (.enqueue skb)
  have hfreed : freed = [x] := List.append_cancel_left (hlog.symm.trans hx)
  rw [hband]
  by_cases hl : Legal skb
  · rw [hprio]
    exact (hstep.loss hl (h.covered ops) (h.banded ops) hfreed).1 b (List.ne_nil_of_mem hq)
  · have hself : classified skb = x :=
      List.singleton_inj.mp ((hstep.freed_illegal hl).symm.trans hfreed)
    rw [← hself]
    exact b.isLt.le.trans (not_lt.mp hl)

/-! ## Bands of flows -/

/-- The packet is one of a flow that was started with the command: it has an IP header
and asks for the type of service of the flow, apart from the two bits of congestion
marks. -/
structure Carries (command : ClientCommand) (skb : SkBuff) : Prop where
  header : ethHeaderLen + ipHeaderLen ≤ skb.len
  tos : 4 * (skb.tos.toNat / 4) = command.priority

/-- The bands of two flows of the pfabric test are ordered as their sizes. -/
theorem nBytes_le_of_bandOf_le {dir : Text} {n nruns : ℕ} {loads : List ℕ} {events : List Event}
    (hevents : experiment dir n nruns loads = some events) {id id' : FlowId}
    {command command' : ClientCommand} (hid : (id, command) ∈ clients events)
    (hid' : (id', command') ∈ clients events) (htest : id.test = .pfabric)
    (htest' : id'.test = .pfabric) {p q : SkBuff} (hp : Carries command p)
    (hq : Carries command' q) (hle : bandOf p ≤ bandOf q) :
    command.nBytes ≤ command'.nBytes := by
  rw [experiment_eq] at hevents
  obtain rfl := Option.some.inj hevents
  rw [clients_experiment] at hid hid'
  obtain ⟨_, -, hcommand⟩ := List.mem_map.mp hid
  obtain ⟨_, -, hcommand'⟩ := List.mem_map.mp hid'
  obtain ⟨rfl, rfl⟩ := Prod.mk.inj hcommand
  obtain ⟨rfl, rfl⟩ := Prod.mk.inj hcommand'
  have hp4 := hp.tos
  have hq4 := hq.tos
  rw [bandOf_of_long hp.header, bandOf_of_long hq.header] at hle
  simp only [flowCommand, htest, htest', reduceCtorEq, if_false] at hp4 hq4 ⊢
  simp only [bucketSize]
  omega

/-- In every state that the qdisc can reach, a packet handed out belongs to a flow of the
pfabric test that is no longer than that of any packet held, and a packet lost to a full
buffer to one that is no shorter than that of any packet kept. -/
theorem shorter_flows_first {dir : Text} {n nruns : ℕ} {loads : List ℕ} {events : List Event}
    (hevents : experiment dir n nruns loads = some events) {id id' : FlowId}
    {short long : ClientCommand} (hid : (id, short) ∈ clients events)
    (hid' : (id', long) ∈ clients events) (htest : id.test = .pfabric)
    (htest' : id'.test = .pfabric) (hsize : short.nBytes < long.nBytes)
    {c : Ctx} (h : Started c) (ops : List Op) :
    (∀ p, (pfabDequeue (qdisc.exec c ops)).1 = some p ∨ pfabPeek (qdisc.exec c ops) = some p →
        Carries long p →
          ∀ b : Band, ∀ q ∈ (qdisc.exec c ops).sch.priv.queues b, ¬ Carries short q) ∧
      ∀ skb x, (pfabEnqueue skb (qdisc.exec c ops)).2.kern.freed =
          (qdisc.exec c ops).kern.freed ++ [x] → Carries short x →
        ∀ b : Band, ∀ q ∈ (pfabEnqueue skb (qdisc.exec c ops)).2.sch.priv.queues b,
          ¬ Carries long q := by
  have hbands : ∀ p q, Carries short p → Carries long q → ¬ bandOf q ≤ bandOf p := by
    intro p q hp hq hle
    exact hsize.not_ge (nBytes_le_of_bandOf_le hevents hid' hid htest' htest hq hp hle)
  refine ⟨fun p hp hlong b q hq hshort => ?_, fun skb x hx hshort b q hq hlong => ?_⟩
  · exact hbands q p hshort hlong (h.departs_least ops hp hq)
  · exact hbands x q hshort hlong (h.loses_greatest ops hx hq)

/-- A buffer for two packets holds two of the shorter flow when a third one of it arrives,
with a congestion mark: this one is lost, and none of the longer flow is kept. -/
theorem shorter_flows_first_two_flows :
    (pfabEnqueue (allocIpSkb 2 3) (qdisc.exec setup [configure 2 0, .enqueue (allocIpSkb 0 0),
        .enqueue (allocIpSkb 1 2)])).2.kern.freed = [classified (allocIpSkb 2 3)] ∧
    ∀ b : Band, ∀ q ∈ (pfabEnqueue (allocIpSkb 2 3) (qdisc.exec setup [configure 2 0,
        .enqueue (allocIpSkb 0 0), .enqueue (allocIpSkb 1 2)])).2.sch.priv.queues b,
      ¬ Carries (flowCommand "out".toList ⟨.pfabric, 2, 0, 0, 1⟩) q := by
  have hmem : ∀ j < 2, ((⟨.pfabric, 2, 0, 0, j⟩ : FlowId),
        flowCommand "out".toList ⟨.pfabric, 2, 0, 0, j⟩) ∈
      clients ([2].flatMap fun nflows => mainEvents ⟨"out".toList, 2, nflows, 1⟩) := by
    intro j hj
    rw [clients_experiment]
    refine List.mem_map.mpr ⟨_, mem_flows.mpr ?_, rfl⟩
    exact ⟨2, List.mem_singleton_self 2, rfl, Nat.one_pos, Nat.one_pos, hj⟩
  have hrun := shorter_flows_first (experiment_eq _ 2 1 [2]) (hmem 0 (by decide))
    (hmem 1 (by decide)) rfl rfl (by decide) setup_started
    [configure 2 0, .enqueue (allocIpSkb 0 0), .enqueue (allocIpSkb 1 2)]
  refine ⟨by decide, hrun.2 (allocIpSkb 2 3) (classified (allocIpSkb 2 3)) (by decide) ?_⟩
  exact ⟨by decide, by decide⟩

end PFabric
