import PFabric.Guarantees.Order

/-!
# Packet conservation

Ownership of a packet moves along six exits in five functions.  One call
permutes what the qdisc owned and what arrived into what it still owns, what it
hands out and what it frees; a run therefore does the same with all arrivals.
Nothing here depends on the bitmap or the counter being exact.
-/

namespace PFabric

/-- What one call does with the packets it finds and the one it is given. -/
theorem Buffer.Step.conserves {B B' : Buffer} {op : Op} {e : Effect}
    (hstep : Buffer.Step B op e B') :
    (Lanes.flat B'.queues ++ (handed op e.ret ++ e.freed)).Perm
      (Lanes.flat B.queues ++ (arrivals [op]).map classified) := by
  cases hstep with
  | illegal | reject | refuse | peek | malformed | change => exact List.Perm.refl _
  | store hl =>
      refine List.Perm.trans ?_ (Lanes.flat_push_perm B.queues hl.band _)
      exact List.Perm.of_eq (List.append_nil _)
  | evict hl =>
      exact (Lanes.flat_pop_head?_perm _ _).trans
        (Lanes.flat_push_perm B.queues hl.band _)
  | @take m skb _ _ _ hhead =>
      have hpop := Lanes.flat_pop_head?_perm B.queues m
      rw [hhead] at hpop
      exact hpop.trans (List.Perm.of_eq (List.append_nil _).symm)
  | reset =>
      have hempty : Lanes.flat (fun _ : Band => ([] : List SkBuff)) = [] :=
        Lanes.flat_eq_nil_iff.mpr fun _ => rfl
      rw [hempty]
      exact List.Perm.of_eq (List.append_nil _).symm

/-- The packets queued, handed out and freed are the arrivals. -/
theorem Started.conserves {c : Ctx} (h : Started c) (ops : List Op) :
    (Lanes.flat (qdisc.exec c ops).sch.priv.queues ++
        (departures c ops ++ (qdisc.exec c ops).kern.freed)).Perm
      ((arrivals ops).map classified) := by
  refine Machine.observe_invariant (M := qdisc)
    (f := fun out op ret => out ++ handed op ret)
    (J := fun ops out c => (Lanes.flat (view c).queues ++ (out ++ c.kern.freed)).Perm
      ((arrivals ops).map classified)) ?_ (g := []) ?_ ops
  · intro ops out c op hperm
    obtain ⟨freed, hstep, hlog⟩ := step_qdisc c op
    have hconserves := hstep.conserves
    rw [hlog, arrivals_append, List.map_append]
    rw [List.perm_iff_count] at hperm hconserves ⊢
    intro skb
    have hskb := hperm skb
    have hcall := hconserves skb
    simp only [List.count_append] at hskb hcall ⊢
    omega
  · obtain ⟨⟨_, _, hqueues⟩, hfreed⟩ := h.fresh
    rw [hqueues, hfreed, Lanes.flat_eq_nil_iff.mpr fun _ => rfl]
    exact List.Perm.refl _

/-! ## The end of a qdisc -/

/-- `pfab_destroy` purges every list. -/
theorem pfabDestroy_purges (dev : String) (c : Ctx) :
    (∀ b, (pfabDestroy dev c).sch.priv.queues b = []) ∧
      (pfabDestroy dev c).kern.freed =
        c.kern.freed ++ Lanes.flat c.sch.priv.queues := by
  rw [pfabDestroy, purgeAll_eq]
  exact ⟨fun _ => rfl, rfl⟩

/-! ## Every packet in one place -/

/-- How many of the packets are the buffer `id`. -/
def copies (id : ℕ) (skbs : List SkBuff) : ℕ := (skbs.map (·.id)).count id

theorem copies_append (id : ℕ) (skbs skbs' : List SkBuff) :
    copies id (skbs ++ skbs') = copies id skbs + copies id skbs' := by
  simp [copies]

/-- If the arrivals are distinct buffers, each of them is at every moment in
exactly one place, once: queued in the list of its band, handed out, or freed.
After `pfab_destroy` nothing is queued, and each has been handed out or freed. -/
theorem packet_conservation {c : Ctx} (h : Started c) {ops : List Op}
    (hdistinct : ((arrivals ops).map (·.id)).Nodup) (dev : String) :
    (∀ skb ∈ arrivals ops,
        copies skb.id (Lanes.flat (qdisc.exec c ops).sch.priv.queues) +
          copies skb.id (departures c ops) +
          copies skb.id (qdisc.exec c ops).kern.freed = 1) ∧
      (∀ b : Band, ∀ q ∈ (qdisc.exec c ops).sch.priv.queues b,
        q.priority.toNat = (b : ℕ)) ∧
      (∀ b : Band, (pfabDestroy dev (qdisc.exec c ops)).sch.priv.queues b = []) ∧
      ∀ skb ∈ arrivals ops,
        copies skb.id (departures c ops) +
          copies skb.id (pfabDestroy dev (qdisc.exec c ops)).kern.freed = 1 := by
  obtain ⟨hpurged, hdestroy⟩ := pfabDestroy_purges dev (qdisc.exec c ops)
  have hplaces : ∀ skb ∈ arrivals ops,
      copies skb.id (Lanes.flat (qdisc.exec c ops).sch.priv.queues) +
        (copies skb.id (departures c ops) +
          copies skb.id (qdisc.exec c ops).kern.freed) = 1 := by
    intro skb hskb
    have hperm := ((h.conserves ops).map (·.id)).count_eq skb.id
    have hone : copies skb.id ((arrivals ops).map classified) = 1 := by
      have hids : ((arrivals ops).map classified).map (·.id) = (arrivals ops).map (·.id) := by
        rw [List.map_map]
        rfl
      rw [copies, hids]
      exact List.count_eq_one_of_mem hdistinct (List.mem_map_of_mem hskb)
    rw [← copies_append, ← copies_append]
    exact hperm.trans hone
  refine ⟨?_, h.banded ops, hpurged, ?_⟩
  · intro skb hskb
    have hskb := hplaces skb hskb
    omega
  · intro skb hskb
    have hskb := hplaces skb hskb
    rw [hdestroy, copies_append]
    omega

/-- Of four packets one has an illegal priority, one is evicted, one has left
and one is queued. -/
theorem packet_conservation_four_places :
    copies 2 (Lanes.flat (qdisc.exec setup
        [configure 1 0, .enqueue (allocIpSkb 0 40), .enqueue (allocIpSkb 1 5),
          .enqueue (allocIpSkb 2 3), .dequeue,
          .enqueue (allocIpSkb 3 7)]).sch.priv.queues) +
      copies 2 (departures setup
        [configure 1 0, .enqueue (allocIpSkb 0 40), .enqueue (allocIpSkb 1 5),
          .enqueue (allocIpSkb 2 3), .dequeue, .enqueue (allocIpSkb 3 7)]) +
      copies 2 (qdisc.exec setup
        [configure 1 0, .enqueue (allocIpSkb 0 40), .enqueue (allocIpSkb 1 5),
          .enqueue (allocIpSkb 2 3), .dequeue, .enqueue (allocIpSkb 3 7)]).kern.freed = 1 :=
  (packet_conservation setup_started (by decide) "lo").1 (allocIpSkb 2 3) (by decide)

end PFabric
