import PFabric.Buffer.Steps

/-!
# Priorities and arrival order

Neither a departure nor a loss inverts priorities, and packets of one band
leave in the order in which they arrived.  Both hold in every reachable state,
also in those whose bitmap marks empty bands: they rest on `Covered`, which no
call breaks, and on what one call can do to one band list.

A packet's `id` is read as its stamp when the stamps of the arrivals increase.
-/

namespace PFabric

open scoped List

/-! ## Departures of a run -/

/-- The packets a call hands to the caller for good. -/
def handed : Op → Ret → List SkBuff
  | .dequeue, .skb packet => packet.toList
  | _, _ => []

/-- The packets returned by `pfab_dequeue` in a run, in order. -/
def departures (c : Ctx) (ops : List Op) : List SkBuff :=
  qdisc.observe (fun out op ret => out ++ handed op ret) [] c ops

theorem departures_cons (c : Ctx) (op : Op) (ops : List Op) :
    departures c (op :: ops) =
      handed op (qdisc.out c op) ++ departures (qdisc.next c op) ops := by
  rw [departures, Machine.observe, Machine.observe_append_eq, List.nil_append]
  rfl

/-- The packets of one band in a sequence of packets. -/
def ofBand (b : Band) (skbs : List SkBuff) : List SkBuff :=
  skbs.filter fun skb => skb.priority.toNat = (b : ℕ)

/-- The arrivals of a run carry increasing stamps. -/
def Stamped (ops : List Op) : Prop :=
  (arrivals ops).Pairwise fun first later => first.id < later.id

instance (ops : List Op) : Decidable (Stamped ops) :=
  inferInstanceAs (Decidable (List.Pairwise _ _))

namespace Buffer

variable {B B' : Buffer} {op : Op} {e : Effect}

/-- One call on one band: what it hands out, followed by what it leaves, was
there before or has just arrived, in this order. -/
theorem Step.lane_sublist (hstep : Step B op e B') (h : B.Banded) (b : Band) :
    ofBand b (handed op e.ret) ++ B'.queues b <+
      B.queues b ++ (arrivals [op]).map classified := by
  cases hstep with
  | illegal | reject => exact List.sublist_append_left _ _
  | store hl => exact Lanes.push_sublist B.queues hl.band _ b
  | evict hl =>
      exact (Lanes.pop_sublist _ _ b).trans (Lanes.push_sublist B.queues hl.band _ b)
  | refuse | peek | malformed | change => exact List.sublist_append_left _ _
  | @take m skb _ _ _ hhead =>
      have hprio : skb.priority.toNat = (m : ℕ) := h m skb (List.mem_of_mem_head? hhead)
      change ofBand b [skb] ++ Lanes.pop B.queues m b <+ B.queues b ++ []
      rw [List.append_nil]
      by_cases hbm : b = m
      · subst hbm
        have hof : ofBand b [skb] = [skb] := by simp [ofBand, hprio]
        rw [hof, Lanes.pop_self, List.singleton_append,
          List.cons_head?_tail hhead]
      · have hof : ofBand b [skb] = [] := by
          have hne : (m : ℕ) ≠ b := fun heq => hbm (Fin.ext heq.symm)
          simp [ofBand, hprio, hne]
        rw [hof, List.nil_append]
        exact Lanes.pop_sublist B.queues m b
  | reset => exact List.nil_sublist _

end Buffer

/-- Band by band, the packets handed out so far followed by those still queued
are a subsequence of the arrivals. -/
theorem Started.lane_sublist {c : Ctx} (h : Started c) (ops : List Op) (b : Band) :
    ofBand b (departures c ops) ++ (qdisc.exec c ops).sch.priv.queues b <+
      (arrivals ops).map classified := by
  have hrun := Machine.observe_invariant (M := qdisc)
    (f := fun out op ret => out ++ handed op ret)
    (J := fun ops out c => (view c).Banded ∧
      ofBand b out ++ (view c).queues b <+ (arrivals ops).map classified)
    ?_ (g := []) (s := c) ?_ ops
  · exact hrun.2
  · rintro ops out c op ⟨hbanded, hsub⟩
    obtain ⟨_, hstep, _⟩ := step_qdisc c op
    refine ⟨hstep.banded hbanded, ?_⟩
    have hlane := hstep.lane_sublist hbanded b
    calc ofBand b (out ++ handed op (qdisc.out c op)) ++ (view (qdisc.next c op)).queues b
        = ofBand b out ++ (ofBand b (handed op (qdisc.out c op)) ++
            (view (qdisc.next c op)).queues b) := by
          rw [ofBand, List.filter_append, List.append_assoc]
          rfl
      _ <+ ofBand b out ++ ((view c).queues b ++ (arrivals [op]).map classified) :=
          hlane.append_left _
      _ = (ofBand b out ++ (view c).queues b) ++ (arrivals [op]).map classified := by
          rw [List.append_assoc]
      _ <+ (arrivals ops).map classified ++ (arrivals [op]).map classified :=
          hsub.append_right _
      _ = (arrivals (ops ++ [op])).map classified := by
          rw [arrivals_append, List.map_append]
  · refine ⟨h.banded [], ?_⟩
    have hnil : (view c).queues b = [] := by rw [h.fresh.1.2.2]
    rw [hnil]
    exact List.nil_sublist _

/-- Stamps increase along every band list. -/
theorem Started.pairwise_stamps {c : Ctx} (h : Started c) {ops : List Op}
    (hstamp : Stamped ops) (b : Band) :
    ((qdisc.exec c ops).sch.priv.queues b).Pairwise fun p q => p.id < q.id := by
  have hsub : (qdisc.exec c ops).sch.priv.queues b <+ (arrivals ops).map classified :=
    (List.sublist_append_right _ _).trans (h.lane_sublist ops b)
  apply List.Pairwise.sublist hsub
  rw [List.pairwise_map]
  exact hstamp

/-! ## Losses -/

namespace Buffer

variable {B B' : Buffer} {e : Effect} {skb x : SkBuff}

/-- After a loss, no band less urgent than that of the lost packet is occupied.
The lost packet is the arrival, or it was evicted and what is left of its band
was queued behind it. -/
theorem Step.loss (hstep : Step B (.enqueue skb) e B') (hl : Legal skb)
    (hcov : B.Covered) (hband : B.Banded) (hx : e.freed = [x]) :
    (∀ b, B'.queues b ≠ [] → (b : ℕ) ≤ x.priority.toNat) ∧
      (e.ret = .xmit .drop → x = classified skb) ∧
      (e.ret ≠ .xmit .drop → ∀ b : Band, (b : ℕ) = x.priority.toNat →
        B'.queues b = [] ∨ B.queues b = x :: B'.queues b) := by
  cases hstep with
  | illegal h => exact absurd hl h
  | reject h hr =>
      obtain rfl : classified skb = x := List.singleton_inj.mp hx
      refine ⟨?_, fun _ => rfl, fun hret => absurd rfl hret⟩
      intro b hb
      rw [toNat_priority_classified]
      exact hr.2.2 b (hcov b hb)
  | store => simp at hx
  | evict h hr hover =>
      have hhead : (Lanes.push B.queues h.band (classified skb)
          (B.victim h.band)).head? = some x := by
        rw [← Option.toList_eq_singleton_iff]
        exact hx
      have hprio : x.priority.toNat = (B.victim h.band : ℕ) :=
        hband.store h _ x (List.mem_of_mem_head? hhead)
      refine ⟨?_, fun hret => by simp at hret, ?_⟩
      · intro b hb
        rw [hprio]
        exact B.le_victim (hcov.store h.band _ b (Lanes.ne_nil_of_pop_ne_nil hb))
      · intro _ b hb
        obtain rfl : b = B.victim h.band := Fin.ext (hb.trans hprio)
        have hleft : ((B.store h.band (classified skb)).evict
              (B.victim h.band)).queues (B.victim h.band) =
            (Lanes.push B.queues h.band (classified skb) (B.victim h.band)).tail :=
          Lanes.pop_self _ _
        rw [hleft]
        rcases victim_cases hr (limit_le_of_lt_succ hover) with ⟨hempty, hv⟩ | ⟨_, hlt⟩
        · -- nothing was marked, so the arrival evicted itself from an empty band
          left
          have hnil := hcov.eq_nil_of_marked_eq_empty hempty h.band
          simp [hv, hnil]
        · right
          rw [Lanes.push_of_ne _ _ (ne_of_gt hlt)] at hhead ⊢
          exact (List.cons_head?_tail hhead).symm

end Buffer

/-- A packet `x` lost in the arrival of a packet of legal priority, whether it
is the arrival itself or was evicted by `pfab_drop`, leaves no less urgent
packet behind; and an evicted one leaves no packet of its band behind that had
arrived before it. -/
theorem no_priority_inversion_of_loss {c : Ctx} (h : Started c) (ops : List Op)
    (hstamp : Stamped ops) (skb x : SkBuff) (hl : Legal skb)
    (hx : (pfabEnqueue skb (qdisc.exec c ops)).2.kern.freed =
      (qdisc.exec c ops).kern.freed ++ [x]) :
    (∀ b : Band, ∀ q ∈ (pfabEnqueue skb (qdisc.exec c ops)).2.sch.priv.queues b,
        (b : ℕ) ≤ x.priority.toNat) ∧
      ((pfabEnqueue skb (qdisc.exec c ops)).1 = .drop → x = classified skb) ∧
      ((pfabEnqueue skb (qdisc.exec c ops)).1 ≠ .drop →
        ∀ b : Band, (b : ℕ) = x.priority.toNat →
          ∀ q ∈ (pfabEnqueue skb (qdisc.exec c ops)).2.sch.priv.queues b,
            x.id < q.id) := by
  have hcov := h.covered ops
  have hband := h.banded ops
  have hpair := h.pairwise_stamps hstamp
  generalize qdisc.exec c ops = s at hx hcov hband hpair ⊢
  obtain ⟨freed, hstep, hlog⟩ := step_qdisc s (.enqueue skb)
  have hfreed : freed = [x] := List.append_cancel_left (hlog.symm.trans hx)
  obtain ⟨hurgent, harrival, hbehind⟩ := hstep.loss hl hcov hband hfreed
  refine ⟨?_, ?_, ?_⟩
  · intro b q hq
    exact hurgent b (List.ne_nil_of_mem hq)
  · intro hdrop
    exact harrival (congrArg Ret.xmit hdrop)
  · intro hdrop b hb q hq
    rcases hbehind (fun heq => hdrop (Ret.xmit.inj heq)) b hb with hnil | hcons
    · exact absurd hnil (List.ne_nil_of_mem hq)
    · have hlane := hpair b
      rw [← queues_view, hcons] at hlane
      exact List.rel_of_pairwise_cons hlane hq

/-- At a limit of two, the urgent arrival evicts the older packet of band 5 and
leaves the younger one. -/
theorem no_priority_inversion_two_in_band :
    (pfabEnqueue (allocIpSkb 2 3) (qdisc.exec setup
        [configure 2 0, .enqueue (allocIpSkb 0 5), .enqueue (allocIpSkb 1 5)])).1 = .cn ∧
      (classified (allocIpSkb 0 5)).id < (classified (allocIpSkb 1 5)).id :=
  ⟨by decide,
    (no_priority_inversion_of_loss setup_started
      [configure 2 0, .enqueue (allocIpSkb 0 5), .enqueue (allocIpSkb 1 5)] (by decide)
      (allocIpSkb 2 3) (classified (allocIpSkb 0 5)) (by decide) (by decide)).2.2
        (by decide) 5 (by decide) _ (by decide)⟩

/-! ## Departures -/

/-- Whatever `pfab_dequeue` or `pfab_peek` returns is at least as urgent as
every packet held, and arrived before every other packet of its band.  The
packets ever dequeued from a band are a subsequence of the arrivals. -/
theorem departure_order {c : Ctx} (h : Started c) {ops : List Op}
    (hstamp : Stamped ops) :
    (∀ p, (pfabDequeue (qdisc.exec c ops)).1 = some p ∨
          pfabPeek (qdisc.exec c ops) = some p →
        ∀ b : Band, ∀ q ∈ (qdisc.exec c ops).sch.priv.queues b,
          p.priority.toNat ≤ b ∧
            (p.priority.toNat = b → q ≠ p → p.id < q.id)) ∧
      ∀ b : Band, ofBand b (departures c ops) <+ (arrivals ops).map classified := by
  refine ⟨?_, fun b => (List.sublist_append_left _ _).trans (h.lane_sublist ops b)⟩
  have hcov := h.covered ops
  have hband := h.banded ops
  have hpair := h.pairwise_stamps hstamp
  generalize qdisc.exec c ops = s at hcov hband hpair ⊢
  intro p hp b q hq
  have hpeek : (view s).peek = some p := by
    rw [← pfabPeek_eq]
    rcases hp with hdeq | hpeek
    · rw [pfabDequeue_eq] at hdeq
      split at hdeq
      · exact hdeq
      · simp at hdeq
    · exact hpeek
  obtain ⟨m, _, hleast, hhead⟩ := Buffer.exists_of_peek_eq_some hpeek
  have hprio : p.priority.toNat = (m : ℕ) := hband m p (List.mem_of_mem_head? hhead)
  rw [hprio]
  refine ⟨hleast b (hcov b (List.ne_nil_of_mem hq)), ?_⟩
  intro hmb hne
  obtain rfl : m = b := Fin.ext hmb
  have hcons : s.sch.priv.queues m = p :: (s.sch.priv.queues m).tail :=
    (List.cons_head?_tail hhead).symm
  have hlane := hpair m
  rw [hcons] at hlane hq
  exact List.rel_of_pairwise_cons hlane ((List.mem_cons.mp hq).resolve_left hne)

/-- Three packets in two bands, the more urgent one last.  When it has left, the next is
the first arrival of the other band. -/
theorem departure_order_two_bands :
    (pfabDequeue (qdisc.exec setup
        [.enqueue (allocIpSkb 0 5), .enqueue (allocIpSkb 1 5), .enqueue (allocIpSkb 2 3),
          .dequeue])).1 = some (classified (allocIpSkb 0 5)) ∧
      (classified (allocIpSkb 0 5)).id < (classified (allocIpSkb 1 5)).id ∧
      ofBand 5 (departures setup
          [.enqueue (allocIpSkb 0 5), .enqueue (allocIpSkb 1 5), .enqueue (allocIpSkb 2 3),
            .dequeue]) <+
        (arrivals [.enqueue (allocIpSkb 0 5), .enqueue (allocIpSkb 1 5),
          .enqueue (allocIpSkb 2 3), .dequeue]).map classified := by
  obtain ⟨hfirst, hsub⟩ := departure_order setup_started
    (show Stamped [.enqueue (allocIpSkb 0 5), .enqueue (allocIpSkb 1 5),
      .enqueue (allocIpSkb 2 3), .dequeue] by decide)
  have hdequeue : (pfabDequeue (qdisc.exec setup
      [.enqueue (allocIpSkb 0 5), .enqueue (allocIpSkb 1 5), .enqueue (allocIpSkb 2 3),
        .dequeue])).1 = some (classified (allocIpSkb 0 5)) := by decide
  refine ⟨hdequeue, ?_, hsub 5⟩
  exact (hfirst _ (Or.inl hdequeue) 5 (classified (allocIpSkb 1 5)) (by decide)).2
    (by decide) (by decide)

end PFabric
