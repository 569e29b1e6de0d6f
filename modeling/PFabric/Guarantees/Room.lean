import PFabric.Guarantees.Bounded
import PFabric.Guarantees.Precedence

/-!
# More room lets no fewer packets through

Two qdiscs are sent the same calls, but one of them has the larger limits.  Counted up to
any band, it holds no fewer packets and lets no fewer through, also if the limits change
during the run.  The packets up to a band are held and leave in numbers that a bounded
counter predicts from the calls alone, and the counter is monotone in its bound.
-/

namespace PFabric

/-! ## The bounded counter of a band -/

/-- A counter of packets under the options of a qdisc. -/
structure Gauge where
  limit : BitVec 32
  disableDequeue : BitVec 32
  count : ℕ

/-- The counter of the packets up to a band.  It answers how many of these leave. -/
def gauge (x : ℕ) : Machine Gauge Op ℕ where
  step g op :=
    match op with
    | .enqueue skb =>
        (0, { g with count := min g.limit.toNat (g.count + (legalBands [skb]).countP (· ≤ x)) })
    | .dequeue =>
        if g.disableDequeue = 0 then (min 1 g.count, { g with count := g.count - 1 }) else (0, g)
    | .peek => (0, g)
    | .change opt =>
        (0, (Op.change opt).sets.elim g fun qopt =>
          { g with limit := qopt.limit, disableDequeue := qopt.disableDequeue })
    | .reset => (0, { g with count := 0 })

theorem gauge_dequeue (x : ℕ) (g : Gauge) :
    (gauge x).step g .dequeue =
      if g.disableDequeue = 0 then (min 1 g.count, { g with count := g.count - 1 }) else (0, g) :=
  rfl

theorem gauge_change (x : ℕ) (g : Gauge) (opt : Option Nlattr) :
    (gauge x).step g (.change opt) =
      (0, (Op.change opt).sets.elim g fun qopt =>
        { g with limit := qopt.limit, disableDequeue := qopt.disableDequeue }) :=
  rfl

/-- What the counter of a band shows of a buffer. -/
def Buffer.gauged (B : Buffer) (x : ℕ) : Gauge :=
  ⟨B.limit, B.disableDequeue, ((Lanes.flat B.queues).map bandKey).countP (· ≤ x)⟩

namespace Buffer

variable {B B' : Buffer} {e : Effect} {x : ℕ}

/-- The packet that leaves is one up to the band if there is one. -/
theorem Sound.countP_handed (h : B.Sound) (hstep : Step B .dequeue e B') :
    (handed .dequeue e.ret).countP (bandKey · ≤ x) =
      if B.disableDequeue = 0 then min 1 (B.gauged x).count else 0 := by
  cases hstep with
  | refuse hrefuse =>
      rcases hrefuse with hoff | hnone
      · rw [if_neg hoff]
        rfl
      · have hcount : (B.gauged x).count = 0 := by
          rw [gauged, Lanes.flat_eq_nil_iff.mpr (h.exact.eq_nil_of_peek_eq_none hnone)]
          rfl
        rw [hcount, Nat.min_zero, ite_self]
        rfl
  | @take m skb hon hm hleast hhead =>
      have hmem := List.mem_of_mem_head? hhead
      have hskb : bandKey skb = m := h.banded m skb hmem
      have hcount : 0 < (B.gauged x).count ↔ (m : ℕ) ≤ x := by
        rw [gauged, List.countP_map, List.countP_pos_iff]
        constructor
        · rintro ⟨p, hp, hle⟩
          obtain ⟨b, -, hb⟩ := List.mem_flatMap.mp hp
          have hkey : bandKey p = b := h.banded b p hb
          have hmb : (m : ℕ) ≤ b := hleast b ((h.exact b).mpr (List.ne_nil_of_mem hb))
          exact hmb.trans (hkey ▸ of_decide_eq_true hle)
        · intro hle
          refine ⟨skb, List.mem_flatMap.mpr ⟨m, List.mem_finRange m, hmem⟩, ?_⟩
          exact decide_eq_true (hskb.le.trans hle)
      change [skb].countP (bandKey · ≤ x) = _
      rw [if_pos hon, List.countP_singleton, hskb]
      by_cases hle : (m : ℕ) ≤ x
      · have hpos := hcount.mpr hle
        simp only [hle, decide_true, if_true]
        omega
      · have hzero := mt hcount.mp hle
        simp only [hle, decide_false, Bool.false_eq_true, if_false]
        omega

/-- What leaves is what the counter goes down by. -/
theorem Step.count_dequeue (hstep : Step B .dequeue e B') :
    (B'.gauged x).count + (handed .dequeue e.ret).countP (bandKey · ≤ x) =
      (B.gauged x).count := by
  have hfreed : e.freed = [] := by
    cases hstep with
    | refuse | take => rfl
  have hcount := (hstep.conserves.map bandKey).countP_eq (· ≤ x)
  simp only [hfreed, List.append_nil, List.map_append, List.countP_append] at hcount
  rw [List.countP_map (l := handed _ _)] at hcount
  exact hcount

end Buffer

variable {c c' : Ctx} {op op' : Op} {x : ℕ}

/-- One call moves the packets up to a band as the counter says. -/
theorem gauge_step (h : (view c).Sound) (hevicts : EvictsPacket c op) :
    (handed op (qdisc.out c op)).countP (bandKey · ≤ x) =
        (gauge x).out ((view c).gauged x) op ∧
      (view (qdisc.next c op)).gauged x = (gauge x).next ((view c).gauged x) op := by
  obtain ⟨freed, hstep, -⟩ := step_qdisc c op
  generalize view (qdisc.next c op) = B' at hstep ⊢
  generalize qdisc.out c op = ret at hstep ⊢
  cases op with
  | enqueue skb =>
      have hlimit := hstep.limit_eq (by simp)
      have hcount := hstep.countP_heldBands h.exact.covered h.banded h.counted h.within hevicts x
      have hswitch : B'.disableDequeue = (view c).disableDequeue := by
        cases hstep <;> rfl
      refine ⟨by cases hstep <;> rfl, ?_⟩
      rw [Buffer.gauged, hcount, hlimit, hswitch]
      rfl
  | dequeue =>
      have hhanded := h.countP_handed (x := x) hstep
      have hrest := hstep.count_dequeue (x := x)
      have hsame : B'.gauged x = { (view c).gauged x with count := (B'.gauged x).count } := by
        cases hstep <;> rfl
      rw [hsame, Machine.out, Machine.next, gauge_dequeue]
      by_cases hon : (view c).disableDequeue = 0
      · have hon' : ((view c).gauged x).disableDequeue = 0 := hon
        rw [if_pos hon] at hhanded
        have hcount : (B'.gauged x).count = ((view c).gauged x).count - 1 := by omega
        rw [if_pos hon', hcount]
        exact ⟨hhanded, rfl⟩
      · have hoff : ((view c).gauged x).disableDequeue ≠ 0 := hon
        rw [if_neg hon] at hhanded
        have hcount : (B'.gauged x).count = ((view c).gauged x).count := by omega
        rw [if_neg hoff, hcount]
        exact ⟨hhanded, rfl⟩
  | peek =>
      cases hstep
      exact ⟨rfl, rfl⟩
  | change opt =>
      have hoptions := hstep.options_eq
      have hqueues : B'.queues = (view c).queues := by cases hstep <;> rfl
      refine ⟨by cases hstep <;> rfl, ?_⟩
      rw [Machine.next, gauge_change, Buffer.gauged, hqueues]
      cases hsets : (Op.change opt).sets with
      | none | some =>
          rw [hsets] at hoptions
          obtain ⟨hlimit, hswitch⟩ := TcPfabricQopt.mk.inj hoptions
          rw [hlimit, hswitch]
          rfl
  | reset =>
      cases hstep
      refine ⟨rfl, ?_⟩
      rw [Buffer.gauged, Lanes.flat_eq_nil_iff.mpr fun _ => rfl]
      rfl

/-- In a run that keeps the bitmap and the counter exact, the packets up to a band are held
and leave as the counter says. -/
theorem gauge_run {ops : List Op} (h : (view c).Sound) (hkeeps : qdisc.Meets KeepsBandsExact c ops)
    (hevicts : qdisc.Meets EvictsPacket c ops) (hcovers : qdisc.Meets LimitCovers c ops) :
    (departures c ops).countP (bandKey · ≤ x) =
        ((gauge x).trace ((view c).gauged x) ops).sum ∧
      (view (qdisc.exec c ops)).gauged x = (gauge x).exec ((view c).gauged x) ops := by
  induction ops generalizing c with
  | nil => exact ⟨rfl, rfl⟩
  | cons op ops ih =>
      obtain ⟨hout, hnext⟩ := gauge_step (x := x) h hevicts.1
      obtain ⟨hcount, hend⟩ :=
        ih (h.next hkeeps.1 hevicts.1 hcovers.1) hkeeps.2 hevicts.2 hcovers.2
      rw [departures_cons, List.countP_append, hout, hcount, Machine.trace, List.sum_cons, hnext,
        Machine.exec_cons, hend, hnext, Machine.exec_cons]
      exact ⟨rfl, rfl⟩

/-! ## Raised limits -/

/-- The second call is the first one, or sets a limit that is no smaller. -/
inductive Roomier : Op → Op → Prop
  | same (op : Op) : Roomier op op
  | change {opt opt' : Option Nlattr} {qopt qopt' : TcPfabricQopt}
      (hsets : (Op.change opt).sets = some qopt)
      (hsets' : (Op.change opt').sets = some qopt')
      (hlimit : qopt.limit ≤ qopt'.limit)
      (hswitch : qopt'.disableDequeue = qopt.disableDequeue) :
      Roomier (.change opt) (.change opt')

/-- The second counter has no smaller bound and counts no less. -/
structure Gauge.Within (g g' : Gauge) : Prop where
  limit : g.limit ≤ g'.limit
  disableDequeue : g'.disableDequeue = g.disableDequeue
  count : g.count ≤ g'.count

theorem Gauge.Within.step {g g' : Gauge} (h : g.Within g') (hop : Roomier op op') :
    (gauge x).out g op ≤ (gauge x).out g' op' ∧
      ((gauge x).next g op).Within ((gauge x).next g' op') := by
  have hlimit := BitVec.le_def.mp h.limit
  have hcount := h.count
  cases hop with
  | same =>
      cases op with
      | enqueue skb =>
          refine ⟨le_refl _, h.limit, h.disableDequeue, ?_⟩
          change min _ _ ≤ min _ _
          omega
      | dequeue =>
          rw [Machine.out, Machine.out, Machine.next, Machine.next, gauge_dequeue, gauge_dequeue,
            h.disableDequeue]
          split
          · exact ⟨min_le_min_left 1 hcount, h.limit, rfl, Nat.sub_le_sub_right hcount 1⟩
          · exact ⟨le_refl _, h⟩
      | peek => exact ⟨le_refl _, h⟩
      | change opt =>
          rw [Machine.out, Machine.out, Machine.next, Machine.next, gauge_change, gauge_change]
          cases (Op.change opt).sets with
          | none => exact ⟨le_refl _, h⟩
          | some qopt => exact ⟨le_refl _, BitVec.le_refl _, rfl, hcount⟩
      | reset => exact ⟨le_refl _, h.limit, h.disableDequeue, le_refl _⟩
  | change hsets hsets' hlimit hswitch =>
      rw [Machine.out, Machine.out, Machine.next, Machine.next, gauge_change, gauge_change,
        hsets, hsets']
      exact ⟨le_refl _, hlimit, hswitch, hcount⟩

/-- Two qdiscs are sent the same calls, but the second one is created with and set to limits
that are no smaller.  If the bitmap and the counter of both stay exact and no limit is set
below the number of packets held, the second one hands out at least as many packets up to
each band as the first one, and holds at least as many. -/
theorem more_room_lets_no_fewer_through (h : Started c) (h' : Started c')
    (hlimit : c.sch.priv.limit ≤ c'.sch.priv.limit)
    (hswitch : c'.sch.priv.disableDequeue = c.sch.priv.disableDequeue) {ops ops' : List Op}
    (hops : List.Forall₂ Roomier ops ops')
    (hkeeps : qdisc.Meets KeepsBandsExact c ops) (hevicts : qdisc.Meets EvictsPacket c ops)
    (hcovers : qdisc.Meets LimitCovers c ops) (hkeeps' : qdisc.Meets KeepsBandsExact c' ops')
    (hevicts' : qdisc.Meets EvictsPacket c' ops') (hcovers' : qdisc.Meets LimitCovers c' ops')
    (x : ℕ) :
    (departures c ops).countP (bandKey · ≤ x) ≤ (departures c' ops').countP (bandKey · ≤ x) ∧
      (heldBands (qdisc.exec c ops)).countP (· ≤ x) ≤
        (heldBands (qdisc.exec c' ops')).countP (· ≤ x) := by
  have hempty : ∀ {c : Ctx}, Started c → ((view c).gauged x).count = 0 := by
    intro c h
    rw [Buffer.gauged, Lanes.flat_eq_nil_iff.mpr fun b => congrFun h.fresh.1.2.2 b]
    rfl
  have hstart : ((view c).gauged x).Within ((view c').gauged x) :=
    ⟨hlimit, hswitch, by rw [hempty h, hempty h']⟩
  obtain ⟨hout, hend⟩ := gauge_run (x := x) h.fresh.1.sound hkeeps hevicts hcovers
  obtain ⟨hout', hend'⟩ := gauge_run (x := x) h'.fresh.1.sound hkeeps' hevicts' hcovers'
  obtain ⟨hsum, hwithin⟩ := Machine.sum_trace_le_of_mono (M := gauge x) (R := Gauge.Within)
    (fun _ _ _ _ hR hI => hR.step hI) hstart hops
  rw [← hend, ← hend'] at hwithin
  rw [hout, hout']
  exact ⟨hsum, hwithin.count⟩

/-- Two places against three, for packets of bands 5, 5, 4 and 5. -/
theorem more_room_lets_no_fewer_through_third_place :
    (departures setup [configure 2 0, .enqueue (allocIpSkb 0 5), .enqueue (allocIpSkb 1 5),
        .enqueue (allocIpSkb 2 4), .enqueue (allocIpSkb 3 5), .dequeue, .dequeue,
        .dequeue]).countP (bandKey · ≤ 5) ≤
      (departures setup [configure 3 0, .enqueue (allocIpSkb 0 5), .enqueue (allocIpSkb 1 5),
        .enqueue (allocIpSkb 2 4), .enqueue (allocIpSkb 3 5), .dequeue, .dequeue,
        .dequeue]).countP (bandKey · ≤ 5) := by
  have hops : List.Forall₂ Roomier
      [configure 2 0, .enqueue (allocIpSkb 0 5), .enqueue (allocIpSkb 1 5),
        .enqueue (allocIpSkb 2 4), .enqueue (allocIpSkb 3 5), .dequeue, .dequeue, .dequeue]
      [configure 3 0, .enqueue (allocIpSkb 0 5), .enqueue (allocIpSkb 1 5),
        .enqueue (allocIpSkb 2 4), .enqueue (allocIpSkb 3 5), .dequeue, .dequeue, .dequeue] :=
    .cons (.change (TcPfabricQopt.qopt?_nlattr ⟨2, 0⟩) (TcPfabricQopt.qopt?_nlattr ⟨3, 0⟩)
        (by decide) rfl)
      (List.forall₂_same.mpr fun op _ => .same op)
  exact (more_room_lets_no_fewer_through setup_started setup_started (by decide) rfl hops
    (by decide) (by decide) (by decide) (by decide) (by decide) (by decide) 5).1

end PFabric
