import PFabric.Buffer.Steps

/-!
# The length counter and the buffer bound

`sch->q.qlen` is kept by hand beside the lists, and the buffer limit is tested
on it.  `pfab_drop` decrements it whether or not it found a packet to free.
This module says exactly when the counter stays equal to the number of packets
held, and that the buffer bound holds in exactly the same runs.
-/

namespace PFabric

namespace Buffer

/-- The counter is the number of packets in the lists. -/
def Counted (B : Buffer) : Prop := B.qlen.toNat = Lanes.total B.queues

variable {B B' : Buffer} {op : Op} {e : Effect} {b : Band} {skb : SkBuff}

theorem Fresh.counted (h : B.Fresh) : B.Counted := by
  obtain ⟨hqlen, _, hqueues⟩ := h
  rw [Counted, hqlen, hqueues]
  exact (Lanes.total_eq_zero_iff.mpr fun _ => rfl).symm

/-- An eviction that finds a packet makes up for the arrival. -/
theorem total_evict (hne : Lanes.push B.queues b skb (B.victim b) ≠ []) :
    Lanes.total ((B.store b skb).evict (B.victim b)).queues =
      Lanes.total B.queues := by
  have hpop := Lanes.total_pop hne
  rw [Lanes.total_push] at hpop
  exact Nat.succ.inj hpop

/-- An eviction that finds an empty list leaves one packet too many. -/
theorem total_evict_of_eq_nil (hnil : Lanes.push B.queues b skb (B.victim b) = []) :
    Lanes.total ((B.store b skb).evict (B.victim b)).queues =
      Lanes.total B.queues + 1 := by
  change Lanes.total (Lanes.pop (Lanes.push B.queues b skb) (B.victim b)) = _
  rw [Lanes.pop_of_eq_nil hnil, Lanes.total_push]

theorem Counted.take (h : B.Counted) {m : Band} (hne : B.queues m ≠ []) :
    (B.take m).Counted := by
  have hpop := Lanes.total_pop hne
  have hqlen : B.qlen.toNat = Lanes.total B.queues := h
  change (B.qlen - 1).toNat = Lanes.total (Lanes.pop B.queues m)
  bv_omega

end Buffer

/-! ## Arrivals at a full buffer -/

/-- The number of packets held in the band lists. -/
def held (c : Ctx) : ℕ := ∑ b : Band, (c.sch.priv.queues b).length

/-- The call finds a packet to evict: when a packet is admitted to a full
buffer, the counter can still be incremented, and the least urgent marked band,
if there is one, is not empty. -/
def EvictsPacket (c : Ctx) : Op → Prop
  | .enqueue skb =>
      Admits c skb → c.sch.priv.limit ≤ c.sch.qlen →
        c.sch.qlen + 1 ≠ 0 ∧
          (0 ≤ bitmapLowPrio c.sch.priv.bitmap →
            c.sch.priv.queues (band2list (bitmapLowPrio c.sch.priv.bitmap)) ≠ [])
  | _ => True

instance (c : Ctx) : ∀ op, Decidable (EvictsPacket c op)
  | .enqueue _ => inferInstanceAs (Decidable (_ → _ → _ ∧ (_ → _ ≠ [])))
  | .reset | .dequeue | .peek | .change _ => isTrue trivial

theorem total_view (c : Ctx) : Lanes.total (view c).queues = held c := rfl

theorem evictsPacket_iff {c : Ctx} {skb : SkBuff} (hl : Legal skb)
    (hr : ¬ (view c).Rejects hl.band) (hfull : c.sch.priv.limit ≤ c.sch.qlen) :
    EvictsPacket c (.enqueue skb) ↔
      c.sch.qlen + 1 ≠ 0 ∧
        Lanes.push (view c).queues hl.band (classified skb) ((view c).victim hl.band) ≠
          [] := by
  have hadm := (admits_iff hl).mpr hr
  simp only [EvictsPacket, hadm, hfull, true_imp_iff]
  apply and_congr_right
  intro _
  rcases bitmapLowPrio_of_full hr hfull with ⟨hlow, _, hv⟩ | ⟨hlow, _, hlt⟩
  · rw [hlow, hv]
    simp
  · rw [hlow, band2list_natCast, Lanes.push_of_ne _ _ (ne_of_gt hlt)]
    simp

/-- What an arrival does to the counter and to the number of packets held.  If
it meets the condition, both stay or both grow within the limit; if not, a
packet more is held at a full buffer and the counter does not show it. -/
theorem Buffer.Step.arrival {c : Ctx} {skb : SkBuff} {e : Effect} {B' : Buffer}
    (hstep : Buffer.Step (view c) (.enqueue skb) e B') :
    (EvictsPacket c (.enqueue skb) ∧
        (B'.qlen = c.sch.qlen ∧ Lanes.total B'.queues = held c ∨
          c.sch.qlen < c.sch.priv.limit ∧ B'.qlen = c.sch.qlen + 1 ∧
            Lanes.total B'.queues = held c + 1)) ∨
      (¬ EvictsPacket c (.enqueue skb) ∧ c.sch.priv.limit ≤ c.sch.qlen ∧
        (B'.qlen = c.sch.qlen ∨ B'.qlen = 0) ∧
        Lanes.total B'.queues = held c + 1) := by
  cases hstep with
  | illegal hl => exact Or.inl ⟨fun hadm => absurd hadm.1 hl, Or.inl ⟨rfl, rfl⟩⟩
  | reject hl hr =>
      exact Or.inl ⟨fun hadm => absurd hr ((admits_iff hl).mp hadm), Or.inl ⟨rfl, rfl⟩⟩
  | store hl hr hroom =>
      have htotal := Lanes.total_push (view c).queues hl.band (classified skb)
      by_cases hfull : c.sch.priv.limit ≤ c.sch.qlen
      · -- the increment wrapped, or the limit test would have fired
        have hwrap : c.sch.qlen + 1 = 0 := by
          have hroom' : ¬ c.sch.priv.limit < c.sch.qlen + 1 := hroom
          bv_omega
        right
        rw [evictsPacket_iff hl hr hfull]
        exact ⟨fun h => h.1 hwrap, hfull, Or.inr hwrap, htotal⟩
      · left
        exact ⟨fun _ h => absurd h hfull,
          Or.inr ⟨BitVec.not_le.mp hfull, rfl, htotal⟩⟩
  | evict hl hr hover =>
      have hfull := limit_le_of_lt_succ hover
      have hwrap : c.sch.qlen + 1 ≠ 0 := by
        have hover' : c.sch.priv.limit < c.sch.qlen + 1 := hover
        bv_omega
      rw [evictsPacket_iff hl hr hfull, and_iff_right hwrap]
      by_cases hnil : Lanes.push (view c).queues hl.band (classified skb)
          ((view c).victim hl.band) = []
      · right
        exact ⟨not_not.mpr hnil, hfull, Or.inl (Buffer.qlen_store_evict _ _ _ _),
          Buffer.total_evict_of_eq_nil hnil⟩
      · left
        exact ⟨hnil, Or.inl ⟨Buffer.qlen_store_evict _ _ _ _, Buffer.total_evict hnil⟩⟩

/-- From an exact counter, a step reaches an exact one exactly when it meets
the condition. -/
theorem Buffer.Step.counted_iff {c : Ctx} {op : Op} {e : Effect} {B' : Buffer}
    (hstep : Buffer.Step (view c) op e B') (h : (view c).Counted) :
    B'.Counted ↔ EvictsPacket c op := by
  cases op with
  | enqueue skb =>
      have hqlen : c.sch.qlen.toNat = held c := h
      rw [Buffer.Counted]
      rcases hstep.arrival with
        ⟨hC, ⟨hq, ht⟩ | ⟨hlt, hq, ht⟩⟩ | ⟨hC, _, hq, ht⟩
      · exact iff_of_true (by rw [hq, ht, hqlen]) hC
      · refine iff_of_true ?_ hC
        rw [hq, ht, ← hqlen]
        bv_omega
      · refine iff_of_false ?_ hC
        rcases hq with hq | hq
        · rw [hq, ht, ← hqlen]
          omega
        · rw [hq, ht]
          exact (Nat.succ_ne_zero _).symm
  | dequeue =>
      refine iff_of_true ?_ trivial
      cases hstep with
      | refuse => exact h
      | take _ _ _ hhead => exact h.take (List.ne_nil_of_mem (List.mem_of_mem_head? hhead))
  | peek =>
      cases hstep
      exact iff_of_true h trivial
  | change opt =>
      refine iff_of_true ?_ trivial
      cases hstep with
      | malformed | change => exact h
  | reset =>
      cases hstep
      refine iff_of_true ?_ trivial
      exact (Lanes.total_eq_zero_iff.mpr fun _ => rfl).symm

/-! ## Exactness of the counter -/

/-- `sch->q.qlen` equals the number of packets in the lists, and neither of the
two decrements can be executed at 0: not the one of `pfab_dequeue`, made when a
packet is returned, and not the one of `pfab_drop`, made after an arrival was
stored beyond the limit. -/
structure CounterExact (c : Ctx) : Prop where
  qlen_eq : c.sch.qlen.toNat = ∑ b : Band, (c.sch.priv.queues b).length
  dequeue_ne_zero : (pfabDequeue c).1 ≠ none → c.sch.qlen ≠ 0
  drop_ne_zero : ∀ skb, Admits c skb →
    c.sch.priv.limit < (storeSkb (classified skb) c).sch.qlen →
      (storeSkb (classified skb) c).sch.qlen ≠ 0

theorem counterExact_iff (c : Ctx) : CounterExact c ↔ (view c).Counted := by
  constructor
  · intro h
    exact h.qlen_eq
  · intro h
    refine ⟨h, ?_, ?_⟩
    · intro hsome hzero
      have hnone : Lanes.total (view c).queues = 0 := by
        rw [← h, qlen_view, hzero]
        rfl
      have hpeek : (view c).peek = none :=
        Buffer.peek_eq_none_iff.mpr fun m _ _ => Lanes.total_eq_zero_iff.mp hnone m
      rw [pfabDequeue_eq, pfabPeek_eq, hpeek, ite_self] at hsome
      exact hsome rfl
    · intro skb _ hover hzero
      rw [hzero] at hover
      exact BitVec.not_lt_zero hover

theorem counterExact_next_iff {c : Ctx} (h : CounterExact c) (op : Op) :
    CounterExact (qdisc.next c op) ↔ EvictsPacket c op := by
  obtain ⟨_, hstep, _⟩ := step_qdisc c op
  rw [counterExact_iff]
  exact hstep.counted_iff ((counterExact_iff c).mp h)

/-- From `pfab_init`, the runs in which the counter is exact in every state are
those in which every admission to a full buffer finds a packet to evict. -/
theorem always_counterExact_iff {c : Ctx} (h : Started c) (ops : List Op) :
    qdisc.Always CounterExact c ops ↔ qdisc.Meets EvictsPacket c ops := by
  refine Machine.always_iff_meets ?_ ((counterExact_iff c).mpr h.fresh.1.counted) ops
  intro c op hexact
  exact counterExact_next_iff hexact op

/-- A single eviction keeps the counter exact. -/
theorem always_counterExact_one_eviction :
    qdisc.Always CounterExact setup
      [configure 1 0, .enqueue (allocIpSkb 0 5), .enqueue (allocIpSkb 1 3), .dequeue,
        .reset] :=
  (always_counterExact_iff setup_started _).mpr (by decide)

/-- The second eviction looks for a packet in band 5, which the first has
emptied: the counter goes down and two packets stay. -/
theorem not_counterExact_of_second_eviction :
    Started setup ∧
      ¬ CounterExact (qdisc.exec setup
        [configure 1 0, .enqueue (allocIpSkb 0 5), .enqueue (allocIpSkb 1 3),
          .enqueue (allocIpSkb 2 2)]) :=
  ⟨setup_started, fun h => absurd h.qlen_eq (by decide)⟩

/-! ## The buffer bound -/

/-- An arrival leaves at most as many packets as the limit allows or as were
there before. -/
def BufferBound (c : Ctx) : Op → Prop
  | .enqueue skb =>
      held (pfabEnqueue skb c).2 ≤ max c.sch.priv.limit.toNat (held c)
  | _ => True

/-- The call sets no limit below the number of packets held. -/
def LimitCovers (c : Ctx) : Op → Prop
  | .change (some attr) =>
      sizeofQopt ≤ attr.payload.length → held c ≤ attr.qopt.limit.toNat
  | _ => True

instance (c : Ctx) : ∀ op, Decidable (LimitCovers c op)
  | .change (some _) => inferInstanceAs (Decidable (_ ≤ _ → _ ≤ _))
  | .enqueue _ | .reset | .dequeue | .peek | .change none => isTrue trivial

/-- No more packets are held than the limit allows. -/
def WithinLimit (c : Ctx) : Prop := held c ≤ c.sch.priv.limit.toNat

/-- With an exact counter, an arrival keeps to the bound exactly when it meets
the condition. -/
theorem bufferBound_iff_evictsPacket {c : Ctx} (h : (view c).Counted) (op : Op) :
    BufferBound c op ↔ EvictsPacket c op := by
  cases op with
  | enqueue skb =>
      have hqlen : c.sch.qlen.toNat = held c := h
      obtain ⟨_, hstep, _⟩ := step_qdisc c (.enqueue skb)
      have hnext : held (pfabEnqueue skb c).2 =
          Lanes.total (view (qdisc.next c (.enqueue skb))).queues := rfl
      rw [BufferBound, hnext]
      rcases hstep.arrival with
        ⟨hC, ⟨_, ht⟩ | ⟨hlt, _, ht⟩⟩ | ⟨hC, hfull, _, ht⟩
      · exact iff_of_true (by omega) hC
      · have hlt' := BitVec.lt_def.mp hlt
        exact iff_of_true (by omega) hC
      · have hfull' := BitVec.le_def.mp hfull
        exact iff_of_false (by omega) hC
  | dequeue | peek | change | reset => exact Iff.rfl

theorem Buffer.Step.limit_eq {B B' : Buffer} {op : Op} {e : Effect}
    (hstep : Buffer.Step B op e B') (hop : ∀ opt, op ≠ .change opt) :
    B'.limit = B.limit := by
  cases hstep with
  | malformed | change => exact absurd rfl (hop _)
  | illegal | reject | store | evict | refuse | take | peek | reset => rfl

theorem Buffer.Step.total_le {B B' : Buffer} {op : Op} {e : Effect}
    (hstep : Buffer.Step B op e B') (hop : ∀ skb, op ≠ .enqueue skb) :
    Lanes.total B'.queues ≤ Lanes.total B.queues := by
  cases hstep with
  | illegal | reject | store | evict => exact absurd rfl (hop _)
  | refuse | peek | malformed | change => exact le_refl _
  | take _ _ _ hhead =>
      have hpop := Lanes.total_pop (List.ne_nil_of_mem (List.mem_of_mem_head? hhead))
      exact Nat.le_of_lt (Nat.lt_of_succ_le (Nat.le_of_eq hpop))
  | reset =>
      rw [Lanes.total_eq_zero_iff.mpr fun _ => rfl]
      exact Nat.zero_le _

/-- A step that meets the condition and sets no limit below the number of
packets held stays within the limit. -/
theorem withinLimit_next {c : Ctx} {op : Op} (h : (view c).Counted)
    (hwithin : WithinLimit c) (hevict : EvictsPacket c op) (hcovers : LimitCovers c op) :
    WithinLimit (qdisc.next c op) := by
  obtain ⟨_, hstep, _⟩ := step_qdisc c op
  cases op with
  | enqueue skb =>
      have hlimit : (qdisc.next c (.enqueue skb)).sch.priv.limit = c.sch.priv.limit :=
        hstep.limit_eq (by simp)
      have hbound : held (qdisc.next c (.enqueue skb)) ≤
          max c.sch.priv.limit.toNat (held c) :=
        (bufferBound_iff_evictsPacket h (.enqueue skb)).mpr hevict
      rw [WithinLimit, hlimit]
      exact hbound.trans (max_le (le_refl _) hwithin)
  | change opt =>
      have hnext : qdisc.next c (.change opt) = (pfabChange opt c).2 := rfl
      rw [hnext]
      cases opt with
      | none => exact hwithin
      | some attr =>
          simp only [pfabChange]
          split
          · exact hwithin
          · next hlong => exact hcovers (Nat.le_of_not_lt hlong)
  | dequeue | peek | reset =>
      have hlimit := hstep.limit_eq (by simp)
      have htotal := hstep.total_le (by simp)
      rw [limit_view, limit_view] at hlimit
      rw [total_view, total_view] at htotal
      rw [WithinLimit, hlimit]
      exact htotal.trans hwithin

/-- From `pfab_init`, the runs in which no arrival exceeds the bound are those
in which every admission to a full buffer finds a packet to evict.  In these,
if no configuration request sets a limit below the number of packets held, the
buffer never holds more packets than the limit allows. -/
theorem bufferBound_iff {c : Ctx} (h : Started c) (ops : List Op) :
    (qdisc.Meets BufferBound c ops ↔ qdisc.Meets EvictsPacket c ops) ∧
      (qdisc.Meets EvictsPacket c ops → qdisc.Meets LimitCovers c ops →
        qdisc.Always WithinLimit c ops) := by
  have hcounted : (view c).Counted := h.fresh.1.counted
  have hkeep : ∀ c op, (view c).Counted → EvictsPacket c op →
      (view (qdisc.next c op)).Counted := by
    intro c op hc hevict
    obtain ⟨_, hstep, _⟩ := step_qdisc c op
    exact (hstep.counted_iff hc).mpr hevict
  refine ⟨?_, ?_⟩
  · refine Machine.meets_congr ?_ hkeep hcounted ops
    intro c op hc
    exact bufferBound_iff_evictsPacket hc op
  · intro hevict hcovers
    have hempty : held c = 0 := by
      rw [← total_view, h.fresh.1.2.2]
      exact Lanes.total_eq_zero_iff.mpr fun _ => rfl
    have hwithin : WithinLimit c := by
      rw [WithinLimit, hempty]
      exact Nat.zero_le _
    have hstep : ∀ c op, (view c).Counted ∧ WithinLimit c →
        EvictsPacket c op ∧ LimitCovers c op →
        (view (qdisc.next c op)).Counted ∧ WithinLimit (qdisc.next c op) := by
      rintro c op ⟨hc, hw⟩ ⟨he, hl⟩
      exact ⟨hkeep c op hc he, withinLimit_next hc hw he hl⟩
    intro js hjs
    exact (Machine.always_of_meets hstep ⟨hcounted, hwithin⟩ (hevict.and hcovers) js hjs).2

/-- Two arrivals at a limit of one, and a limit of zero once the buffer is
empty. -/
theorem bufferBound_one_eviction :
    qdisc.Meets BufferBound setup
        [configure 1 0, .enqueue (allocIpSkb 0 5), .enqueue (allocIpSkb 1 3), .dequeue,
          .reset, configure 0 0] ∧
      qdisc.Always WithinLimit setup
        [configure 1 0, .enqueue (allocIpSkb 0 5), .enqueue (allocIpSkb 1 3), .dequeue,
          .reset, configure 0 0] :=
  ⟨(bufferBound_iff setup_started _).1.mpr (by decide),
    (bufferBound_iff setup_started _).2 (by decide) (by decide)⟩

/-- The second eviction finds band 5 empty: with a limit of one, two packets are
held after the third arrival. -/
theorem not_bufferBound_of_second_eviction :
    Started setup ∧
      ¬ BufferBound
        (qdisc.exec setup
          [configure 1 0, .enqueue (allocIpSkb 0 5), .enqueue (allocIpSkb 1 3)])
        (.enqueue (allocIpSkb 2 2)) :=
  ⟨setup_started, by rw [BufferBound]; decide⟩

end PFabric
