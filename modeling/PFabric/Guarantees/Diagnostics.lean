import Mathlib.Data.BitVec
import Mathlib.Tactic.Ring
import PFabric.Guarantees.Counter
import PFabric.Guarantees.Order

/-!
# What the diagnostics show

`pfab_stats` repeats part of the qdisc's state and counts its packets for the
proc files.  Two things a reader of those files would rely on are examined
here: that the counters balance, and that the configuration and the bitmap they
show are the live ones.  Neither holds in all runs, and for each the runs in
which it holds are determined.
-/

namespace PFabric

/-! ## The counters of arrivals and drops -/

/-- The arrivals the statistics count, by band or as illegal. -/
def arrived (stats : PfabStatData) : BitVec 32 :=
  (∑ b : Band, stats.perBandPacketCounter b) + stats.illegalPrioOccurance

theorem arrived_countBand (band : Band) (c : Ctx) :
    arrived (countBand band c).kern.pfabStats = arrived c.kern.pfabStats + 1 := by
  have hsum := Finset.sum_update_of_mem (Finset.mem_univ band)
    c.kern.pfabStats.perBandPacketCounter (c.kern.pfabStats.perBandPacketCounter band + 1)
  have hrest := Finset.add_sum_erase Finset.univ c.kern.pfabStats.perBandPacketCounter
    (Finset.mem_univ band)
  rw [Finset.sdiff_singleton_eq_erase] at hsum
  simp only [arrived, countBand, hsum, ← hrest]
  ring

theorem arrived_countIllegalPrio (c : Ctx) :
    arrived (countIllegalPrio c).kern.pfabStats = arrived c.kern.pfabStats + 1 := by
  simp only [arrived, countIllegalPrio]
  ring

/-- `pfab_drop` counts a drop whether or not it found a packet. -/
theorem tally_pfabDrop (c : Ctx) (h : (view c).marked.Nonempty) :
    arrived (pfabDrop c).2.kern.pfabStats = arrived c.kern.pfabStats ∧
      (pfabDrop c).2.kern.pfabStats.tcStats.drops =
        c.kern.pfabStats.tcStats.drops + 1 := by
  have hmarked : (markedBands c.sch.priv.bitmap).Nonempty := h
  have hband : ¬ bitmapLowPrio c.sch.priv.bitmap < 0 := by
    rw [bitmapLowPrio_eq, dif_pos hmarked]
    omega
  obtain ⟨_, _, _, heq⟩ :=
    exists_qdiscQueueDropHead_eq (band2list (bitmapLowPrio c.sch.priv.bitmap)) c
  simp only [pfabDrop, hband, if_false, heq, arrived, and_self]

theorem tally_acceptSkb {skb : SkBuff} (h : Legal skb) (c : Ctx) :
    arrived (acceptSkb (classified skb) c).2.kern.pfabStats = arrived c.kern.pfabStats ∧
      (acceptSkb (classified skb) c).2.kern.pfabStats.tcStats.drops =
        c.kern.pfabStats.tcStats.drops +
          if c.sch.priv.limit < c.sch.qlen + 1 then 1 else 0 := by
  have hmarked : (view (storeSkb (classified skb) c)).marked.Nonempty := by
    rw [(view_storeSkb h c).1]
    exact Finset.insert_nonempty _ _
  obtain ⟨harrived, hdrops⟩ := tally_pfabDrop _ hmarked
  by_cases hover : c.sch.priv.limit < c.sch.qlen + 1
  · have hover' : (storeSkb (classified skb) c).sch.priv.limit <
        (storeSkb (classified skb) c).sch.qlen := hover
    simp only [acceptSkb, hover', hover, if_true]
    split
    · exact ⟨harrived, hdrops⟩
    · exact ⟨harrived, hdrops⟩
  · have hover' : ¬ (storeSkb (classified skb) c).sch.priv.limit <
        (storeSkb (classified skb) c).sch.qlen := hover
    simp only [acceptSkb, hover', hover, if_false]
    exact ⟨rfl, (add_zero _).symm⟩

theorem tally_countNonIp (skb : SkBuff) (c : Ctx) :
    arrived (countNonIp skb c).kern.pfabStats = arrived c.kern.pfabStats ∧
      (countNonIp skb c).kern.pfabStats.tcStats.drops =
        c.kern.pfabStats.tcStats.drops := by
  obtain ⟨_, heq⟩ := exists_countNonIp_eq skb c
  rw [heq]
  exact ⟨rfl, rfl⟩

/-- Every arrival is counted; a drop is counted only for an eviction. -/
theorem tally_pfabEnqueue (skb : SkBuff) (c : Ctx) :
    arrived (pfabEnqueue skb c).2.kern.pfabStats = arrived c.kern.pfabStats + 1 ∧
      (pfabEnqueue skb c).2.kern.pfabStats.tcStats.drops =
        c.kern.pfabStats.tcStats.drops +
          if Admits c skb ∧ c.sch.priv.limit < c.sch.qlen + 1 then 1 else 0 := by
  obtain ⟨harrived, hdrops⟩ := tally_countNonIp skb c
  rw [← harrived, ← hdrops]
  rcases pfabEnqueue_cases skb c with ⟨hl, heq⟩ | ⟨hl, ⟨hadm, heq⟩ | ⟨hadm, heq⟩⟩
  · rw [heq, if_neg fun h => hl h.1.1, add_zero]
    exact ⟨arrived_countIllegalPrio _, rfl⟩
  · rw [heq, if_neg fun h => hadm h.1, add_zero]
    exact ⟨arrived_countBand _ _, rfl⟩
  · have htally := tally_acceptSkb hl (countBand hl.band (countNonIp skb c))
    rw [arrived_countBand, countBand_sch, countNonIp_sch] at htally
    rw [heq]
    simp only [hadm, true_and]
    exact htally

/-- A departure counts neither an arrival nor a drop. -/
theorem tally_pfabDequeue (c : Ctx) :
    arrived (pfabDequeue c).2.kern.pfabStats = arrived c.kern.pfabStats ∧
      (pfabDequeue c).2.kern.pfabStats.tcStats.drops =
        c.kern.pfabStats.tcStats.drops := by
  obtain ⟨_, _, _, _, _, heq⟩ := exists_pfabDequeue_eq c
  rw [heq]
  exact ⟨rfl, rfl⟩

theorem arrived_initialStats : arrived initialStats = 0 := by
  have hzero : ∀ b : Band, initialStats.perBandPacketCounter b = 0 := fun _ => rfl
  rw [arrived, Finset.sum_eq_zero fun b _ => hzero b]
  rfl

/-! ## The balance of the counters -/

/-- The number of packets handed out since the last reset. -/
def handedSinceReset (count : ℕ) (op : Op) (ret : Ret) : ℕ :=
  match op with
  | .reset => 0
  | op => count + (handed op ret).length

/-- Every arrival counted is still held, was handed out or is reported as
dropped.  The sums wrap like the counters. -/
def Balanced (c : Ctx) (count : ℕ) : Prop :=
  (∑ b : Band, c.kern.pfabStats.perBandPacketCounter b) +
      c.kern.pfabStats.illegalPrioOccurance =
    BitVec.ofNat 32 (held c + count) + c.kern.pfabStats.tcStats.drops

instance (c : Ctx) (count : ℕ) : Decidable (Balanced c count) :=
  inferInstanceAs (Decidable (_ = _))

/-- The call loses no packet without counting a drop and counts no drop without
losing a packet: an arrival is admitted and, when it exceeds the limit, the
least urgent marked band, if there is one, is not empty. -/
def CountsLosses (c : Ctx) : Op → Prop
  | .enqueue skb =>
      Admits c skb ∧
        (c.sch.priv.limit < c.sch.qlen + 1 →
          0 ≤ bitmapLowPrio c.sch.priv.bitmap →
            c.sch.priv.queues (band2list (bitmapLowPrio c.sch.priv.bitmap)) ≠ [])
  | _ => True

instance (c : Ctx) : ∀ op, Decidable (CountsLosses c op)
  | .enqueue _ => inferInstanceAs (Decidable (_ ∧ (_ → _ → _ ≠ [])))
  | .reset | .dequeue | .peek | .change _ => isTrue trivial

/-- At a full buffer the condition says that the eviction finds a packet. -/
theorem countsLosses_iff {c : Ctx} {skb : SkBuff} (hl : Legal skb)
    (hr : ¬ (view c).Rejects hl.band) (hover : c.sch.priv.limit < c.sch.qlen + 1) :
    CountsLosses c (.enqueue skb) ↔
      Lanes.push (view c).queues hl.band (classified skb) ((view c).victim hl.band) ≠
        [] := by
  have hadm := (admits_iff hl).mpr hr
  simp only [CountsLosses, hadm, hover, true_and, true_imp_iff]
  rcases bitmapLowPrio_of_full hr (limit_le_of_lt_succ hover) with
    ⟨hlow, _, hv⟩ | ⟨hlow, _, hlt⟩
  · rw [hlow, hv]
    simp
  · rw [hlow, band2list_natCast, Lanes.push_of_ne _ _ (ne_of_gt hlt)]
    simp

/-- What an arrival adds to the packets held and to the drops counted: one in
all if the condition holds, none or two if it does not. -/
theorem enqueue_delta (c : Ctx) (skb : SkBuff) :
    ∃ stored dropped : ℕ,
      held (qdisc.next c (.enqueue skb)) = held c + stored ∧
        (qdisc.next c (.enqueue skb)).kern.pfabStats.tcStats.drops =
          c.kern.pfabStats.tcStats.drops + BitVec.ofNat 32 dropped ∧
        stored ≤ 1 ∧ dropped ≤ 1 ∧
        (CountsLosses c (.enqueue skb) ↔ stored + dropped = 1) := by
  obtain ⟨freed, hstep, _⟩ := step_qdisc c (.enqueue skb)
  have hdrops := (tally_pfabEnqueue skb c).2
  change (qdisc.next c (.enqueue skb)).kern.pfabStats.tcStats.drops = _ at hdrops
  rw [hdrops, ← total_view (qdisc.next c (.enqueue skb)), ← total_view c]
  generalize view (qdisc.next c (.enqueue skb)) = B' at hstep ⊢
  generalize qdisc.out c (.enqueue skb) = ret at hstep
  cases hstep with
  | illegal hl =>
      refine ⟨0, 0, (Nat.add_zero _).symm, ?_, by omega, by omega, ?_⟩
      · rw [if_neg fun h => hl h.1.1]
        rfl
      · exact iff_of_false (fun h => hl h.1.1) (by omega)
  | reject hl hr =>
      have hadm : ¬ Admits c skb := fun h => (admits_iff hl).mp h hr
      refine ⟨0, 0, (Nat.add_zero _).symm, ?_, by omega, by omega, ?_⟩
      · rw [if_neg fun h => hadm h.1]
        rfl
      · exact iff_of_false (fun h => hadm h.1) (by omega)
  | store hl hr hroom =>
      refine ⟨1, 0, Lanes.total_push _ _ _, ?_, by omega, by omega, ?_⟩
      · rw [if_neg fun h => hroom h.2]
        rfl
      · exact iff_of_true ⟨(admits_iff hl).mpr hr, fun h => absurd h hroom⟩ rfl
  | evict hl hr hover =>
      have hadm := (admits_iff hl).mpr hr
      rw [if_pos ⟨hadm, hover⟩, countsLosses_iff hl hr hover]
      by_cases hnil : Lanes.push (view c).queues hl.band (classified skb)
          ((view c).victim hl.band) = []
      · refine ⟨1, 1, Buffer.total_evict_of_eq_nil hnil, rfl, by omega, by omega, ?_⟩
        exact iff_of_false (not_not.mpr hnil) (by omega)
      · have htotal := Buffer.total_evict hnil
        refine ⟨0, 1, htotal.trans (Nat.add_zero _).symm, rfl, by omega, by omega, ?_⟩
        exact iff_of_true hnil rfl

/-- A departure moves a packet from those held to those handed out. -/
theorem dequeue_delta (c : Ctx) :
    held (qdisc.next c .dequeue) + (handed .dequeue (qdisc.out c .dequeue)).length =
      held c := by
  obtain ⟨freed, hstep, _⟩ := step_qdisc c .dequeue
  rw [← total_view (qdisc.next c .dequeue), ← total_view c]
  generalize view (qdisc.next c .dequeue) = B' at hstep ⊢
  generalize qdisc.out c .dequeue = ret at hstep ⊢
  cases hstep with
  | refuse => exact Nat.add_zero _
  | take _ _ _ hhead =>
      exact Lanes.total_pop (List.ne_nil_of_mem (List.mem_of_mem_head? hhead))

theorem Balanced.change {c : Ctx} {count : ℕ} (h : Balanced c count)
    (opt : Option Nlattr) : Balanced (pfabChange opt c).2 count := by
  rcases pfabChange_cases opt c with heq | ⟨qopt, heq⟩
  · rw [heq]
    exact h
  · rw [heq]
    exact h

/-- Counting one arrival is made up for by exactly one packet stored or dropped. -/
theorem word_succ_eq_iff (n count : ℕ) (drops : BitVec 32) {stored dropped : ℕ}
    (hstored : stored ≤ 1) (hdropped : dropped ≤ 1) :
    BitVec.ofNat 32 (n + count) + drops + 1 =
        BitVec.ofNat 32 (n + stored + count) + (drops + BitVec.ofNat 32 dropped) ↔
      stored + dropped = 1 := by
  constructor
  · intro h
    bv_omega
  · intro h
    bv_omega

/-- From balanced counters, a step reaches balanced ones exactly when it meets
the condition. -/
theorem balanced_next_iff {c : Ctx} {count : ℕ} (h : Balanced c count) (op : Op) :
    Balanced (qdisc.next c op) (handedSinceReset count op (qdisc.out c op)) ↔
      CountsLosses c op := by
  have hbal : arrived c.kern.pfabStats =
    BitVec.ofNat 32 (held c + count) + c.kern.pfabStats.tcStats.drops := h
  change arrived (qdisc.next c op).kern.pfabStats = _ ↔ _
  cases op with
  | enqueue skb =>
      obtain ⟨stored, dropped, hheld, hdrops, hstored, hdropped, hiff⟩ :=
        enqueue_delta c skb
      have harrived : arrived (qdisc.next c (.enqueue skb)).kern.pfabStats =
          arrived c.kern.pfabStats + 1 := (tally_pfabEnqueue skb c).1
      have hcount : handedSinceReset count (.enqueue skb) (qdisc.out c (.enqueue skb)) =
          count := rfl
      rw [harrived, hheld, hdrops, hbal, hcount, hiff]
      exact word_succ_eq_iff _ _ _ hstored hdropped
  | dequeue =>
      obtain ⟨harrived, hdrops⟩ := tally_pfabDequeue c
      have hheld := dequeue_delta c
      refine iff_of_true ?_ trivial
      change arrived (pfabDequeue c).2.kern.pfabStats =
        BitVec.ofNat 32 (held (qdisc.next c .dequeue) +
            (count + (handed .dequeue (qdisc.out c .dequeue)).length)) +
          (pfabDequeue c).2.kern.pfabStats.tcStats.drops
      rw [harrived, hdrops, hbal, ← hheld, Nat.add_right_comm, Nat.add_assoc]
  | peek => exact iff_of_true hbal trivial
  | change opt => exact iff_of_true (h.change opt) trivial
  | reset =>
      have hqueues : (pfabReset c).sch.priv.queues = fun _ => [] :=
        congrArg Buffer.queues (realizes_pfabReset c).view_eq
      have hheld : held (qdisc.next c .reset) = 0 :=
        Lanes.total_eq_zero_iff.mpr fun b => congrFun hqueues b
      refine iff_of_true ?_ trivial
      rw [hheld]
      exact arrived_initialStats

theorem Started.balanced {c : Ctx} (h : Started c) : Balanced c 0 := by
  refine h.rule (I := fun c => Balanced c 0) (fun c opt hc => hc.change opt) ?_ ?_
  · intro c kern hstats _ hc
    simp only [Balanced, hstats]
    exact hc
  · intro kern
    have hheld : held (cleared ⟨Qdisc.alloc, kern⟩) = 0 :=
      Lanes.total_eq_zero_iff.mpr fun _ => rfl
    rw [Balanced, hheld]
    exact arrived_initialStats

/-- The counters balance in every state of exactly those runs in which no
arrival is turned away and no eviction finds an empty list. -/
theorem always_balanced_iff {c : Ctx} (h : Started c) (ops : List Op) :
    (∀ js, js <+: ops →
        Balanced (qdisc.exec c js) (qdisc.observe handedSinceReset 0 c js)) ↔
      qdisc.Meets CountsLosses c ops := by
  refine Machine.always_observe_iff_meets ?_ h.balanced ops
  intro c count op hc
  exact balanced_next_iff hc op

/-- An arrival below the limit, an eviction that finds a packet and a departure. -/
theorem balanced_of_counted_losses :
    Balanced (qdisc.exec setup
        [configure 1 0, .enqueue (allocIpSkb 0 3), .enqueue (allocIpSkb 1 2), .dequeue])
      (qdisc.observe handedSinceReset 0 setup
        [configure 1 0, .enqueue (allocIpSkb 0 3), .enqueue (allocIpSkb 1 2), .dequeue]) :=
  (always_balanced_iff setup_started _).mpr (by decide) _ (List.prefix_refl _)

/-- A packet turned away by a full buffer is missing from the report. -/
theorem not_balanced_of_rejection :
    Started setup ∧
      ¬ Balanced (qdisc.exec setup
          [configure 1 0, .enqueue (allocIpSkb 0 3), .enqueue (allocIpSkb 1 5)])
        (qdisc.observe handedSinceReset 0 setup
          [configure 1 0, .enqueue (allocIpSkb 0 3), .enqueue (allocIpSkb 1 5)]) :=
  ⟨setup_started, by decide⟩

/-! ## The live values shown -/

/-- The statistics show the live configuration and the live bitmap. -/
structure Mirrors (c : Ctx) : Prop where
  limit_eq : c.kern.pfabStats.limit = c.sch.priv.limit
  disableDequeue_eq : c.kern.pfabStats.disableDequeue = c.sch.priv.disableDequeue
  bitmap_eq : c.kern.pfabStats.bitmap = c.sch.priv.bitmap

/-- The call does not reset statistics that differ from their initial values:
at a `pfab_reset` the qdisc has the default configuration and no bit set. -/
def ResetsDefaults (c : Ctx) : Op → Prop
  | .reset =>
      c.sch.priv.limit = defaultLimit ∧ c.sch.priv.disableDequeue = 0 ∧
        c.sch.priv.bitmap = fun _ => 0
  | _ => True

instance (c : Ctx) : ∀ op, Decidable (ResetsDefaults c op)
  | .reset => inferInstanceAs (Decidable (_ ∧ _ ∧ _))
  | .enqueue _ | .dequeue | .peek | .change _ => isTrue trivial

variable {c : Ctx}

theorem Mirrors.storeSkb (h : Mirrors c) (skb : SkBuff) : Mirrors (storeSkb skb c) := by
  refine ⟨h.limit_eq, h.disableDequeue_eq, ?_⟩
  simp only [PFabric.storeSkb, h.bitmap_eq]
  rfl

theorem Mirrors.departSkb (h : Mirrors c) (band : ℤ) : Mirrors (departSkb band c) := by
  unfold PFabric.departSkb
  dsimp only
  split_ifs
  · refine ⟨h.limit_eq, h.disableDequeue_eq, ?_⟩
    simp only [h.bitmap_eq]
    rfl
  · exact ⟨h.limit_eq, h.disableDequeue_eq, h.bitmap_eq⟩

theorem Mirrors.acceptSkb (h : Mirrors c) (skb : SkBuff) :
    Mirrors (acceptSkb skb c).2 := by
  have hstore := h.storeSkb skb
  obtain ⟨_, _, _, _, _, heq⟩ := exists_acceptSkb_eq skb c
  rw [heq]
  exact ⟨hstore.limit_eq, hstore.disableDequeue_eq, hstore.bitmap_eq⟩

theorem Mirrors.pfabEnqueue (h : Mirrors c) (skb : SkBuff) :
    Mirrors (pfabEnqueue skb c).2 := by
  have hcount : Mirrors (countNonIp skb c) := by
    obtain ⟨_, heq⟩ := exists_countNonIp_eq skb c
    rw [heq]
    exact ⟨h.limit_eq, h.disableDequeue_eq, h.bitmap_eq⟩
  have hband : ∀ band, Mirrors (countBand band (countNonIp skb c)) := fun _ =>
    ⟨hcount.limit_eq, hcount.disableDequeue_eq, hcount.bitmap_eq⟩
  rcases pfabEnqueue_cases skb c with ⟨-, heq⟩ | ⟨hl, ⟨-, heq⟩ | ⟨-, heq⟩⟩
  · rw [heq]
    exact ⟨hcount.limit_eq, hcount.disableDequeue_eq, hcount.bitmap_eq⟩
  · rw [heq]
    exact ⟨hcount.limit_eq, hcount.disableDequeue_eq, hcount.bitmap_eq⟩
  · rw [heq]
    exact (hband _).acceptSkb _

theorem Mirrors.pfabDequeue (h : Mirrors c) : Mirrors (pfabDequeue c).2 := by
  rcases pfabDequeue_cases c with heq | ⟨band, skb, heq⟩
  · rw [heq]
    exact h
  · have hhead : Mirrors (qdiscDequeueHead (band2list band) c).2 := by
      obtain ⟨_, _, hhead⟩ := exists_qdiscDequeueHead_eq (band2list band) c
      rw [hhead]
      exact ⟨h.limit_eq, h.disableDequeue_eq, h.bitmap_eq⟩
    rw [heq]
    exact hhead.departSkb band

theorem Mirrors.pfabChange (h : Mirrors c) (opt : Option Nlattr) :
    Mirrors (pfabChange opt c).2 := by
  rcases pfabChange_cases opt c with heq | ⟨qopt, heq⟩
  · rw [heq]
    exact h
  · rw [heq]
    exact ⟨rfl, rfl, h.bitmap_eq⟩

/-- `pfab_reset` shows initial values and changes none of the live ones. -/
theorem mirrors_pfabReset_iff (c : Ctx) :
    Mirrors (pfabReset c) ↔ ResetsDefaults c .reset := by
  have hlimit : (pfabReset c).sch.priv.limit = c.sch.priv.limit := by
    rw [pfabReset, purgeAll_eq]
  have hdisable : (pfabReset c).sch.priv.disableDequeue = c.sch.priv.disableDequeue := by
    rw [pfabReset, purgeAll_eq]
  have hbitmap : (pfabReset c).sch.priv.bitmap = c.sch.priv.bitmap := by
    rw [pfabReset, purgeAll_eq]
  constructor
  · intro h
    exact ⟨hlimit.symm.trans h.limit_eq.symm, hdisable.symm.trans h.disableDequeue_eq.symm,
      hbitmap.symm.trans h.bitmap_eq.symm⟩
  · rintro ⟨hl, hd, hb⟩
    exact ⟨(hlimit.trans hl).symm, (hdisable.trans hd).symm, (hbitmap.trans hb).symm⟩

theorem Started.mirrors (h : Started c) : Mirrors c := by
  refine h.rule (fun c opt hc => hc.pfabChange opt) ?_ fun _ => ⟨rfl, rfl, rfl⟩
  intro c kern hstats _ hc
  exact ⟨(congrArg PfabStatData.limit hstats).trans hc.limit_eq,
    (congrArg PfabStatData.disableDequeue hstats).trans hc.disableDequeue_eq,
    (congrArg PfabStatData.bitmap hstats).trans hc.bitmap_eq⟩

theorem mirrors_next_iff (h : Mirrors c) (op : Op) :
    Mirrors (qdisc.next c op) ↔ ResetsDefaults c op := by
  cases op with
  | enqueue skb => exact iff_of_true (h.pfabEnqueue skb) trivial
  | dequeue => exact iff_of_true h.pfabDequeue trivial
  | peek => exact iff_of_true h trivial
  | change opt => exact iff_of_true (h.pfabChange opt) trivial
  | reset => exact mirrors_pfabReset_iff c

/-- The statistics mirror the live values in every state of exactly those runs
in which every reset finds the default configuration and an empty bitmap. -/
theorem always_mirrors_iff (h : Started c) (ops : List Op) :
    qdisc.Always Mirrors c ops ↔ qdisc.Meets ResetsDefaults c ops := by
  refine Machine.always_iff_meets ?_ h.mirrors ops
  intro c op hc
  exact mirrors_next_iff hc op

/-- A reset under the default configuration, once the one packet has left. -/
theorem mirrors_of_drained_reset :
    qdisc.Always Mirrors setup [.enqueue (allocIpSkb 0 3), .dequeue, .reset] :=
  (always_mirrors_iff setup_started _).mpr (by decide)

/-- After a reset the diagnostics show the default limit of 150 packets, not the
10 in force. -/
theorem not_mirrors_of_configured_reset :
    Started setup ∧ ¬ Mirrors (qdisc.exec setup [configure 10 0, .reset]) :=
  ⟨setup_started, fun h => absurd h.limit_eq (by decide)⟩

end PFabric
