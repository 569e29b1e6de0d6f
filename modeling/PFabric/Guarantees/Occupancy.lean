import PFabric.Buffer.Steps

/-!
# Marks and occupied bands

The bitmap is meant to say which band lists are non-empty.  `pfab_dequeue`
clears a band's bit when it takes the band's last packet; `pfab_drop` and
`pfab_reset` do not.  The first theorem says exactly in which runs the bitmap
stays exact: those in which no eviction takes the last packet of a band and no
reset happens while a bit is set.

Work conservation rests on the same fact.  In the runs just described the qdisc
never withholds a queued packet.  Any other run leaves a mark on an empty band,
and draining the qdisc from there gets stuck at such a mark.
-/

namespace PFabric

namespace Buffer

/-- The marked bands are exactly the non-empty ones. -/
def Exact (B : Buffer) : Prop := ∀ b, b ∈ B.marked ↔ B.queues b ≠ []

variable {B B' : Buffer} {op : Op} {e : Effect} {b : Band} {skb : SkBuff}

theorem Fresh.exact (h : B.Fresh) : B.Exact := by
  obtain ⟨_, hmarked, hqueues⟩ := h
  intro b
  simp [hmarked, hqueues]

theorem Exact.covered (h : B.Exact) : B.Covered := fun b hb => (h b).mpr hb

theorem Exact.store (h : B.Exact) (b : Band) (skb : SkBuff) :
    (B.store b skb).Exact := by
  intro b'
  change b' ∈ insert b B.marked ↔ Lanes.push B.queues b skb b' ≠ []
  by_cases hbb : b' = b
  · subst hbb
    simp
  · rw [Lanes.push_of_ne B.queues b hbb, Finset.mem_insert, h b']
    exact or_iff_right hbb

/-- An eviction keeps the marks exact when it leaves a packet behind in the
band it evicts from. -/
theorem Exact.evict_iff (h : B.Exact) (hr : ¬ B.Rejects b)
    (hfull : B.limit ≤ B.qlen) :
    ((B.store b skb).evict (B.victim b)).Exact ↔
      b < B.victim b ∧ 2 ≤ (B.queues (B.victim b)).length := by
  rcases victim_cases hr hfull with ⟨hempty, hv⟩ | ⟨hmem, hlt⟩
  · -- no band was marked: the arrival is its own victim and its mark stays
    have hnil := h.covered.eq_nil_of_marked_eq_empty hempty b
    rw [hv]
    constructor
    · intro hexact
      have hb := (hexact b).mp (Finset.mem_insert_self b _)
      change Lanes.pop (Lanes.push B.queues b skb) b b ≠ [] at hb
      simp [hnil] at hb
    · rintro ⟨hbb, _⟩
      exact absurd hbb (lt_irrefl b)
  · have hqueue : Lanes.push B.queues b skb (B.victim b) = B.queues (B.victim b) :=
      Lanes.push_of_ne B.queues b (ne_of_gt hlt) skb
    constructor
    · intro hexact
      have hv := (hexact (B.victim b)).mp (Finset.mem_insert_of_mem hmem)
      change Lanes.pop (Lanes.push B.queues b skb) (B.victim b) (B.victim b) ≠ [] at hv
      rw [Lanes.pop_self, hqueue] at hv
      have hpos := List.length_pos_of_ne_nil hv
      rw [List.length_tail] at hpos
      exact ⟨hlt, by omega⟩
    · rintro ⟨_, hlen⟩ b'
      change b' ∈ insert b B.marked ↔
        Lanes.pop (Lanes.push B.queues b skb) (B.victim b) b' ≠ []
      by_cases hb' : b' = B.victim b
      · subst hb'
        rw [Lanes.pop_self, hqueue]
        have htail : (B.queues (B.victim b)).tail ≠ [] := by
          apply List.ne_nil_of_length_pos
          rw [List.length_tail]
          omega
        exact iff_of_true (Finset.mem_insert_of_mem hmem) htail
      · rw [Lanes.pop_of_ne _ _ hb']
        exact h.store b skb b'

theorem Exact.take (h : B.Exact) (m : Band) : (B.take m).Exact := by
  intro b
  change (b ∈ if (B.queues m).tail = [] then B.marked.erase m else B.marked) ↔
    Lanes.pop B.queues m b ≠ []
  by_cases hbm : b = m
  · subst hbm
    rw [Lanes.pop_self]
    split
    · next hnil => simp [hnil]
    · next hne =>
        have hqueue : B.queues b ≠ [] := by
          intro hnil
          exact hne (by rw [hnil, List.tail_nil])
        exact iff_of_true ((h b).mpr hqueue) hne
  · rw [Lanes.pop_of_ne _ _ hbm, ← h b]
    split
    · simp [hbm]
    · rfl

theorem Exact.reset_iff :
    ({ B with qlen := 0, queues := fun _ => [] } : Buffer).Exact ↔ B.marked = ∅ := by
  simp only [Exact, ne_eq, not_true_eq_false, iff_false]
  exact Finset.eq_empty_iff_forall_notMem.symm

/-! ### Draining a buffer with a stale mark -/

/-- Departures have run into a mark without a packet. -/
def Stuck (B : Buffer) : Prop :=
  B.disableDequeue = 0 ∧ B.marked.Nonempty ∧ B.peek = none

/-- With exact marks, a peek finds a packet whenever there is one. -/
theorem Exact.eq_nil_of_peek_eq_none (h : B.Exact) (hpeek : B.peek = none)
    (b : Band) : B.queues b = [] := by
  have hempty : ¬ B.marked.Nonempty := by
    intro hne
    have hmin := B.marked.min'_mem hne
    exact (h _).mp hmin (peek_eq_none_iff.mp hpeek _ hmin fun b hb => B.marked.min'_le b hb)
  by_contra hne
  exact hempty ⟨b, (h b).mpr hne⟩

/-- A stale mark survives a departure from another band. -/
theorem stale_take {m b : Band} (hne : B.queues m ≠ []) (hmark : b ∈ B.marked)
    (hnil : B.queues b = []) : b ∈ (B.take m).marked ∧ (B.take m).queues b = [] := by
  have hbm : b ≠ m := by
    rintro rfl
    exact hne hnil
  constructor
  · change b ∈ if (B.queues m).tail = [] then B.marked.erase m else B.marked
    split
    · exact Finset.mem_erase.mpr ⟨hbm, hmark⟩
    · exact hmark
  · rw [← hnil]
    exact Lanes.pop_of_ne B.queues m hbm

/-- Draining a buffer with a stale mark ends up at such a mark. -/
theorem exists_stuck_of_stale (hon : B.disableDequeue = 0) {b : Band}
    (hmark : b ∈ B.marked) (hnil : B.queues b = []) :
    ∃ k, (buffer.exec B (List.replicate k .dequeue)).Stuck := by
  -- each departure that is served takes one packet off the lists
  induction hn : Lanes.total B.queues generalizing B with
  | zero =>
      refine ⟨0, hon, ⟨b, hmark⟩, peek_eq_none_iff.mpr fun m _ _ => ?_⟩
      exact Lanes.total_eq_zero_iff.mp hn m
  | succ n ih =>
      have hstep := B.step_buffer .dequeue
      generalize hB' : buffer.next B .dequeue = B' at hstep
      generalize buffer.out B .dequeue = e at hstep
      cases hstep with
      | refuse h => exact ⟨0, hon, ⟨b, hmark⟩, h.resolve_left (not_not.mpr hon)⟩
      | @take m skb _ hm hleast hhead =>
          have hne : B.queues m ≠ [] :=
            List.ne_nil_of_mem (List.mem_of_mem_head? hhead)
          obtain ⟨hmark', hnil'⟩ := stale_take hne hmark hnil
          have htotal : Lanes.total (B.take m).queues = n := by
            have hpop := Lanes.total_pop hne
            change Lanes.total (Lanes.pop B.queues m) = n
            omega
          obtain ⟨k, hk⟩ := ih (B := B.take m) hon hmark' hnil' htotal
          refine ⟨k + 1, ?_⟩
          rw [List.replicate_succ, Machine.exec_cons, hB']
          exact hk

end Buffer

/-! ## The band-occupancy invariant -/

/-- Bit `b` of the bitmap is set exactly when the list of band `b` is
non-empty. -/
def BandsExact (c : Ctx) : Prop :=
  ∀ b : Band, bandBit c.sch.priv.bitmap b = true ↔ c.sch.priv.queues b ≠ []

/-- The call leaves no mark behind on an emptied band: an arrival that makes
`pfab_drop` run finds at least two packets in the band evicted from, and a
reset finds no bit set. -/
def KeepsBandsExact (c : Ctx) : Op → Prop
  | .enqueue skb =>
      Admits c skb → c.sch.priv.limit < c.sch.qlen + 1 →
        0 ≤ bitmapLowPrio c.sch.priv.bitmap ∧
          2 ≤ (c.sch.priv.queues (band2list (bitmapLowPrio c.sch.priv.bitmap))).length
  | .reset => ∀ b : Band, bandBit c.sch.priv.bitmap b = false
  | _ => True

instance : DecidablePred BandsExact := fun c =>
  inferInstanceAs (Decidable (∀ b : Band,
    bandBit c.sch.priv.bitmap b = true ↔ c.sch.priv.queues b ≠ []))

instance (c : Ctx) : ∀ op, Decidable (KeepsBandsExact c op)
  | .enqueue _ => inferInstanceAs (Decidable (_ → _ → _ ∧ _))
  | .reset => inferInstanceAs (Decidable (∀ _ : Band, _ = false))
  | .dequeue | .peek | .change _ => isTrue trivial

theorem exact_view_iff (c : Ctx) : (view c).Exact ↔ BandsExact c := by
  apply forall_congr'
  intro b
  rw [marked_view, mem_markedBands, queues_view]

/-- From an exact bitmap, a step reaches an exact one exactly when it meets the
condition. -/
theorem Buffer.Step.exact_iff {c : Ctx} {op : Op} {e : Effect} {B' : Buffer}
    (hstep : Buffer.Step (view c) op e B') (h : (view c).Exact) :
    B'.Exact ↔ KeepsBandsExact c op := by
  cases hstep with
  | illegal hl => exact iff_of_true h fun hadm => absurd hadm.1 hl
  | reject hl hr => exact iff_of_true h fun hadm => absurd hr ((admits_iff hl).mp hadm)
  | store hl hr hroom => exact iff_of_true (h.store _ _) fun _ hover => absurd hover hroom
  | evict hl hr hover =>
      rw [h.evict_iff hr (limit_le_of_lt_succ hover), KeepsBandsExact]
      have hadm := (admits_iff hl).mpr hr
      have hover' : c.sch.priv.limit < c.sch.qlen + 1 := hover
      simp only [hadm, hover', true_imp_iff]
      rcases bitmapLowPrio_of_full hr (limit_le_of_lt_succ hover) with
        ⟨hlow, _, hv⟩ | ⟨hlow, _, hlt⟩
      · rw [hlow, hv]
        simp
      · rw [hlow, band2list_natCast]
        simp [hlt]
  | refuse | peek | malformed | change => exact iff_of_true h trivial
  | take => exact iff_of_true (h.take _) trivial
  | reset => rw [Exact.reset_iff, marked_eq_empty_iff, KeepsBandsExact]

theorem bandsExact_next_iff {c : Ctx} (h : BandsExact c) (op : Op) :
    BandsExact (qdisc.next c op) ↔ KeepsBandsExact c op := by
  obtain ⟨_, hstep, _⟩ := step_qdisc c op
  rw [← exact_view_iff]
  exact hstep.exact_iff ((exact_view_iff c).mpr h)

theorem Started.bandsExact {c : Ctx} (h : Started c) : BandsExact c :=
  (exact_view_iff c).mp h.fresh.1.exact

theorem BandsExact.always_iff {c : Ctx} (h : BandsExact c) (ops : List Op) :
    qdisc.Always BandsExact c ops ↔ qdisc.Meets KeepsBandsExact c ops := by
  refine Machine.always_iff_meets ?_ h ops
  intro c op hexact
  exact bandsExact_next_iff hexact op

/-- From `pfab_init`, the runs in which every state has an exact bitmap are
those in which every call meets the condition. -/
theorem always_bandsExact_iff {c : Ctx} (h : Started c) (ops : List Op) :
    qdisc.Always BandsExact c ops ↔ qdisc.Meets KeepsBandsExact c ops :=
  h.bandsExact.always_iff ops

/-- An eviction that leaves a packet behind keeps the bitmap exact. -/
theorem always_bandsExact_two_in_band :
    qdisc.Always BandsExact setup
      [configure 2 0, .enqueue (allocIpSkb 0 5), .enqueue (allocIpSkb 1 5),
        .enqueue (allocIpSkb 2 3), .dequeue, .dequeue, .reset] :=
  (always_bandsExact_iff setup_started _).mpr (by decide)

/-- With room for one packet, the more urgent arrival evicts the only packet of
band 5, whose bit stays set. -/
theorem not_bandsExact_of_last_evicted :
    Started setup ∧
      ¬ BandsExact (qdisc.exec setup
        [configure 1 0, .enqueue (allocIpSkb 0 5), .enqueue (allocIpSkb 1 3)]) :=
  ⟨setup_started, by decide⟩

/-! ## Work conservation -/

/-- `pfab_dequeue` runs into its "an skb is expected in band" branch. -/
def MissesSkb (c : Ctx) : Prop :=
  c.sch.priv.disableDequeue = 0 ∧ 0 ≤ bitmapHighPrio c.sch.priv.bitmap ∧
    (qdiscDequeueHead (band2list (bitmapHighPrio c.sch.priv.bitmap)) c).1 = none

/-- The qdisc withholds no packet: `pfab_dequeue`, unless switched off, and
`pfab_peek` return `NULL` only if all band lists are empty, and no packet is
missed where one is expected. -/
structure WorkConserving (c : Ctx) : Prop where
  dequeue_none : c.sch.priv.disableDequeue = 0 → (pfabDequeue c).1 = none →
    ∀ b : Band, c.sch.priv.queues b = []
  peek_none : pfabPeek c = none → ∀ b : Band, c.sch.priv.queues b = []
  not_missesSkb : ¬ MissesSkb c

/-- A call that neither brings nor purges packets. -/
def Op.drains : Op → Bool
  | .enqueue _ => false
  | .reset => false
  | _ => true

theorem missesSkb_iff (c : Ctx) : MissesSkb c ↔ (view c).Stuck := by
  apply and_congr_right
  intro _
  rw [(view_qdiscDequeueHead _ c).1]
  rcases bitmapHighPrio_view c with ⟨hneg, hempty⟩ | ⟨hne, hband⟩
  · exact iff_of_false (fun h => absurd h.1 (not_le.mpr hneg)) fun h => hempty h.1
  · rw [hband, band2list_natCast, Buffer.peek, dif_pos hne]
    exact and_congr_left fun _ => iff_of_true (Int.natCast_nonneg _) hne

theorem BandsExact.workConserving {c : Ctx} (h : BandsExact c) : WorkConserving c := by
  have hexact := (exact_view_iff c).mpr h
  have hpeek : pfabPeek c = none → ∀ b : Band, c.sch.priv.queues b = [] := by
    intro hnone
    rw [pfabPeek_eq] at hnone
    exact hexact.eq_nil_of_peek_eq_none hnone
  refine ⟨?_, hpeek, ?_⟩
  · intro hon hnone
    rw [pfabDequeue_eq, if_pos hon] at hnone
    exact hpeek hnone
  · rw [missesSkb_iff]
    rintro ⟨_, ⟨m, hm⟩, hnone⟩
    exact (hexact m).mp hm (hexact.eq_nil_of_peek_eq_none hnone m)

theorem meets_keepsBandsExact_of_drains {ks : List Op}
    (hks : ∀ op ∈ ks, op.drains = true) (c : Ctx) :
    qdisc.Meets KeepsBandsExact c ks := by
  induction ks generalizing c with
  | nil => trivial
  | cons op ks ih =>
      obtain ⟨hop, hrest⟩ := List.forall_mem_cons.mp hks
      refine ⟨?_, ih hrest _⟩
      cases op with
      | enqueue | reset => simp [Op.drains] at hop
      | dequeue | peek | change => trivial

/-- From a stale mark, switching departures on and draining misses a packet. -/
theorem exists_missesSkb_of_stale {c : Ctx} {b : Band}
    (hmark : bandBit c.sch.priv.bitmap b = true) (hnil : c.sch.priv.queues b = []) :
    ∃ k, MissesSkb (qdisc.exec c (configure 0 0 :: List.replicate k .dequeue)) := by
  have hmarked : b ∈ (view c).marked := (mem_markedBands c.sch.priv.bitmap).mpr hmark
  obtain ⟨k, hk⟩ := Buffer.exists_stuck_of_stale
    (B := { view c with limit := 0, disableDequeue := 0 }) rfl hmarked hnil
  refine ⟨k, ?_⟩
  rw [missesSkb_iff, qdisc_refines_buffer.exec_eq, Machine.exec_cons,
    Buffer.next_configure]
  exact hk

/-- Non-empty bands are marked, so an inexact bitmap has a stale mark. -/
theorem exists_stale_of_not_bandsExact {c : Ctx} (hcov : (view c).Covered)
    (h : ¬ BandsExact c) :
    ∃ b : Band, bandBit c.sch.priv.bitmap b = true ∧ c.sch.priv.queues b = [] := by
  by_contra hnone
  push Not at hnone
  refine h fun b => ⟨hnone b, fun hne => ?_⟩
  exact (mem_markedBands c.sch.priv.bitmap).mp (hcov b hne)

/-- The runs that are work-conserving, in every state they reach and in every
state reached from there by departures and configuration requests, are those in
which every call keeps the bitmap exact. -/
theorem workConserving_iff {c : Ctx} (h : Started c) (ops : List Op) :
    (∀ js, js <+: ops → ∀ ks : List Op, (∀ op ∈ ks, op.drains = true) →
        WorkConserving (qdisc.exec c (js ++ ks))) ↔
      qdisc.Meets KeepsBandsExact c ops := by
  rw [← h.bandsExact.always_iff ops]
  constructor
  · intro hwork js hjs
    by_contra hinexact
    obtain ⟨b, hmark, hnil⟩ :=
      exists_stale_of_not_bandsExact (h.covered js) hinexact
    obtain ⟨k, hmiss⟩ := exists_missesSkb_of_stale hmark hnil
    rw [← Machine.exec_append] at hmiss
    refine (hwork js hjs _ ?_).not_missesSkb hmiss
    simp [configure, Op.drains]
  · intro hexact js hjs ks hks
    have hdrain := meets_keepsBandsExact_of_drains hks (qdisc.exec c js)
    rw [Machine.exec_append]
    exact (((hexact js hjs).always_iff ks).mpr hdrain).last.workConserving

/-- After an eviction that leaves a packet behind, draining hands out both
packets left. -/
theorem workConserving_two_in_band :
    WorkConserving (qdisc.exec setup
      ([configure 2 0, .enqueue (allocIpSkb 0 5), .enqueue (allocIpSkb 1 5),
        .enqueue (allocIpSkb 2 3)] ++ [.dequeue, .dequeue])) :=
  (workConserving_iff setup_started _).mpr (by decide) _ (List.prefix_refl _) _
    (by decide)

/-- The stale mark of band 5 hides a later packet of band 7: `pfab_dequeue`
returns `NULL` although a packet is queued. -/
theorem not_workConserving_behind_stale_mark :
    Started setup ∧
      ¬ WorkConserving (qdisc.exec setup
        [configure 1 0, .enqueue (allocIpSkb 0 5), .enqueue (allocIpSkb 1 3), .dequeue,
          .enqueue (allocIpSkb 2 7)]) := by
  refine ⟨setup_started, fun h => ?_⟩
  have hempty := h.dequeue_none (by decide) (by decide) 7
  exact absurd hempty (by decide)

end PFabric
