import PFabric.Buffer.Steps

/-!
# Reset and a fresh start

`pfab_reset` purges the lists and zeroes the counter but keeps the bitmap.
What it leaves behaves like a newly initialised qdisc with the same limit and
the same dequeue switch exactly when no bit was set.  Otherwise two calls tell
the two apart: with a limit of 0 the leftover mark turns away an arrival of the
least urgent band, which a fresh qdisc stores and evicts.
-/

namespace PFabric

/-- Contexts with the same buffer answer every run alike. -/
theorem trace_eq_of_view_eq {c c' : Ctx} (h : view c = view c') (ops : List Op) :
    qdisc.trace c ops = qdisc.trace c' ops := by
  rw [qdisc_refines_buffer.trace_eq, qdisc_refines_buffer.trace_eq, h]

theorem view_pfabReset (c : Ctx) :
    view (pfabReset c) = { view c with qlen := 0, queues := fun _ => [] } :=
  qdisc_refines_buffer.next_eq c .reset

/-- A newly initialised qdisc, configured. -/
theorem Started.view_configure {c : Ctx} (h : Started c) (limit disable : BitVec 32) :
    view (qdisc.next c (configure limit disable)) =
      { limit := limit, disableDequeue := disable, qlen := 0, marked := ∅,
        queues := fun _ => [] } := by
  obtain ⟨hqlen, hmarked, hqueues⟩ := h.fresh.1
  rw [qdisc_refines_buffer.next_eq, Buffer.next_configure, hqlen, hmarked, hqueues]

/-! ## Telling a leftover mark from a fresh start -/

/-- The packet used to probe: any of the least urgent band. -/
def probe : SkBuff := allocIpSkb 0 31

theorem probe_legal : Legal probe := by decide

theorem le_probe_band (b : Band) : b ≤ probe_legal.band := by
  have hband : (probe_legal.band : ℕ) = 31 := by decide
  have hb : (b : ℕ) < 32 := b.isLt
  exact Fin.le_def.mpr (by omega)

/-- At limit 0, an idle buffer turns the probe away exactly if it has a mark. -/
theorem Buffer.rejects_probe_iff {B : Buffer} (hlimit : B.limit = 0) :
    B.Rejects probe_legal.band ↔ B.marked.Nonempty := by
  constructor
  · rintro ⟨_, hne, _⟩
    exact hne
  · intro hne
    refine ⟨?_, hne, fun l _ => le_probe_band l⟩
    rw [hlimit]
    bv_omega

/-- The answers to the probing run. -/
theorem trace_probe (c : Ctx) :
    qdisc.trace c [configure 0 0, .enqueue probe] =
      [qdisc.out c (configure 0 0),
        qdisc.out (qdisc.next c (configure 0 0)) (.enqueue probe)] := rfl

theorem out_probe_eq_drop_iff (c : Ctx) :
    qdisc.out (qdisc.next c (configure 0 0)) (.enqueue probe) = .xmit .drop ↔
      (view c).marked.Nonempty := by
  rw [qdisc_refines_buffer.out_eq, qdisc_refines_buffer.next_eq, Buffer.next_configure]
  have hstep := Buffer.step_buffer { view c with limit := 0, disableDequeue := 0 }
    (.enqueue probe)
  rw [← Buffer.rejects_probe_iff (B := { view c with limit := 0, disableDequeue := 0 }) rfl]
  generalize buffer.out { view c with limit := 0, disableDequeue := 0 }
    (.enqueue probe) = e at hstep ⊢
  generalize buffer.next { view c with limit := 0, disableDequeue := 0 }
    (.enqueue probe) = B' at hstep
  cases hstep with
  | illegal h => exact absurd probe_legal h
  | reject _ hr => exact iff_of_true rfl hr
  | store _ hr => exact iff_of_false (by simp) hr
  | evict _ hr => exact iff_of_false (by simp) hr

/-- What a reset leaves answers every later run as a fresh start does exactly
when the reset found no bit set. -/
theorem reset_eq_fresh_iff (s : Ctx) {c : Ctx} (h : Started c) :
    (∀ ops : List Op, (∀ op ∈ ops, op ≠ .reset) →
        qdisc.trace (pfabReset s) ops =
          qdisc.trace
            (qdisc.next c (configure s.sch.priv.limit s.sch.priv.disableDequeue)) ops) ↔
      ∀ b : Band, bandBit s.sch.priv.bitmap b = false := by
  have hfresh := h.view_configure s.sch.priv.limit s.sch.priv.disableDequeue
  rw [← marked_eq_empty_iff]
  constructor
  · intro hsame
    by_contra hne
    have hprobe := hsame [configure 0 0, .enqueue probe] (by simp [configure])
    rw [trace_probe, trace_probe, List.cons.injEq, List.cons.injEq] at hprobe
    have hdrop := (out_probe_eq_drop_iff (pfabReset s)).mpr (by
      rw [view_pfabReset]
      exact Finset.nonempty_iff_ne_empty.mpr hne)
    rw [hprobe.2.1, out_probe_eq_drop_iff, hfresh] at hdrop
    exact absurd hdrop Finset.not_nonempty_empty
  · intro hempty ops _
    apply trace_eq_of_view_eq
    rw [view_pfabReset, hfresh]
    exact Buffer.ext rfl rfl rfl hempty rfl

/-- A reset of a drained qdisc is a fresh start. -/
theorem reset_eq_fresh_drained :
    qdisc.trace
        (pfabReset (qdisc.exec setup [.enqueue (allocIpSkb 0 5), .dequeue]))
        [.enqueue (allocIpSkb 1 7), .dequeue] =
      qdisc.trace
        (qdisc.next setup (configure
          (qdisc.exec setup [.enqueue (allocIpSkb 0 5), .dequeue]).sch.priv.limit
          (qdisc.exec setup [.enqueue (allocIpSkb 0 5), .dequeue]).sch.priv.disableDequeue))
        [.enqueue (allocIpSkb 1 7), .dequeue] :=
  (reset_eq_fresh_iff _ setup_started).mpr (by decide) _ (by decide)

/-- A reset with a packet queued in band 5 leaves bit 5 set, which hides the
next packet of band 7. -/
theorem reset_ne_fresh_with_packet_queued :
    Started setup ∧
      qdisc.trace
          (pfabReset (qdisc.exec setup [.enqueue (allocIpSkb 0 5)]))
          [.enqueue (allocIpSkb 1 7), .dequeue] ≠
        qdisc.trace
          (qdisc.next setup (configure
            (qdisc.exec setup [.enqueue (allocIpSkb 0 5)]).sch.priv.limit
            (qdisc.exec setup [.enqueue (allocIpSkb 0 5)]).sch.priv.disableDequeue))
          [.enqueue (allocIpSkb 1 7), .dequeue] :=
  ⟨setup_started, by decide⟩

end PFabric
