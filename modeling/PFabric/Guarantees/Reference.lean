import PFabric.Guarantees.Counter
import PFabric.Guarantees.Occupancy
import PFabric.Support.StableQueue

/-!
# Below the limit, the qdisc is a stable priority queue

As long as every arrival finds room, nothing is rejected or evicted, so the
bitmap and the counter stay exact, and thirty-two lists, a bitmap and a counter
behave like one list sorted by band and arrival order.  The reference machine
below is that list with the dequeue switch; the qdisc runs in lock-step with it.
-/

namespace PFabric

/-- Packets are served by their band. -/
def bandKey (skb : SkBuff) : ℕ := skb.priority.toNat

/-- The reference: a stable priority queue and the dequeue switch. -/
structure Reference where
  disableDequeue : BitVec 32
  queue : StableQueue bandKey

/-- The machine of the reference.  It has no limit and no bands. -/
def reference : Machine Reference Op Ret where
  step t
    | .enqueue skb =>
        if Legal skb then
          (.xmit .success, { t with queue := t.queue.insert (classified skb) })
        else (.xmit .drop, t)
    | .dequeue =>
        if t.disableDequeue = 0 then
          (.skb t.queue.min?, { t with queue := t.queue.popMin })
        else (.skb none, t)
    | .peek => (.skb t.queue.min?, t)
    | .change none => (.code (-einval), t)
    | .change (some attr) =>
        if attr.payload.length < sizeofQopt then (.code (-einval), t)
        else (.code 0, { t with disableDequeue := attr.qopt.disableDequeue })
    | .reset => (.none, { t with queue := .empty })

/-- The reference of a qdisc that holds no packet. -/
def Reference.start (c : Ctx) : Reference := ⟨c.sch.priv.disableDequeue, .empty⟩

/-- An arrival of legal priority finds room, and nothing is reset. -/
def BelowLimit (c : Ctx) : Op → Prop
  | .enqueue skb => Legal skb → held c < c.sch.priv.limit.toNat
  | .reset => False
  | _ => True

instance (c : Ctx) : ∀ op, Decidable (BelowLimit c op)
  | .enqueue _ => inferInstanceAs (Decidable (_ → _ < _))
  | .reset => isFalse id
  | .dequeue | .peek | .change _ => isTrue trivial

/-! ## One step -/

namespace Buffer

variable {B B' : Buffer} {op : Op} {e : Effect} {t : Reference}

theorem Exact.eq_nil_of_lt (h : B.Exact) {m b : Band}
    (hleast : ∀ b ∈ B.marked, m ≤ b) (hb : b < m) : B.queues b = [] := by
  by_contra hne
  exact absurd (hleast b ((h b).mpr hne)) (not_le.mpr hb)

/-- With exact marks, a peek shows the minimum of the reference. -/
theorem Exact.peek_eq_min? (h : B.Exact) {Q : StableQueue bandKey}
    (hQ : Lanes.flat B.queues = Q.toList) : B.peek = Q.min? := by
  cases hpeek : B.peek with
  | none =>
      have hnil : Lanes.flat B.queues = [] :=
        Lanes.flat_eq_nil_iff.mpr (h.eq_nil_of_peek_eq_none hpeek)
      rw [StableQueue.min?, ← hQ, hnil]
      rfl
  | some skb =>
      obtain ⟨m, _, hleast, hhead⟩ := exists_of_peek_eq_some hpeek
      exact (Lanes.flat_pop_eq_popMin hQ
        (fun b hb => h.eq_nil_of_lt hleast hb) hhead).1.symm

/-- A step that finds room and is no reset is a step of the reference. -/
theorem Step.reference_step (hstep : Step B op e B') (h : B.Exact) (hband : B.Banded)
    (hQ : Lanes.flat B.queues = t.queue.toList)
    (hswitch : B.disableDequeue = t.disableDequeue)
    (hroom : ∀ skb, op = .enqueue skb → Legal skb → ¬ B.limit ≤ B.qlen)
    (hreset : op ≠ .reset) :
    e.ret = reference.out t op ∧
      Lanes.flat B'.queues = (reference.next t op).queue.toList ∧
      B'.disableDequeue = (reference.next t op).disableDequeue := by
  cases hstep with
  | illegal hl =>
      simp only [Machine.out, Machine.next, reference, hl, if_false]
      exact ⟨trivial, hQ, hswitch⟩
  | reject hl hr => exact absurd hr.1 (hroom _ rfl hl)
  | @store skb hl =>
      simp only [Machine.out, Machine.next, reference, hl, if_true]
      exact ⟨trivial, Lanes.flat_push_eq_insert hQ hband (toNat_priority_classified skb),
        hswitch⟩
  | evict hl _ hover => exact absurd (limit_le_of_lt_succ hover) (hroom _ rfl hl)
  | refuse hrefuse =>
      by_cases hon : t.disableDequeue = 0
      · have hpeek := hrefuse.resolve_left (not_not.mpr (hswitch.trans hon))
        have hmin : t.queue.min? = none := (h.peek_eq_min? hQ).symm.trans hpeek
        have hnil : t.queue.toList = [] := List.head?_eq_none_iff.mp hmin
        simp only [Machine.out, Machine.next, reference, hon, if_true, hmin,
          StableQueue.toList_popMin, hnil, hQ]
        exact ⟨trivial, rfl, hswitch.trans hon⟩
      · simp only [Machine.out, Machine.next, reference, hon, if_false]
        exact ⟨trivial, hQ, hswitch⟩
  | @take m skb hon hm hleast hhead =>
      obtain ⟨hmin, hpop⟩ := Lanes.flat_pop_eq_popMin hQ
        (fun b hb => h.eq_nil_of_lt hleast hb) hhead
      simp only [Machine.out, Machine.next, reference, ← hswitch, hon, if_true, hmin]
      exact ⟨trivial, hpop, hon⟩
  | peek => exact ⟨congrArg Ret.skb (h.peek_eq_min? hQ), hQ, hswitch⟩
  | @malformed opt hshort =>
      cases opt with
      | none => exact ⟨rfl, hQ, hswitch⟩
      | some attr =>
          simp only [Machine.out, Machine.next, reference, hshort attr rfl, if_true]
          exact ⟨trivial, hQ, hswitch⟩
  | change hlong =>
      simp only [Machine.out, Machine.next, reference, Nat.not_lt.mpr hlong, if_false]
      exact ⟨trivial, hQ, trivial⟩
  | reset => exact absurd rfl hreset

end Buffer

/-! ## The simulation -/

/-- The qdisc stands for the reference: marks and counter are exact, and the
lists, one after the other, are the reference's queue. -/
structure Simulates (c : Ctx) (t : Reference) : Prop where
  exact : (view c).Exact
  counted : (view c).Counted
  banded : (view c).Banded
  queue_eq : Lanes.flat c.sch.priv.queues = t.queue.toList
  disableDequeue_eq : c.sch.priv.disableDequeue = t.disableDequeue

theorem Started.simulates {c : Ctx} (h : Started c) : Simulates c (.start c) where
  exact := h.fresh.1.exact
  counted := h.fresh.1.counted
  banded := h.banded []
  queue_eq := by
    refine Lanes.flat_eq_nil_iff.mpr fun b => ?_
    rw [← queues_view, h.fresh.1.2.2]
  disableDequeue_eq := rfl

theorem BelowLimit.not_full {c : Ctx} {skb : SkBuff} (h : BelowLimit c (.enqueue skb))
    (hcounted : (view c).Counted) (hl : Legal skb) : ¬ c.sch.priv.limit ≤ c.sch.qlen := by
  have hqlen : c.sch.qlen.toNat = held c := hcounted
  have hroom := h hl
  rw [BitVec.le_def]
  omega

/-- Below the limit, both conditions for exactness are met. -/
theorem BelowLimit.keeps {c : Ctx} {op : Op} (h : BelowLimit c op)
    (hcounted : (view c).Counted) : KeepsBandsExact c op ∧ EvictsPacket c op := by
  cases op with
  | enqueue skb =>
      refine ⟨?_, ?_⟩
      · intro hadm hover
        exact absurd (limit_le_of_lt_succ hover) (h.not_full hcounted hadm.1)
      · intro hadm hfull
        exact absurd hfull (h.not_full hcounted hadm.1)
  | reset => exact h.elim
  | dequeue | peek | change => exact ⟨trivial, trivial⟩

theorem Simulates.step {c : Ctx} {t : Reference} {op : Op} (h : Simulates c t)
    (hbelow : BelowLimit c op) :
    qdisc.out c op = reference.out t op ∧
      Simulates (qdisc.next c op) (reference.next t op) := by
  obtain ⟨_, hstep, _⟩ := step_qdisc c op
  obtain ⟨hkeeps, hevicts⟩ := hbelow.keeps h.counted
  have hroom : ∀ skb, op = .enqueue skb → Legal skb → ¬ (view c).limit ≤ (view c).qlen := by
    rintro skb rfl hl
    exact hbelow.not_full h.counted hl
  have hreset : op ≠ .reset := by
    rintro rfl
    exact hbelow
  obtain ⟨hret, hqueue, hswitch⟩ := hstep.reference_step h.exact h.banded h.queue_eq
    h.disableDequeue_eq hroom hreset
  refine ⟨hret, ?_⟩
  exact {
    exact := (hstep.exact_iff h.exact).mpr hkeeps
    counted := (hstep.counted_iff h.counted).mpr hevicts
    banded := hstep.banded h.banded
    queue_eq := hqueue
    disableDequeue_eq := hswitch }

/-! ## Whole runs -/

theorem pfabDequeue_snd_of_none {c : Ctx} (h : (pfabDequeue c).1 = none) :
    (pfabDequeue c).2 = c := by
  rcases pfabDequeue_cases c with heq | ⟨band, skb, heq⟩
  · rw [heq]
  · rw [heq] at h
    exact absurd h (Option.some_ne_none skb)

/-- From `pfab_init`, a run without resets whose arrivals all find room answers
every call as the reference does, and its lists are the reference's queue.
Where it ends, `pfab_dequeue` returns `NULL`, without changing anything, exactly
when the reference is empty or departures are switched off, and `pfab_peek`
exactly when the reference is empty. -/
theorem lockstep_stable_queue {c : Ctx} (h : Started c) (ops : List Op)
    (hbelow : qdisc.Meets BelowLimit c ops) :
    qdisc.trace c ops = reference.trace (.start c) ops ∧
      Lanes.flat (qdisc.exec c ops).sch.priv.queues =
        (reference.exec (.start c) ops).queue.toList ∧
      ((pfabDequeue (qdisc.exec c ops)).1 = none ↔
        (reference.exec (.start c) ops).queue.toList = [] ∨
          (qdisc.exec c ops).sch.priv.disableDequeue ≠ 0) ∧
      ((pfabDequeue (qdisc.exec c ops)).1 = none →
        (pfabDequeue (qdisc.exec c ops)).2 = qdisc.exec c ops) ∧
      (pfabPeek (qdisc.exec c ops) = none ↔
        (reference.exec (.start c) ops).queue.toList = []) := by
  obtain ⟨htrace, hend⟩ := Machine.trace_eq_of_simulation
    (fun _ _ _ hsim hC => Simulates.step hsim hC) h.simulates hbelow
  generalize qdisc.exec c ops = s at hend ⊢
  generalize reference.exec (.start c) ops = t at hend ⊢
  have hpeek : pfabPeek s = none ↔ t.queue.toList = [] := by
    rw [pfabPeek_eq, hend.exact.peek_eq_min? hend.queue_eq, StableQueue.min?,
      List.head?_eq_none_iff]
  refine ⟨htrace, hend.queue_eq, ?_, pfabDequeue_snd_of_none, hpeek⟩
  rw [pfabDequeue_eq, ← hpeek]
  by_cases hon : s.sch.priv.disableDequeue = 0
  · rw [if_pos hon]
    exact (or_iff_left (not_not.mpr hon)).symm
  · rw [if_neg hon]
    exact iff_of_true rfl (Or.inr hon)

/-- Three packets in two bands, with a refused one and the switch thrown in
between. -/
theorem lockstep_stable_queue_two_bands :
    qdisc.trace setup
        [.enqueue (allocIpSkb 0 5), .enqueue (allocIpSkb 1 40), .enqueue (allocIpSkb 2 3),
          configure 5 1, .dequeue, configure 5 0, .enqueue (allocIpSkb 3 5), .peek,
          .dequeue, .dequeue] =
      reference.trace (.start setup)
        [.enqueue (allocIpSkb 0 5), .enqueue (allocIpSkb 1 40), .enqueue (allocIpSkb 2 3),
          configure 5 1, .dequeue, configure 5 0, .enqueue (allocIpSkb 3 5), .peek,
          .dequeue, .dequeue] :=
  (lockstep_stable_queue setup_started _ (by decide)).1

end PFabric
