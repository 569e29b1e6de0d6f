import PFabric.Buffer.Steps

/-!
# The accounting of a classful parent

A classful parent counts the packets below it from return codes alone: one more
for every `NET_XMIT_SUCCESS`, one less for every packet dequeued.  The counter
`sch->q.qlen` moves in step with these codes in every state, whether or not it
equals the number of packets held.
-/

namespace PFabric

/-- What a parent counts since the last `pfab_init` or `pfab_reset`. -/
structure ParentCount where
  enqueued : ℕ
  dequeued : ℕ

/-- The parent's reaction to one call. -/
def ParentCount.record (n : ParentCount) : Op → Ret → ParentCount
  | .enqueue _, .xmit .success => { n with enqueued := n.enqueued + 1 }
  | .dequeue, .skb (some _) => { n with dequeued := n.dequeued + 1 }
  | .reset, _ => ⟨0, 0⟩
  | _, _ => n

/-- The difference of the two counts, as an unsigned 32-bit number. -/
def ParentCount.balance (n : ParentCount) : BitVec 32 :=
  BitVec.ofNat 32 n.enqueued - BitVec.ofNat 32 n.dequeued

/-- The counts at the end of a run. -/
def parentCount (c : Ctx) (ops : List Op) : ParentCount :=
  qdisc.observe ParentCount.record ⟨0, 0⟩ c ops

/-- Where a call with the given result takes the counter. -/
def qlenAfter (qlen : BitVec 32) : Op → Ret → BitVec 32
  | .enqueue _, .xmit .success => qlen + 1
  | .dequeue, .skb (some _) => qlen - 1
  | .reset, _ => 0
  | _, _ => qlen

theorem ParentCount.balance_record (n : ParentCount) (op : Op) (ret : Ret) :
    (n.record op ret).balance = qlenAfter n.balance op ret := by
  unfold ParentCount.record qlenAfter ParentCount.balance
  split
  · rw [BitVec.ofNat_add]
    bv_omega
  · rw [BitVec.ofNat_add]
    bv_omega
  · rfl
  · rfl

/-- The counter follows the return code. -/
theorem Buffer.Step.qlen_eq {B B' : Buffer} {op : Op} {e : Effect}
    (hstep : Buffer.Step B op e B') : B'.qlen = qlenAfter B.qlen op e.ret := by
  cases hstep with
  | evict => exact B.qlen_store_evict _ _ _
  | illegal | reject | store | refuse | take | peek | malformed | change | reset => rfl

theorem qlen_next (c : Ctx) (op : Op) :
    (qdisc.next c op).sch.qlen = qlenAfter c.sch.qlen op (qdisc.out c op) := by
  obtain ⟨_, hstep, _⟩ := step_qdisc c op
  exact hstep.qlen_eq

theorem Started.qlen_eq_balance {c : Ctx} (h : Started c) (ops : List Op) :
    (qdisc.exec c ops).sch.qlen = (parentCount c ops).balance := by
  refine Machine.observe_invariant (M := qdisc) (f := ParentCount.record)
    (J := fun _ n c => c.sch.qlen = n.balance) ?_ (g := ⟨0, 0⟩) ?_ ops
  · intro _ n c op hqlen
    rw [qlen_next, hqlen, ParentCount.balance_record]
  · exact h.fresh.1.1

/-! ## The failed drop -/

/-- The context in which `pfab_enqueue` tests the limit for the second time:
the packet has been counted, its band marked and the packet linked in. -/
def stored (skb : SkBuff) (c : Ctx) : Ctx :=
  storeSkb (classified skb)
    (countBand (band2list (classified skb).priority.toInt) (countNonIp skb c))

/-- `pfab_enqueue` runs into its "Failed dropping a packet from an overflown
queue" branch. -/
def FailsDropping (skb : SkBuff) (c : Ctx) : Prop :=
  Admits c skb ∧ (stored skb c).sch.priv.limit < (stored skb c).sch.qlen ∧
    (pfabDrop (stored skb c)).1.toInt < 0

/-- The band just marked keeps `pfab_drop` from failing. -/
theorem not_failsDropping (skb : SkBuff) (c : Ctx) : ¬ FailsDropping skb c := by
  rintro ⟨⟨hl, _⟩, _, hneg⟩
  have hmarked : (view (stored skb c)).marked.Nonempty := by
    rw [stored, (view_storeSkb hl _).1]
    exact Finset.insert_nonempty _ _
  exact absurd hneg (not_lt.mpr (view_pfabDrop (stored skb c) hmarked).1)

/-- The counter equals the parent's balance at the end of every run.  Call by
call, `NET_XMIT_SUCCESS` adds one, the other verdicts nothing, a packet
dequeued takes one away, `NULL` nothing; and the failure branch of
`pfab_enqueue` is never taken. -/
theorem parent_accounting {c : Ctx} (h : Started c) (ops : List Op) :
    (qdisc.exec c ops).sch.qlen =
        BitVec.ofNat 32 (parentCount c ops).enqueued -
          BitVec.ofNat 32 (parentCount c ops).dequeued ∧
      (∀ skb, (pfabEnqueue skb (qdisc.exec c ops)).2.sch.qlen =
        (qdisc.exec c ops).sch.qlen +
          if (pfabEnqueue skb (qdisc.exec c ops)).1 = .success then 1 else 0) ∧
      ((pfabDequeue (qdisc.exec c ops)).2.sch.qlen =
        (qdisc.exec c ops).sch.qlen -
          if (pfabDequeue (qdisc.exec c ops)).1.isSome then 1 else 0) ∧
      ∀ skb, ¬ FailsDropping skb (qdisc.exec c ops) := by
  refine ⟨h.qlen_eq_balance ops, ?_, ?_, fun skb => not_failsDropping skb _⟩
  · intro skb
    refine (qlen_next (qdisc.exec c ops) (.enqueue skb)).trans ?_
    change qlenAfter _ _ (.xmit (pfabEnqueue skb (qdisc.exec c ops)).1) = _
    cases (pfabEnqueue skb (qdisc.exec c ops)).1 with
    | success => rfl
    | drop | cn => exact (BitVec.add_zero _).symm
  · refine (qlen_next (qdisc.exec c ops) .dequeue).trans ?_
    change qlenAfter _ _ (.skb (pfabDequeue (qdisc.exec c ops)).1) = _
    cases (pfabDequeue (qdisc.exec c ops)).1 with
    | none => exact (BitVec.sub_zero _).symm
    | some skb => rfl

/-- Two packets accepted, one of them evicted by a third arrival, one dequeued
from the lists: the parent counts two in and one out. -/
theorem parent_accounting_one_eviction :
    (qdisc.exec setup
        [configure 2 0, .enqueue (allocIpSkb 0 5), .enqueue (allocIpSkb 1 5),
          .enqueue (allocIpSkb 2 3), .dequeue]).sch.qlen =
      BitVec.ofNat 32 (parentCount setup
        [configure 2 0, .enqueue (allocIpSkb 0 5), .enqueue (allocIpSkb 1 5),
          .enqueue (allocIpSkb 2 3), .dequeue]).enqueued -
      BitVec.ofNat 32 (parentCount setup
        [configure 2 0, .enqueue (allocIpSkb 0 5), .enqueue (allocIpSkb 1 5),
          .enqueue (allocIpSkb 2 3), .dequeue]).dequeued :=
  (parent_accounting setup_started _).1

end PFabric
