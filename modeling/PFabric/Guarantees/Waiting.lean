import PFabric.Guarantees.Conservation

/-!
# Waiting

How many packets can leave while a given packet waits.  A departure takes a packet
that was ahead of the waiting one, more urgent or in the same band with a smaller
stamp; only more urgent arrivals get ahead of it later.  Rejections, evictions,
resets and requests put nothing ahead of it.  The bound holds in every run, also in
those whose bitmap marks empty bands.
-/

namespace PFabric

/-- `q` is to leave before `p`. -/
def Ahead (p q : SkBuff) : Prop :=
  q.priority.toNat < p.priority.toNat ∨
    q.priority.toNat = p.priority.toNat ∧ q.id < p.id

instance (p q : SkBuff) : Decidable (Ahead p q) := inferInstanceAs (Decidable (_ ∨ _))

/-- The number of packets held that are to leave before `p`. -/
def countAhead (c : Ctx) (p : SkBuff) : ℕ := (Lanes.flat c.sch.priv.queues).countP (Ahead p ·)

/-! ## One step -/

namespace Buffer

variable {B B' : Buffer} {op : Op} {e : Effect} {b : Band} {p : SkBuff}

/-- Whatever a call hands out while `p` stays was ahead of `p`. -/
theorem Step.handed_ahead (hstep : Step B op e B') (hcov : B.Covered) (hband : B.Banded)
    (hpair : ∀ b, (B.queues b).Pairwise fun p q => p.id < q.id) (hp : p ∈ B'.queues b) :
    ∀ q ∈ handed op e.ret, Ahead p q := by
  cases hstep with
  | illegal | reject | store | evict | refuse | peek | malformed | change | reset =>
      intro q hq
      exact absurd hq (by simp [handed])
  | @take m skb _ hm hleast hhead =>
      intro q hq
      obtain rfl : q = skb := by simpa [handed] using hq
      have hmem : p ∈ B.queues b := Lanes.mem_of_mem_pop hp
      rw [Ahead, hband m q (List.mem_of_mem_head? hhead), hband b p hmem]
      rcases lt_or_eq_of_le (hleast b (hcov b (List.ne_nil_of_mem hmem))) with hlt | rfl
      · exact Or.inl hlt
      · right
        have hlane := hpair m
        rw [(List.cons_head?_tail hhead).symm] at hlane
        change p ∈ Lanes.pop B.queues m m at hp
        rw [Lanes.pop_self] at hp
        exact ⟨rfl, List.rel_of_pairwise_cons hlane hp⟩

/-- One call: what is handed out comes off the packets ahead of `p`, and only the
arrival can add to them. -/
theorem Step.countAhead_add_handed_le (hstep : Step B op e B')
    (hahead : ∀ q ∈ handed op e.ret, Ahead p q) :
    (Lanes.flat B'.queues).countP (Ahead p ·) + (handed op e.ret).length ≤
      (Lanes.flat B.queues).countP (Ahead p ·) +
        ((arrivals [op]).map classified).countP (Ahead p ·) := by
  have hcount := hstep.conserves.countP_eq (Ahead p ·)
  have hhanded : (handed op e.ret).countP (Ahead p ·) = (handed op e.ret).length :=
    List.countP_eq_length.mpr fun q hq => decide_eq_true (hahead q hq)
  simp only [List.countP_append] at hcount
  omega

end Buffer

/-! ## Whole runs -/

/-- A packet that did not arrive during a run and is held at its end was held at its
start. -/
theorem mem_of_mem_exec {c : Ctx} {ks : List Op} (hband : (view c).Banded) {b : Band} {p : SkBuff}
    (hp : p ∈ (qdisc.exec c ks).sch.priv.queues b)
    (hnew : p ∉ (arrivals ks).map classified) : p ∈ c.sch.priv.queues b := by
  induction ks generalizing c with
  | nil => exact hp
  | cons op ks ih =>
      rw [arrivals_cons, List.map_append, List.mem_append, not_or] at hnew
      obtain ⟨_, hstep, _⟩ := step_qdisc c op
      have hmem : p ∈ (view (qdisc.next c op)).queues b := ih (hstep.banded hband) hp hnew.2
      have hlane := (hstep.lane_sublist hband b).subset (List.mem_append_right _ hmem)
      exact (List.mem_append.mp hlane).resolve_right hnew.1

/-- A packet already held carries a smaller stamp than every later arrival. -/
theorem Started.id_lt_of_mem {c : Ctx} (h : Started c) {ops ks : List Op}
    (hstamp : Stamped (ops ++ ks)) {b : Band} {p skb : SkBuff}
    (hp : p ∈ (qdisc.exec c ops).sch.priv.queues b) (hskb : skb ∈ arrivals ks) :
    p.id < skb.id := by
  have hlane := (h.lane_sublist ops b).subset (List.mem_append_right _ hp)
  obtain ⟨q, hq, rfl⟩ := List.mem_map.mp hlane
  rw [Stamped, arrivals_append, List.pairwise_append] at hstamp
  exact hstamp.2.2 q hq skb hskb

/-- The bound with every later arrival compared with `p`. -/
theorem Started.countAhead_add_departures_le {c : Ctx} (h : Started c) {ops ks : List Op}
    (hstamp : Stamped (ops ++ ks)) {b : Band} {p : SkBuff}
    (hp : p ∈ (qdisc.exec c ops).sch.priv.queues b)
    (hend : p ∈ (qdisc.exec c (ops ++ ks)).sch.priv.queues b) :
    countAhead (qdisc.exec c (ops ++ ks)) p + (departures (qdisc.exec c ops) ks).length ≤
      countAhead (qdisc.exec c ops) p + ((arrivals ks).map classified).countP (Ahead p ·) := by
  induction ks generalizing ops with
  | nil => simp [departures, Machine.observe, arrivals]
  | cons op ks ih =>
      have hsplit : ops ++ op :: ks = (ops ++ [op]) ++ ks := by simp
      have hnext : qdisc.exec c (ops ++ [op]) = qdisc.next (qdisc.exec c ops) op := by
        rw [Machine.exec_append]
        rfl
      rw [hsplit] at hstamp hend ⊢
      -- no later arrival is `p` itself, so `p` is held after the first call, too
      have hmid : p ∈ (qdisc.exec c (ops ++ [op])).sch.priv.queues b := by
        rw [Machine.exec_append] at hend
        refine mem_of_mem_exec (h.banded _) hend fun hmem => ?_
        obtain ⟨skb, hskb, rfl⟩ := List.mem_map.mp hmem
        have hlater : skb ∈ arrivals (op :: ks) := by
          rw [arrivals_cons]
          exact List.mem_append_right _ hskb
        exact absurd (h.id_lt_of_mem (by simpa using hstamp) hp hlater) (lt_irrefl _)
      have hrest := ih hstamp hmid hend
      have hstampOps : Stamped ops := by
        rw [Stamped, arrivals_append, arrivals_append, List.append_assoc,
          List.pairwise_append] at hstamp
        exact hstamp.1
      obtain ⟨_, hstep, _⟩ := step_qdisc (qdisc.exec c ops) op
      rw [hnext] at hmid hrest
      have hone := hstep.countAhead_add_handed_le
        (hstep.handed_ahead (h.covered ops) (h.banded ops) (h.pairwise_stamps hstampOps) hmid)
      rw [departures_cons, List.length_append, arrivals_cons, List.map_append, List.countP_append]
      change countAhead (qdisc.next (qdisc.exec c ops) op) p + (handed op (qdisc.out _ op)).length ≤
        countAhead (qdisc.exec c ops) p + _ at hone
      omega

/-- While a packet waits, no more packets leave than were ahead of it when the wait
began and more urgent ones arrived since. -/
theorem departures_le_countAhead {c : Ctx} (h : Started c) (ops ks : List Op)
    (hstamp : Stamped (ops ++ ks)) (b : Band) (p : SkBuff)
    (hp : p ∈ (qdisc.exec c ops).sch.priv.queues b)
    (hend : p ∈ (qdisc.exec c (ops ++ ks)).sch.priv.queues b) :
    (departures (qdisc.exec c ops) ks).length ≤
      countAhead (qdisc.exec c ops) p + (arrivals ks).countP fun skb => bandOf skb < (b : ℕ) := by
  have hcount : ((arrivals ks).map classified).countP (Ahead p ·) =
      (arrivals ks).countP fun skb => bandOf skb < (b : ℕ) := by
    rw [List.countP_map]
    refine List.countP_congr fun skb hskb => ?_
    have hprio : p.priority.toNat = (b : ℕ) := h.banded ops b p hp
    have hid : ¬ skb.id < p.id := not_lt.mpr (le_of_lt (h.id_lt_of_mem hstamp hp hskb))
    have hsame : (classified skb).id = skb.id := rfl
    simp [Ahead, toNat_priority_classified, hprio, hsame, hid]
  have hbound := h.countAhead_add_departures_le hstamp hp hend
  rw [hcount] at hbound
  exact (Nat.le_add_left _ _).trans hbound

/-- A packet of band 5 waits behind one of its band; one more urgent packet arrives,
and two leave. -/
theorem departures_le_countAhead_two :
    (departures (qdisc.exec setup [.enqueue (allocIpSkb 0 5), .enqueue (allocIpSkb 1 5)])
        [.enqueue (allocIpSkb 2 3), .enqueue (allocIpSkb 3 5), .dequeue, .dequeue]).length ≤
      1 + 1 :=
  departures_le_countAhead setup_started [.enqueue (allocIpSkb 0 5), .enqueue (allocIpSkb 1 5)]
    [.enqueue (allocIpSkb 2 3), .enqueue (allocIpSkb 3 5), .dequeue, .dequeue] (by decide) 5
    (classified (allocIpSkb 1 5)) (by decide) (by decide)

end PFabric
