import PFabric.Guarantees.Order

/-!
# Draining the qdisc

What a sequence of departures hands out, from any reachable state.  Departures
serve the bands in order until they come to a mark without a packet behind it;
there they stop, and the packets of that band's successors are out of reach.

A qdisc that has stopped at such a mark stays stopped under every sequence of
calls, resets included, until a packet of that band or of a more urgent one is
admitted.
-/

namespace PFabric

namespace Buffer

variable {B B' : Buffer} {op : Op} {e : Effect} {b m : Band}

/-! ## Marks without a packet -/

/-- The band is marked and its list is empty. -/
def Stale (B : Buffer) (b : Band) : Prop := b ∈ B.marked ∧ B.queues b = []

instance : DecidablePred B.Stale := fun b =>
  inferInstanceAs (Decidable (b ∈ B.marked ∧ B.queues b = []))

/-- A stale mark stands before the band or on it. -/
def Blocked (B : Buffer) (b : Band) : Prop := ∃ m ≤ b, B.Stale m

instance : DecidablePred B.Blocked := fun b =>
  inferInstanceAs (Decidable (∃ m ≤ b, B.Stale m))

/-- The lists without those out of reach. -/
def withinReach (B : Buffer) (b : Band) : List SkBuff := if B.Blocked b then [] else B.queues b

/-- The lists out of reach. -/
def stranded (B : Buffer) (b : Band) : List SkBuff := if B.Blocked b then B.queues b else []

theorem stale_take_iff (hne : B.queues m ≠ []) : (B.take m).Stale b ↔ B.Stale b := by
  change (b ∈ (if (B.queues m).tail = [] then B.marked.erase m else B.marked) ∧
    Lanes.pop B.queues m b = []) ↔ b ∈ B.marked ∧ B.queues b = []
  by_cases hbm : b = m
  · subst hbm
    refine iff_of_false ?_ fun h => hne h.2
    rintro ⟨hmark, hnil⟩
    rw [Lanes.pop_self] at hnil
    simp [hnil] at hmark
  · rw [Lanes.pop_of_ne B.queues m hbm]
    split
    · simp [hbm]
    · rfl

theorem blocked_take_iff (hne : B.queues m ≠ []) : (B.take m).Blocked b ↔ B.Blocked b := by
  simp only [Blocked, stale_take_iff hne]

theorem withinReach_take (hne : B.queues m ≠ []) (hm : ¬ B.Blocked m) :
    (B.take m).withinReach = Lanes.pop B.withinReach m := by
  funext b
  have hqueue : (B.take m).queues b = Lanes.pop B.queues m b := rfl
  rw [withinReach, hqueue]
  by_cases hbm : b = m
  · subst hbm
    simp [withinReach, blocked_take_iff hne, hm]
  · simp [withinReach, blocked_take_iff hne, Lanes.pop_of_ne _ _ hbm]

theorem stranded_take (hne : B.queues m ≠ []) (hm : ¬ B.Blocked m) :
    (B.take m).stranded = B.stranded := by
  funext b
  have hqueue : (B.take m).queues b = Lanes.pop B.queues m b := rfl
  rw [stranded, stranded, hqueue]
  by_cases hbm : b = m
  · subst hbm
    simp [blocked_take_iff hne, hm]
  · simp [blocked_take_iff hne, Lanes.pop_of_ne _ _ hbm]

/-- Nothing is within reach when a peek shows nothing. -/
theorem Covered.withinReach_eq_nil (h : B.Covered) (hpeek : B.peek = none) (b : Band) :
    B.withinReach b = [] := by
  rw [withinReach]
  split
  · rfl
  · next hfree =>
      by_contra hne
      have hmarked : B.marked.Nonempty := ⟨b, h b hne⟩
      have hmin := B.marked.min'_mem hmarked
      refine hfree ⟨_, B.marked.min'_le b (h b hne), hmin, ?_⟩
      exact peek_eq_none_iff.mp hpeek _ hmin fun b hb => B.marked.min'_le b hb

/-- One departure takes the first packet within reach, if there is one, and
leaves those out of reach. -/
theorem Step.departure (hstep : Step B .dequeue e B') (h : B.Covered)
    (hon : B.disableDequeue = 0) :
    handed .dequeue e.ret = (Lanes.flat B.withinReach).take 1 ∧
      Lanes.flat B'.withinReach = (Lanes.flat B.withinReach).drop 1 ∧
      B'.stranded = B.stranded ∧ B'.disableDequeue = 0 := by
  cases hstep with
  | refuse hrefuse =>
      have hpeek := hrefuse.resolve_left (not_not.mpr hon)
      have hnil : Lanes.flat B.withinReach = [] :=
        Lanes.flat_eq_nil_iff.mpr (h.withinReach_eq_nil hpeek)
      rw [hnil]
      exact ⟨rfl, rfl, rfl, hon⟩
  | @take m skb _ hm hleast hhead =>
      have hcons : B.queues m = skb :: (B.queues m).tail := (List.cons_head?_tail hhead).symm
      have hne : B.queues m ≠ [] := by
        rw [hcons]
        exact List.cons_ne_nil _ _
      have hfree : ¬ B.Blocked m := by
        rintro ⟨m', hle, hmark, hnil⟩
        exact hne (le_antisymm hle (hleast m' hmark) ▸ hnil)
      have hbefore : ∀ b < m, B.withinReach b = [] := by
        intro b hb
        rw [withinReach]
        split
        · rfl
        · by_contra hne
          exact absurd (hleast b (h b hne)) (not_le.mpr hb)
      have hreach : B.withinReach m = skb :: (B.queues m).tail := by
        rw [withinReach, if_neg hfree]
        exact hcons
      have hflat := Lanes.flat_eq_cons hbefore hreach
      rw [withinReach_take hne hfree, hflat]
      exact ⟨rfl, rfl, stranded_take hne hfree, hon⟩

end Buffer

/-! ## Draining -/

/-- `n` departures, from a context in which every packet's band is marked. -/
theorem drain_of_covered {c : Ctx} (h : (view c).Covered) (hon : c.sch.priv.disableDequeue = 0)
    (n : ℕ) :
    departures c (List.replicate n .dequeue) = (Lanes.flat (view c).withinReach).take n ∧
      Lanes.flat (view (qdisc.exec c (List.replicate n .dequeue))).withinReach =
        (Lanes.flat (view c).withinReach).drop n ∧
      (view (qdisc.exec c (List.replicate n .dequeue))).stranded = (view c).stranded := by
  induction n generalizing c with
  | zero => exact ⟨rfl, rfl, rfl⟩
  | succ n ih =>
      obtain ⟨_, hstep, _⟩ := step_qdisc c .dequeue
      obtain ⟨hhanded, hreach, hstranded, hon'⟩ := hstep.departure h hon
      obtain ⟨hdep, hleft, hrest⟩ := ih (hstep.covered h) hon'
      rw [List.replicate_succ, departures_cons, Machine.exec_cons, hdep, hleft, hrest]
      rw [hhanded, hreach, hstranded, Nat.add_comm n 1, List.take_add, List.drop_drop]
      exact ⟨rfl, rfl, rfl⟩

/-- From every reachable state in which departures are switched on, `n` calls of
`pfab_dequeue` hand out the first `n` packets of the bands before the first stale
mark, in the order of bands and, within a band, of the list.  The others of these
packets stay in this order, and the lists from the stale mark on are untouched. -/
theorem drain {c : Ctx} (h : Started c) (ops : List Op)
    (hon : (qdisc.exec c ops).sch.priv.disableDequeue = 0) (n : ℕ) :
    departures (qdisc.exec c ops) (List.replicate n .dequeue) =
        (Lanes.flat (view (qdisc.exec c ops)).withinReach).take n ∧
      Lanes.flat (view (qdisc.exec c (ops ++ List.replicate n .dequeue))).withinReach =
        (Lanes.flat (view (qdisc.exec c ops)).withinReach).drop n ∧
      (view (qdisc.exec c (ops ++ List.replicate n .dequeue))).stranded =
        (view (qdisc.exec c ops)).stranded := by
  rw [Machine.exec_append]
  exact drain_of_covered (h.covered ops) hon n

/-- Band 5 has been marked stale by an eviction: of two packets held, the one in
front of it leaves and the one behind it stays, however often one asks. -/
theorem drain_before_stale_mark :
    departures (qdisc.exec setup
        [configure 1 0, .enqueue (allocIpSkb 0 5), .enqueue (allocIpSkb 1 3), configure 2 0,
          .enqueue (allocIpSkb 2 7)]) (List.replicate 4 .dequeue) =
      [classified (allocIpSkb 1 3)] := by
  rw [(drain setup_started _ (by decide) 4).1]
  decide

/-! ## Stuck at a stale mark -/

namespace Buffer

/-- The most urgent mark is that of band `m`, whose list is empty. -/
structure StuckAt (B : Buffer) (m : Band) : Prop where
  marked : m ∈ B.marked
  least : ∀ b ∈ B.marked, m ≤ b
  empty : B.queues m = []

theorem StuckAt.peek_eq_none {B : Buffer} {m : Band} (h : B.StuckAt m) : B.peek = none := by
  refine peek_eq_none_iff.mpr fun m' hm' hleast => ?_
  rw [le_antisymm (hleast m h.marked) (h.least m' hm')]
  exact h.empty

/-- A packet in a marked band that is at least as urgent as all others can be
seen. -/
theorem peek_ne_none {B : Buffer} {b : Band} (hmark : b ∈ B.marked)
    (hleast : ∀ b' ∈ B.marked, b ≤ b') (hne : B.queues b ≠ []) : B.peek ≠ none :=
  fun hpeek => hne (peek_eq_none_iff.mp hpeek b hmark hleast)

theorem StuckAt.store {B : Buffer} {m b : Band} (h : B.StuckAt m) (hlt : m < b)
    (skb : SkBuff) : (B.store b skb).StuckAt m where
  marked := Finset.mem_insert_of_mem h.marked
  least := by
    intro b' hb'
    rcases Finset.mem_insert.mp hb' with rfl | hb'
    · exact le_of_lt hlt
    · exact h.least b' hb'
  empty := by
    change Lanes.push B.queues b skb m = []
    rw [Lanes.push_of_ne B.queues b (ne_of_lt hlt)]
    exact h.empty

theorem StuckAt.store_evict {B : Buffer} {m b : Band} (h : B.StuckAt m) (hlt : m < b)
    (skb : SkBuff) : ((B.store b skb).evict (B.victim b)).StuckAt m where
  marked := (h.store hlt skb).marked
  least := (h.store hlt skb).least
  empty := by
    by_contra hne
    exact Lanes.ne_nil_of_pop_ne_nil hne (h.store hlt skb).empty

/-- Where an arrival no less urgent than the mark is stored, it is the most
urgent packet. -/
theorem StuckAt.least_store {B : Buffer} {m b : Band} (h : B.StuckAt m) (hle : b ≤ m)
    {b' : Band} (hb' : b' ∈ insert b B.marked) : b ≤ b' := by
  rcases Finset.mem_insert.mp hb' with rfl | hb'
  · exact le_refl b'
  · exact hle.trans (h.least b' hb')

theorem StuckAt.peek_store {B : Buffer} {m b : Band} (h : B.StuckAt m) (hle : b ≤ m)
    (skb : SkBuff) : (B.store b skb).peek ≠ none := by
  refine peek_ne_none (Finset.mem_insert_self b _) (fun b' hb' => h.least_store hle hb') ?_
  change Lanes.push B.queues b skb b ≠ []
  simp

/-- A full buffer evicts from a less urgent band than that of the arrival. -/
theorem StuckAt.peek_store_evict {B : Buffer} {m b : Band} (h : B.StuckAt m) (hle : b ≤ m)
    (hr : ¬ B.Rejects b) (hfull : B.limit ≤ B.qlen) (skb : SkBuff) :
    ((B.store b skb).evict (B.victim b)).peek ≠ none := by
  have hvictim : b < B.victim b := by
    rcases victim_cases hr hfull with ⟨hempty, -⟩ | ⟨-, hlt⟩
    · exact absurd (hempty ▸ h.marked) (Finset.notMem_empty m)
    · exact hlt
  refine peek_ne_none (Finset.mem_insert_self b _) (fun b' hb' => h.least_store hle hb') ?_
  change Lanes.pop (Lanes.push B.queues b skb) (B.victim b) b ≠ []
  rw [Lanes.pop_of_ne _ _ (ne_of_lt hvictim), Lanes.push_self]
  simp

/-- A step from a stuck buffer leaves it stuck, unless it admits a packet that is
no less urgent than the stale mark; then a packet can be seen. -/
theorem Step.stuckAt {c : Ctx} {op : Op} {e : Effect} {B' : Buffer} {m : Band}
    (hstep : Step (view c) op e B') (h : (view c).StuckAt m) :
    ((∀ skb, op = .enqueue skb → Admits c skb → (m : ℕ) < bandOf skb) ∧ B'.StuckAt m) ∨
      (∃ skb, op = .enqueue skb ∧ Admits c skb ∧ bandOf skb ≤ (m : ℕ)) ∧ B'.peek ≠ none := by
  cases hstep with
  | illegal hl =>
      left
      refine ⟨?_, h⟩
      rintro skb heq hadm
      cases heq
      exact absurd hadm.1 hl
  | reject hl hr =>
      left
      refine ⟨?_, h⟩
      rintro skb heq hadm
      cases heq
      exact absurd hr ((admits_iff hl).mp hadm)
  | @store skb hl hr =>
      by_cases hle : hl.band ≤ m
      · right
        exact ⟨⟨skb, rfl, (admits_iff hl).mpr hr, hle⟩, h.peek_store hle _⟩
      · left
        refine ⟨?_, h.store (not_le.mp hle) _⟩
        rintro skb heq -
        cases heq
        exact not_le.mp hle
  | @evict skb hl hr hover =>
      by_cases hle : hl.band ≤ m
      · right
        refine ⟨⟨skb, rfl, (admits_iff hl).mpr hr, hle⟩, ?_⟩
        exact h.peek_store_evict hle hr (limit_le_of_lt_succ hover) _
      · left
        refine ⟨?_, h.store_evict (not_le.mp hle) _⟩
        rintro skb heq -
        cases heq
        exact not_le.mp hle
  | refuse | peek | malformed => exact Or.inl ⟨by simp, h⟩
  | change => exact Or.inl ⟨by simp, ⟨h.marked, h.least, h.empty⟩⟩
  | take _ _ _ _ hpeek =>
      rw [h.peek_eq_none] at hpeek
      exact absurd hpeek (by simp)
  | reset => exact Or.inl ⟨by simp, ⟨h.marked, h.least, rfl⟩⟩

end Buffer

/-- A packet the call admits is less urgent than band `m`. -/
def AdmitsBehind (m : Band) (c : Ctx) : Op → Prop
  | .enqueue skb => Admits c skb → (m : ℕ) < bandOf skb
  | _ => True

instance (m : Band) (c : Ctx) : ∀ op, Decidable (AdmitsBehind m c op)
  | .enqueue _ => inferInstanceAs (Decidable (_ → _ < _))
  | .reset | .dequeue | .peek | .change _ => isTrue trivial

theorem stuckAt_view {c : Ctx} {m : Band} (hm : bitmapHighPrio c.sch.priv.bitmap = (m : ℕ))
    (hnil : c.sch.priv.queues m = []) : (view c).StuckAt m := by
  rcases bitmapHighPrio_view c with ⟨hneg, -⟩ | ⟨hne, hband⟩
  · rw [hm] at hneg
    exact absurd hneg (by omega)
  · have hmin : (view c).marked.min' hne = m := by
      rw [hm] at hband
      exact Fin.ext (Int.ofNat.inj hband).symm
    refine ⟨hmin ▸ (view c).marked.min'_mem hne, ?_, hnil⟩
    intro b hb
    exact hmin ▸ (view c).marked.min'_le b hb

/-- Once the most urgent mark is that of an empty band, no departure and no peek
shows a packet in exactly those runs in which every packet admitted is less urgent
than that band.  No reset and no configuration request helps. -/
theorem stuck_iff {c : Ctx} {m : Band} (hm : bitmapHighPrio c.sch.priv.bitmap = (m : ℕ))
    (hnil : c.sch.priv.queues m = []) (ops : List Op) :
    qdisc.Always (fun s => pfabPeek s = none ∧ (pfabDequeue s).1 = none) c ops ↔
      qdisc.Meets (AdmitsBehind m) c ops := by
  refine Machine.always_iff_meets_of_invariant (J := fun s => (view s).StuckAt m) ?_ ?_
    (stuckAt_view hm hnil) ops
  · intro s hs
    have hpeek : pfabPeek s = none := (pfabPeek_eq s).trans hs.peek_eq_none
    rw [pfabDequeue_eq, hpeek, ite_self]
    exact ⟨rfl, rfl⟩
  · intro s op hs
    obtain ⟨_, hstep, _⟩ := step_qdisc s op
    rcases hstep.stuckAt hs with ⟨hbehind, hstuck⟩ | ⟨⟨skb, rfl, hadm, hle⟩, hpeek⟩
    · refine Or.inl ⟨?_, hstuck⟩
      cases op with
      | enqueue skb => exact hbehind skb rfl
      | dequeue | peek | change | reset => trivial
    · refine Or.inr ⟨fun h => absurd (h hadm) (not_lt.mpr hle), fun h => hpeek ?_⟩
      rw [← pfabPeek_eq]
      exact h.1

/-- The context reached when the only packet of band 5 has been evicted and the
packet that did it has left. -/
def stuckAtFive : Ctx :=
  qdisc.exec setup
    [configure 1 0, .enqueue (allocIpSkb 0 5), .enqueue (allocIpSkb 1 3), .dequeue]

/-- A packet of band 7 is stored and never seen, also after a reset. -/
theorem stuck_behind_five :
    qdisc.Always (fun s => pfabPeek s = none ∧ (pfabDequeue s).1 = none) stuckAtFive
      [.enqueue (allocIpSkb 2 7), .dequeue, .reset, .enqueue (allocIpSkb 3 7), .dequeue] :=
  (stuck_iff (m := 5) (by decide) (by decide) _).mpr (by decide)

end PFabric
