import PFabric.Guarantees.Counter
import PFabric.Guarantees.Occupancy
import PFabric.Guarantees.Order

/-!
# Urgent traffic does not notice the rest

Leave out of a run all arrivals that are less urgent than some band.  As long as the
bitmap and the counter are kept exact and the limit is not lowered below what is held, this
changes nothing for the packets up to that band: the same ones leave in the same order,
the same ones are lost and the same ones are queued.  A less urgent packet takes the place
of an urgent one neither on the link nor in the buffer.
-/

namespace PFabric

/-- The packet is at least as urgent as the band. -/
def urgent (b : Band) (skb : SkBuff) : Bool := decide (skb.priority.toNat ≤ (b : ℕ))

/-- The call is no arrival of a less urgent packet. -/
def concerns (b : Band) : Op → Bool
  | .enqueue skb => decide (bandOf skb ≤ (b : ℕ))
  | _ => true

namespace Buffer

variable {B B' : Buffer} {op : Op} {e : Effect} {b : Band}

/-! ## The urgent part of a buffer -/

/-- The packets up to a band, as a buffer of their own. -/
def upTo (B : Buffer) (b : Band) : Buffer where
  limit := B.limit
  disableDequeue := B.disableDequeue
  qlen := BitVec.ofNat 32 (Lanes.total (Lanes.keep (· ≤ b) B.queues))
  marked := B.marked.filter (· ≤ b)
  queues := Lanes.keep (· ≤ b) B.queues

theorem limit_upTo : (B.upTo b).limit = B.limit := by rw [upTo]

theorem queues_upTo : (B.upTo b).queues = Lanes.keep (· ≤ b) B.queues := by rw [upTo]

theorem mem_marked_upTo {x : Band} : x ∈ (B.upTo b).marked ↔ x ∈ B.marked ∧ x ≤ b := by
  rw [upTo, Finset.mem_filter]

theorem Exact.upTo_eq_self (h : B.Exact) (hcounted : B.Counted) (hle : ∀ l ∈ B.marked, l ≤ b) :
    B.upTo b = B := by
  have hkeep : Lanes.keep (· ≤ b) B.queues = B.queues := by
    refine Lanes.keep_eq_self fun x hx => ?_
    by_contra hne
    exact hx (hle x ((h x).mpr hne))
  have hqlen : BitVec.ofNat 32 (Lanes.total B.queues) = B.qlen := by
    rw [← hcounted, BitVec.ofNat_toNat, BitVec.setWidth_eq]
  have hmarked : B.marked.filter (· ≤ b) = B.marked := Finset.filter_true_of_mem hle
  rw [upTo, hkeep, hqlen, hmarked]

/-- A packet of an urgent band is stored in the urgent part, too. -/
theorem upTo_store {x : Band} (hx : x ≤ b) (skb : SkBuff) :
    (B.store x skb).upTo b = (B.upTo b).store x skb := by
  have hqueues : Lanes.keep (· ≤ b) (Lanes.push B.queues x skb) =
      Lanes.push (Lanes.keep (· ≤ b) B.queues) x skb :=
    Lanes.keep_push_of (p := (· ≤ b)) hx skb
  have hmarked : (insert x B.marked).filter (· ≤ b) = insert x (B.marked.filter (· ≤ b)) := by
    rw [Finset.filter_insert, if_pos hx]
  simp only [upTo, store, hqueues, hmarked, Lanes.total_push, BitVec.ofNat_add]
  rfl

theorem upTo_store_of_lt {x : Band} (hx : b < x) (skb : SkBuff) :
    (B.store x skb).upTo b = B.upTo b := by
  have hqueues : Lanes.keep (· ≤ b) (Lanes.push B.queues x skb) = Lanes.keep (· ≤ b) B.queues :=
    Lanes.keep_update_of_not (p := (· ≤ b)) (not_le.mpr hx) _
  have hmarked : (insert x B.marked).filter (· ≤ b) = B.marked.filter (· ≤ b) := by
    rw [Finset.filter_insert, if_neg (not_le.mpr hx)]
  simp only [upTo, store, hqueues, hmarked]

theorem upTo_evict_of_lt {x : Band} (hx : b < x) : (B.evict x).upTo b = B.upTo b := by
  have hqueues : Lanes.keep (· ≤ b) (Lanes.pop B.queues x) = Lanes.keep (· ≤ b) B.queues :=
    Lanes.keep_update_of_not (p := (· ≤ b)) (not_le.mpr hx) _
  simp only [upTo, evict, hqueues]

/-- A packet is stored without loss only where there is room for it, unless the counter wraps
around. -/
theorem total_lt_of_store {x : Band} {skb : SkBuff} (hroom : ¬ B.limit < B.qlen + 1)
    (hcounted : (B.store x skb).Counted) : Lanes.total B.queues < B.limit.toNat := by
  have hsucc : (B.qlen + 1).toNat = Lanes.total B.queues + 1 :=
    hcounted.trans (Lanes.total_push ..)
  have hroom' : (B.qlen + 1).toNat ≤ B.limit.toNat := BitVec.not_lt.mp hroom
  omega

/-- With room for one more, an arrival is stored. -/
theorem step_store_of_lt {skb : SkBuff} (hl : Legal skb)
    (hlt : Lanes.total (Lanes.keep (· ≤ b) B.queues) < B.limit.toNat) :
    Step (B.upTo b) (.enqueue skb) ⟨.xmit .success, []⟩
      ((B.upTo b).store hl.band (classified skb)) := by
  have hqlen : (B.upTo b).qlen.toNat = Lanes.total (Lanes.keep (· ≤ b) B.queues) := by
    rw [upTo, BitVec.toNat_ofNat, Nat.mod_eq_of_lt (hlt.trans B.limit.isLt)]
  have hroom : (B.upTo b).qlen < (B.upTo b).limit := by
    rw [BitVec.lt_def, hqlen, limit_upTo]
    exact hlt
  generalize B.upTo b = U at hroom ⊢
  refine Step.store hl (fun hr => ?_) fun hover => ?_
  · exact absurd hr.1 (by bv_omega)
  · bv_omega

theorem upTo_take {m : Band} (hm : m ≤ b) (hne : B.queues m ≠ []) :
    (B.take m).upTo b = (B.upTo b).take m := by
  have hlane : Lanes.keep (· ≤ b) B.queues m = B.queues m :=
    Lanes.keep_of (p := (· ≤ b)) hm
  have hqueues : Lanes.keep (· ≤ b) (Lanes.pop B.queues m) =
      Lanes.pop (Lanes.keep (· ≤ b) B.queues) m := Lanes.keep_pop_of (p := (· ≤ b)) hm
  have htotal := Lanes.total_pop (q := Lanes.keep (· ≤ b) B.queues) (b := m) (by rwa [hlane])
  have hqlen : BitVec.ofNat 32 (Lanes.total (Lanes.pop (Lanes.keep (· ≤ b) B.queues) m)) =
      BitVec.ofNat 32 (Lanes.total (Lanes.keep (· ≤ b) B.queues)) - 1 := by
    rw [← htotal]
    bv_omega
  have hmarked : (if (B.queues m).tail = [] then B.marked.erase m else B.marked).filter (· ≤ b) =
      if (B.queues m).tail = [] then (B.marked.filter (· ≤ b)).erase m
      else B.marked.filter (· ≤ b) := by
    split
    · exact Finset.filter_erase _ _ _
    · rfl
  simp only [upTo, take, hqueues, hlane, hqlen, hmarked]

theorem upTo_take_of_lt {m : Band} (hm : b < m) : (B.take m).upTo b = B.upTo b := by
  have hqueues : Lanes.keep (· ≤ b) (Lanes.pop B.queues m) = Lanes.keep (· ≤ b) B.queues :=
    Lanes.keep_update_of_not (p := (· ≤ b)) (not_le.mpr hm) _
  have hmarked : (if (B.queues m).tail = [] then B.marked.erase m else B.marked).filter (· ≤ b) =
      B.marked.filter (· ≤ b) := by
    split
    · ext x
      simp only [Finset.mem_filter, Finset.mem_erase]
      refine ⟨fun hx => ⟨hx.1.2, hx.2⟩, fun hx => ⟨⟨?_, hx.1⟩, hx.2⟩⟩
      rintro rfl
      exact absurd hx.2 (not_le.mpr hm)
    · rfl
  simp only [upTo, take, hqueues, hmarked]

/-! ## One call -/

theorem Banded.filter_head (h : B.Banded) (x : Band) :
    (B.queues x).head?.toList.filter (urgent b) =
      if x ≤ b then (B.queues x).head?.toList else [] := by
  have hprio : ∀ skb ∈ (B.queues x).head?.toList, urgent b skb = decide (x ≤ b) := by
    intro skb hskb
    have hmem := List.mem_of_mem_head? (Option.mem_toList.mp hskb)
    rw [urgent, h x skb hmem]
    rfl
  split
  · next hx =>
      refine List.filter_eq_self.mpr fun skb hskb => ?_
      rw [hprio skb hskb, decide_eq_true hx]
  · next hx =>
      refine List.filter_eq_nil_iff.mpr fun skb hskb => ?_
      rw [hprio skb hskb, decide_eq_false hx]
      exact Bool.false_ne_true

theorem filter_classified (skb : SkBuff) :
    [classified skb].filter (urgent b) =
      if bandOf skb ≤ (b : ℕ) then [classified skb] else [] := by
  rw [List.filter_cons, List.filter_nil, urgent, toNat_priority_classified]
  simp only [decide_eq_true_eq]

/-- An arrival that is less urgent leaves the urgent part alone. -/
theorem Step.upTo_of_not_concerns (hstep : Step B op e B') (hband : B.Banded)
    (hop : concerns b op = false) :
    B'.upTo b = B.upTo b ∧ handed op e.ret = [] ∧ e.freed.filter (urgent b) = [] := by
  cases hstep with
  | illegal | reject =>
      exact ⟨rfl, rfl, (filter_classified _).trans (if_neg (of_decide_eq_false hop))⟩
  | store hl =>
      have hlt : b < hl.band := not_le.mp (of_decide_eq_false hop)
      exact ⟨upTo_store_of_lt hlt _, rfl, rfl⟩
  | evict hl =>
      have hlt : b < hl.band := not_le.mp (of_decide_eq_false hop)
      have hvictim : b < B.victim hl.band :=
        lt_of_lt_of_le hlt (B.le_victim (Finset.mem_insert_self _ _))
      refine ⟨?_, rfl, ?_⟩
      · rw [upTo_evict_of_lt hvictim, upTo_store_of_lt hlt]
      · exact ((hband.store hl).filter_head _).trans (if_neg (not_le.mpr hvictim))
  | refuse | take | peek | malformed | change | reset => cases hop

/-- The bitmap and the counter are exact, and the limit is kept. -/
structure Sound (B : Buffer) : Prop where
  exact : B.Exact
  counted : B.Counted
  banded : B.Banded
  within : Lanes.total B.queues ≤ B.limit.toNat

/-- An urgent arrival fares in the urgent part as it does in the whole buffer, where at
most a less urgent packet makes room for it. -/
theorem Sound.step_upTo_enqueue (h : B.Sound) {skb : SkBuff} (hstep : Step B (.enqueue skb) e B')
    (hexact : B'.Exact) (hcounted : B'.Counted) (hskb : bandOf skb ≤ (b : ℕ)) :
    ∃ ret, Step (B.upTo b) (.enqueue skb) ⟨ret, e.freed.filter (urgent b)⟩ (B'.upTo b) := by
  have hkept : [classified skb].filter (urgent b) = [classified skb] :=
    (filter_classified skb).trans (if_pos hskb)
  cases hstep with
  | illegal hl =>
      rw [hkept]
      exact ⟨_, Step.illegal hl⟩
  | reject hl hr =>
      have hself : B.upTo b = B :=
        h.exact.upTo_eq_self h.counted fun l hmem => (hr.2.2 l hmem).trans hskb
      rw [hkept, hself]
      exact ⟨_, Step.reject hl hr⟩
  | store hl hr hroom =>
      have hlt := total_lt_of_store hroom hcounted
      rw [upTo_store (x := hl.band) hskb]
      exact ⟨_, step_store_of_lt hl (lt_of_le_of_lt Lanes.total_keep_le hlt)⟩
  | evict hl hr hover =>
      have hfreed := (h.banded.store hl).filter_head (b := b) (B.victim hl.band)
      by_cases hvictim : B.victim hl.band ≤ b
      · -- the buffer holds nothing that is less urgent
        have hle : ∀ l ∈ insert hl.band B.marked, l ≤ b := fun l hmem =>
          (B.le_victim hmem).trans hvictim
        rw [if_pos hvictim] at hfreed
        rw [hexact.upTo_eq_self hcounted hle,
          h.exact.upTo_eq_self h.counted fun l hmem => hle l (Finset.mem_insert_of_mem hmem)]
        exact ⟨_, hfreed.symm ▸ Step.evict hl hr hover⟩
      · have hne : B.victim hl.band ≠ hl.band := fun heq => hvictim (heq.le.trans hskb)
        have hmarked := Finset.mem_of_mem_insert_of_ne (B.victim_mem hl.band) hne
        have hlt : Lanes.total (Lanes.keep (· ≤ b) B.queues) < Lanes.total B.queues :=
          Lanes.total_keep_lt hvictim ((h.exact _).mp hmarked)
        rw [if_neg hvictim] at hfreed
        rw [upTo_evict_of_lt (not_le.mp hvictim), upTo_store (x := hl.band) hskb]
        exact ⟨_, hfreed.symm ▸ step_store_of_lt hl (lt_of_lt_of_le hlt h.within)⟩

/-- A departure hands out from the urgent part what it hands out from the whole buffer, if
that is urgent. -/
theorem Sound.step_upTo_dequeue (h : B.Sound) (hstep : Step B .dequeue e B') :
    ∃ e', Step (B.upTo b) .dequeue e' (B'.upTo b) ∧
      handed .dequeue e'.ret = (handed .dequeue e.ret).filter (urgent b) ∧
      e'.freed = e.freed.filter (urgent b) := by
  cases hstep with
  | refuse hrefuse =>
      refine ⟨_, Step.refuse ?_, rfl, rfl⟩
      refine hrefuse.imp (fun hoff => by rwa [upTo]) fun hnone => ?_
      refine peek_eq_none_iff.mpr fun m hm _ => ?_
      rw [queues_upTo, Lanes.keep_of (p := (· ≤ b)) (mem_marked_upTo.mp hm).2]
      exact h.exact.eq_nil_of_peek_eq_none hnone m
  | @take m skb hon hm hleast hhead =>
      have hne : B.queues m ≠ [] := List.ne_nil_of_mem (List.mem_of_mem_head? hhead)
      have hfilter := h.banded.filter_head (b := b) m
      rw [hhead] at hfilter
      by_cases hmb : m ≤ b
      · rw [if_pos hmb] at hfilter
        rw [upTo_take hmb hne]
        have hm' : m ∈ (B.upTo b).marked := mem_marked_upTo.mpr ⟨hm, hmb⟩
        have hleast' : ∀ x ∈ (B.upTo b).marked, m ≤ x := fun x hx =>
          hleast x (mem_marked_upTo.mp hx).1
        have hhead' : ((B.upTo b).queues m).head? = some skb := by
          rw [queues_upTo, Lanes.keep_of (p := (· ≤ b)) hmb, hhead]
        refine ⟨_, Step.take (by rwa [upTo]) hm' hleast' hhead'
          ((peek_of_least hm' hleast').trans hhead'), hfilter.symm, rfl⟩
      · rw [if_neg hmb] at hfilter
        rw [upTo_take_of_lt (not_le.mp hmb)]
        refine ⟨_, Step.refuse (Or.inr (peek_eq_none_iff.mpr fun x hx _ => ?_)), hfilter.symm, rfl⟩
        obtain ⟨hx, hxb⟩ := mem_marked_upTo.mp hx
        exact absurd ((hleast x hx).trans hxb) hmb

/-- A call on the whole buffer, seen from its urgent part. -/
theorem Sound.step_upTo (h : B.Sound) (hstep : Step B op e B') (hexact : B'.Exact)
    (hcounted : B'.Counted) (hop : concerns b op = true) :
    ∃ e', Step (B.upTo b) op e' (B'.upTo b) ∧
      handed op e'.ret = (handed op e.ret).filter (urgent b) ∧
      e'.freed = e.freed.filter (urgent b) := by
  cases op with
  | enqueue skb =>
      obtain ⟨_, hstep'⟩ :=
        h.step_upTo_enqueue hstep hexact hcounted (of_decide_eq_true hop)
      exact ⟨_, hstep', rfl, rfl⟩
  | dequeue => exact h.step_upTo_dequeue hstep
  | peek =>
      cases hstep
      exact ⟨_, Step.peek, rfl, rfl⟩
  | change opt =>
      cases hstep with
      | malformed hshort => exact ⟨_, Step.malformed hshort, rfl, rfl⟩
      | change hlong => exact ⟨_, Step.change hlong, rfl, rfl⟩
  | reset =>
      cases hstep
      have hnil : Lanes.keep (· ≤ b) (fun _ : Band => ([] : List SkBuff)) = fun _ => [] :=
        Lanes.keep_eq_self fun _ _ => rfl
      have hflat : Lanes.flat (B.upTo b).queues = (Lanes.flat B.queues).filter (urgent b) := by
        rw [queues_upTo]
        refine Lanes.flat_keep fun x skb hskb => ?_
        rw [urgent, h.banded x skb hskb, decide_eq_true_eq]
        rfl
      have hreset : ({ B with qlen := 0, queues := fun _ => [] } : Buffer).upTo b =
          { B.upTo b with qlen := 0, queues := fun _ => [] } := by
        simp only [upTo, hnil, Lanes.total_eq_zero_iff.mpr fun _ => rfl]
        rfl
      rw [hreset]
      exact ⟨_, Step.reset, rfl, hflat⟩

end Buffer

/-! ## Whole runs -/

/-- The calls that meet the three conditions keep the buffer sound. -/
theorem Buffer.Sound.next {c : Ctx} {op : Op} (h : (view c).Sound) (hkeeps : KeepsBandsExact c op)
    (hevicts : EvictsPacket c op) (hcovers : LimitCovers c op) :
    (view (qdisc.next c op)).Sound := by
  obtain ⟨_, hstep, _⟩ := step_qdisc c op
  exact ⟨(hstep.exact_iff h.exact).mpr hkeeps, (hstep.counted_iff h.counted).mpr hevicts,
    hstep.banded h.banded, withinLimit_next h.counted h.within hevicts hcovers⟩

/-- The two runs side by side. -/
theorem run_upTo {b : Band} {ops : List Op} :
    ∀ {c c' : Ctx}, (view c).Sound → view c' = (view c).upTo b →
      qdisc.Meets KeepsBandsExact c ops → qdisc.Meets EvictsPacket c ops →
      qdisc.Meets LimitCovers c ops →
      view (qdisc.exec c' (ops.filter (concerns b))) = (view (qdisc.exec c ops)).upTo b ∧
      departures c' (ops.filter (concerns b)) = (departures c ops).filter (urgent b) ∧
      ∃ freed, (qdisc.exec c ops).kern.freed = c.kern.freed ++ freed ∧
        (qdisc.exec c' (ops.filter (concerns b))).kern.freed =
          c'.kern.freed ++ freed.filter (urgent b) := by
  induction ops with
  | nil =>
      intro c c' _ hview _ _ _
      exact ⟨hview, rfl, [], (List.append_nil _).symm, (List.append_nil _).symm⟩
  | cons op ops ih =>
      intro c c' h hview hkeeps hevicts hcovers
      obtain ⟨freed, hstep, hfreed⟩ := step_qdisc c op
      have hsound := h.next hkeeps.1 hevicts.1 hcovers.1
      rw [departures_cons, List.filter_append]
      by_cases hop : concerns b op = true
      · obtain ⟨e', hstep', hhanded, hlost⟩ := h.step_upTo hstep hsound.exact hsound.counted hop
        obtain ⟨freed', hown, hfreed'⟩ := step_qdisc c' op
        rw [hview] at hown
        obtain ⟨rfl, hnext⟩ := hstep'.unique hown
        obtain ⟨hview', hout, rest, hrest, hrest'⟩ :=
          ih hsound hnext.symm hkeeps.2 hevicts.2 hcovers.2
        rw [List.filter_cons_of_pos hop, departures_cons, hout, hhanded]
        refine ⟨hview', rfl, freed ++ rest, ?_, ?_⟩
        · rw [← List.append_assoc, ← hfreed]
          exact hrest
        · rw [List.filter_append, ← hlost, ← List.append_assoc, ← hfreed']
          exact hrest'
      · rw [Bool.not_eq_true] at hop
        obtain ⟨hsame, hhanded, hlost⟩ := hstep.upTo_of_not_concerns h.banded hop
        obtain ⟨hview', hout, rest, hrest, hrest'⟩ :=
          ih hsound (hview.trans hsame.symm) hkeeps.2 hevicts.2 hcovers.2
        rw [List.filter_cons_of_neg (Bool.eq_false_iff.mp hop), hhanded]
        refine ⟨hview', hout, freed ++ rest, ?_, ?_⟩
        · rw [← List.append_assoc, ← hfreed]
          exact hrest
        · rw [List.filter_append, hlost]
          exact hrest'

theorem Buffer.Fresh.sound {B : Buffer} (h : B.Fresh) : B.Sound := by
  have hqueues := h.2.2
  have htotal : Lanes.total B.queues = 0 :=
    Lanes.total_eq_zero_iff.mpr fun b => congrFun hqueues b
  refine ⟨h.exact, h.counted, fun b skb hskb => ?_, htotal.trans_le (Nat.zero_le _)⟩
  rw [hqueues] at hskb
  exact absurd hskb List.not_mem_nil

/-- From `pfab_init`, leave out the arrivals beyond some band.  The packets up to this band
leave in the same order, are lost in the same order and end up in the same lists, if the
bitmap and the counter stay exact and no limit is set below the number of packets held. -/
theorem urgent_undisturbed {c : Ctx} (h : Started c) (b : Band) (ops : List Op)
    (hkeeps : qdisc.Meets KeepsBandsExact c ops) (hevicts : qdisc.Meets EvictsPacket c ops)
    (hcovers : qdisc.Meets LimitCovers c ops) :
    departures c (ops.filter (concerns b)) = (departures c ops).filter (urgent b) ∧
      (qdisc.exec c (ops.filter (concerns b))).kern.freed =
        (qdisc.exec c ops).kern.freed.filter (urgent b) ∧
      ∀ x ≤ b, (view (qdisc.exec c (ops.filter (concerns b)))).queues x =
        (view (qdisc.exec c ops)).queues x := by
  obtain ⟨hfresh, hnone⟩ := h.fresh
  have hself : (view c).upTo b = view c := by
    refine hfresh.exact.upTo_eq_self hfresh.counted fun l hl => ?_
    rw [hfresh.2.1] at hl
    exact absurd hl (Finset.notMem_empty l)
  obtain ⟨hview, hout, freed, hfreed, hfreed'⟩ :=
    run_upTo hfresh.sound hself.symm hkeeps hevicts hcovers
  refine ⟨hout, ?_, fun x hx => ?_⟩
  · rw [hfreed', hfreed, hnone, List.nil_append, List.nil_append]
  · rw [hview, Buffer.queues_upTo]
    exact Lanes.keep_of (p := (· ≤ b)) hx

/-- Two packets of band 7 fill two of three places; the second urgent arrival drives one of
them out. -/
theorem urgent_undisturbed_four :
    departures setup [configure 3 0, .enqueue (allocIpSkb 2 4), .enqueue (allocIpSkb 3 2),
        .dequeue, .dequeue] =
      (departures setup [configure 3 0, .enqueue (allocIpSkb 0 7), .enqueue (allocIpSkb 1 7),
        .enqueue (allocIpSkb 2 4), .enqueue (allocIpSkb 3 2), .dequeue, .dequeue]).filter
          (urgent 4) :=
  (urgent_undisturbed setup_started 4 [configure 3 0, .enqueue (allocIpSkb 0 7),
    .enqueue (allocIpSkb 1 7), .enqueue (allocIpSkb 2 4), .enqueue (allocIpSkb 3 2),
    .dequeue, .dequeue] (by decide) (by decide) (by decide)).1

end PFabric
