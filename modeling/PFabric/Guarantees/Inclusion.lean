import PFabric.Guarantees.Precedence

/-!
# A larger buffer holds what a smaller one holds

Two qdiscs with different limits are sent the same calls and no new options.  As long as the
bitmap and the counter of both stay exact, every packet in the smaller buffer is in the
larger one, band by band and in the same order, and the larger one has at most as many
packets more as its limit is greater.  The second fact carries the first: when the larger
buffer is full and has to give up a packet, the smaller one is full, too.
-/

namespace PFabric

open scoped List

namespace Buffer

variable {B B' C C' : Buffer} {op : Op} {e e' : Effect} {skb : SkBuff}

/-! ## An arrival at one buffer -/

theorem Sound.total_eq_of_full (h : B.Sound) (hfull : B.limit ≤ B.qlen) :
    Lanes.total B.queues = B.limit.toNat := by
  have hqlen : B.qlen.toNat = Lanes.total B.queues := h.counted
  have hle := BitVec.le_def.mp hfull
  exact le_antisymm h.within (hqlen ▸ hle)

/-- What becomes of an arrival of legal priority. -/
inductive Fate (B : Buffer) (b : Band) (skb : SkBuff) : Buffer → Prop
  | rejected (hfull : Lanes.total B.queues = B.limit.toNat) (hle : ∀ l ∈ B.marked, l ≤ b) :
      Fate B b skb B
  | stored (hroom : Lanes.total B.queues < B.limit.toNat)
      (htotal : Lanes.total (B.store b skb).queues = Lanes.total B.queues + 1) :
      Fate B b skb (B.store b skb)
  | evicted {v : Band} (hfull : Lanes.total B.queues = B.limit.toNat) (hv : v ∈ B.marked)
      (hlt : b < v) (hmax : ∀ l ∈ B.marked, l ≤ v)
      (htotal : Lanes.total ((B.store b skb).evict v).queues = Lanes.total B.queues) :
      Fate B b skb ((B.store b skb).evict v)

theorem Sound.fate (h : B.Sound) (hstep : Step B (.enqueue skb) e B') (h' : B'.Sound)
    (hl : Legal skb) : Fate B hl.band (classified skb) B' := by
  cases hstep with
  | illegal hill => exact absurd hl hill
  | reject _ hr => exact .rejected (h.total_eq_of_full hr.1) hr.2.2
  | store _ _ hroom => exact .stored (total_lt_of_store hroom h'.counted) (Lanes.total_push ..)
  | evict _ hr hover =>
      have hfull := limit_le_of_lt_succ hover
      obtain ⟨hlt, -⟩ := (h.exact.evict_iff hr hfull).mp h'.exact
      have hmem := Finset.mem_of_mem_insert_of_ne (B.victim_mem hl.band) (ne_of_gt hlt)
      have hne : Lanes.push B.queues hl.band (classified skb) (B.victim hl.band) ≠ [] := by
        rw [Lanes.push_of_ne _ _ (ne_of_gt hlt)]
        exact (h.exact _).mp hmem
      exact .evicted (h.total_eq_of_full hfull) hmem hlt
        (fun l hl => B.le_victim (Finset.mem_insert_of_mem hl)) (total_evict hne)

/-! ## One call on two buffers -/

/-- `C` is the larger buffer and holds what `B` holds. -/
structure Included (B C : Buffer) : Prop where
  disableDequeue : C.disableDequeue = B.disableDequeue
  limit : B.limit ≤ C.limit
  lanes : ∀ b, B.queues b <+ C.queues b
  slack : Lanes.total C.queues + B.limit.toNat ≤ Lanes.total B.queues + C.limit.toNat

theorem Included.eq_nil (h : B.Included C) {b : Band} (hnil : C.queues b = []) :
    B.queues b = [] := by
  have hlane := h.lanes b
  rwa [hnil, List.sublist_nil] at hlane

theorem Included.mem_marked (h : B.Included C) (hB : B.Sound) (hC : C.Sound) {b : Band}
    (hb : b ∈ B.marked) : b ∈ C.marked :=
  (hC.exact b).mpr fun hnil => (hB.exact b).mp hb (h.eq_nil hnil)

theorem Sound.eq_nil_of_notMem (h : B.Sound) {b : Band} (hb : b ∉ B.marked) : B.queues b = [] := by
  by_contra hne
  exact hb ((h.exact b).mpr hne)

/-- An arrival of legal priority, as far as the lists go. -/
theorem Included.fate (h : B.Included C) (hB : B.Sound) (hC : C.Sound) {b : Band}
    (hfate : Fate B b skb B') (hfate' : Fate C b skb C') :
    (∀ x, B'.queues x <+ C'.queues x) ∧
      Lanes.total C'.queues + B.limit.toNat ≤ Lanes.total B'.queues + C.limit.toNat := by
  have hslack := h.slack
  have hpush : ∀ x, Lanes.push B.queues b skb x <+ Lanes.push C.queues b skb x :=
    Lanes.push_sublist_push h.lanes skb
  cases hfate with
  | rejected hfull hle =>
      have hgrow : ∀ x, B.queues x <+ Lanes.push C.queues b skb x := fun x =>
        (h.lanes x).trans (Lanes.sublist_push ..)
      cases hfate' with
      | rejected => exact ⟨h.lanes, hslack⟩
      | stored hroom htotal => exact ⟨hgrow, by omega⟩
      | @evicted v _ hv hlt _ htotal =>
          -- the smaller buffer holds nothing that is less urgent than the arrival
          have hnil : B.queues v = [] :=
            hB.eq_nil_of_notMem fun hmem => absurd (hle v hmem) (not_le.mpr hlt)
          refine ⟨fun x => ?_, by omega⟩
          have hpop := Lanes.pop_sublist_pop hgrow (b := v) (Or.inl rfl) x
          rwa [Lanes.pop_of_eq_nil hnil] at hpop
  | stored hroom htotal =>
      -- there is room in the larger buffer, too
      cases hfate' with
      | rejected hfull' => omega
      | stored _ htotal' => exact ⟨hpush, by omega⟩
      | evicted hfull' => omega
  | @evicted v hfull hv hlt hmax htotal =>
      have hv' := h.mem_marked hB hC hv
      cases hfate' with
      | rejected _ hle => exact absurd (hle v hv') (not_le.mpr hlt)
      | stored hroom htotal' =>
          exact ⟨fun x => (Lanes.pop_sublist _ v x).trans (hpush x), by omega⟩
      | @evicted w _ hw hltw hmaxw htotal' =>
          refine ⟨Lanes.pop_sublist_pop hpush ?_, by omega⟩
          rcases eq_or_lt_of_le (hmaxw v hv') with rfl | hvw
          · exact Or.inl rfl
          · right
            rw [Lanes.push_of_ne _ _ (ne_of_gt hltw)]
            exact hB.eq_nil_of_notMem fun hmem => absurd (hmax w hmem) (not_le.mpr hvw)

/-- A departure, as far as the lists go. -/
theorem Included.dequeue (h : B.Included C) (hB : B.Sound) (hC : C.Sound)
    (hstep : Step B .dequeue e B') (hstep' : Step C .dequeue e' C') :
    (∀ x, B'.queues x <+ C'.queues x) ∧
      Lanes.total C'.queues + B.limit.toNat ≤ Lanes.total B'.queues + C.limit.toNat := by
  have hslack := h.slack
  have hcount : ∀ {D : Buffer} {m : Band} {p : SkBuff}, (D.queues m).head? = some p →
      Lanes.total (D.take m).queues + 1 = Lanes.total D.queues := fun hhead =>
    Lanes.total_pop (List.ne_nil_of_mem (List.mem_of_mem_head? hhead))
  cases hstep with
  | refuse hrefuse =>
      cases hstep' with
      | refuse => exact ⟨h.lanes, hslack⟩
      | @take m p hon _ _ hhead =>
          rcases hrefuse with hoff | hnone
          · exact absurd (h.disableDequeue ▸ hon) hoff
          · have hnil := hB.exact.eq_nil_of_peek_eq_none hnone
            have hpop := hcount hhead
            refine ⟨fun x => ?_, by omega⟩
            rw [hnil x]
            exact List.nil_sublist _
  | @take m p hon hm hleast hhead =>
      have hpop := hcount hhead
      cases hstep' with
      | refuse hrefuse =>
          rcases hrefuse with hoff | hnone
          · exact absurd (h.disableDequeue.trans hon) hoff
          · have hnil := h.eq_nil (hC.exact.eq_nil_of_peek_eq_none hnone m)
            exact absurd hnil (List.ne_nil_of_mem (List.mem_of_mem_head? hhead))
      | @take m' p' _ hm' hleast' hhead' =>
          have hpop' := hcount hhead'
          refine ⟨Lanes.pop_sublist_pop h.lanes ?_, by omega⟩
          rcases eq_or_lt_of_le (hleast' m (h.mem_marked hB hC hm)) with heq | hlt
          · exact Or.inl heq
          · right
            exact hB.eq_nil_of_notMem fun hmem => absurd (hleast m' hmem) (not_le.mpr hlt)

end Buffer

/-- The call sets no options. -/
def KeepsOptions (op : Op) : Prop := op.sets = none

instance : DecidablePred KeepsOptions := fun op =>
  inferInstanceAs (Decidable (op.sets = none))

namespace Buffer

variable {B B' C C' : Buffer} {op : Op} {e e' : Effect}

theorem Step.keeps_options (hstep : Step B op e B') (hop : KeepsOptions op) :
    B'.limit = B.limit ∧ B'.disableDequeue = B.disableDequeue := by
  have hoptions := hstep.options_eq
  rw [hop, Option.getD_none] at hoptions
  exact TcPfabricQopt.mk.inj hoptions

/-- A call that sets no options. -/
theorem Included.step (h : B.Included C) (hB : B.Sound) (hC : C.Sound) (hop : KeepsOptions op)
    (hstep : Step B op e B') (hstep' : Step C op e' C') (hB' : B'.Sound) (hC' : C'.Sound) :
    B'.Included C' := by
  obtain ⟨hlimit, hswitch⟩ := hstep.keeps_options hop
  obtain ⟨hlimit', hswitch'⟩ := hstep'.keeps_options hop
  have hlists : (∀ x, B'.queues x <+ C'.queues x) ∧
      Lanes.total C'.queues + B.limit.toNat ≤ Lanes.total B'.queues + C.limit.toNat := by
    cases op with
    | enqueue skb =>
        by_cases hl : Legal skb
        · exact h.fate hB hC (hB.fate hstep hB' hl) (hC.fate hstep' hC' hl)
        · cases hstep with
          | reject hl' | store hl' | evict hl' => exact absurd hl' hl
          | illegal =>
              cases hstep' with
              | reject hl' | store hl' | evict hl' => exact absurd hl' hl
              | illegal => exact ⟨h.lanes, h.slack⟩
    | dequeue => exact h.dequeue hB hC hstep hstep'
    | peek =>
        cases hstep
        cases hstep'
        exact ⟨h.lanes, h.slack⟩
    | change opt =>
        cases hstep with
        | change | malformed =>
            cases hstep' with
            | change | malformed => exact ⟨h.lanes, h.slack⟩
    | reset =>
        cases hstep
        cases hstep'
        have hle := BitVec.le_def.mp h.limit
        exact ⟨fun _ => List.Sublist.refl [], Nat.add_le_add_left hle _⟩
  refine ⟨?_, ?_, hlists.1, ?_⟩
  · rw [hswitch, hswitch']
    exact h.disableDequeue
  · rw [hlimit, hlimit']
    exact h.limit
  · rw [hlimit, hlimit']
    exact hlists.2

end Buffer

/-! ## Whole runs -/

theorem limitCovers_of_keepsOptions {op : Op} (h : KeepsOptions op) (c : Ctx) :
    LimitCovers c op := by
  cases op with
  | enqueue | dequeue | peek | reset => trivial
  | change opt =>
      cases opt with
      | none => trivial
      | some attr =>
          intro hlong
          have hsets : (Op.change (some attr)).sets = some attr.qopt :=
            Nlattr.qopt?_of_le hlong
          exact absurd (hsets.symm.trans h) (by simp)

theorem limit_exec_of_keepsOptions (c : Ctx) {ops : List Op} (hops : ∀ op ∈ ops, KeepsOptions op) :
    (qdisc.exec c ops).sch.priv.limit = c.sch.priv.limit := by
  induction ops generalizing c with
  | nil => rfl
  | cons op ops ih =>
      obtain ⟨hop, hrest⟩ := List.forall_mem_cons.mp hops
      obtain ⟨_, hstep, _⟩ := step_qdisc c op
      exact (ih (qdisc.next c op) hrest).trans (hstep.keeps_options hop).1

theorem included_exec {c c' : Ctx} {ops : List Op} (h : (view c).Included (view c'))
    (hc : (view c).Sound) (hc' : (view c').Sound) (hops : ∀ op ∈ ops, KeepsOptions op)
    (hkeeps : qdisc.Meets KeepsBandsExact c ops) (hevicts : qdisc.Meets EvictsPacket c ops)
    (hkeeps' : qdisc.Meets KeepsBandsExact c' ops) (hevicts' : qdisc.Meets EvictsPacket c' ops) :
    (view (qdisc.exec c ops)).Included (view (qdisc.exec c' ops)) := by
  induction ops generalizing c c' with
  | nil => exact h
  | cons op ops ih =>
      obtain ⟨hop, hrest⟩ := List.forall_mem_cons.mp hops
      obtain ⟨_, hstep, _⟩ := step_qdisc c op
      obtain ⟨_, hstep', _⟩ := step_qdisc c' op
      have hnext := hc.next hkeeps.1 hevicts.1 (limitCovers_of_keepsOptions hop c)
      have hnext' := hc'.next hkeeps'.1 hevicts'.1 (limitCovers_of_keepsOptions hop c')
      exact ih (h.step hc hc' hop hstep hstep' hnext hnext') hnext hnext' hrest hkeeps.2 hevicts.2
        hkeeps'.2 hevicts'.2

/-- Two new qdiscs with the same dequeue switch are sent the same calls, none of which sets
options, and the bitmap and the counter of both stay exact.  Then the lists of the one with
the smaller limit are sublists of those of the other, which holds at most as many packets
more as its limit is greater. -/
theorem larger_buffer_includes_smaller {c c' : Ctx} (h : Started c) (h' : Started c')
    (hlimit : c.sch.priv.limit ≤ c'.sch.priv.limit)
    (hswitch : c'.sch.priv.disableDequeue = c.sch.priv.disableDequeue) (ops : List Op)
    (hops : ∀ op ∈ ops, KeepsOptions op)
    (hkeeps : qdisc.Meets KeepsBandsExact c ops) (hevicts : qdisc.Meets EvictsPacket c ops)
    (hkeeps' : qdisc.Meets KeepsBandsExact c' ops) (hevicts' : qdisc.Meets EvictsPacket c' ops) :
    (∀ b : Band, (qdisc.exec c ops).sch.priv.queues b <+ (qdisc.exec c' ops).sch.priv.queues b) ∧
      held (qdisc.exec c' ops) + c.sch.priv.limit.toNat ≤
        held (qdisc.exec c ops) + c'.sch.priv.limit.toNat := by
  have hnil : (view c).queues = (view c').queues :=
    h.fresh.1.2.2.trans h'.fresh.1.2.2.symm
  have hstart : (view c).Included (view c') := by
    refine ⟨hswitch, hlimit, fun b => ?_, ?_⟩
    · rw [hnil]
    · rw [hnil]
      exact Nat.add_le_add_left (BitVec.le_def.mp hlimit) _
  have hend := included_exec hstart h.fresh.1.sound h'.fresh.1.sound hops hkeeps hevicts
    hkeeps' hevicts'
  refine ⟨hend.lanes, ?_⟩
  have hslack := hend.slack
  rw [limit_view, limit_view, limit_exec_of_keepsOptions c hops,
    limit_exec_of_keepsOptions c' hops] at hslack
  exact hslack

/-- A new qdisc with the given limit. -/
def limitedTo (limit : BitVec 32) : Ctx :=
  (pfabInit (some (TcPfabricQopt.nlattr ⟨limit, 0⟩)) "lo" (fun _ => true)
    ⟨Qdisc.alloc, ⟨.zero, [], ∅⟩⟩).2

theorem limitedTo_started (limit : BitVec 32) : Started (limitedTo limit) :=
  ⟨some (TcPfabricQopt.nlattr ⟨limit, 0⟩), "lo", fun _ => true, ⟨.zero, [], ∅⟩, rfl, rfl⟩

/-- Two places against three: the larger buffer keeps a packet of band 5 more. -/
theorem larger_buffer_includes_smaller_third_place :
    (qdisc.exec (limitedTo 2) [.enqueue (allocIpSkb 0 5), .enqueue (allocIpSkb 1 5),
        .enqueue (allocIpSkb 2 4), .peek]).sch.priv.queues 5 <+
      (qdisc.exec (limitedTo 3) [.enqueue (allocIpSkb 0 5), .enqueue (allocIpSkb 1 5),
        .enqueue (allocIpSkb 2 4), .peek]).sch.priv.queues 5 :=
  (larger_buffer_includes_smaller (limitedTo_started 2) (limitedTo_started 3) (by decide) rfl
    [.enqueue (allocIpSkb 0 5), .enqueue (allocIpSkb 1 5), .enqueue (allocIpSkb 2 4), .peek]
    (by decide) (by decide) (by decide) (by decide) (by decide)).1 5

end PFabric
