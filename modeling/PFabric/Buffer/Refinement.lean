import PFabric.Buffer.Model

/-!
# The qdisc refines the packet buffer

Every call on the qdisc returns what the buffer behind it prescribes, moves to
the context whose buffer is the prescribed one and frees the prescribed
packets.  Each function of `sch_pfab.c` gets one lemma that says what it does
to the buffer; callers use that lemma and never unfold the callee.
-/

namespace PFabric

/-! ## Classification -/

theorem skbBand_nonneg (skb : SkBuff) : 0 ≤ skbBand skb := by
  unfold skbBand
  split <;> omega

theorem skbBand_eq (skb : SkBuff) : skbBand skb = bandOf skb :=
  (Int.toNat_of_nonneg (skbBand_nonneg skb)).symm

/-- Bands come from one byte. -/
theorem bandOf_lt (skb : SkBuff) : bandOf skb < 256 := by
  have htos := skb.tos.isLt
  unfold bandOf skbBand getSkbPriority
  split_ifs <;> omega

theorem toNat_priority_classified (skb : SkBuff) :
    (classified skb).priority.toNat = bandOf skb := by
  have hlt := bandOf_lt skb
  rw [classified, skbBand_eq, BitVec.ofInt_natCast, BitVec.toNat_ofNat]
  exact Nat.mod_eq_of_lt (by omega)

theorem toInt_priority_classified (skb : SkBuff) :
    (classified skb).priority.toInt = bandOf skb := by
  have hlt := bandOf_lt skb
  have hnat := toNat_priority_classified skb
  rw [BitVec.toInt_eq_toNat_of_lt (by omega), hnat]

@[simp] theorem band2list_natCast (b : Band) : band2list (b : ℕ) = b := by
  rw [band2list, Int.toNat_natCast]
  exact Fin.ext (Nat.mod_eq_of_lt b.isLt)

/-! ## The scans, seen from the buffer -/

/-- The full-buffer test of `pfab_enqueue` is the buffer's. -/
theorem rejects_view_iff (c : Ctx) {skb : SkBuff} (h : Legal skb) :
    (view c).Rejects h.band ↔
      c.sch.priv.limit ≤ c.sch.qlen ∧ 0 ≤ bitmapLowPrio c.sch.priv.bitmap ∧
        bitmapLowPrio c.sch.priv.bitmap ≤ (classified skb).priority.toNat := by
  rw [Buffer.Rejects, bitmapLowPrio_eq, toNat_priority_classified]
  apply and_congr_right
  intro _
  by_cases hne : (markedBands c.sch.priv.bitmap).Nonempty
  · have hle : (∀ l ∈ markedBands c.sch.priv.bitmap, l ≤ h.band) ↔
        (markedBands c.sch.priv.bitmap).max' hne ≤ h.band :=
      (Finset.max'_le_iff _ hne).symm
    simp only [marked_view, hne, dite_true, true_and, hle, Int.natCast_nonneg]
    exact Int.ofNat_le.symm
  · simp [hne]

/-! ## What each function does to the buffer -/

theorem view_countNonIp (skb : SkBuff) (c : Ctx) :
    view (countNonIp skb c) = view c ∧
      (countNonIp skb c).kern.freed = c.kern.freed := by
  obtain ⟨counter, heq⟩ := exists_countNonIp_eq skb c
  rw [heq]
  exact ⟨rfl, rfl⟩

theorem view_storeSkb {skb : SkBuff} (h : Legal skb) (c : Ctx) :
    view (storeSkb (classified skb) c) = (view c).store h.band (classified skb) ∧
      (storeSkb (classified skb) c).kern.freed = c.kern.freed := by
  refine ⟨?_, rfl⟩
  have hband : (classified skb).priority.toInt = (h.band : ℕ) :=
    toInt_priority_classified skb
  have hmarked := markedBands_bitmapAddBand c.sch.priv.bitmap
    c.kern.pfabStats.bitmap h.band
  ext1
  · rfl
  · rfl
  · rfl
  · simp only [storeSkb, hband]
    exact hmarked
  · simp only [storeSkb, hband, band2list_natCast]
    rfl

/-- `__qdisc_queue_drop_head` pops the list, frees the head and returns a
length, which is never negative as an `int`. -/
theorem view_qdiscQueueDropHead (l : Band) (c : Ctx) :
    0 ≤ (qdiscQueueDropHead l c).1.toInt ∧
      view (qdiscQueueDropHead l c).2 =
        { view c with queues := Lanes.pop c.sch.priv.queues l } ∧
      (qdiscQueueDropHead l c).2.kern.freed =
        c.kern.freed ++ (c.sch.priv.queues l).head?.toList := by
  unfold qdiscQueueDropHead
  split
  · next hl =>
      refine ⟨le_refl 0, ?_, by simp [hl]⟩
      rw [Lanes.pop_of_eq_nil hl]
      rfl
  · next skb rest hl =>
      refine ⟨?_, ?_, by simp [hl, kfreeSkb, setQueue]⟩
      · have hlen : 2 * skb.pktLen.toNat < 2 ^ 32 := by
          have := skb.pktLen_lt
          omega
        change 0 ≤ skb.pktLen.toInt
        rw [BitVec.toInt_eq_toNat_of_lt hlen]
        exact Int.natCast_nonneg _
      · simp only [view, Lanes.pop, hl, List.tail_cons]
        rfl

/-- `pfab_drop` on a bitmap with a mark: the head of the least urgent marked
band is freed, if there is one, and the length returned is no failure value. -/
theorem view_pfabDrop (c : Ctx) (h : (view c).marked.Nonempty) :
    0 ≤ (pfabDrop c).1.toInt ∧
      view (pfabDrop c).2 = (view c).evict ((view c).marked.max' h) ∧
      (pfabDrop c).2.kern.freed =
        c.kern.freed ++ ((view c).queues ((view c).marked.max' h)).head?.toList := by
  have hband : bitmapLowPrio c.sch.priv.bitmap = ((view c).marked.max' h : ℕ) := by
    rw [bitmapLowPrio_eq]
    exact dif_pos h
  generalize (view c).marked.max' h = l at hband ⊢
  have hneg : ¬ ((l : ℕ) : ℤ) < 0 := by omega
  obtain ⟨hlen, hview, hfreed⟩ := view_qdiscQueueDropHead l c
  simp only [pfabDrop, hband, hneg, if_false, band2list_natCast]
  refine ⟨hlen, ?_, hfreed⟩
  rw [Buffer.ext_iff] at hview ⊢
  obtain ⟨hlimit, hdisable, hqlen, hmarked, hqueues⟩ := hview
  refine ⟨hlimit, hdisable, ?_, hmarked, hqueues⟩
  exact congrArg (· - 1) hqlen

/-- A call made in `c` that ended with `r` realizes the buffer step `e`. -/
structure Realizes (c : Ctx) (r : Ret × Ctx) (e : Effect × Buffer) : Prop where
  ret_eq : r.1 = e.1.ret
  view_eq : view r.2 = e.2
  freed_eq : r.2.kern.freed = c.kern.freed ++ e.1.freed

/-- A context with the same buffer and the same log is as good a start. -/
theorem Realizes.of_view_eq {c : Ctx} (c' : Ctx) {r : Ret × Ctx}
    (step : Buffer → Effect × Buffer)
    (h : Realizes c' r (step (view c'))) (hview : view c' = view c)
    (hfreed : c'.kern.freed = c.kern.freed) :
    Realizes c r (step (view c)) := by
  rw [← hview]
  exact ⟨h.ret_eq, h.view_eq, by rw [h.freed_eq, hfreed]⟩

theorem realizes_acceptSkb {skb : SkBuff} (h : Legal skb) (c : Ctx) :
    Realizes c (.xmit (acceptSkb (classified skb) c).1, (acceptSkb (classified skb) c).2)
      ((view c).accept h.band (classified skb)) := by
  obtain ⟨hstore, hfreed⟩ := view_storeSkb h c
  simp only [acceptSkb, Buffer.accept, ← hstore, limit_view, qlen_view]
  generalize storeSkb (classified skb) c = c₁ at hstore hfreed ⊢
  by_cases hover : c₁.sch.priv.limit < c₁.sch.qlen
  · have hmarked : (view c₁).marked = insert h.band (view c).marked := by
      rw [hstore]
      rfl
    have hne : (view c₁).marked.Nonempty := by
      rw [hmarked]
      exact Finset.insert_nonempty _ _
    have hvictim : (view c).victim h.band = (view c₁).marked.max' hne := by
      simp only [Buffer.victim, hmarked]
    obtain ⟨hlen, hdview, hdfreed⟩ := view_pfabDrop c₁ hne
    rw [if_pos hover, if_pos hover, if_neg (not_lt.mpr hlen), hvictim]
    exact ⟨rfl, hdview, hfreed ▸ hdfreed⟩
  · rw [if_neg hover, if_neg hover]
    exact ⟨rfl, rfl, by simp [hfreed]⟩

theorem realizes_pfabEnqueue (skb : SkBuff) (c : Ctx) :
    Realizes c (.xmit (pfabEnqueue skb c).1, (pfabEnqueue skb c).2)
      ((view c).enqueue skb) := by
  obtain ⟨hview, hfreed⟩ := view_countNonIp skb c
  refine Realizes.of_view_eq (countNonIp skb c) (fun B => B.enqueue skb) ?_ hview hfreed
  unfold pfabEnqueue
  dsimp only
  generalize countNonIp skb c = c
  by_cases hlegal : Legal skb
  · rw [if_neg (by rw [toNat_priority_classified]; exact Nat.not_le_of_lt hlegal)]
    generalize band2list (classified skb).priority.toInt = b
    refine Realizes.of_view_eq (countBand b c) (fun B => B.enqueue skb) ?_ rfl rfl
    have hrej := rejects_view_iff (countBand b c) hlegal
    generalize countBand b c = c at hrej ⊢
    rw [Buffer.enqueue, dif_pos hlegal]
    by_cases hr : (view c).Rejects hlegal.band
    · rw [if_pos hr, if_pos (hrej.mp hr)]
      exact ⟨rfl, rfl, rfl⟩
    · rw [if_neg hr, if_neg (fun h => hr (hrej.mpr h))]
      exact realizes_acceptSkb hlegal c
  · rw [if_pos (by rw [toNat_priority_classified]; exact Nat.le_of_not_lt hlegal),
      Buffer.enqueue, dif_neg hlegal]
    exact ⟨rfl, rfl, rfl⟩

/-! ## Departures, configuration and reset -/

theorem view_qdiscDequeueHead (l : Band) (c : Ctx) :
    (qdiscDequeueHead l c).1 = (c.sch.priv.queues l).head? ∧
      view (qdiscDequeueHead l c).2 =
        { view c with queues := Lanes.pop c.sch.priv.queues l } ∧
      (qdiscDequeueHead l c).2.kern.freed = c.kern.freed := by
  unfold qdiscDequeueHead
  split
  · next hl =>
      refine ⟨by simp [hl], ?_, rfl⟩
      rw [Lanes.pop_of_eq_nil hl]
      rfl
  · next skb rest hl =>
      refine ⟨by simp [hl], ?_, rfl⟩
      simp only [view, Lanes.pop, hl, List.tail_cons]
      rfl

/-- The most urgent marked band, as `pfab_dequeue` and `pfab_peek` compute it. -/
theorem bitmapHighPrio_view (c : Ctx) :
    (bitmapHighPrio c.sch.priv.bitmap < 0 ∧ ¬ (view c).marked.Nonempty) ∨
      ∃ h : (view c).marked.Nonempty,
        bitmapHighPrio c.sch.priv.bitmap = ((view c).marked.min' h : ℕ) := by
  rw [bitmapHighPrio_eq]
  by_cases h : (markedBands c.sch.priv.bitmap).Nonempty
  · exact Or.inr ⟨h, dif_pos h⟩
  · exact Or.inl ⟨by rw [dif_neg h]; decide, h⟩

theorem view_departSkb {c c₁ : Ctx} {m : Band}
    (hview : view c₁ = { view c with queues := Lanes.pop c.sch.priv.queues m }) :
    view (departSkb (m : ℕ) c₁) = (view c).take m ∧
      (departSkb (m : ℕ) c₁).kern.freed = c₁.kern.freed := by
  rw [Buffer.ext_iff] at hview
  obtain ⟨hlimit, hdisable, hqlen, hmarked, hqueues⟩ := hview
  dsimp only at hlimit hdisable hqlen hmarked hqueues
  have htail : c₁.sch.priv.queues m = ((view c).queues m).tail := by
    rw [← queues_view, hqueues, Lanes.pop_self, queues_view]
  have hqlen' : c₁.sch.qlen - 1 = (view c).qlen - 1 := congrArg (· - 1) hqlen
  simp only [departSkb, band2list_natCast, htail, Buffer.take]
  by_cases hempty : ((view c).queues m).tail = []
  · rw [if_pos hempty, if_pos hempty]
    refine ⟨Buffer.ext hlimit hdisable hqlen' ?_ hqueues, rfl⟩
    have hremove := markedBands_bitmapRemoveBand c₁.sch.priv.bitmap
      c₁.kern.pfabStats.bitmap m
    exact hremove.trans (congrArg (·.erase m) hmarked)
  · rw [if_neg hempty, if_neg hempty]
    exact ⟨Buffer.ext hlimit hdisable hqlen' hmarked hqueues, rfl⟩

theorem realizes_pfabDequeue (c : Ctx) :
    Realizes c (.skb (pfabDequeue c).1, (pfabDequeue c).2) (view c).dequeue := by
  rw [pfabDequeue, Buffer.dequeue]
  by_cases hdis : c.sch.priv.disableDequeue = 0
  · rw [if_neg (not_not.mpr hdis)]
    rcases bitmapHighPrio_view c with ⟨hneg, hempty⟩ | ⟨hne, hband⟩
    · rw [dif_neg (fun h => hempty h.2)]
      simp only [hneg, if_true]
      exact ⟨rfl, rfl, by simp⟩
    · rw [dif_pos ⟨hdis, hne⟩]
      generalize (view c).marked.min' hne = m at hband ⊢
      have hnonneg : ¬ ((m : ℕ) : ℤ) < 0 := by omega
      obtain ⟨hret, hview, hfreed⟩ := view_qdiscDequeueHead m c
      simp only [hband, hnonneg, if_false, band2list_natCast, queues_view, ← hret]
      generalize qdiscDequeueHead m c = r at hret hview hfreed ⊢
      obtain ⟨skb?, c₁⟩ := r
      cases skb? with
      | none =>
          have hnil : c.sch.priv.queues m = [] := List.head?_eq_none_iff.mp hret.symm
          rw [Lanes.pop_of_eq_nil hnil] at hview
          exact ⟨rfl, hview, by simpa using hfreed⟩
      | some skb =>
          obtain ⟨hdview, hdfreed⟩ := view_departSkb hview
          exact ⟨rfl, hdview, by simpa using hdfreed.trans hfreed⟩
  · rw [if_pos hdis, dif_neg (fun h => hdis h.1)]
    exact ⟨rfl, rfl, by simp⟩

theorem pfabPeek_eq (c : Ctx) : pfabPeek c = (view c).peek := by
  rw [pfabPeek, Buffer.peek]
  rcases bitmapHighPrio_view c with ⟨hneg, hempty⟩ | ⟨hne, hband⟩
  · rw [if_pos hneg, dif_neg hempty]
  · rw [dif_pos hne]
    generalize (view c).marked.min' hne = m at hband ⊢
    have hnonneg : ¬ ((m : ℕ) : ℤ) < 0 := by omega
    simp only [hband, hnonneg, if_false, band2list_natCast, queues_view]

theorem realizes_pfabChange (opt : Option Nlattr) (c : Ctx) :
    Realizes c (.code (pfabChange opt c).1, (pfabChange opt c).2)
      ((view c).change opt) := by
  cases opt with
  | none => exact ⟨rfl, rfl, by simp [pfabChange, Buffer.change]⟩
  | some opt =>
      simp only [pfabChange, Buffer.change]
      split
      · exact ⟨rfl, rfl, by simp⟩
      · exact ⟨rfl, rfl, by simp⟩

theorem realizes_pfabReset (c : Ctx) :
    Realizes c (.none, pfabReset c) (view c).reset := by
  rw [pfabReset, purgeAll_eq]
  exact ⟨rfl, rfl, rfl⟩

/-! ## The refinement -/

/-- Every call realizes the corresponding step of the buffer. -/
theorem realizes_callQdisc (c : Ctx) (op : Op) :
    Realizes c (callQdisc c op) (buffer.step (view c) op) := by
  cases op with
  | enqueue skb => exact realizes_pfabEnqueue skb c
  | dequeue => exact realizes_pfabDequeue c
  | peek => exact ⟨by simp [callQdisc, buffer, pfabPeek_eq], rfl, by simp [callQdisc, buffer]⟩
  | change opt => exact realizes_pfabChange opt c
  | reset => exact realizes_pfabReset c

/-- The qdisc refines the buffer. -/
theorem qdisc_refines_buffer : Machine.Refines qdisc buffer view Effect.ret where
  out_eq c op := (realizes_callQdisc c op).ret_eq
  next_eq c op := (realizes_callQdisc c op).view_eq

/-- The log grows by the packets the buffer step frees. -/
theorem freed_next (c : Ctx) (op : Op) :
    (qdisc.next c op).kern.freed =
      c.kern.freed ++ (buffer.out (view c) op).freed :=
  (realizes_callQdisc c op).freed_eq

/-! ## Where runs start -/

/-- A buffer with no packet and no mark. -/
def Buffer.Fresh (B : Buffer) : Prop :=
  B.qlen = 0 ∧ B.marked = ∅ ∧ B.queues = fun _ => []

theorem Buffer.Fresh.change {B : Buffer} (h : B.Fresh) (opt : Option Nlattr) :
    (B.change opt).2.Fresh := by
  cases opt with
  | none => exact h
  | some opt =>
      simp only [Buffer.change]
      split
      · exact h
      · exact h

theorem foldl_setQueue_nil (lists : List Band) (c : Ctx) :
    lists.foldl (fun c i => setQueue i [] c) c =
      { c with
        sch.priv.queues := fun b => if b ∈ lists then [] else c.sch.priv.queues b } := by
  induction lists generalizing c with
  | nil => simp
  | cons l lists ih =>
      have hqueues : (fun b => if b ∈ lists then [] else
            (setQueue l [] c).sch.priv.queues b) =
          fun b => if b ∈ l :: lists then [] else c.sch.priv.queues b := by
        funext b
        by_cases hbl : b = l
        · subst hbl
          simp [setQueue]
        · simp [hbl, setQueue]
      rw [List.foldl_cons, ih, hqueues]
      rfl

theorem markedBands_zero : markedBands (fun _ => 0) = ∅ := by
  ext b
  simp [mem_markedBands, bandBit]

/-- The context in which `pfab_init` has set up the private data and the
statistics and comes to the options. -/
def cleared (c : Ctx) : Ctx :=
  { c with
    sch.priv := ⟨defaultLimit, fun _ => 0, fun _ => [], 0⟩
    kern.pfabStats := initialStats }

theorem pfabInit_eq (opt : Option Nlattr) (dev : String) (created : String → Bool)
    (c : Ctx) :
    pfabInit opt dev created c =
      let r := if opt.isSome then pfabChange opt (cleared c) else (0, cleared c)
      if r.1 < 0 then r
      else
        ((pfabStatsInit dev created r.2.kern).1,
          { r.2 with kern := (pfabStatsInit dev created r.2.kern).2 }) := by
  rw [pfabInit, foldl_setQueue_nil]
  simp only [List.mem_finRange, if_true]
  rfl

/-- Rule for `pfab_init`: what holds of the cleared context, survives a
configuration request and does not depend on the proc entries holds at the end,
whatever is returned. -/
theorem pfabInit_rule {I : Ctx → Prop}
    (hchange : ∀ c opt, I c → I (pfabChange opt c).2)
    (hproc : ∀ c kern, kern.pfabStats = c.kern.pfabStats → kern.freed = c.kern.freed →
      I c → I { c with kern := kern })
    {c : Ctx} (hclear : I (cleared c)) (opt : Option Nlattr) (dev : String)
    (created : String → Bool) : I (pfabInit opt dev created c).2 := by
  have hopt : I (if opt.isSome then pfabChange opt (cleared c) else (0, cleared c)).2 := by
    split
    · exact hchange (cleared c) opt hclear
    · exact hclear
  rw [pfabInit_eq]
  generalize (if opt.isSome then pfabChange opt (cleared c) else (0, cleared c)) = r at hopt ⊢
  dsimp only
  split
  · exact hopt
  · obtain ⟨hstats, hfreed⟩ := pfabStatsInit_frame dev created r.2.kern
    exact hproc r.2 _ hstats hfreed hopt

/-- `pfab_init` leaves a fresh buffer and frees nothing. -/
theorem pfabInit_fresh {c : Ctx} (hqlen : c.sch.qlen = 0) (opt : Option Nlattr)
    (dev : String) (created : String → Bool) :
    (view (pfabInit opt dev created c).2).Fresh ∧
      (pfabInit opt dev created c).2.kern.freed = c.kern.freed := by
  refine pfabInit_rule (I := fun c' => (view c').Fresh ∧ c'.kern.freed = c.kern.freed)
    ?_ ?_ ⟨⟨hqlen, markedBands_zero, rfl⟩, rfl⟩ opt dev created
  · rintro c' opt ⟨hfresh, hfreed⟩
    have hchange := realizes_pfabChange opt c'
    rw [hchange.view_eq, hchange.freed_eq, Buffer.change_freed, List.append_nil]
    exact ⟨hfresh.change opt, hfreed⟩
  · rintro c' kern _ hlog ⟨hfresh, hfreed⟩
    exact ⟨hfresh, hlog.trans hfreed⟩

/-- A started qdisc has a fresh buffer and an empty log. -/
theorem Started.fresh {c : Ctx} (h : Started c) :
    (view c).Fresh ∧ c.kern.freed = [] := by
  obtain ⟨opt, dev, created, kern, hfreed, hinit⟩ := h
  have hfresh := pfabInit_fresh (c := ⟨Qdisc.alloc, kern⟩) rfl opt dev created
  rw [hinit] at hfresh
  exact ⟨hfresh.1, hfresh.2.trans hfreed⟩

/-- What `pfab_init` establishes on every newly allocated qdisc holds in every
started context. -/
theorem Started.rule {I : Ctx → Prop}
    (hchange : ∀ c opt, I c → I (pfabChange opt c).2)
    (hproc : ∀ c kern, kern.pfabStats = c.kern.pfabStats → kern.freed = c.kern.freed →
      I c → I { c with kern := kern })
    (hclear : ∀ kern, I (cleared ⟨Qdisc.alloc, kern⟩)) {c : Ctx} (h : Started c) : I c := by
  obtain ⟨opt, dev, created, kern, _, hinit⟩ := h
  have hI := pfabInit_rule hchange hproc (hclear kern) opt dev created
  rw [hinit] at hI
  exact hI

end PFabric
