import PFabric.Buffer.Refinement

/-!
# What a step of the buffer can do

`Step` lists every way in which a call can go, with the guard that leads there
and everything that changes.  Each invariant of the development is proved by
cases on it.

Two invariants hold in every reachable buffer, whatever the history: every
non-empty band is marked, and every packet lies in the list of its own band.
The converse of the first fails; that is the subject of the modules on
occupancy.
-/

namespace PFabric

/-! ## The counter, as an unsigned 32-bit number -/

/-- A counter that exceeds the limit after an increment had reached it before. -/
theorem limit_le_of_lt_succ {limit qlen : BitVec 32} (h : limit < qlen + 1) :
    limit ≤ qlen := by
  bv_omega

namespace Buffer

/-! ## Inversion -/

/-- The steps of the buffer. -/
inductive Step (B : Buffer) : Op → Effect → Buffer → Prop
  | illegal {skb : SkBuff} (h : ¬ Legal skb) :
      Step B (.enqueue skb) ⟨.xmit .drop, [classified skb]⟩ B
  | reject {skb : SkBuff} (h : Legal skb) (hr : B.Rejects h.band) :
      Step B (.enqueue skb) ⟨.xmit .drop, [classified skb]⟩ B
  | store {skb : SkBuff} (h : Legal skb) (hr : ¬ B.Rejects h.band)
      (hroom : ¬ B.limit < B.qlen + 1) :
      Step B (.enqueue skb) ⟨.xmit .success, []⟩ (B.store h.band (classified skb))
  | evict {skb : SkBuff} (h : Legal skb) (hr : ¬ B.Rejects h.band)
      (hover : B.limit < B.qlen + 1) :
      Step B (.enqueue skb)
        ⟨.xmit .cn,
          (Lanes.push B.queues h.band (classified skb) (B.victim h.band)).head?.toList⟩
        ((B.store h.band (classified skb)).evict (B.victim h.band))
  | refuse (h : B.disableDequeue ≠ 0 ∨ B.peek = none) :
      Step B .dequeue ⟨.skb none, []⟩ B
  | take {m : Band} {skb : SkBuff} (hon : B.disableDequeue = 0)
      (hm : m ∈ B.marked) (hleast : ∀ b ∈ B.marked, m ≤ b)
      (hhead : (B.queues m).head? = some skb) (hpeek : B.peek = some skb) :
      Step B .dequeue ⟨.skb (some skb), []⟩ (B.take m)
  | peek : Step B .peek ⟨.skb B.peek, []⟩ B
  | malformed {opt : Option Nlattr}
      (h : ∀ attr, opt = some attr → attr.payload.length < sizeofQopt) :
      Step B (.change opt) ⟨.code (-einval), []⟩ B
  | change {attr : Nlattr} (h : sizeofQopt ≤ attr.payload.length) :
      Step B (.change (some attr)) ⟨.code 0, []⟩
        { B with limit := attr.qopt.limit, disableDequeue := attr.qopt.disableDequeue }
  | reset :
      Step B .reset ⟨.none, Lanes.flat B.queues⟩
        { B with qlen := 0, queues := fun _ => [] }

theorem step_enqueue (B : Buffer) (skb : SkBuff) :
    Step B (.enqueue skb) (B.enqueue skb).1 (B.enqueue skb).2 := by
  rw [enqueue]
  by_cases h : Legal skb
  · rw [dif_pos h]
    by_cases hr : B.Rejects h.band
    · rw [if_pos hr]
      exact Step.reject h hr
    · rw [if_neg hr, accept]
      by_cases hover : (B.store h.band (classified skb)).limit <
          (B.store h.band (classified skb)).qlen
      · rw [if_pos hover]
        exact Step.evict h hr hover
      · rw [if_neg hover]
        exact Step.store h hr hover
  · rw [dif_neg h]
    exact Step.illegal h

theorem step_dequeue (B : Buffer) :
    Step B .dequeue B.dequeue.1 B.dequeue.2 := by
  rw [dequeue]
  by_cases h : B.disableDequeue = 0 ∧ B.marked.Nonempty
  · rw [dif_pos h]
    have hpeek : B.peek = (B.queues (B.marked.min' h.2)).head? := dif_pos h.2
    cases hhead : (B.queues (B.marked.min' h.2)).head? with
    | none => exact Step.refuse (Or.inr (hpeek.trans hhead))
    | some skb =>
        exact Step.take h.1 (B.marked.min'_mem h.2)
          (fun b hb => B.marked.min'_le b hb) hhead (hpeek.trans hhead)
  · rw [dif_neg h]
    refine Step.refuse ?_
    by_cases hon : B.disableDequeue = 0
    · exact Or.inr (dif_neg fun hne => h ⟨hon, hne⟩)
    · exact Or.inl hon

theorem step_change (B : Buffer) (opt : Option Nlattr) :
    Step B (.change opt) (B.change opt).1 (B.change opt).2 := by
  cases opt with
  | none => exact Step.malformed (by simp)
  | some attr =>
      simp only [change]
      split
      · next hshort => exact Step.malformed (by simpa using hshort)
      · next hlong => exact Step.change (Nat.le_of_not_lt hlong)

theorem next_configure (B : Buffer) (limit disable : BitVec 32) :
    buffer.next B (configure limit disable) =
      { B with limit := limit, disableDequeue := disable } := by
  have hlen : ¬ (TcPfabricQopt.nlattr ⟨limit, disable⟩).payload.length < sizeofQopt := by
    rw [TcPfabricQopt.length_nlattr]
    exact lt_irrefl _
  simp [Machine.next, buffer, configure, change, hlen]

/-- Every step of the machine is one of those listed. -/
theorem step_buffer (B : Buffer) (op : Op) :
    Step B op (buffer.out B op) (buffer.next B op) := by
  cases op with
  | enqueue skb => exact B.step_enqueue skb
  | dequeue => exact B.step_dequeue
  | peek => exact Step.peek
  | change opt => exact B.step_change opt
  | reset => exact Step.reset

/-- A call has one effect. -/
theorem Step.unique {B B' B'' : Buffer} {op : Op} {e e' : Effect} (h : Step B op e B')
    (h' : Step B op e' B'') : e = e' ∧ B' = B'' := by
  cases h with
  | illegal hl =>
      cases h' with
      | illegal => exact ⟨rfl, rfl⟩
      | reject hl' | store hl' | evict hl' => exact absurd hl' hl
  | reject hl hr =>
      cases h' with
      | illegal hl' => exact absurd hl hl'
      | reject => exact ⟨rfl, rfl⟩
      | store _ hr' | evict _ hr' => exact absurd hr hr'
  | store hl hr hroom =>
      cases h' with
      | illegal hl' => exact absurd hl hl'
      | reject _ hr' => exact absurd hr' hr
      | store => exact ⟨rfl, rfl⟩
      | evict _ _ hover => exact absurd hover hroom
  | evict hl hr hover =>
      cases h' with
      | illegal hl' => exact absurd hl hl'
      | reject _ hr' => exact absurd hr' hr
      | store _ _ hroom => exact absurd hover hroom
      | evict => exact ⟨rfl, rfl⟩
  | refuse hrefuse =>
      cases h' with
      | refuse => exact ⟨rfl, rfl⟩
      | take hon _ _ _ hpeek =>
          rcases hrefuse with hoff | hnone
          · exact absurd hon hoff
          · exact absurd (hnone.symm.trans hpeek) (by simp)
  | @take m _ hon hm hleast _ hpeek =>
      cases h' with
      | refuse hrefuse =>
          rcases hrefuse with hoff | hnone
          · exact absurd hon hoff
          · exact absurd (hnone.symm.trans hpeek) (by simp)
      | @take m' _ _ hm' hleast' _ hpeek' =>
          obtain rfl : m = m' := le_antisymm (hleast m' hm') (hleast' m hm)
          obtain rfl := Option.some.inj (hpeek.symm.trans hpeek')
          exact ⟨rfl, rfl⟩
  | peek =>
      cases h' with
      | peek => exact ⟨rfl, rfl⟩
  | malformed hshort =>
      cases h' with
      | malformed => exact ⟨rfl, rfl⟩
      | change hlong => exact absurd (hshort _ rfl) (not_lt.mpr hlong)
  | change hlong =>
      cases h' with
      | malformed hshort => exact absurd (hshort _ rfl) (not_lt.mpr hlong)
      | change => exact ⟨rfl, rfl⟩
  | reset =>
      cases h' with
      | reset => exact ⟨rfl, rfl⟩

/-- The options in force. -/
def options (B : Buffer) : TcPfabricQopt := ⟨B.limit, B.disableDequeue⟩

/-- Only a call that sets options changes them. -/
theorem Step.options_eq {B B' : Buffer} {op : Op} {e : Effect} (hstep : Step B op e B') :
    B'.options = op.sets.getD B.options := by
  cases hstep with
  | illegal | reject | store | evict | refuse | take | peek | reset => rfl
  | @malformed opt hshort =>
      cases opt with
      | none => rfl
      | some attr =>
          have hsets : (Op.change (some attr)).sets = none :=
            Nlattr.qopt?_of_lt (hshort attr rfl)
          rw [hsets, Option.getD_none]
  | @change attr hlong =>
      have hsets : (Op.change (some attr)).sets = some attr.qopt :=
        Nlattr.qopt?_of_le hlong
      rw [hsets, Option.getD_some]
      rfl

theorem peek_eq_none_iff {B : Buffer} :
    B.peek = none ↔
      ∀ m ∈ B.marked, (∀ b ∈ B.marked, m ≤ b) → B.queues m = [] := by
  rw [peek]
  by_cases hne : B.marked.Nonempty
  · rw [dif_pos hne, List.head?_eq_none_iff]
    constructor
    · intro hnil m hm hleast
      have hmin : B.marked.min' hne = m :=
        le_antisymm (B.marked.min'_le m hm) (hleast _ (B.marked.min'_mem hne))
      rw [← hmin, hnil]
    · intro h
      exact h _ (B.marked.min'_mem hne) fun b hb => B.marked.min'_le b hb
  · rw [dif_neg hne]
    exact iff_of_true rfl fun m hm => absurd ⟨m, hm⟩ hne

theorem exists_of_peek_eq_some {B : Buffer} {skb : SkBuff} (h : B.peek = some skb) :
    ∃ m ∈ B.marked, (∀ b ∈ B.marked, m ≤ b) ∧ (B.queues m).head? = some skb := by
  rw [peek] at h
  by_cases hne : B.marked.Nonempty
  · rw [dif_pos hne] at h
    exact ⟨_, B.marked.min'_mem hne, fun b hb => B.marked.min'_le b hb, h⟩
  · rw [dif_neg hne] at h
    exact absurd h (by simp)

theorem peek_of_least {B : Buffer} {m : Band} (hm : m ∈ B.marked) (hleast : ∀ x ∈ B.marked, m ≤ x) :
    B.peek = (B.queues m).head? := by
  have hmin : B.marked.min' ⟨m, hm⟩ = m :=
    le_antisymm (B.marked.min'_le m hm) (hleast _ (B.marked.min'_mem _))
  rw [peek, dif_pos ⟨m, hm⟩, hmin]

/-- A departure hands out what a peek shows, unless it is switched off. -/
theorem dequeue_ret (B : Buffer) :
    B.dequeue.1.ret = .skb (if B.disableDequeue = 0 then B.peek else none) := by
  have hstep := B.step_dequeue
  generalize B.dequeue = r at hstep ⊢
  obtain ⟨e, B'⟩ := r
  cases hstep with
  | refuse h =>
      rcases h with hoff | hpeek
      · rw [if_neg hoff]
      · simp [hpeek]
  | take hon hm hleast hhead hpeek => rw [if_pos hon, hpeek]

/-! ## The band evicted from -/

theorem victim_mem (B : Buffer) (b : Band) : B.victim b ∈ insert b B.marked :=
  Finset.max'_mem _ _

theorem le_victim (B : Buffer) {b x : Band} (h : x ∈ insert b B.marked) :
    x ≤ B.victim b :=
  Finset.le_max' _ x h

/-- An accepted arrival at a full buffer evicts from a marked band that is less
urgent than its own, or from its own band if no band was marked. -/
theorem victim_cases {B : Buffer} {b : Band} (hr : ¬ B.Rejects b)
    (hfull : B.limit ≤ B.qlen) :
    (B.marked = ∅ ∧ B.victim b = b) ∨ (B.victim b ∈ B.marked ∧ b < B.victim b) := by
  rcases Finset.eq_empty_or_nonempty B.marked with hempty | hne
  · left
    have hmem := B.victim_mem b
    rw [hempty] at hmem
    exact ⟨hempty, by simpa using hmem⟩
  · right
    obtain ⟨l, hl, hlt⟩ : ∃ l ∈ B.marked, b < l := by
      by_contra hnone
      push Not at hnone
      exact hr ⟨hfull, hne, hnone⟩
    have hb : b < B.victim b :=
      lt_of_lt_of_le hlt (B.le_victim (Finset.mem_insert_of_mem hl))
    exact ⟨Finset.mem_of_mem_insert_of_ne (B.victim_mem b) (ne_of_gt hb), hb⟩

/-- An eviction takes the counter back to where it was before the arrival. -/
theorem qlen_store_evict (B : Buffer) (b l : Band) (skb : SkBuff) :
    ((B.store b skb).evict l).qlen = B.qlen :=
  BitVec.add_sub_cancel B.qlen 1

/-! ## Invariants of every run -/

/-- Every non-empty band is marked. -/
def Covered (B : Buffer) : Prop := ∀ b, B.queues b ≠ [] → b ∈ B.marked

theorem Covered.eq_nil_of_marked_eq_empty {B : Buffer} (h : B.Covered)
    (hempty : B.marked = ∅) (b : Band) : B.queues b = [] := by
  by_contra hne
  have hmem := h b hne
  rw [hempty] at hmem
  exact absurd hmem (Finset.notMem_empty b)

/-- Every packet lies in the list of its own band. -/
def Banded (B : Buffer) : Prop :=
  ∀ b, ∀ skb ∈ B.queues b, skb.priority.toNat = (b : ℕ)

variable {B B' : Buffer} {op : Op} {e : Effect}

theorem Covered.store (h : B.Covered) (b : Band) (skb : SkBuff) :
    (B.store b skb).Covered := by
  intro b' hb'
  change b' ∈ insert b B.marked
  by_cases hbb : b' = b
  · rw [hbb]
    exact Finset.mem_insert_self b _
  · change Lanes.push B.queues b skb b' ≠ [] at hb'
    rw [Lanes.push_of_ne B.queues b hbb] at hb'
    exact Finset.mem_insert_of_mem (h b' hb')

theorem Step.covered (hstep : Step B op e B') (h : B.Covered) : B'.Covered := by
  cases hstep with
  | illegal | reject | refuse | peek | malformed => exact h
  | change => exact h
  | store hl => exact h.store hl.band _
  | evict hl =>
      intro b hb
      exact h.store hl.band _ b (Lanes.ne_nil_of_pop_ne_nil hb)
  | @take m skb =>
      intro b hb
      change Lanes.pop B.queues m b ≠ [] at hb
      have hmem := h b (Lanes.ne_nil_of_pop_ne_nil hb)
      change b ∈ if (B.queues m).tail = [] then B.marked.erase m else B.marked
      split
      · next hnil =>
          refine Finset.mem_erase.mpr ⟨?_, hmem⟩
          rintro rfl
          rw [Lanes.pop_self] at hb
          exact hb hnil
      · exact hmem
  | reset =>
      intro b hb
      exact absurd rfl hb

theorem Banded.store (h : B.Banded) {skb : SkBuff} (hl : Legal skb) :
    (B.store hl.band (classified skb)).Banded := by
  intro b x hx
  rcases Lanes.mem_push.mp hx with hold | ⟨rfl, rfl⟩
  · exact h b x hold
  · exact toNat_priority_classified skb

theorem Step.banded (hstep : Step B op e B') (h : B.Banded) : B'.Banded := by
  cases hstep with
  | illegal | reject | refuse | peek | malformed => exact h
  | change => exact h
  | store hl => exact h.store hl
  | evict hl =>
      intro b x hx
      exact h.store hl b x (Lanes.mem_of_mem_pop hx)
  | take =>
      intro b x hx
      exact h b x (Lanes.mem_of_mem_pop hx)
  | reset =>
      intro b x hx
      exact absurd hx (by simp)

end Buffer

/-! ## The steps of the qdisc -/

/-- Every call on the qdisc is one of the buffer's steps, with the result it
returns and the packets it adds to the log. -/
theorem step_qdisc (c : Ctx) (op : Op) :
    ∃ freed, Buffer.Step (view c) op ⟨qdisc.out c op, freed⟩ (view (qdisc.next c op)) ∧
      (qdisc.next c op).kern.freed = c.kern.freed ++ freed := by
  refine ⟨(buffer.out (view c) op).freed, ?_, freed_next c op⟩
  rw [qdisc_refines_buffer.out_eq, qdisc_refines_buffer.next_eq]
  exact (view c).step_buffer op

/-! ## Arrivals, seen from the qdisc -/

/-- The arrival passes both tests of `pfab_enqueue`: its priority is legal, and
it is not turned away by a full buffer. -/
def Admits (c : Ctx) (skb : SkBuff) : Prop :=
  bandOf skb < numBands ∧
    ¬ (c.sch.priv.limit ≤ c.sch.qlen ∧ 0 ≤ bitmapLowPrio c.sch.priv.bitmap ∧
      bitmapLowPrio c.sch.priv.bitmap ≤ bandOf skb)

instance (c : Ctx) (skb : SkBuff) : Decidable (Admits c skb) :=
  inferInstanceAs (Decidable (_ ∧ _))

theorem admits_iff {c : Ctx} {skb : SkBuff} (h : Legal skb) :
    Admits c skb ↔ ¬ (view c).Rejects h.band := by
  rw [rejects_view_iff, toNat_priority_classified]
  exact and_iff_right h

/-- The three ways through `pfab_enqueue`. -/
theorem pfabEnqueue_cases (skb : SkBuff) (c : Ctx) :
    (¬ Legal skb ∧
        pfabEnqueue skb c = qdiscDrop (classified skb) (countIllegalPrio (countNonIp skb c))) ∨
      ∃ h : Legal skb,
        (¬ Admits c skb ∧
            pfabEnqueue skb c =
              qdiscDrop (classified skb) (countBand h.band (countNonIp skb c))) ∨
          (Admits c skb ∧
            pfabEnqueue skb c =
              acceptSkb (classified skb) (countBand h.band (countNonIp skb c))) := by
  simp only [pfabEnqueue, toNat_priority_classified, toInt_priority_classified, countBand_sch,
    countNonIp_sch]
  by_cases hlegal : Legal skb
  · have hband : band2list (bandOf skb) = hlegal.band := band2list_natCast hlegal.band
    rw [if_neg (Nat.not_le_of_lt hlegal), hband]
    refine Or.inr ⟨hlegal, ?_⟩
    by_cases hreject : c.sch.priv.limit ≤ c.sch.qlen ∧ 0 ≤ bitmapLowPrio c.sch.priv.bitmap ∧
        bitmapLowPrio c.sch.priv.bitmap ≤ bandOf skb
    · exact Or.inl ⟨fun h => h.2 hreject, if_pos hreject⟩
    · exact Or.inr ⟨⟨hlegal, hreject⟩, if_neg hreject⟩
  · exact Or.inl ⟨hlegal, if_pos (Nat.le_of_not_lt hlegal)⟩

/-- The band `pfab_drop` will evict from, when a full buffer admits a packet. -/
theorem bitmapLowPrio_of_full {c : Ctx} {b : Band}
    (hr : ¬ (view c).Rejects b) (hfull : c.sch.priv.limit ≤ c.sch.qlen) :
    (bitmapLowPrio c.sch.priv.bitmap = -1 ∧ (view c).marked = ∅ ∧
        (view c).victim b = b) ∨
      (bitmapLowPrio c.sch.priv.bitmap = ((view c).victim b : ℕ) ∧
        (view c).victim b ∈ (view c).marked ∧ b < (view c).victim b) := by
  rw [bitmapLowPrio_eq]
  rcases Buffer.victim_cases hr hfull with ⟨hempty, hv⟩ | ⟨hmem, hlt⟩
  · have hne : ¬ (markedBands c.sch.priv.bitmap).Nonempty := by
      rw [← marked_view, hempty]
      exact Finset.not_nonempty_empty
    exact Or.inl ⟨dif_neg hne, hempty, hv⟩
  · have hne : (markedBands c.sch.priv.bitmap).Nonempty := ⟨_, hmem⟩
    have hmax : (markedBands c.sch.priv.bitmap).max' hne = (view c).victim b := by
      apply le_antisymm
      · exact (view c).le_victim
          (Finset.mem_insert_of_mem ((markedBands c.sch.priv.bitmap).max'_mem hne))
      · exact Finset.le_max' _ _ hmem
    rw [dif_pos hne, hmax]
    exact Or.inr ⟨rfl, hmem, hlt⟩

/-- `pfab_dequeue` returns what `pfab_peek` shows, unless it is switched off. -/
theorem pfabDequeue_eq (c : Ctx) :
    (pfabDequeue c).1 = if c.sch.priv.disableDequeue = 0 then pfabPeek c else none := by
  have hret := (realizes_pfabDequeue c).ret_eq
  rw [Buffer.dequeue_ret] at hret
  rw [pfabPeek_eq]
  exact Ret.skb.inj hret

/-- No bit is set when no band is marked. -/
theorem marked_eq_empty_iff (c : Ctx) :
    (view c).marked = ∅ ↔ ∀ b : Band, bandBit c.sch.priv.bitmap b = false := by
  rw [marked_view, Finset.eq_empty_iff_forall_notMem]
  apply forall_congr'
  intro b
  rw [mem_markedBands, Bool.not_eq_true]

/-! ## Invariants of the qdisc -/

/-- A property of the buffer that every step preserves holds in the buffer of
every context reached from where it held. -/
theorem view_exec_invariant {I : Buffer → Prop}
    (hstep : ∀ {B op e B'}, Buffer.Step B op e B' → I B → I B')
    {c : Ctx} (h : I (view c)) (ops : List Op) : I (view (qdisc.exec c ops)) := by
  rw [qdisc_refines_buffer.exec_eq]
  exact Machine.exec_invariant (fun B op hB => hstep (B.step_buffer op) hB) h ops

theorem Started.covered {c : Ctx} (h : Started c) (ops : List Op) :
    (view (qdisc.exec c ops)).Covered := by
  apply view_exec_invariant Buffer.Step.covered
  obtain ⟨_, _, hqueues⟩ := h.fresh.1
  intro b hb
  rw [hqueues] at hb
  exact absurd rfl hb

theorem Started.banded {c : Ctx} (h : Started c) (ops : List Op) :
    (view (qdisc.exec c ops)).Banded := by
  apply view_exec_invariant Buffer.Step.banded
  obtain ⟨_, _, hqueues⟩ := h.fresh.1
  intro b skb hskb
  rw [hqueues] at hskb
  exact absurd hskb (by simp)

end PFabric
