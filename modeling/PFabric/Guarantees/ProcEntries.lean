import PFabric.Buffer.Steps
import PFabric.Kernel.Module

/-!
# The life cycle of the proc entries

`pfab_init` registers two proc entries for its device and `pfab_destroy` removes
them.  When the second registration fails, `pfab_stats_init` removes the name
it has in its buffer, which by then is the second one; the first entry stays.
-/

namespace PFabric

/-! ## What each function does to the registry -/

/-- `pfab_change` would accept the options, or there are none. -/
def OptionsOk : Option Nlattr → Prop
  | none => True
  | some attr => sizeofQopt ≤ attr.payload.length

instance : ∀ opt, Decidable (OptionsOk opt)
  | none => isTrue trivial
  | some _ => inferInstanceAs (Decidable (_ ≤ _))

/-- The second registration of a `pfab_init` fails after the first has
succeeded. -/
def Request.HalfRegisters : Request → Prop
  | .init dev opt created =>
      OptionsOk opt ∧ created (pfabStatsProcName dev) = true ∧
        created (pfabCsvstatsProcName dev) = false
  | _ => False

instance : ∀ request, Decidable (Request.HalfRegisters request)
  | .init _ _ _ => inferInstanceAs (Decidable (_ ∧ _ ∧ _))
  | .call _ _ => isFalse id
  | .destroy _ => isFalse id

/-- The ways `pfab_init` can end for the registry `entries`. -/
inductive InitOutcome (dev : String) (opt : Option Nlattr) (created : String → Bool)
    (entries : Finset String) : ℤ → Finset String → Prop
  | nothing {code : ℤ} (hcode : code ≠ 0)
      (h : ¬ OptionsOk opt ∨ created (pfabStatsProcName dev) = false) :
      InitOutcome dev opt created entries code entries
  | half {code : ℤ} (hcode : code ≠ 0) (hopt : OptionsOk opt)
      (h : created (pfabStatsProcName dev) = true)
      (hcsv : created (pfabCsvstatsProcName dev) = false) :
      InitOutcome dev opt created entries code
        ((insert (pfabStatsProcName dev) entries).erase (pfabCsvstatsProcName dev))
  | both (h : created (pfabStatsProcName dev) = true)
      (hcsv : created (pfabCsvstatsProcName dev) = true) :
      InitOutcome dev opt created entries 0
        (insert (pfabCsvstatsProcName dev) (insert (pfabStatsProcName dev) entries))

namespace InitOutcome

variable {dev : String} {opt : Option Nlattr} {created : String → Bool}
  {entries entries' : Finset String} {code : ℤ}

theorem of_eq_zero (h : InitOutcome dev opt created entries code entries')
    (hcode : code = 0) :
    ¬ (Request.init dev opt created).HalfRegisters ∧
      entries' = insert (pfabCsvstatsProcName dev)
        (insert (pfabStatsProcName dev) entries) := by
  cases h with
  | nothing hne => exact absurd hcode hne
  | half hne => exact absurd hcode hne
  | both _ hcsv =>
      exact ⟨fun hhalf => Bool.false_ne_true (hhalf.2.2.symm.trans hcsv), rfl⟩

theorem of_ne_zero (h : InitOutcome dev opt created entries code entries')
    (hcode : code ≠ 0) :
    (¬ (Request.init dev opt created).HalfRegisters ∧ entries' = entries) ∨
      ((Request.init dev opt created).HalfRegisters ∧
        entries' = (insert (pfabStatsProcName dev) entries).erase
          (pfabCsvstatsProcName dev)) := by
  cases h with
  | nothing _ hnone =>
      refine Or.inl ⟨fun hhalf => ?_, rfl⟩
      rcases hnone with hopt | hstats
      · exact hopt hhalf.1
      · exact Bool.false_ne_true (hstats.symm.trans hhalf.2.1)
  | half _ hopt hstats hcsv => exact Or.inr ⟨⟨hopt, hstats, hcsv⟩, rfl⟩
  | both => exact absurd rfl hcode

end InitOutcome

theorem pfabChange_code (opt : Option Nlattr) (c : Ctx) :
    (¬ OptionsOk opt ∧
        (if opt.isSome then pfabChange opt c else (0, c)) = (-einval, c)) ∨
      (OptionsOk opt ∧ (if opt.isSome then pfabChange opt c else (0, c)).1 = 0 ∧
        (if opt.isSome then pfabChange opt c else (0, c)).2.kern.procEntries =
          c.kern.procEntries) := by
  cases opt with
  | none => exact Or.inr ⟨trivial, rfl, rfl⟩
  | some attr =>
      simp only [Option.isSome_some, if_true, pfabChange]
      by_cases hshort : attr.payload.length < sizeofQopt
      · rw [if_pos hshort]
        exact Or.inl ⟨Nat.not_le_of_lt hshort, rfl⟩
      · rw [if_neg hshort]
        exact Or.inr ⟨Nat.le_of_not_lt hshort, rfl, rfl⟩

theorem pfabInit_outcome (dev : String) (opt : Option Nlattr) (created : String → Bool)
    (c : Ctx) :
    InitOutcome dev opt created c.kern.procEntries (pfabInit opt dev created c).1
      (pfabInit opt dev created c).2.kern.procEntries := by
  rw [pfabInit_eq]
  have hentries : (cleared c).kern.procEntries = c.kern.procEntries := rfl
  rcases pfabChange_code opt (cleared c) with ⟨hopt, heq⟩ | ⟨hopt, hcode, hkern⟩
  · have hneg : (-einval, cleared c).1 < 0 := show -einval < 0 by decide
    rw [heq]
    dsimp only
    rw [if_pos hneg]
    exact InitOutcome.nothing (ne_of_lt hneg) (Or.inl hopt)
  · rw [hentries] at hkern
    generalize
      (if opt.isSome then pfabChange opt (cleared c) else (0, cleared c)) = r at hcode hkern ⊢
    dsimp only
    rw [hcode, if_neg (lt_irrefl 0), ← hkern]
    unfold pfabStatsInit
    dsimp only
    split_ifs with hstats hcsv
    · exact InitOutcome.both hstats hcsv
    · exact InitOutcome.half one_ne_zero hopt hstats (Bool.not_eq_true _ ▸ hcsv)
    · exact InitOutcome.nothing one_ne_zero (Or.inr (Bool.not_eq_true _ ▸ hstats))

theorem procEntries_pfabDestroy (dev : String) (c : Ctx) :
    (pfabDestroy dev c).kern.procEntries =
      (c.kern.procEntries.erase (pfabStatsProcName dev)).erase
        (pfabCsvstatsProcName dev) := by
  rw [pfabDestroy, purgeAll_eq]
  rfl

theorem procEntries_acceptSkb (skb : SkBuff) (c : Ctx) :
    (acceptSkb skb c).2.kern.procEntries = c.kern.procEntries := by
  obtain ⟨_, _, _, _, _, heq⟩ := exists_acceptSkb_eq skb c
  rw [heq]
  rfl

theorem procEntries_pfabEnqueue (skb : SkBuff) (c : Ctx) :
    (pfabEnqueue skb c).2.kern.procEntries = c.kern.procEntries := by
  have hcount : (countNonIp skb c).kern.procEntries = c.kern.procEntries := by
    obtain ⟨_, hcount⟩ := exists_countNonIp_eq skb c
    rw [hcount]
  rcases pfabEnqueue_cases skb c with ⟨-, heq⟩ | ⟨h, ⟨-, heq⟩ | ⟨-, heq⟩⟩
  · rw [heq]
    exact hcount
  · rw [heq]
    exact hcount
  · rw [heq, procEntries_acceptSkb]
    exact hcount

theorem procEntries_pfabDequeue (c : Ctx) :
    (pfabDequeue c).2.kern.procEntries = c.kern.procEntries := by
  obtain ⟨_, _, _, _, _, heq⟩ := exists_pfabDequeue_eq c
  rw [heq]

theorem procEntries_next (c : Ctx) (op : Op) :
    (qdisc.next c op).kern.procEntries = c.kern.procEntries := by
  cases op with
  | enqueue skb => exact procEntries_pfabEnqueue skb c
  | dequeue => exact procEntries_pfabDequeue c
  | peek => rfl
  | change opt =>
      change (pfabChange opt c).2.kern.procEntries = c.kern.procEntries
      rcases pfabChange_cases opt c with heq | ⟨qopt, heq⟩
      · rw [heq]
      · rw [heq]
  | reset =>
      change (pfabReset c).kern.procEntries = c.kern.procEntries
      rw [pfabReset, purgeAll_eq]

/-! ## The registry over a whole run -/

/-- The registry holds exactly the two entries of every live qdisc. -/
def Registered (m : Module) : Prop :=
  ∀ name, name ∈ m.kern.procEntries ↔
    ∃ dev, m.qdiscs dev ≠ none ∧
      (name = pfabStatsProcName dev ∨ name = pfabCsvstatsProcName dev)

/-- No two of the names generated for the devices coincide. -/
structure NamesApart (devs : List String) : Prop where
  stats_inj : ∀ dev ∈ devs, ∀ dev' ∈ devs,
    pfabStatsProcName dev = pfabStatsProcName dev' → dev = dev'
  csvstats_inj : ∀ dev ∈ devs, ∀ dev' ∈ devs,
    pfabCsvstatsProcName dev = pfabCsvstatsProcName dev' → dev = dev'
  stats_ne_csvstats : ∀ dev ∈ devs, ∀ dev' ∈ devs,
    pfabStatsProcName dev ≠ pfabCsvstatsProcName dev'

/-- A device gets a qdisc only when it has none, and only a live qdisc is
destroyed. -/
def InOrder (m : Module) : Request → Prop
  | .init dev _ _ => m.qdiscs dev = none
  | .call _ _ => True
  | .destroy dev => m.qdiscs dev ≠ none

instance (m : Module) : ∀ request, Decidable (InOrder m request)
  | .init _ _ _ => inferInstanceAs (Decidable (_ = _))
  | .call _ _ => isTrue trivial
  | .destroy _ => inferInstanceAs (Decidable (_ ≠ _))

section Step

variable {devs : List String} {m : Module} {dev : String}

/-- The names of a device without a qdisc are free. -/
theorem Registered.notMem (h : Registered m) (hnames : NamesApart devs)
    (hlive : ∀ dev, m.qdiscs dev ≠ none → dev ∈ devs) (hmem : dev ∈ devs)
    (hdev : m.qdiscs dev = none) :
    pfabStatsProcName dev ∉ m.kern.procEntries ∧
      pfabCsvstatsProcName dev ∉ m.kern.procEntries := by
  refine ⟨?_, ?_⟩
  · intro hentry
    obtain ⟨dev', hdev', hname | hname⟩ := (h _).mp hentry
    · rw [hnames.stats_inj dev hmem dev' (hlive dev' hdev') hname] at hdev
      exact hdev' hdev
    · exact hnames.stats_ne_csvstats dev hmem dev' (hlive dev' hdev') hname
  · intro hentry
    obtain ⟨dev', hdev', hname | hname⟩ := (h _).mp hentry
    · exact hnames.stats_ne_csvstats dev' (hlive dev' hdev') dev hmem hname.symm
    · rw [hnames.csvstats_inj dev hmem dev' (hlive dev' hdev') hname] at hdev
      exact hdev' hdev

/-- Only which devices have a qdisc matters. -/
theorem Registered.congr {m' : Module} (h : Registered m)
    (hentries : m'.kern.procEntries = m.kern.procEntries)
    (hlive : ∀ dev, m'.qdiscs dev ≠ none ↔ m.qdiscs dev ≠ none) : Registered m' := by
  intro name
  simp only [hentries, hlive]
  exact h name

/-- A device that gets a qdisc gets its two names, and nothing else is added. -/
theorem Registered.insert (h : Registered m) {sch : Qdisc} {kern : Kernel}
    (hkern : kern.procEntries = Insert.insert (pfabCsvstatsProcName dev)
      (Insert.insert (pfabStatsProcName dev) m.kern.procEntries)) :
    Registered ⟨Function.update m.qdiscs dev (some sch), kern⟩ := by
  intro name
  rw [hkern, Finset.mem_insert, Finset.mem_insert, h name]
  constructor
  · rintro (hcsv | hstats | ⟨dev', hdev', hname⟩)
    · exact ⟨dev, by simp, Or.inr hcsv⟩
    · exact ⟨dev, by simp, Or.inl hstats⟩
    · refine ⟨dev', ?_, hname⟩
      by_cases heq : dev' = dev
      · simp [heq]
      · simpa [heq] using hdev'
  · rintro ⟨dev', hdev', hname⟩
    by_cases heq : dev' = dev
    · subst heq
      exact hname.elim (fun h => Or.inr (Or.inl h)) Or.inl
    · exact Or.inr (Or.inr ⟨dev', by simpa [heq] using hdev', hname⟩)

/-- A device that loses its qdisc loses its two names, and no other device
loses one. -/
theorem Registered.erase (h : Registered m) (hnames : NamesApart devs)
    (hlive : ∀ dev, m.qdiscs dev ≠ none → dev ∈ devs) (hmem : dev ∈ devs)
    {kern : Kernel}
    (hkern : kern.procEntries = (m.kern.procEntries.erase (pfabStatsProcName dev)).erase
      (pfabCsvstatsProcName dev)) :
    Registered ⟨Function.update m.qdiscs dev none, kern⟩ := by
  intro name
  rw [hkern, Finset.mem_erase, Finset.mem_erase, h name]
  constructor
  · rintro ⟨hcsv, hstats, dev', hdev', hname⟩
    have hne : dev' ≠ dev := by
      rintro rfl
      exact hname.elim hstats hcsv
    exact ⟨dev', by simpa [hne] using hdev', hname⟩
  · rintro ⟨dev', hdev', hname⟩
    have hne : dev' ≠ dev := by
      rintro rfl
      simp at hdev'
    have hdev'' : m.qdiscs dev' ≠ none := by simpa [hne] using hdev'
    have hmem' := hlive dev' hdev''
    refine ⟨?_, ?_, dev', hdev'', hname⟩
    · rintro rfl
      rcases hname with hname | hname
      · exact hnames.stats_ne_csvstats dev' hmem' dev hmem hname.symm
      · exact hne (hnames.csvstats_inj dev hmem dev' hmem' hname).symm
    · rintro rfl
      rcases hname with hname | hname
      · exact hne (hnames.stats_inj dev hmem dev' hmem' hname).symm
      · exact hnames.stats_ne_csvstats dev hmem dev' hmem' hname

/-- From an exact registry, a request in order reaches an exact one unless it
registers only half of a device's entries. -/
theorem registered_next_iff (h : Registered m) (hnames : NamesApart devs)
    (hlive : ∀ dev, m.qdiscs dev ≠ none → dev ∈ devs) {request : Request}
    (hmem : request.dev ∈ devs) (horder : InOrder m request) :
    Registered (pfabModule.next m request) ↔ ¬ request.HalfRegisters := by
  cases request with
  | init dev opt created =>
      have houtcome := pfabInit_outcome dev opt created ⟨Qdisc.alloc, m.kern⟩
      by_cases hcode : (pfabInit opt dev created ⟨Qdisc.alloc, m.kern⟩).1 = 0
      · obtain ⟨hhalf, hentries⟩ := houtcome.of_eq_zero hcode
        rw [serve_init_of_eq_zero hcode]
        exact iff_of_true (h.insert hentries) hhalf
      · rw [serve_init_of_ne_zero hcode]
        rcases houtcome.of_ne_zero hcode with ⟨hhalf, hentries⟩ | ⟨hhalf, hentries⟩
        · exact iff_of_true (h.congr hentries fun _ => Iff.rfl) hhalf
        · refine iff_of_false (fun h' => ?_) (not_not.mpr hhalf)
          -- the first name stays registered although the device has no qdisc
          have hleft : pfabStatsProcName dev ∈
              (pfabInit opt dev created ⟨Qdisc.alloc, m.kern⟩).2.kern.procEntries := by
            rw [hentries, Finset.mem_erase]
            exact ⟨hnames.stats_ne_csvstats dev hmem dev hmem, Finset.mem_insert_self _ _⟩
          exact (h.notMem hnames hlive hmem horder).1 ((h _).mpr ((h' _).mp hleft))
  | call dev op =>
      refine iff_of_true ?_ id
      cases hdev : m.qdiscs dev with
      | none => exact h.congr (by rw [serve_call_absent hdev]) (by simp [serve_call_absent hdev])
      | some sch =>
          rw [Machine.next, serve_call hdev]
          refine h.congr (procEntries_next ⟨sch, m.kern⟩ op) ?_
          intro dev'
          by_cases heq : dev' = dev
          · simp [heq, hdev]
          · simp [heq]
  | destroy dev =>
      refine iff_of_true ?_ id
      obtain ⟨sch, hsch⟩ := Option.ne_none_iff_exists'.mp horder
      rw [serve_destroy hsch]
      exact h.erase hnames hlive hmem (procEntries_pfabDestroy dev ⟨sch, m.kern⟩)

/-- A qdisc only appears on the device of an `init` request. -/
theorem qdiscs_next_mem (hlive : ∀ dev, m.qdiscs dev ≠ none → dev ∈ devs)
    {request : Request} (hmem : request.dev ∈ devs) :
    ∀ dev, (pfabModule.next m request).qdiscs dev ≠ none → dev ∈ devs := by
  intro dev hdev
  by_cases heq : request.dev = dev
  · rw [← heq]
    exact hmem
  · rw [qdiscs_next_of_ne m request heq] at hdev
    exact hlive dev hdev

end Step

theorem registered_loaded : Registered Module.loaded := by
  intro name
  refine iff_of_false (Finset.notMem_empty name) ?_
  rintro ⟨dev, hdev, _⟩
  exact hdev rfl

/-- The registry is exact in every state of exactly those runs in which no
`pfab_init` registers only half of its entries. -/
theorem always_registered_iff (requests : List Request)
    (hnames : NamesApart (requests.map Request.dev))
    (horder : pfabModule.Meets InOrder Module.loaded requests) :
    pfabModule.Always Registered Module.loaded requests ↔
      ∀ request ∈ requests, ¬ request.HalfRegisters := by
  have hmem : pfabModule.Meets (fun _ request => request.dev ∈ requests.map Request.dev)
      Module.loaded requests :=
    Machine.meets_const.mpr fun request hr => List.mem_map_of_mem hr
  have hlive : pfabModule.Always
      (fun m => ∀ dev, m.qdiscs dev ≠ none → dev ∈ requests.map Request.dev)
      Module.loaded requests := by
    refine Machine.always_of_meets ?_ (fun dev hdev => absurd rfl hdev) hmem
    intro m request hm hr
    exact qdiscs_next_mem hm hr
  have hstep : ∀ m request, Registered m →
      ((InOrder m request ∧ request.dev ∈ requests.map Request.dev) ∧
        ∀ dev, m.qdiscs dev ≠ none → dev ∈ requests.map Request.dev) →
      (Registered (pfabModule.next m request) ↔ ¬ request.HalfRegisters) := by
    rintro m request hm ⟨⟨ho, hr⟩, hl⟩
    exact registered_next_iff hm hnames hl hr ho
  rw [Machine.always_iff_meets_of_meets hstep registered_loaded
    ((horder.and hmem).and hlive.meets), Machine.meets_const]

/-- One device is created, a second one fails at its first entry and a third
for its options, and the first is destroyed. -/
theorem registered_through_failures :
    Registered (pfabModule.exec Module.loaded
      [.init "eth0" none fun _ => true, .init "eth1" none fun _ => false,
        .init "eth2" (some ⟨[]⟩) fun _ => true, .destroy "eth0"]) :=
  (always_registered_iff _ ⟨by decide, by decide, by decide⟩ (by decide)).mpr (by decide) _
    (List.prefix_refl _)

/-- When only the second registration fails, the first name stays behind
without a qdisc. -/
theorem not_registered_of_half :
    pfabModule.Meets InOrder Module.loaded
        [.init "eth0" none fun name => decide (name = "pfabric_stats_eth0")] ∧
      ¬ Registered (pfabModule.exec Module.loaded
        [.init "eth0" none fun name => decide (name = "pfabric_stats_eth0")]) := by
  refine ⟨by decide, fun h => ?_⟩
  obtain ⟨dev, hdev, _⟩ := (h "pfabric_stats_eth0").mp (by decide)
  exact hdev rfl

end PFabric
