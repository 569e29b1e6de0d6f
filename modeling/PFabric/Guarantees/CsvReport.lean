import PFabric.Guarantees.Diagnostics

/-!
# The report for programs

What a program finds in the CSV report under the headings `enqueues`, `dequeues`
and `limit`, against the packets that were stored and handed out and the limit
in force.  The first column is right.  Under the second stands the number of bytes
stored, and the third shows the default limit after a reset; the runs in which
the report is right all the same are determined.
-/

namespace PFabric

open Text

/-! ## The columns -/

section Columns

variable (stats : PfabStatData)

/-- The heading line. -/
def csvHead : Text :=
  "limit,\tdropped,\tenqueues,\tdequeues,\tnon-ip packets,\tillegal priority".toList

/-- The data line. -/
def csvRow : Text :=
  decimal stats.limit.toNat ++ ',' :: ("\t".toList ++ decimal stats.tcStats.drops.toNat ++
    ',' :: ("\t\t".toList ++ decimal stats.tcStats.packets.toNat ++
      ',' :: ("\t\t".toList ++ decimal stats.tcStats.bytes.toNat ++
        ',' :: ("\t\t".toList ++ decimal stats.nonIpPacketCounter.toNat ++
          ("\t\t".toList ++ decimal stats.illegalPrioOccurance.toNat)))))

theorem exists_pfabCsvstatsProcSeqShow_eq :
    ∃ rest, pfabCsvstatsProcSeqShow stats =
      csvHead ++ '\n' :: (csvRow stats ++ '\n' :: rest) := by
  have hdata : Printf.printf csvFormat
      [Printf.u32 stats.limit, Printf.u32 stats.tcStats.drops,
        Printf.u32 stats.tcStats.packets, stats.tcStats.bytes, Printf.u32 stats.nonIpPacketCounter,
        Printf.u32 stats.illegalPrioOccurance] =
      csvHead ++ '\n' :: (csvRow stats ++ ['\n']) := by
    have hhead :
        "limit,\tdropped,\tenqueues,\tdequeues,\tnon-ip packets,\tillegal priority\n".toList =
          csvHead ++ ['\n'] := by decide
    have hone : ",\t".toList = ',' :: "\t".toList := by decide
    have htwo : ",\t\t".toList = ',' :: "\t\t".toList := by decide
    have hend : "\n".toList = ['\n'] := by decide
    simp only [csvFormat, Printf.printf, Printf.print_u_u32, Printf.print_llu, csvRow,
      hhead, hone, htwo, hend, List.append_assoc, List.cons_append, List.nil_append, List.append_nil]
  rw [pfabCsvstatsProcSeqShow, hdata, List.append_assoc, List.cons_append, List.append_assoc,
    List.singleton_append]
  exact ⟨_, rfl⟩

theorem cells_csvHead :
    cells csvHead = ["limit".toList, "dropped".toList, "enqueues".toList, "dequeues".toList,
      "non-ip packets".toList, "illegal priority".toList] := by
  decide

theorem exists_cells_csvRow :
    ∃ last, cells (csvRow stats) =
      [decimal stats.limit.toNat, decimal stats.tcStats.drops.toNat,
        decimal stats.tcStats.packets.toNat, decimal stats.tcStats.bytes.toNat, last] := by
  have hcomma : ∀ k, ',' ∉ decimal k := fun k => notMem_decimal (by decide)
  have htab : ∀ c ∈ "\t".toList, c.isWhitespace = true := List.all_eq_true.mp (by decide)
  have htabs : ∀ c ∈ "\t\t".toList, c.isWhitespace = true := List.all_eq_true.mp (by decide)
  have hblank : ∀ {blanks : Text}, (∀ c ∈ blanks, c.isWhitespace = true) → ∀ k,
      ',' ∉ blanks ++ decimal k := by
    intro blanks hblanks k hmem
    rcases List.mem_append.mp hmem with hmem | hmem
    · exact absurd (hblanks _ hmem) (by decide)
    · exact hcomma k hmem
  have hlast : ',' ∉ "\t\t".toList ++ decimal stats.nonIpPacketCounter.toNat ++
      ("\t\t".toList ++ decimal stats.illegalPrioOccurance.toNat) := fun hmem =>
    (List.mem_append.mp hmem).elim (hblank htabs _) (hblank htabs _)
  rw [csvRow, cells_append (hcomma _), cells_append (hblank htab _), cells_append (hblank htabs _),
    cells_append (hblank htabs _), cells, split_of_notMem hlast, strip_decimal,
    strip_append_decimal htab, strip_append_decimal htabs, strip_append_decimal htabs]
  exact ⟨_, rfl⟩

/-- The report has in its columns what the statistics have in these places. -/
theorem column_pfabCsvstatsProcSeqShow (i : ℕ) {heading : Text}
    (hheading : (cells csvHead).idxOf? heading = some i) :
    column heading (pfabCsvstatsProcSeqShow stats) = (cells (csvRow stats))[i]? := by
  have hhead : '\n' ∉ csvHead := by decide
  have hrow : '\n' ∉ csvRow stats := by
    have hdecimal : ∀ k, '\n' ∉ decimal k := fun k => notMem_decimal (by decide)
    simp [csvRow, hdecimal]
  obtain ⟨rest, hreport⟩ := exists_pfabCsvstatsProcSeqShow_eq stats
  rw [hreport, column_append hhead hrow, hheading, Option.bind_some]

theorem column_limit :
    column "limit".toList (pfabCsvstatsProcSeqShow stats) =
      some (decimal stats.limit.toNat) := by
  obtain ⟨last, hcells⟩ := exists_cells_csvRow stats
  rw [column_pfabCsvstatsProcSeqShow stats 0 (by rw [cells_csvHead]; decide), hcells]
  rfl

theorem column_enqueues :
    column "enqueues".toList (pfabCsvstatsProcSeqShow stats) =
      some (decimal stats.tcStats.packets.toNat) := by
  obtain ⟨last, hcells⟩ := exists_cells_csvRow stats
  rw [column_pfabCsvstatsProcSeqShow stats 2 (by rw [cells_csvHead]; decide), hcells]
  rfl

/-- The bytes stored stand where the departures are announced. -/
theorem column_dequeues :
    column "dequeues".toList (pfabCsvstatsProcSeqShow stats) =
      some (decimal stats.tcStats.bytes.toNat) := by
  obtain ⟨last, hcells⟩ := exists_cells_csvRow stats
  rw [column_pfabCsvstatsProcSeqShow stats 3 (by rw [cells_csvHead]; decide), hcells]
  rfl

end Columns

/-! ## What the columns should say -/

/-- The packets that were stored and handed out since the last reset. -/
structure Traffic where
  stored : ℕ
  handedOut : ℕ

/-- Every verdict but a drop says that the packet was appended to a list. -/
def Traffic.record (t : Traffic) (op : Op) (ret : Ret) : Traffic :=
  match op, ret with
  | .reset, _ => ⟨0, 0⟩
  | .enqueue _, .xmit .drop => t
  | .enqueue _, _ => { t with stored := t.stored + 1 }
  | op, ret => { t with handedOut := t.handedOut + (handed op ret).length }

/-- The columns count as wide as the counters behind them. -/
structure ReportsTraffic (c : Ctx) (t : Traffic) : Prop where
  enqueues : column "enqueues".toList (pfabCsvstatsProcSeqShow c.kern.pfabStats) =
    some (decimal (t.stored % 2 ^ 32))
  dequeues : column "dequeues".toList (pfabCsvstatsProcSeqShow c.kern.pfabStats) =
    some (decimal (t.handedOut % 2 ^ 64))
  limit : column "limit".toList (pfabCsvstatsProcSeqShow c.kern.pfabStats) =
    some (decimal c.sch.priv.limit.toNat)

theorem decimal_toNat_eq_iff {w : ℕ} (x : BitVec w) (k : ℕ) :
    some (decimal x.toNat) = some (decimal (k % 2 ^ w)) ↔ x = BitVec.ofNat w k := by
  rw [Option.some.injEq, decimal_injective.eq_iff, ← BitVec.toNat_ofNat, BitVec.toNat_inj]

theorem reportsTraffic_iff (c : Ctx) (t : Traffic) :
    ReportsTraffic c t ↔
      c.kern.pfabStats.tcStats.packets = BitVec.ofNat 32 t.stored ∧
        c.kern.pfabStats.tcStats.bytes = BitVec.ofNat 64 t.handedOut ∧
        c.kern.pfabStats.limit = c.sch.priv.limit := by
  have hlimit :
      some (decimal c.kern.pfabStats.limit.toNat) =
          some (decimal c.sch.priv.limit.toNat) ↔
        c.kern.pfabStats.limit = c.sch.priv.limit := by
    rw [Option.some.injEq, decimal_injective.eq_iff, BitVec.toNat_inj]
  constructor
  · rintro ⟨henqueues, hdequeues, hshown⟩
    rw [column_enqueues, decimal_toNat_eq_iff] at henqueues
    rw [column_dequeues, decimal_toNat_eq_iff] at hdequeues
    rw [column_limit, hlimit] at hshown
    exact ⟨henqueues, hdequeues, hshown⟩
  · rintro ⟨hpackets, hbytes, hshown⟩
    constructor
    · rw [column_enqueues, decimal_toNat_eq_iff]
      exact hpackets
    · rw [column_dequeues, decimal_toNat_eq_iff]
      exact hbytes
    · rw [column_limit, hlimit]
      exact hshown

/-! ## The counters behind the columns -/

/-- The values the columns compare. -/
def reported (c : Ctx) : BitVec 32 × BitVec 64 × BitVec 32 × BitVec 32 :=
  (c.kern.pfabStats.tcStats.packets, c.kern.pfabStats.tcStats.bytes, c.kern.pfabStats.limit,
    c.sch.priv.limit)

theorem reported_acceptSkb (skb : SkBuff) (c : Ctx) :
    reported (acceptSkb skb c).2 =
      (c.kern.pfabStats.tcStats.packets + 1,
        c.kern.pfabStats.tcStats.bytes + BitVec.ofNat 64 skb.len, c.kern.pfabStats.limit,
        c.sch.priv.limit) := by
  obtain ⟨_, _, _, _, _, heq⟩ := exists_acceptSkb_eq skb c
  rw [heq]
  rfl

theorem acceptSkb_ne_drop (skb : SkBuff) (c : Ctx) : (acceptSkb skb c).1 ≠ .drop := by
  unfold acceptSkb
  dsimp only
  split_ifs
  · exact NetXmit.noConfusion
  · exact NetXmit.noConfusion
  · exact NetXmit.noConfusion

theorem reported_countNonIp (skb : SkBuff) (c : Ctx) :
    reported (countNonIp skb c) = reported c := by
  obtain ⟨_, heq⟩ := exists_countNonIp_eq skb c
  rw [heq]
  rfl

/-- An arrival moves the counters exactly if it is stored. -/
theorem reported_pfabEnqueue (skb : SkBuff) (c : Ctx) :
    (¬ Admits c skb ∧ (pfabEnqueue skb c).1 = .drop ∧
        reported (pfabEnqueue skb c).2 = reported c) ∨
      (Admits c skb ∧ (pfabEnqueue skb c).1 ≠ .drop ∧
        reported (pfabEnqueue skb c).2 =
          (c.kern.pfabStats.tcStats.packets + 1,
            c.kern.pfabStats.tcStats.bytes + BitVec.ofNat 64 skb.len, c.kern.pfabStats.limit,
            c.sch.priv.limit)) := by
  have hcount := reported_countNonIp skb c
  rcases pfabEnqueue_cases skb c with ⟨hlegal, heq⟩ | ⟨h, ⟨hadm, heq⟩ | ⟨hadm, heq⟩⟩
  · rw [heq]
    exact Or.inl ⟨fun hadm => hlegal hadm.1, rfl, hcount⟩
  · rw [heq]
    exact Or.inl ⟨hadm, rfl, hcount⟩
  · simp only [reported, Prod.mk.injEq] at hcount
    obtain ⟨hpackets, hbytes, hlimit, hpriv⟩ := hcount
    rw [heq, ← hpackets, ← hbytes, ← hlimit, ← hpriv]
    exact Or.inr ⟨hadm, acceptSkb_ne_drop _ _, reported_acceptSkb _ _⟩

theorem reported_pfabDequeue (c : Ctx) : reported (pfabDequeue c).2 = reported c := by
  obtain ⟨_, _, _, _, _, heq⟩ := exists_pfabDequeue_eq c
  rw [heq]
  rfl

theorem reported_pfabReset (c : Ctx) :
    reported (pfabReset c) = (0, 0, defaultLimit, c.sch.priv.limit) := by
  rw [pfabReset, purgeAll_eq]
  rfl

/-! ## Runs -/

/-- The call neither stores a packet with bytes in it nor hands one out, and does
not reset the statistics under another limit than the default. -/
def CarriesNothing (c : Ctx) : Op → Prop
  | .enqueue skb => Admits c skb → skb.len = 0
  | .dequeue => c.sch.priv.disableDequeue = 0 → pfabPeek c = none
  | .reset => c.sch.priv.limit = defaultLimit
  | _ => True

instance (c : Ctx) : ∀ op, Decidable (CarriesNothing c op)
  | .enqueue _ => inferInstanceAs (Decidable (_ → _ = _))
  | .dequeue => inferInstanceAs (Decidable (_ = _ → _ = _))
  | .reset => inferInstanceAs (Decidable (_ = _))
  | .peek | .change _ => isTrue trivial

variable {c c' : Ctx} {t : Traffic}

theorem reportsTraffic_iff_reported :
    ReportsTraffic c t ↔
      reported c =
        (BitVec.ofNat 32 t.stored, BitVec.ofNat 64 t.handedOut, c.sch.priv.limit,
          c.sch.priv.limit) := by
  rw [reportsTraffic_iff]
  simp only [reported, Prod.mk.injEq, and_true]

theorem ReportsTraffic.congr (h : ReportsTraffic c t) (heq : reported c' = reported c) :
    ReportsTraffic c' t := by
  have hlimit : c'.sch.priv.limit = c.sch.priv.limit := congrArg (fun r => r.2.2.2) heq
  rw [reportsTraffic_iff_reported] at h ⊢
  rw [heq, hlimit, h]

theorem ReportsTraffic.pfabChange (h : ReportsTraffic c t) (opt : Option Nlattr) :
    ReportsTraffic (pfabChange opt c).2 t := by
  obtain ⟨hpackets, hbytes, -⟩ := (reportsTraffic_iff c t).mp h
  rcases pfabChange_cases opt c with heq | ⟨qopt, heq⟩
  · rw [heq]
    exact h
  · rw [heq]
    exact (reportsTraffic_iff _ _).mpr ⟨hpackets, hbytes, rfl⟩

theorem Started.reportsTraffic (h : Started c) : ReportsTraffic c ⟨0, 0⟩ := by
  refine h.rule (I := fun c => ReportsTraffic c ⟨0, 0⟩) (fun c opt hc => hc.pfabChange opt) ?_ ?_
  · intro c kern hstats _ hc
    refine hc.congr ?_
    simp only [reported, hstats]
  · intro kern
    exact (reportsTraffic_iff _ _).mpr ⟨rfl, rfl, rfl⟩

/-- Storing a packet adds its bytes under `dequeues`. -/
theorem reportsTraffic_enqueue_iff (h : ReportsTraffic c t) (skb : SkBuff) :
    ReportsTraffic (qdisc.next c (.enqueue skb))
        (t.record (.enqueue skb) (qdisc.out c (.enqueue skb))) ↔
      (Admits c skb → skb.len = 0) := by
  obtain ⟨hpackets, hbytes, hlimit⟩ := (reportsTraffic_iff c t).mp h
  have hout : qdisc.out c (.enqueue skb) = .xmit (pfabEnqueue skb c).1 := rfl
  have hnext : qdisc.next c (.enqueue skb) = (pfabEnqueue skb c).2 := rfl
  rw [hout, hnext]
  rcases reported_pfabEnqueue skb c with ⟨hadm, hret, heq⟩ | ⟨hadm, hret, heq⟩
  · rw [hret]
    exact iff_of_true (h.congr heq) fun hyes => absurd hyes hadm
  · have hrecord : t.record (.enqueue skb) (.xmit (pfabEnqueue skb c).1) =
        { t with stored := t.stored + 1 } := by
      generalize (pfabEnqueue skb c).1 = verdict at hret
      cases verdict with
      | success => rfl
      | drop => exact absurd rfl hret
      | cn => rfl
    have hlen : skb.len < 2 ^ 31 := skb.frame_lt
    simp only [reported, Prod.mk.injEq] at heq
    obtain ⟨hpackets', hbytes', hlimit', hpriv'⟩ := heq
    rw [hrecord, reportsTraffic_iff, hpackets', hbytes', hlimit', hpriv', hpackets, hbytes]
    simp only [hadm, true_imp_iff, hlimit, and_true]
    constructor
    · rintro ⟨-, hsum⟩
      bv_omega
    · intro hzero
      exact ⟨by bv_omega, by rw [hzero]; bv_omega⟩

/-- Handing out a packet adds nothing there. -/
theorem reportsTraffic_dequeue_iff (h : ReportsTraffic c t) :
    ReportsTraffic (qdisc.next c .dequeue) (t.record .dequeue (qdisc.out c .dequeue)) ↔
      (c.sch.priv.disableDequeue = 0 → pfabPeek c = none) := by
  obtain ⟨hpackets, hbytes, hlimit⟩ := (reportsTraffic_iff c t).mp h
  have hout : qdisc.out c .dequeue = .skb (pfabDequeue c).1 := rfl
  have hnext : qdisc.next c .dequeue = (pfabDequeue c).2 := rfl
  have hnone : (pfabDequeue c).1 = none ↔
      (c.sch.priv.disableDequeue = 0 → pfabPeek c = none) := by
    rw [pfabDequeue_eq]
    split_ifs with hdisable
    · exact ⟨fun hpeek _ => hpeek, fun hpeek => hpeek hdisable⟩
    · exact iff_of_true rfl fun hzero => absurd hzero hdisable
  rw [hout, hnext, ← hnone]
  have hreported := reported_pfabDequeue c
  cases hret : (pfabDequeue c).1 with
  | none => exact iff_of_true (h.congr hreported) rfl
  | some skb =>
      refine iff_of_false (fun hnext => ?_) (Option.some_ne_none skb)
      obtain ⟨-, hbytes', -⟩ := (reportsTraffic_iff _ _).mp hnext
      have hsame : (pfabDequeue c).2.kern.pfabStats.tcStats.bytes =
          c.kern.pfabStats.tcStats.bytes := congrArg (fun r => r.2.1) hreported
      rw [hsame, hbytes] at hbytes'
      have hcount : (t.record .dequeue (.skb (some skb))).handedOut = t.handedOut + 1 := rfl
      rw [hcount] at hbytes'
      bv_omega

theorem reportsTraffic_next_iff (h : ReportsTraffic c t) (op : Op) :
    ReportsTraffic (qdisc.next c op) (t.record op (qdisc.out c op)) ↔
      CarriesNothing c op := by
  cases op with
  | enqueue skb => exact reportsTraffic_enqueue_iff h skb
  | dequeue => exact reportsTraffic_dequeue_iff h
  | peek => exact iff_of_true h trivial
  | change opt => exact iff_of_true (h.pfabChange opt) trivial
  | reset =>
      have hreset := reported_pfabReset c
      have hlimit : (pfabReset c).sch.priv.limit = c.sch.priv.limit :=
        congrArg (fun r => r.2.2.2) hreset
      change ReportsTraffic (pfabReset c) ⟨0, 0⟩ ↔ c.sch.priv.limit = defaultLimit
      rw [reportsTraffic_iff_reported, hreset, hlimit]
      simp [eq_comm]

/-- The report is right after every call of exactly those runs in which no byte is
stored, no packet is handed out and no limit but the default is reset. -/
theorem always_reportsTraffic_iff (h : Started c) (ops : List Op) :
    (∀ js, js <+: ops →
        ReportsTraffic (qdisc.exec c js) (qdisc.observe Traffic.record ⟨0, 0⟩ c js)) ↔
      qdisc.Meets CarriesNothing c ops := by
  refine Machine.always_observe_iff_meets ?_ h.reportsTraffic ops
  intro c t op hc
  exact reportsTraffic_next_iff hc op

/-- A packet without a byte. -/
def emptySkb : SkBuff where
  id := 0
  frame := []
  networkHeader := 0
  pktLen := 0
  priority := 0
  frame_lt := by decide
  pktLen_lt := by decide

/-- A new limit, a packet of illegal priority, and a packet of no bytes that is stored. -/
theorem reportsTraffic_of_empty_packet :
    held (qdisc.exec setup
        [configure 10 0, .enqueue (allocIpSkb 1 40), .enqueue emptySkb]) = 1 ∧
      ReportsTraffic (qdisc.exec setup
          [configure 10 0, .enqueue (allocIpSkb 1 40), .enqueue emptySkb])
        (qdisc.observe Traffic.record ⟨0, 0⟩ setup
          [configure 10 0, .enqueue (allocIpSkb 1 40), .enqueue emptySkb]) := by
  refine ⟨by decide, ?_⟩
  exact (always_reportsTraffic_iff setup_started _).mpr (by decide) _ (List.prefix_refl _)

/-- One packet of 34 bytes is stored, and the report shows 34 departures. -/
theorem not_reportsTraffic_of_stored :
    Started setup ∧
      ¬ ReportsTraffic (qdisc.exec setup [.enqueue (allocIpSkb 0 3)])
        (qdisc.observe Traffic.record ⟨0, 0⟩ setup [.enqueue (allocIpSkb 0 3)]) := by
  refine ⟨setup_started, fun h => ?_⟩
  obtain ⟨-, hbytes, -⟩ := (reportsTraffic_iff _ _).mp h
  exact absurd hbytes (by decide)

end PFabric
