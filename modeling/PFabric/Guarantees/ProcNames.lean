import PFabric.Guarantees.ProcEntries

/-!
# The names of the proc entries

Both formats of `stats.h` append the device name to a fixed text, and the text
of the CSV entry goes on where the other one ends.  A device whose own name
begins with the difference takes the name of another device's CSV entry.
-/

namespace PFabric

/-- The two proc entries of a device. -/
inductive StatsKind where
  | plain
  | csv
  deriving DecidableEq

def StatsKind.procName : StatsKind → String → String
  | .plain => pfabStatsProcName
  | .csv => pfabCsvstatsProcName

/-- What the kernel accepts as the name of a network device. -/
structure IsDevName (dev : String) : Prop where
  ne_empty : dev ≠ ""
  length_le : dev.length ≤ 15
  slash : '/' ∉ dev.toList
  whitespace : ∀ c ∈ dev.toList, c.isWhitespace = false

/-- `pfab_stats_exit` removes the two entries a successful `pfab_stats_init` has
created, and no other. -/
def RemovesCreated (dev : String) : Prop :=
  ∀ (created : String → Bool) (kern kern' : Kernel), (pfabStatsInit dev created kern).1 = 0 →
    (pfabStatsInit dev created kern).2.procEntries =
        kern.procEntries ∪ {pfabStatsProcName dev, pfabCsvstatsProcName dev} ∧
      (pfabStatsExit dev kern').procEntries =
        kern'.procEntries \ {pfabStatsProcName dev, pfabCsvstatsProcName dev}

/-- An entry's name determines its kind and its device. -/
structure TellApart (d₁ d₂ : String) : Prop where
  names : ∀ k₁ k₂ : StatsKind, k₁.procName d₁ = k₂.procName d₂ → k₁ = k₂ ∧ d₁ = d₂
  removed₁ : RemovesCreated d₁
  removed₂ : RemovesCreated d₂

/-! ## What is created and removed -/

theorem procEntries_pfabStatsExit (dev : String) (kern : Kernel) :
    (pfabStatsExit dev kern).procEntries =
      kern.procEntries \ {pfabStatsProcName dev, pfabCsvstatsProcName dev} := by
  rw [Finset.sdiff_insert, Finset.sdiff_singleton_eq_erase, Finset.erase_right_comm]
  rfl

theorem procEntries_pfabStatsInit {dev : String} {created : String → Bool} {kern : Kernel}
    (h : (pfabStatsInit dev created kern).1 = 0) :
    (pfabStatsInit dev created kern).2.procEntries =
      kern.procEntries ∪ {pfabStatsProcName dev, pfabCsvstatsProcName dev} := by
  unfold pfabStatsInit at h ⊢
  dsimp only at h ⊢
  split_ifs at h ⊢
  · rw [Finset.union_insert, Finset.union_singleton, Finset.insert_comm]
    rfl
  · exact absurd h one_ne_zero
  · exact absurd h one_ne_zero

theorem removesCreated (dev : String) : RemovesCreated dev := fun _ _ kern' h =>
  ⟨procEntries_pfabStatsInit h, procEntries_pfabStatsExit dev kern'⟩

/-! ## When two names agree -/

theorem procName_of_length_le {fmt suffix : String} (h : (fmt ++ suffix).length ≤ 254) :
    procName fmt suffix = fmt ++ suffix := by
  have htake : (fmt ++ suffix).toList.take (maxProcNameLen - 1) = (fmt ++ suffix).toList := by
    rw [List.take_eq_self_iff, String.length_toList]
    exact h
  rw [procName, htake, String.ofList_toList]

namespace IsDevName

variable {d₁ d₂ : String}

theorem pfabStatsProcName_eq (h : IsDevName d₁) :
    pfabStatsProcName d₁ = "pfabric_stats_" ++ d₁ := by
  have hlength : "pfabric_stats_".length = 14 := rfl
  refine procName_of_length_le ?_
  rw [String.length_append, hlength]
  exact (Nat.add_le_add_left h.length_le 14).trans (by decide)

theorem pfabCsvstatsProcName_eq (h : IsDevName d₁) :
    pfabCsvstatsProcName d₁ = "pfabric_stats_" ++ ("csv_" ++ d₁) := by
  have hlength : "pfabric_stats_csv_".length = 18 := rfl
  have hfmt : "pfabric_stats_csv_" = "pfabric_stats_" ++ "csv_" := rfl
  rw [pfabCsvstatsProcName, procName_of_length_le, hfmt, String.append_assoc]
  rw [String.length_append, hlength]
  exact (Nat.add_le_add_left h.length_le 18).trans (by decide)

theorem stats_eq_stats_iff (h₁ : IsDevName d₁) (h₂ : IsDevName d₂) :
    pfabStatsProcName d₁ = pfabStatsProcName d₂ ↔ d₁ = d₂ := by
  rw [h₁.pfabStatsProcName_eq, h₂.pfabStatsProcName_eq, String.append_right_inj]

theorem csvstats_eq_csvstats_iff (h₁ : IsDevName d₁) (h₂ : IsDevName d₂) :
    pfabCsvstatsProcName d₁ = pfabCsvstatsProcName d₂ ↔ d₁ = d₂ := by
  rw [h₁.pfabCsvstatsProcName_eq, h₂.pfabCsvstatsProcName_eq, String.append_right_inj,
    String.append_right_inj]

/-- The name of a CSV entry leaves room for a device that is called so. -/
theorem stats_eq_csvstats_iff (h₁ : IsDevName d₁) (h₂ : IsDevName d₂) :
    pfabStatsProcName d₁ = pfabCsvstatsProcName d₂ ↔ d₁ = "csv_" ++ d₂ := by
  rw [h₁.pfabStatsProcName_eq, h₂.pfabCsvstatsProcName_eq, String.append_right_inj]

end IsDevName

/-- For devices of which none is called like another with `csv_` in front, the
names are as far apart as the life cycle of the entries needs them. -/
theorem namesApart_iff {devs : List String} (hdevs : ∀ dev ∈ devs, IsDevName dev) :
    NamesApart devs ↔ ∀ dev ∈ devs, ∀ dev' ∈ devs, dev ≠ "csv_" ++ dev' := by
  constructor
  · intro h dev hdev dev' hdev' heq
    exact h.stats_ne_csvstats dev hdev dev' hdev'
      (((hdevs dev hdev).stats_eq_csvstats_iff (hdevs dev' hdev')).mpr heq)
  · intro h
    exact
      { stats_inj := fun dev hdev dev' hdev' =>
          ((hdevs dev hdev).stats_eq_stats_iff (hdevs dev' hdev')).mp
        csvstats_inj := fun dev hdev dev' hdev' =>
          ((hdevs dev hdev).csvstats_eq_csvstats_iff (hdevs dev' hdev')).mp
        stats_ne_csvstats := fun dev hdev dev' hdev' heq =>
          h dev hdev dev' hdev'
            (((hdevs dev hdev).stats_eq_csvstats_iff (hdevs dev' hdev')).mp heq) }

/-- The names of two devices tell the entries apart exactly if neither device is
called like the other with `csv_` in front. -/
theorem tellApart_iff {d₁ d₂ : String} (h₁ : IsDevName d₁) (h₂ : IsDevName d₂) :
    TellApart d₁ d₂ ↔ d₁ ≠ "csv_" ++ d₂ ∧ d₂ ≠ "csv_" ++ d₁ := by
  constructor
  · intro h
    refine ⟨fun heq => ?_, fun heq => ?_⟩
    · have hname := (h₁.stats_eq_csvstats_iff h₂).mpr heq
      exact StatsKind.noConfusion (h.names .plain .csv hname).1
    · have hname := (h₂.stats_eq_csvstats_iff h₁).mpr heq
      exact StatsKind.noConfusion (h.names .csv .plain hname.symm).1
  · rintro ⟨hne₁, hne₂⟩
    refine ⟨?_, removesCreated d₁, removesCreated d₂⟩
    rintro (_ | _) (_ | _) hname
    · exact ⟨rfl, (h₁.stats_eq_stats_iff h₂).mp hname⟩
    · exact absurd ((h₁.stats_eq_csvstats_iff h₂).mp hname) hne₁
    · exact absurd ((h₂.stats_eq_csvstats_iff h₁).mp hname.symm) hne₂
    · exact ⟨rfl, (h₁.csvstats_eq_csvstats_iff h₂).mp hname⟩

theorem isDevName_eth0 : IsDevName "eth0" :=
  ⟨by decide, by decide, by decide, Text.not_isWhitespace_of_any (by decide)⟩

theorem isDevName_eth1 : IsDevName "eth1" :=
  ⟨by decide, by decide, by decide, Text.not_isWhitespace_of_any (by decide)⟩

theorem isDevName_csv_eth0 : IsDevName "csv_eth0" :=
  ⟨by decide, by decide, by decide, Text.not_isWhitespace_of_any (by decide)⟩

theorem tellApart_eth0_eth1 : TellApart "eth0" "eth1" :=
  (tellApart_iff isDevName_eth0 isDevName_eth1).mpr ⟨by decide, by decide⟩

/-- The first entry of `csv_eth0` has the name of the CSV entry of `eth0`. -/
theorem not_tellApart_csv_eth0_eth0 :
    IsDevName "csv_eth0" ∧ IsDevName "eth0" ∧ ¬ TellApart "csv_eth0" "eth0" := by
  refine ⟨isDevName_csv_eth0, isDevName_eth0, fun h => ?_⟩
  have hname := (isDevName_csv_eth0.stats_eq_csvstats_iff isDevName_eth0).mpr rfl
  exact StatsKind.noConfusion (h.names .plain .csv hname).1

end PFabric
