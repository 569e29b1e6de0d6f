import PFabric.Kernel.Stats

/-!
# What the reports show

Both proc entries print the shared statistics as text.  The one for readers leaves
nothing out: two reports are the same only if every counter, every word of the bitmap
and both settings are.  The one for programs leaves out the dequeue switch and the
distribution over the bands, and nothing else.
-/

namespace PFabric

open Printf Text

variable {stats stats' : PfabStatData} {v w : Text}

/-! ## Numbers shown -/

theorem shown_u_u32 (x : BitVec 32) : Conv.u.shown (u32 x) = (x.toNat : ℤ) := by
  rw [Conv.shown, u32, BitVec.setWidth_setWidth_of_le _ (by decide), BitVec.setWidth_eq]

theorem shown_d_u32 (x : BitVec 32) : Conv.d.shown (u32 x) = x.toInt := by
  rw [Conv.shown, u32, BitVec.setWidth_setWidth_of_le _ (by decide), BitVec.setWidth_eq]

theorem shown_x08_u32 (x : BitVec 32) : Conv.x08.shown (u32 x) = (x.toNat : ℤ) := shown_u_u32 x

theorem shown_llu (x : BitVec 64) : Conv.llu.shown x = (x.toNat : ℤ) := rfl

/-! ## Parts of the reports -/

/-- A report shows the bitmap, whatever stands behind it. -/
theorem bitmap_append_inj
    (h : ((List.finRange bitmapSize).flatMap fun i =>
          printf [.conv .x08, .lit "\n"] [u32 (stats.bitmap i)]) ++ v =
        ((List.finRange bitmapSize).flatMap fun i =>
          printf [.conv .x08, .lit "\n"] [u32 (stats'.bitmap i)]) ++ w) :
    stats.bitmap = stats'.bitmap ∧ v = w := by
  suffices hwords : (∀ i ∈ List.finRange bitmapSize, stats.bitmap i = stats'.bitmap i) ∧ v = w from
    ⟨funext fun i => hwords.1 i (List.mem_finRange i), hwords.2⟩
  refine flatMap_append_inj (fun i v w heq => ?_) h
  obtain ⟨hshown, hrest⟩ := printf_append_inj heq rfl (by decide)
  simp only [shown, shown_x08_u32, List.cons.injEq, and_true, Nat.cast_inj,
    BitVec.toNat_inj] at hshown
  exact ⟨hshown, hrest⟩

theorem perBandPacketCounter_append_inj
    (h : ((List.finRange numBands).flatMap fun i : Band =>
          printf [.lit "Band ", .conv .u, .lit ": ", .conv .u, .lit "\n"]
            [u32 (BitVec.ofNat 32 i), u32 (stats.perBandPacketCounter i)]) ++ v =
        ((List.finRange numBands).flatMap fun i : Band =>
          printf [.lit "Band ", .conv .u, .lit ": ", .conv .u, .lit "\n"]
            [u32 (BitVec.ofNat 32 i), u32 (stats'.perBandPacketCounter i)]) ++ w) :
    stats.perBandPacketCounter = stats'.perBandPacketCounter ∧ v = w := by
  suffices hbands : (∀ i ∈ List.finRange numBands,
      stats.perBandPacketCounter i = stats'.perBandPacketCounter i) ∧ v = w from
    ⟨funext fun i => hbands.1 i (List.mem_finRange i), hbands.2⟩
  refine flatMap_append_inj (fun i v w heq => ?_) h
  obtain ⟨hshown, hrest⟩ := printf_append_inj heq rfl (by decide)
  simp only [shown, shown_u_u32, List.cons.injEq, true_and, and_true, Nat.cast_inj,
    BitVec.toNat_inj] at hshown
  exact ⟨hshown, hrest⟩

/-! ## The reports -/

/-- The statistics agree but for the dequeue switch and the distribution over the bands. -/
def SameCsv (stats stats' : PfabStatData) : Prop :=
  stats' = { stats with
    disableDequeue := stats'.disableDequeue
    perBandPacketCounter := stats'.perBandPacketCounter }

theorem sameCsv_of_pfabCsvstatsProcSeqShow_eq
    (h : pfabCsvstatsProcSeqShow stats = pfabCsvstatsProcSeqShow stats') :
    SameCsv stats stats' := by
  have hsep : separated csvFormat = true := by decide
  obtain ⟨hshown, hrest⟩ := printf_append_inj h rfl hsep
  have hlines := congrArg (· ++ ([] : Text)) (List.append_cancel_left hrest)
  obtain ⟨hbitmap, -⟩ := bitmap_append_inj hlines
  simp only [csvFormat, shown, shown_u_u32, shown_llu, List.cons.injEq, and_true,
    Nat.cast_inj, BitVec.toNat_inj] at hshown
  obtain ⟨hlimit, hdrops, hpackets, hbytes, hnonIp, hillegal⟩ := hshown
  rw [SameCsv, hlimit, hnonIp, hillegal, hbitmap]
  cases htc : stats.tcStats with
  | mk bytes packets drops =>
      simp only [htc] at hdrops hpackets hbytes
      rw [hdrops, hpackets, hbytes]

/-- The report for readers shows what the one for programs does, and the rest. -/
theorem eq_of_pfabStatsProcSeqShow_eq
    (h : pfabStatsProcSeqShow stats = pfabStatsProcSeqShow stats') : stats = stats' := by
  have hsep : separated statsFormat = true := by decide
  obtain ⟨hshown, hrest⟩ := printf_append_inj h rfl hsep
  obtain ⟨hbitmap, hrest⟩ := bitmap_append_inj (List.append_cancel_left hrest)
  have hlines := congrArg (· ++ ([] : Text)) (List.append_cancel_left hrest)
  obtain ⟨hbands, -⟩ := perBandPacketCounter_append_inj hlines
  simp only [statsFormat, shown, shown_u_u32, shown_d_u32, shown_llu, List.cons.injEq, and_true,
    Nat.cast_inj, BitVec.toNat_inj, BitVec.toInt_inj] at hshown
  obtain ⟨hlimit, hdisable, hdrops, hpackets, hbytes, hnonIp, hillegal⟩ := hshown
  have hcsv : SameCsv stats stats' := by
    refine sameCsv_of_pfabCsvstatsProcSeqShow_eq ?_
    rw [pfabCsvstatsProcSeqShow, hlimit, hdrops, hpackets, hbytes, hnonIp, hillegal, hbitmap]
    rfl
  rw [SameCsv, ← hdisable, ← hbands] at hcsv
  exact hcsv.symm

/-- Two reports for readers are the same only if all the statistics are; two reports for
programs are the same if and only if the statistics agree but for the dequeue switch and
the distribution over the bands. -/
theorem reports_eq_iff (stats stats' : PfabStatData) :
    (pfabStatsProcSeqShow stats = pfabStatsProcSeqShow stats' ↔ stats = stats') ∧
      (pfabCsvstatsProcSeqShow stats = pfabCsvstatsProcSeqShow stats' ↔
        stats' = { stats with
          disableDequeue := stats'.disableDequeue
          perBandPacketCounter := stats'.perBandPacketCounter }) := by
  refine ⟨⟨eq_of_pfabStatsProcSeqShow_eq, fun h => h ▸ rfl⟩,
    ⟨sameCsv_of_pfabCsvstatsProcSeqShow_eq, fun h => ?_⟩⟩
  rw [h]
  rfl

end PFabric
