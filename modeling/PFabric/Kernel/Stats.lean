import PFabric.Kernel.Data
import PFabric.Support.Printf

/-!
# Statistics

`stats.c` shows the statistics of a device in two proc entries, one for programs and
one for readers.  Both reports are modeled as the text that `seq_printf` writes, each
format as the list of its texts and conversions.

The names of the entries are printed into a buffer with `snprintf`, which keeps at
most `MAX_PROC_NAME_LEN - 1` characters.  Whether a call of `create_proc_entry`
succeeds is the kernel's choice; it is a parameter here.
-/

namespace PFabric

open Printf

/-! ## The report for programs -/

/-- The heading and the data line of the report. -/
def csvFormat : List Piece :=
  [.lit "limit,\tdropped,\tenqueues,\tdequeues,\tnon-ip packets,\tillegal priority\n",
    .conv .u, .lit ",\t", .conv .u, .lit ",\t\t", .conv .u, .lit ",\t\t", .conv .llu,
    .lit ",\t\t", .conv .u, .lit "\t\t", .conv .u, .lit "\n"]

/-- `pfab_csvstats_proc_seq_show`. -/
def pfabCsvstatsProcSeqShow (stats : PfabStatData) : Text :=
  printf csvFormat
      [u32 stats.limit, u32 stats.tcStats.drops, u32 stats.tcStats.packets, stats.tcStats.bytes,
        u32 stats.nonIpPacketCounter, u32 stats.illegalPrioOccurance] ++
    (printf [.lit "bitmap\n"] [] ++
      (List.finRange bitmapSize).flatMap fun i =>
        printf [.conv .x08, .lit "\n"] [u32 (stats.bitmap i)])

/-! ## The report for readers -/

/-- The lines in front of the bitmap. -/
def statsFormat : List Piece :=
  [.lit "limit: ", .conv .u, .lit "\ndisable_dequeue: ", .conv .d, .lit "\ndropped:", .conv .u,
    .lit "\npackets:", .conv .u, .lit "\nbytes:", .conv .llu, .lit "\nNon-IP packets: ",
    .conv .u, .lit "\nillegal priority occurances: ", .conv .u, .lit "\n"]

/-- `pfab_stats_proc_seq_show`. -/
def pfabStatsProcSeqShow (stats : PfabStatData) : Text :=
  printf statsFormat
      [u32 stats.limit, u32 stats.disableDequeue, u32 stats.tcStats.drops,
        u32 stats.tcStats.packets, stats.tcStats.bytes, u32 stats.nonIpPacketCounter,
        u32 stats.illegalPrioOccurance] ++
    (printf [.lit "bitmap:\n"] [] ++
      ((List.finRange bitmapSize).flatMap (fun i =>
          printf [.conv .x08, .lit "\n"] [u32 (stats.bitmap i)]) ++
        (printf [.lit "Packet distribution across bands:\n"] [] ++
          (List.finRange numBands).flatMap fun i : Band =>
            printf [.lit "Band ", .conv .u, .lit ": ", .conv .u, .lit "\n"]
              [u32 (BitVec.ofNat 32 i), u32 (stats.perBandPacketCounter i)])))

/-! ## Names and registration -/

/-- `MAX_PROC_NAME_LEN`. -/
def maxProcNameLen : ℕ := 255

/-- `snprintf(proc_name, MAX_PROC_NAME_LEN, fmt, suffix)` for a format which
ends in its only `%s`. -/
def procName (fmt suffix : String) : String :=
  String.ofList ((fmt ++ suffix).toList.take (maxProcNameLen - 1))

/-- `PFAB_STATS_PROC_NAME` filled in. -/
def pfabStatsProcName (suffix : String) : String :=
  procName "pfabric_stats_" suffix

/-- `PFAB_CSVSTATS_PROC_NAME` filled in. -/
def pfabCsvstatsProcName (suffix : String) : String :=
  procName "pfabric_stats_csv_" suffix

/-- A successful `create_proc_entry`. -/
def createProcEntry (name : String) (kern : Kernel) : Kernel :=
  { kern with procEntries := insert name kern.procEntries }

/-- `remove_proc_entry`. -/
def removeProcEntry (name : String) (kern : Kernel) : Kernel :=
  { kern with procEntries := kern.procEntries.erase name }

/-- `pfab_stats_init`; `created` tells which of its `create_proc_entry` calls
return an entry. -/
def pfabStatsInit (suffix : String) (created : String → Bool) (kern : Kernel) :
    ℤ × Kernel :=
  let name := pfabStatsProcName suffix
  if created name then
    let kern := createProcEntry name kern
    let name := pfabCsvstatsProcName suffix
    if created name then (0, createProcEntry name kern)
    else (1, removeProcEntry name kern)
  else (1, kern)

/-- `pfab_stats_exit`. -/
def pfabStatsExit (suffix : String) (kern : Kernel) : Kernel :=
  removeProcEntry (pfabCsvstatsProcName suffix)
    (removeProcEntry (pfabStatsProcName suffix) kern)

/-- Registering the entries touches neither the statistics nor any packet. -/
theorem pfabStatsInit_frame (suffix : String) (created : String → Bool)
    (kern : Kernel) :
    (pfabStatsInit suffix created kern).2.pfabStats = kern.pfabStats ∧
      (pfabStatsInit suffix created kern).2.freed = kern.freed := by
  unfold pfabStatsInit
  dsimp only
  split_ifs
  · exact ⟨rfl, rfl⟩
  · exact ⟨rfl, rfl⟩
  · exact ⟨rfl, rfl⟩

end PFabric
