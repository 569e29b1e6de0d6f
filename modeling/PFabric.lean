import PFabric.Support.Runs
import PFabric.Support.BitScan
import PFabric.Support.Lanes
import PFabric.Support.StableQueue
import PFabric.Support.Memory
import PFabric.Support.Attributes
import PFabric.Support.SlotSchedule
import PFabric.Support.Comprehension
import PFabric.Support.Text
import PFabric.Support.Numerals
import PFabric.Support.Printf
import PFabric.Support.FileTree
import PFabric.Support.SharedLists
import PFabric.Support.Jobs
import PFabric.Kernel.Data
import PFabric.Kernel.Bitmap
import PFabric.Kernel.Stats
import PFabric.Kernel.Qdisc
import PFabric.Kernel.Machine
import PFabric.Kernel.Module
import PFabric.Tc.Handles
import PFabric.Tc.Netlink
import PFabric.Tc.Options
import PFabric.Tc.Modify
import PFabric.Kernel.Dump
import PFabric.Experiment.Ideal
import PFabric.Experiment.Runner
import PFabric.Experiment.Processes
import PFabric.Experiment.SetUp
import PFabric.Experiment.Evaluation
import PFabric.Buffer.Model
import PFabric.Buffer.Refinement
import PFabric.Buffer.Steps
import PFabric.Guarantees.BitmapSets
import PFabric.Guarantees.Occupancy
import PFabric.Guarantees.Counter
import PFabric.Guarantees.Order
import PFabric.Guarantees.Drain
import PFabric.Guarantees.Overrun
import PFabric.Guarantees.Conservation
import PFabric.Guarantees.Waiting
import PFabric.Guarantees.Classification
import PFabric.Guarantees.Accounting
import PFabric.Guarantees.Reference
import PFabric.Guarantees.Bounded
import PFabric.Guarantees.Precedence
import PFabric.Guarantees.Room
import PFabric.Guarantees.Inclusion
import PFabric.Guarantees.Custody
import PFabric.Guarantees.Restart
import PFabric.Guarantees.Isolation
import PFabric.Guarantees.Backlog
import PFabric.Guarantees.Diagnostics
import PFabric.Guarantees.CsvReport
import PFabric.Guarantees.SharedStats
import PFabric.Guarantees.Report
import PFabric.Guarantees.ProcEntries
import PFabric.Guarantees.ProcNames
import PFabric.Guarantees.FrontEnd
import PFabric.Guarantees.PrintedOptions
import PFabric.Guarantees.Dumped
import PFabric.Guarantees.Handles
import PFabric.Guarantees.SetUp
import PFabric.Guarantees.IdealSchedule
import PFabric.Guarantees.ResultFiles
import PFabric.Guarantees.Processes
import PFabric.Guarantees.FlowPriorities
import PFabric.Guarantees.Normalization
import PFabric.Guarantees.Averages
