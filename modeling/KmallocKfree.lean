import KmallocKfree.ByteMemory
import KmallocKfree.Program
import KmallocKfree.Footprint
import KmallocKfree.LinkedWalk
import KmallocKfree.MachineInt
import KmallocKfree.Regions
import KmallocKfree.Layout
import KmallocKfree.Records
import KmallocKfree.Pmm
import KmallocKfree.Loops
import KmallocKfree.Heap
import KmallocKfree.Coalesce
import KmallocKfree.HeapFree
import KmallocKfree.Rounding
import KmallocKfree.Pages
import KmallocKfree.PageList
import KmallocKfree.PageRelease
import KmallocKfree.PageFree
import KmallocKfree.Runs
import KmallocKfree.Interleaving
import KmallocKfree.World
import KmallocKfree.Shape
import KmallocKfree.Invariant
import KmallocKfree.Kalloc
import KmallocKfree.KallocHuge
import KmallocKfree.LocalCalls
import KmallocKfree.Kfree
import KmallocKfree.Step
import KmallocKfree.Boot
import KmallocKfree.ShapeRuns
import KmallocKfree.SmallRuns
import KmallocKfree.MixedRuns
import KmallocKfree.AbstractAllocator
import KmallocKfree.ModelRuns
import KmallocKfree.LargeRuns
import KmallocKfree.Lengths
import KmallocKfree.Coverage
import KmallocKfree.Alignment
import KmallocKfree.Returns
import KmallocKfree.EmptyPages
import KmallocKfree.Carving
import KmallocKfree.OneBlock
import KmallocKfree.FullPages
import KmallocKfree.RecycledPages
import KmallocKfree.Commuting
import KmallocKfree.LockDiscipline
import KmallocKfree.Numerals
import KmallocKfree.Stdio
import KmallocKfree.Formats
import KmallocKfree.Completion
import KmallocKfree.Truncation
import KmallocKfree.Rounds
import KmallocKfree.PrintfAgreement
import KmallocKfree.FormatBounds
import KmallocKfree.IntegerOutput
import KmallocKfree.HexOutput
import KmallocKfree.Assignments
import KmallocKfree.Strings
import KmallocKfree.Copies
import KmallocKfree.TerminatedStrings
import KmallocKfree.Comparison
import KmallocKfree.BoundedComparison
import KmallocKfree.FieldCopy
import KmallocKfree.Atomicity
import KmallocKfree.HeapSections
import KmallocKfree.Sessions
import KmallocKfree.Linearizability
import KmallocKfree.Sharing
import KmallocKfree.Ledger
import KmallocKfree.OwnPages
import KmallocKfree.HeapLedger
import KmallocKfree.SharedKalloc
import KmallocKfree.SharedKfree
import KmallocKfree.Interplay
import KmallocKfree.Encounters
import KmallocKfree.RestoringDivision
import KmallocKfree.Int64
import KmallocKfree.LongDivision
import KmallocKfree.UnsignedDivision
import KmallocKfree.SignedDivision
import KmallocKfree.BitCounts
import KmallocKfree.BitFields
import KmallocKfree.ZeroCounts
import KmallocKfree.TableForest
import KmallocKfree.Vme
import KmallocKfree.PageTables
import KmallocKfree.AddressSpaces
import KmallocKfree.PageWalk
import KmallocKfree.Translation
import KmallocKfree.Mappings
import KmallocKfree.Teardown
import KmallocKfree.FallibleRuns
import KmallocKfree.Startup
import KmallocKfree.KernelTables
import KmallocKfree.SpaceRuns
import KmallocKfree.VmeInit
import KmallocKfree.Accounting
import KmallocKfree.ByteCopies
import KmallocKfree.BootLoader
import KmallocKfree.KernelImage
import KmallocKfree.Congruential
import KmallocKfree.Rand
import KmallocKfree.Atoi
