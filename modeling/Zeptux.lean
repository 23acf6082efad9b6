import Zeptux.E820Passes
import Zeptux.PageShape
import Zeptux.PageDump
import Zeptux.Log
import Zeptux.PhysConcurrent
import Zeptux.PhysOwned
import Zeptux.PhysStats
import Zeptux.Range
import Zeptux.PhysInverse
import Zeptux.Early
import Zeptux.MemMap
import Zeptux.EarlyExclusive
import Zeptux.KernelElf
import Zeptux.EarlyContiguous
import Zeptux.EarlyMetadata
import Zeptux.BitmapRuns
import Zeptux.BitmapSet
import Zeptux.Lists
import Zeptux.FormatHuman
import Zeptux.Kmalloc
import Zeptux.Loader
import Zeptux.Video
import Zeptux.ZbuildStrings
import Zeptux.ZbuildErrors
import Zeptux.ZbuildRebuild
import Zeptux.ZbuildStatements
import Zeptux.ZbuildOutputs
import Zeptux.ZbuildFlags
import Zeptux.PhysProcessors
import Zeptux.BootE820
import Zeptux.EarlyTables
