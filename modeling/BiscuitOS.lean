import BiscuitOS.MachineWord
import BiscuitOS.TransitionRun
import BiscuitOS.WordBitmap
import BiscuitOS.LoopRun
import BiscuitOS.RangeWalk
import BiscuitOS.MemblockModel
import BiscuitOS.MemblockTable
import BiscuitOS.MemblockUpdate
import BiscuitOS.MemblockHistory
import BiscuitOS.MemblockRollback
import BiscuitOS.MemblockSearch
import BiscuitOS.MemblockAllocation
import BiscuitOS.MemblockDoubling
import BiscuitOS.PageModel
import BiscuitOS.CompoundBlock
import BiscuitOS.DyadicBlock
import BiscuitOS.ListTable
import BiscuitOS.BuddyModel
import BiscuitOS.BuddyInvariant
import BiscuitOS.BuddyBlock
import BiscuitOS.BuddyRemoval
import BiscuitOS.BuddyHistory
import BiscuitOS.BuddyPlacement
import BiscuitOS.PageblockFlags
import BiscuitOS.PageblockMoves
import BiscuitOS.MemMap
import BiscuitOS.MemmapTrim
import BiscuitOS.ZoneWatermark
import BiscuitOS.StrtoullContract
import BiscuitOS.HighmemSweep
import BiscuitOS.PcpModel
import BiscuitOS.PcpInvariant
import BiscuitOS.PcpLoops
import BiscuitOS.PcpHistory
import BiscuitOS.MempoolModel
import BiscuitOS.MempoolReserve
import BiscuitOS.ArrayWindow
import BiscuitOS.BlockTiling
import BiscuitOS.PercpuModel
import BiscuitOS.PercpuBlocks
import BiscuitOS.PercpuHistory
import BiscuitOS.PercpuFirst
import BiscuitOS.PercpuUndo
import BiscuitOS.BucketLists
import BiscuitOS.PercpuSlots
import BiscuitOS.PercpuSlotted
import BiscuitOS.PercpuSearch
import BiscuitOS.PercpuSearchHistory
import BiscuitOS.KmapModel
import BiscuitOS.KmapInvariant
import BiscuitOS.KmapHistory
import BiscuitOS.PageAddressModel
import BiscuitOS.PageAddressHistory
import BiscuitOS.AtomicKmaps
import BiscuitOS.PageRefs
import BiscuitOS.RadixModel
import BiscuitOS.RadixSpine
import BiscuitOS.RadixHistory
import BiscuitOS.RadixNodes
import BiscuitOS.ResourceTree
import BiscuitOS.ColorTree
import BiscuitOS.RbtreeModel
import BiscuitOS.RbtreeHeap
import BiscuitOS.RbtreeInsert
import BiscuitOS.RbtreeErase
import BiscuitOS.RbtreeWalk
import BiscuitOS.RbtreeIteration
import BiscuitOS.VmapModel
import BiscuitOS.RangeOrder
import BiscuitOS.VmapTree
import BiscuitOS.VmapSearch
import BiscuitOS.VmapHistory
import BiscuitOS.PcpuVmModel
import BiscuitOS.PcpuVmSearch
import BiscuitOS.PcpuVmAreas
import BiscuitOS.VmallocModel
import BiscuitOS.VmArea
import BiscuitOS.HeapOrder
import BiscuitOS.SortModel
import BiscuitOS.SortHeap
import BiscuitOS.SortOrder
import BiscuitOS.ParamsModel
import BiscuitOS.ParamsScan
import BiscuitOS.ParamsArg
import BiscuitOS.ParamsOptions
import BiscuitOS.ParamsDelivery
import BiscuitOS.MmuModel
import BiscuitOS.MmuStores
import BiscuitOS.MmuTranslation
import BiscuitOS.MmuMapping
import BiscuitOS.MmuContract
import BiscuitOS.MmuPieces
import BiscuitOS.MmuLowmem
import BiscuitOS.MeminfoModel
import BiscuitOS.MeminfoLimit
import BiscuitOS.MeminfoSort
import BiscuitOS.BootMemory
import BiscuitOS.ZoneHoles
import BiscuitOS.TruncatingSink
import BiscuitOS.VsprintfModel
import BiscuitOS.VsprintfDecimal
import BiscuitOS.VsprintfEmission
import BiscuitOS.VsprintfNumber
import BiscuitOS.VsprintfContract
import BiscuitOS.BootArch
import BiscuitOS.BootmemModel
import BiscuitOS.BootmemBootmap
import BiscuitOS.BootmemReserve
import BiscuitOS.BootmemSearch
import BiscuitOS.BootmemHandOver
import BiscuitOS.BootmemHistory
import BiscuitOS.BootRelease
import BiscuitOS.KmallocHistory
import BiscuitOS.BitSearch
import BiscuitOS.BitmapStorage
import BiscuitOS.BitmapText
import BiscuitOS.ApplyRange
import BiscuitOS.BootPageset
import BiscuitOS.ZonelistHistory
import BiscuitOS.VmapTables
import BiscuitOS.VmapRoundTrip
import BiscuitOS.VreadModel
import BiscuitOS.VreadContract
import BiscuitOS.VwriteModel
import BiscuitOS.VwriteContract
import BiscuitOS.VmapLazy
import BiscuitOS.ByteMemory
import BiscuitOS.SlubLayout
import BiscuitOS.SlubSizes
import BiscuitOS.SlubFreelist
