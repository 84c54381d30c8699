import ItxLlama.Lib.Nor
import ItxLlama.Lib.Word
import ItxLlama.Lib.Ranges
import ItxLlama.Lib.Holes
import ItxLlama.Lib.Hlist
import ItxLlama.Lib.Carve
import ItxLlama.Lib.Ring
import ItxLlama.Lib.Glob
import ItxLlama.Lib.Tiling
import ItxLlama.Lib.StableInsert
import ItxLlama.Lib.Overlay
import ItxLlama.Lib.Successor
import ItxLlama.Libpayload.Malloc
import ItxLlama.Libpayload.HeapBlocks
import ItxLlama.Libpayload.HeapObjects
import ItxLlama.Libpayload.HeapRegions
import ItxLlama.Libpayload.HeapRuns
import ItxLlama.Libpayload.HeapRealloc
import ItxLlama.Libpayload.HeapMemalign
import ItxLlama.Lib.FirstFit
import ItxLlama.Lib.Buffer
import ItxLlama.Lib.Bytes
import ItxLlama.Lib.Checked
import ItxLlama.Lib.Tally
import ItxLlama.Llama.SpiFlash
import ItxLlama.Llama.BiosSettings
import ItxLlama.Llama.SettingsPersist
import ItxLlama.Llama.MenuTable
import ItxLlama.Llama.BiosMenu
import ItxLlama.Llama.MenuRuns
import ItxLlama.Llama.MenuCursor
import ItxLlama.Seabios.Memmap
import ItxLlama.Seabios.MemmapLaws
import ItxLlama.Seabios.MemmapOverflow
import ItxLlama.Seabios.Disk
import ItxLlama.Seabios.DiskDrivers
import ItxLlama.Seabios.DiskBounds
import ItxLlama.Seabios.DiskTransfer
import ItxLlama.Seabios.DiskCounts
import ItxLlama.Seabios.Malloc
import ItxLlama.Seabios.MallocList
import ItxLlama.Seabios.MallocZones
import ItxLlama.Seabios.MallocRep
import ItxLlama.Seabios.MallocSpec
import ItxLlama.Seabios.MallocOps
import ItxLlama.Seabios.MallocAdd
import ItxLlama.Seabios.MallocSafety
import ItxLlama.Seabios.MallocLeak
import ItxLlama.Seabios.MallocSpace
import ItxLlama.Seabios.PmmRuns
import ItxLlama.Seabios.RomArea
import ItxLlama.Seabios.SmbiosNext
import ItxLlama.Seabios.UsbConfig
import ItxLlama.Seabios.UsbConfigLaws
import ItxLlama.Seabios.UsbHub
import ItxLlama.Seabios.EhciBulk
import ItxLlama.Seabios.UsbPeriodic
import ItxLlama.Seabios.MallocPrepboot
import ItxLlama.Seabios.Kbd
import ItxLlama.Seabios.KbdQueue
import ItxLlama.Seabios.KbdFlags
import ItxLlama.Seabios.Threads
import ItxLlama.Seabios.ThreadLaws
import ItxLlama.Seabios.ThreadRuns
import ItxLlama.Seabios.BootOrder
import ItxLlama.Seabios.BootLoad
import ItxLlama.Seabios.BootPaths
import ItxLlama.Seabios.BootPriority
import ItxLlama.Seabios.BootList
import ItxLlama.Seabios.BootPrep
import ItxLlama.Seabios.PciProbe
import ItxLlama.Seabios.Snprintf
import ItxLlama.Llama.SettingsIndexes
import ItxLlama.Llama.Cs4237
import ItxLlama.Llama.FanDisplay
import ItxLlama.Coreboot.Memrange
import ItxLlama.Coreboot.MemrangeLaws
import ItxLlama.Coreboot.MemrangeHoles
import ItxLlama.Coreboot.Cbmem
import ItxLlama.Coreboot.DynamicCbmem
import ItxLlama.Coreboot.DynamicCbmemLaws
import ItxLlama.Coreboot.SelfBoot
import ItxLlama.Coreboot.SelfBootPlacement
import ItxLlama.Coreboot.SelfBootPieces
import ItxLlama.Coreboot.SelfBootLoad
import ItxLlama.Coreboot.CbfsImage
import ItxLlama.Coreboot.CbfsCreate
import ItxLlama.Coreboot.CbfsCore
import ItxLlama.Seabios.CbfsFiles
import ItxLlama.Seabios.CbfsReaders
import ItxLlama.Seabios.CbfsWalks
import ItxLlama.Seabios.OptionRoms
import ItxLlama.Coreboot.TimerQueueLaws
import ItxLlama.Seabios.UsbHid
import ItxLlama.Seabios.UsbHidLaws
import ItxLlama.Seabios.UsbHidRuns
import ItxLlama.Seabios.UsbHidPush
import ItxLlama.Seabios.Clock
import ItxLlama.Seabios.ClockRuns
import ItxLlama.Coreboot.CmosOptionStore
import ItxLlama.Coreboot.MkPayloadRoundTrip
import ItxLlama.Coreboot.SmbiosTables
import ItxLlama.Coreboot.LowMemory
import ItxLlama.Coreboot.AllocateLaws
import ItxLlama.Coreboot.LargestResource
import ItxLlama.Coreboot.PciWindows
import ItxLlama.Seabios.Ps2Session
import ItxLlama.Seabios.Mouse
import ItxLlama.Seabios.FloppyCalls
import ItxLlama.Seabios.Ticks
import ItxLlama.Seabios.TickTimers
import ItxLlama.Seabios.TimerRead
import ItxLlama.Seabios.DiskGeometry
import ItxLlama.Seabios.KbdPrefix
import ItxLlama.Seabios.Edd
import ItxLlama.Seabios.Ahci
import ItxLlama.Seabios.CdemuRead
import ItxLlama.Coreboot.BootStates
import ItxLlama.Coreboot.IpChecksum
import ItxLlama.Coreboot.FixedMtrr
import ItxLlama.Coreboot.CmosRtc
import ItxLlama.Coreboot.RmoduleRight
import ItxLlama.Coreboot.MkStageRight
import ItxLlama.Lib.Table
import ItxLlama.Seabios.OhciIntr
import ItxLlama.Seabios.EhciIntrRight
import ItxLlama.Seabios.XhciRuns
import ItxLlama.Coreboot.CbmemConsoleRuns
import ItxLlama.Coreboot.VarMtrrTypes
import ItxLlama.Seabios.UsbAddress
import ItxLlama.Coreboot.CoopThreadsLaws
