import Crows.Lib.Memory
import Crows.Lib.Checksum
import Crows.Lib.BlockDevice
import Crows.Lib.Loop
import Crows.Lib.Transition
import Crows.Lib.RegionJobs
import Crows.Lib.NulString
import Crows.Lib.Pool
import Crows.Lib.CopyForward
import Crows.Lib.Blocks
import Crows.Lib.ByteField
import Crows.Lib.Chaining
import Crows.Boot.Efi
import Crows.Boot.Mftah
import Crows.Boot.RamDisk
import Crows.Boot.RamDiskRuns
import Crows.Boot.RamDisks
import Crows.Boot.Payload
import Crows.Boot.Threading
import Crows.Boot.ThreadingJobs
import Crows.Boot.ThreadingOrders
import Crows.Boot.ThreadingSpin
import Crows.Boot.ThreadingProcessors
import Crows.Boot.ThreadingSync
import Crows.Boot.ThreadingRuns
import Crows.Boot.ThreadingProgress
import Crows.Boot.ThreadingInit
import Crows.Boot.MemMove
import Crows.Boot.Discover
import Crows.Boot.Sha256
import Crows.Boot.Sha256Standard
import Crows.Boot.Aes
import Crows.Boot.AesCbc
import Crows.Boot.Input
import Crows.Boot.Select
import Crows.Boot.Menu
import Crows.Boot.Jump
import Crows.Boot.Register
import Crows.Boot.Nfit
import Crows.Boot.MapSearch
import Crows.Boot.Geometry
import Crows.Kernel.Multiboot
import Crows.Kernel.SeekSafety
import Crows.Kernel.Str
import Crows.Kernel.Uart
import Crows.Kernel.Init
import Crows.Kernel.Scan
import Crows.Kernel.MemoryHole
import Crows.Kernel.BootLines
import Crows.Boot.Line
import Crows.Boot.LineString
import Crows.Boot.InputBounds
import Crows.Boot.Loading
import Crows.Boot.LoaderHash
import Crows.Boot.Password
import Crows.Boot.Main
import Crows.Boot.Hints
import Crows.Boot.HandOver
import Crows.Kernel.MapSafety
import Crows.Lib.Numerals
import Crows.Kernel.Scratch
import Crows.Kernel.Snprintf
import Crows.Kernel.Formats
import Crows.Kernel.Conversions
import Crows.Kernel.FormatScan
import Crows.Boot.Nfit
import Crows.Boot.MapSearch
import Crows.Boot.Geometry
import Crows.Lib.ByteField
import Crows.Lib.Chaining
import Crows.Kernel.Serial
