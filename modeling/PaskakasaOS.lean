import PaskakasaOS.Lib.ByteMemory
import PaskakasaOS.Lib.Layout
import PaskakasaOS.Lib.Runs
import PaskakasaOS.Lib.TableTree
import PaskakasaOS.Lib.TextLayout
import PaskakasaOS.Lib.AccessTrace
import PaskakasaOS.Kernel.Utils.Mem
import PaskakasaOS.Kernel.Utils.TerminalContents
import PaskakasaOS.Kernel.Memory.AddressSpace
import PaskakasaOS.Kernel.Memory.InitPaging
import PaskakasaOS.Kernel.Memory.HeapSafety
import PaskakasaOS.Kernel.ContextSwitch
import PaskakasaOS.Kernel.Printing
import PaskakasaOS.Kernel.Storage.ReadFile
import PaskakasaOS.Boot.MapKernel
import PaskakasaOS.Kernel.Memory.FrameRuns
import PaskakasaOS.Boot.SetupPmode
import PaskakasaOS.Kernel.Interrupts.EntryExit
import PaskakasaOS.Kernel.Utils.TerminalBounds
import PaskakasaOS.Kernel.Utils.Framebuffer
import PaskakasaOS.Kernel.Utils.Screen
import PaskakasaOS.Kernel.Memory.HeapContainment
import PaskakasaOS.Kernel.Storage.ReadTrace
import PaskakasaOS.Boot.Stage2
import PaskakasaOS.Boot.LoaderAgreement
import PaskakasaOS.Boot.LoaderPlacement
import PaskakasaOS.Kernel.Acpi
import PaskakasaOS.Kernel.AcpiCoverage
import PaskakasaOS.Lib.Orbits
import PaskakasaOS.Kernel.Memory.LeafEntry
import PaskakasaOS.Kernel.Memory.Exhaustion
import PaskakasaOS.Kernel.Memory.HeapNeighbours
import PaskakasaOS.Kernel.Memory.HeapTermination
import PaskakasaOS.Kernel.Memory.AllocRegion
import PaskakasaOS.Kernel.Storage.DirectoryScan
import PaskakasaOS.Kernel.Storage.ChainWalk
import PaskakasaOS.Lib.ByteCopy
import PaskakasaOS.Boot.LoaderMemmove
import PaskakasaOS.Kernel.Utils.Numbers
import PaskakasaOS.Kernel.Utils.Drawings
import PaskakasaOS.Kernel.Utils.PrintStrings
import PaskakasaOS.Kernel.Utils.FramebufferBounds
import PaskakasaOS.Kernel.AcpiRecords
import PaskakasaOS.Kernel.AcpiTraversal
import PaskakasaOS.Kernel.Utils.PrintXy
import PaskakasaOS.Lib.PackedRecord
import PaskakasaOS.Kernel.Interrupts.Idt
import PaskakasaOS.Kernel.Interrupts.Delivery
import PaskakasaOS.Boot.Install
import PaskakasaOS.Boot.SetupLongmode
import PaskakasaOS.Boot.HandOff
import PaskakasaOS.Kernel.Storage.AtaProtocol
import PaskakasaOS.Boot.ParseBpb
import PaskakasaOS.Kernel.Memory.FrameOwnership
import PaskakasaOS.Kernel.Utils.InstallFont
import PaskakasaOS.Kernel.Utils.Vesa
import PaskakasaOS.Kernel.Apic
import PaskakasaOS.Kernel.PrintBlocks
import PaskakasaOS.Kernel.Sound
import PaskakasaOS.Kernel.Interrupts.PageFault
import PaskakasaOS.Kernel.Spinlock
import PaskakasaOS.Kernel.Rotation
import PaskakasaOS.Kernel.Storage.FileReads
import PaskakasaOS.Boot.LoadedImage
import PaskakasaOS.Boot.FromFirmware
import PaskakasaOS.Kernel.Start
