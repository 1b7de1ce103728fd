import UBoot.AddrMap
import UBoot.Atags
import UBoot.AutoComplete
import UBoot.Autoboot
import UBoot.Blit
import UBoot.Blocks
import UBoot.BoardFlash
import UBoot.Bootm
import UBoot.Bootp
import UBoot.BootpInside
import UBoot.BootpOptions
import UBoot.BootpReplies
import UBoot.ByteWords
import UBoot.CString
import UBoot.Cdp
import UBoot.Cells
import UBoot.CfiExact
import UBoot.CfiFlash
import UBoot.CfiGeometry
import UBoot.CfiGeometryTiles
import UBoot.CfiStatus
import UBoot.CfiWrites
import UBoot.Circbuf
import UBoot.CommonPrefix
import UBoot.CountLoop
import UBoot.Crc32
import UBoot.CreadHolds
import UBoot.CreadIdeal
import UBoot.CreadLine
import UBoot.CreadRuns
import UBoot.CursorText
import UBoot.Dns
import UBoot.DnsAnswers
import UBoot.Dnw
import UBoot.DnwRuns
import UBoot.EnvCrc
import UBoot.EnvEdits
import UBoot.EnvFlash
import UBoot.EnvFlashRuns
import UBoot.EnvFlashSteps
import UBoot.EnvLookup
import UBoot.EnvNand
import UBoot.EnvNandRuns
import UBoot.EnvNandSave
import UBoot.EnvNandTrip
import UBoot.EnvRefine
import UBoot.EnvScan
import UBoot.EnvSet
import UBoot.Eth
import UBoot.Extents
import UBoot.Fat
import UBoot.FatCache
import UBoot.FatContents
import UBoot.FatDirectory
import UBoot.FatEnds
import UBoot.FatEntries
import UBoot.FatLongNames
import UBoot.FatNames
import UBoot.FatRead
import UBoot.FatRoot
import UBoot.FatSubdirectory
import UBoot.FatTermination
import UBoot.FatVolume
import UBoot.Fdt
import UBoot.FdtEdit
import UBoot.FdtFixup
import UBoot.FdtMemory
import UBoot.FdtNodes
import UBoot.FdtProps
import UBoot.FdtTags
import UBoot.FdtTree
import UBoot.FindSector
import UBoot.FlashCells
import UBoot.FlashErase
import UBoot.FlashEraseWalk
import UBoot.FlashWrite
import UBoot.FwEnv
import UBoot.FwFlash
import UBoot.FwFlashExact
import UBoot.GoodSpace
import UBoot.HistoryRuns
import UBoot.Hwconfig
import UBoot.HwconfigAnswers
import UBoot.HwconfigQueries
import UBoot.HwconfigScan
import UBoot.Iomux
import UBoot.Jffs2Cache
import UBoot.Jffs2Dirent
import UBoot.Jffs2Inode
import UBoot.Jffs2Lists
import UBoot.Jffs2Memory
import UBoot.Jffs2Scan
import UBoot.Jffs2ScanFinds
import UBoot.Jffs2ScanNodes
import UBoot.Jffs2ScanRuns
import UBoot.Jffs2ScanSteps
import UBoot.Kermit
import UBoot.KermitErrors
import UBoot.KermitPackets
import UBoot.KermitRuns
import UBoot.KeyOrder
import UBoot.Kwbimage
import UBoot.Lcd
import UBoot.Linked
import UBoot.Lmb
import UBoot.LmbAdd
import UBoot.LmbAlloc
import UBoot.LmbAllocExact
import UBoot.LmbAllocRuns
import UBoot.LmbFree
import UBoot.LmbRuns
import UBoot.Loops
import UBoot.Macros
import UBoot.MemSize
import UBoot.MemmoveWd
import UBoot.MtdBuffer
import UBoot.MtdCmds
import UBoot.MtdCommands
import UBoot.MtdCurrent
import UBoot.MtdCurrentRuns
import UBoot.MtdDevices
import UBoot.MtdGenerate
import UBoot.MtdParse
import UBoot.MtdParts
import UBoot.MtdPrinted
import UBoot.MtdReread
import UBoot.MtdRoundTrip
import UBoot.MtdSane
import UBoot.MtdState
import UBoot.MtdTidy
import UBoot.Mtest
import UBoot.MultiImage
import UBoot.NandBoot
import UBoot.NandChip
import UBoot.NandCmd
import UBoot.NandErase
import UBoot.NandErased
import UBoot.NandMode
import UBoot.NandOob
import UBoot.NandPartition
import UBoot.NandReadSkipBad
import UBoot.NandRoundTrip
import UBoot.NandSkipBad
import UBoot.NandSkipBadLoop
import UBoot.NandSkipBadSafe
import UBoot.NetDefragSafe
import UBoot.NetFixHoles
import UBoot.NetGaps
import UBoot.NetHandler
import UBoot.NetHoles
import UBoot.NetPing
import UBoot.NetReassembly
import UBoot.NetReassemblyRuns
import UBoot.NetSteps
import UBoot.Nfs
import UBoot.NfsCopies
import UBoot.NfsInside
import UBoot.NfsRuns
import UBoot.NfsServer
import UBoot.NfsSteps
import UBoot.OnesSum
import UBoot.ParseLine
import UBoot.PartAmiga
import UBoot.PartAmigaEnds
import UBoot.PartDos
import UBoot.PartDosExact
import UBoot.PartDosWalk
import UBoot.PartEfi
import UBoot.PartIso
import UBoot.PartTotal
import UBoot.Ring
import UBoot.Runs
import UBoot.S3cNand
import UBoot.S3cNandRoundTrip
import UBoot.SRecord
import UBoot.SRecordAccepted
import UBoot.SRecordTrip
import UBoot.Scatter
import UBoot.ShiftRegister
import UBoot.Slices
import UBoot.Stdio
import UBoot.Terminal
import UBoot.TestCmd
import UBoot.TextScan
import UBoot.TreeWalk
import UBoot.Update
import UBoot.UsbConfig
import UBoot.UsbEp0
import UBoot.UsbEp0Runs
import UBoot.UsbStor
import UBoot.UsbStorRuns
import UBoot.UsbStorScan
import UBoot.UsbTransfer
import UBoot.Usbtty
import UBoot.VideoBitmap
import UBoot.VideoConsole
import UBoot.Words
import UBoot.YaffsImage
import UBoot.YaffsWrite
