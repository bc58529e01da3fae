import Gem5Cxl.EventQueueRun
import Gem5Cxl.CxlWindow
import Gem5Cxl.Llsc
import Gem5Cxl.PioPort
import Gem5Cxl.BridgeResponse
import Gem5Cxl.RenameConserve
import Gem5Cxl.RenameRollback
import Gem5Cxl.SnoopSound
import Gem5Cxl.MessageBufferRun
import Gem5Cxl.MemCtrlRun
import Gem5Cxl.MsiRun
import Gem5Cxl.PmpCheck
import Gem5Cxl.FutexMap
import Gem5Cxl.CircleBufRun
import Gem5Cxl.XbarLayer
import Gem5Cxl.DmaPortReach
import Gem5Cxl.DmaReadFifoRun
import Gem5Cxl.EventQueueTime
import Gem5Cxl.EventCheckpoint
import Gem5Cxl.AddrRangeInverse
import Gem5Cxl.XbarMap
import Gem5Cxl.VirtQueue
import Gem5Cxl.DiskImage
import Gem5Cxl.FaLruRun
import Gem5Cxl.BridgeDecode
import Gem5Cxl.BridgeReadback
import Gem5Cxl.BridgeBars
import Gem5Cxl.BridgeComplement
import Gem5Cxl.PciBars
import Gem5Cxl.TransmitQueueRun
import Gem5Cxl.MemBridgeRun
import Gem5Cxl.MshrQueueRun
import Gem5Cxl.CompressorBounds
import Gem5Cxl.MshrFlags
import Gem5Cxl.AddrRangeSets
import Gem5Cxl.PciConfig
import Gem5Cxl.PciHost
import Gem5Cxl.PacketFunctional
import Gem5Cxl.Huffman
import Gem5Cxl.IntMath
import Gem5Cxl.Rob
import Gem5Cxl.DramDecode
import Gem5Cxl.TreePlru
