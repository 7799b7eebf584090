import PolarisTrade.Lib.Word
import PolarisTrade.Lib.SortedMap
import PolarisTrade.Lib.Machine
import PolarisTrade.Lib.Script
import PolarisTrade.Transport
import PolarisTrade.MoldUdp.Types
import PolarisTrade.MoldUdp.Wire
import PolarisTrade.MoldUdp.Gap
import PolarisTrade.MoldUdp.Reassembly
import PolarisTrade.MoldUdp.Ab
import PolarisTrade.MoldUdp.Receiver
import PolarisTrade.MoldUdp.Decode
import PolarisTrade.MoldUdp.Recv
import PolarisTrade.MoldUdp.Inline
import PolarisTrade.MoldUdp.Delivery
import PolarisTrade.MoldUdp.InOrder
import PolarisTrade.MoldUdp.Window
import PolarisTrade.MoldUdp.Complete
import PolarisTrade.MoldUdp.Tracking
import PolarisTrade.MoldUdp.Accounting
import PolarisTrade.MoldUdp.Recovery
import PolarisTrade.MoldUdp.Noticing
import PolarisTrade.MoldUdp.Refusals
import PolarisTrade.MoldUdp.Calls
import PolarisTrade.MoldUdp.Confirm
import PolarisTrade.MoldUdp.ReportOnce
import PolarisTrade.Lib.Ranges
import PolarisTrade.MoldUdp.GapSet
import PolarisTrade.MoldUdp.ArbiterSet
import PolarisTrade.MoldUdp.Admission
import PolarisTrade.MoldUdp.Malformed
import PolarisTrade.Lib.Span
import PolarisTrade.MoldUdp.Emitter
import PolarisTrade.MoldUdp.RateLimit
import PolarisTrade.MoldUdp.Arithmetic
import PolarisTrade.MoldUdp.Idle
import PolarisTrade.MoldUdp.PoolSize
import PolarisTrade.MoldUdp.Blocks
import PolarisTrade.MoldUdp.Chunks
import PolarisTrade.MoldUdp.Staging
import PolarisTrade.MoldUdp.RingRuns
import PolarisTrade.IndexPool
import PolarisTrade.Decap
import PolarisTrade.Decap.Encoding
import PolarisTrade.Bypass
import PolarisTrade.Decap.Queue
import PolarisTrade.VecPool
import PolarisTrade.Socket.Recv
import PolarisTrade.Lib.RingBuffer
import PolarisTrade.Lib.Ebpf
import PolarisTrade.Afxdp.Ring
import PolarisTrade.Afxdp.Filling
import PolarisTrade.Afxdp.Draining
import PolarisTrade.Afxdp.Fifo
import PolarisTrade.Afxdp.Driver
import PolarisTrade.Afxdp.Slots
import PolarisTrade.Afxdp.Program
import PolarisTrade.IoUring.Completion
import PolarisTrade.IoUring.RingMem
import PolarisTrade.IoUring.Driver
import PolarisTrade.IoUring.System
import PolarisTrade.IoUring.Armed
import PolarisTrade.IoUring.Slots
import PolarisTrade.IoUring.Starved
import PolarisTrade.IoUring.Runs
import PolarisTrade.IoUring.Freed
import PolarisTrade.Lib.Framing
import PolarisTrade.SoupBin.Wire
import PolarisTrade.SoupBin.Session
import PolarisTrade.SoupBin.Client
import PolarisTrade.SoupBin.Outbound
import PolarisTrade.SoupBin.Lifecycle
import PolarisTrade.SoupBin.Inbound
import PolarisTrade.SoupBin.Segmentation
import PolarisTrade.SoupBin.Async
import PolarisTrade.SoupBin.Deadlines
import PolarisTrade.Lib.Text
import PolarisTrade.SoupBin.Fields
import PolarisTrade.Lib.Inflate
import PolarisTrade.SoupBin.Compressed
import PolarisTrade.Lib.Compact
import PolarisTrade.Dpdk.Settle
import PolarisTrade.Dpdk.Driver
import PolarisTrade.Dpdk.Mbufs
import PolarisTrade.SoupBin.Final
import PolarisTrade.SoupBin.Resume
import PolarisTrade.SoupBin.Managed
import PolarisTrade.MoldUdp.Exchange
import PolarisTrade.Lib.Memory
import PolarisTrade.Afxdp.Path
import PolarisTrade.Afxdp.Receive
import PolarisTrade.IoUring.Region
import PolarisTrade.Dpdk.Arrivals
import PolarisTrade.Lib.Lender
import PolarisTrade.MoldUdp.InPlace
import PolarisTrade.MoldUdp.OverAfxdp
