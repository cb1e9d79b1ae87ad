import Vessel.Prog
import Vessel.Interleave
import Vessel.Machine
import Vessel.Counter
import Vessel.Buckets
import Vessel.Bitmap
import Vessel.BitWords
import Vessel.Serial
import Vessel.IndexedHeap
import Vessel.Ring
import Vessel.SlotRing
import Vessel.Parking
import Vessel.Pieces
import Vessel.Lrpc
import Vessel.LrpcFifo
import Vessel.CoreConn
import Vessel.Sched
import Vessel.SchedInvariant
import Vessel.Csched
import Vessel.Handshake
import Vessel.RunRequests
import Vessel.ClusterExclusion
import Vessel.ClusterRegistry
import Vessel.Simple
import Vessel.SimpleAgreement
import Vessel.SimpleGuarantee
import Vessel.Ias
import Vessel.IasSlots
import Vessel.IasInit
import Vessel.IasPreempt
import Vessel.Numa
import Vessel.ChunkAlloc
import Vessel.ChunkInvariant
import Vessel.ChunkExit
import Vessel.HugeRegion
import Vessel.Shm
import Vessel.StartAlloc
import Vessel.Clients
import Vessel.ClientsInvariant
import Vessel.ClientsLife
import Vessel.Mutex
import Vessel.MutexInvariant
import Vessel.RwMutex
import Vessel.ReentrantMutex
import Vessel.Condvar
import Vessel.Transport
import Vessel.Arp
import Vessel.ArpInvariant
import Vessel.Udp
import Vessel.Timer
import Vessel.TimerInvariant
import Vessel.TimerOrder
import Vessel.Rcu
import Vessel.RcuGrace
import Vessel.RunQueue
import Vessel.RunQueueConserve
import Vessel.RunQueueSteal
import Vessel.StealScan
import Vessel.LfQueue
import Vessel.Flows
import Vessel.CxltpStream
import Vessel.CxltpRing
import Vessel.CxltpDial
import Vessel.TcpOptions
import Vessel.Tcp
import Vessel.TcpConn
import Vessel.TcpText
import Vessel.TcpStep
import Vessel.TcpRun
import Vessel.TcpFast
import Vessel.TcpEdge
import Vessel.TcpDelivery
import Vessel.TcpFin
import Vessel.TcpInert
import Vessel.TcpOut
import Vessel.TcpAck
import Vessel.TcpSend
import Vessel.TcpFinAck
import Vessel.TcpAccepted
import Vessel.TcpKeep
import Vessel.TcpOwes
import Vessel.TcpWake
import Vessel.TcpDrain
import Vessel.TcpStranded
import Vessel.TcpWindow
import Vessel.TcpScale
import Vessel.Kref
import Vessel.TcpRefs
import Vessel.TcpRefsInvariant
import Vessel.Linked
import Vessel.Parts
import Vessel.Tcache
import Vessel.Slab
import Vessel.SlabInvariant
import Vessel.NetTx
import Vessel.Mbuf
import Vessel.NetRx
import Vessel.CxltpWrite
import Vessel.FlowBalance
import Vessel.KthreadPark
import Vessel.KthreadCore
import Vessel.Barrier
import Vessel.FlowRules
import Vessel.BitSearch
import Vessel.CxltpRelease
import Vessel.MbufBounds
import Vessel.Packed
import Vessel.PageMap
import Vessel.ShmEstimate
import Vessel.TaskEnv
import Vessel.Tqueue
