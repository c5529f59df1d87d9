import Lidas.Lib.Runs
import Lidas.Lib.ByteMem
import Lidas.Lib.Word
import Lidas.Lib.BlockPool
import Lidas.Memory.Cache
import Lidas.Memory.Layout
import Lidas.Memory.Pool
import Lidas.Lib.CString
import Lidas.Http.Crc32
import Lidas.Http.Attrihash
import Lidas.Http.Parser
import Lidas.Http.RequestLine
import Lidas.Http.Stages
import Lidas.Http.HeaderLoop
import Lidas.Http.Framing
import Lidas.Http.Lookup
import Lidas.Http.Survival
import Lidas.Http.Pooled
import Lidas.Http.Ending
import Lidas.Http.Tokenized
import Lidas.Http.ReadEvent
import Lidas.Send.Snd
import Lidas.Send.StaticFile
import Lidas.Send.PostToProxy
import Lidas.Lib.Ownership
import Lidas.Event
import Lidas.Lib.RedBlack
import Lidas.Rbtree.Nodes
import Lidas.Rbtree.Represent
import Lidas.Rbtree.Insert
import Lidas.Rbtree.Insertion
import Lidas.Rbtree.Search
import Lidas.Rbtree.Bindings
import Lidas.Rbtree.Sequences
import Lidas.Rbtree.Delete
import Lidas.Rbtree.Deletion
import Lidas.Rbtree.Accounting
import Lidas.Rbtree.Removal
import Lidas.Rbtree.Purge
import Lidas.Cache.Search
import Lidas.Cache.Chain
import Lidas.Cache.Serve
import Lidas.Log
import Lidas.Supervisor
import Lidas.Proxy.Descriptors
import Lidas.Proxy.Holders
import Lidas.Proxy.Exclusive
import Lidas.Worker.Pool
import Lidas.Worker.Partition
import Lidas.Worker.Signals
import Lidas.Lib.Fifo
import Lidas.Memory.Queue
import Lidas.Lib.Assoc
import Lidas.Http.AttriMap
import Lidas.Send.MutePost
import Lidas.Listener.Loop
import Lidas.Listener.AcceptLock
import Lidas.Lib.FreeList
import Lidas.Listener.Timers
import Lidas.Listener.Connections
import Lidas.Listener.KeepAlive
import Lidas.Listener.Table
import Lidas.Worker.QueueChain
import Lidas.Listener.Frees
import Lidas.Config.Load
import Lidas.Config.Groups
import Lidas.Config.HostTable
import Lidas.Config.Hosts
import Lidas.Lib.MaxHeap
import Lidas.Memory.Heap
import Lidas.Memory.HeapInt
import Lidas.Proxy.Balance
import Lidas.Lib.Decimal
import Lidas.Config.Nodes
import Lidas.Proxy.Pools
import Lidas.Send.PostLoop
import Lidas.Http.Spool
import Lidas.Worker.Redirect
import Lidas.Worker.Answered
import Lidas.Proxy.Reconnect
import Lidas.Worker.FileSearch
import Lidas.Proxy.Rules
import Lidas.Listener.Sweep
import Lidas.Listener.Accept
import Lidas.Worker.HandOver
import Lidas.Worker.ChainNodes
import Lidas.Memory.Pages
import Lidas.Memory.Destroy
import Lidas.Cache.Rollback
import Lidas.Memory.Disk
import Lidas.Lib.Fields
import Lidas.Send.Header
import Lidas.Lib.Crc
import Lidas.Http.Checksum
import Lidas.Http.Integrity
import Lidas.AccessLog
import Lidas.Proxy.Conserved
import Lidas.Rbtree.Ledger
import Lidas.Cache.Chains
import Lidas.Proxy.ToClient
import Lidas.Proxy.Behind
import Lidas.Listener.Lifetime
import Lidas.Config.Document
import Lidas.Proxy.Once
import Lidas.Config.Loaded
import Lidas.Memory.Losses
import Lidas.Http.DirectMap
import Lidas.Worker.Shift
