import OpenWindows.Lib.Absorb
import OpenWindows.Lib.Arbiter
import OpenWindows.Lib.Backref
import OpenWindows.Lib.BitPoly
import OpenWindows.Lib.Bytes
import OpenWindows.Lib.Checked
import OpenWindows.Lib.Crc
import OpenWindows.Lib.Division
import OpenWindows.Lib.Walk
import OpenWindows.Lib.Forest
import OpenWindows.Lib.Linked
import OpenWindows.Lib.Logged
import OpenWindows.Lib.Memory
import OpenWindows.Lib.Montgomery
import OpenWindows.Lib.OnesSum
import OpenWindows.Lib.Positions
import OpenWindows.Lib.Slots
import OpenWindows.Lib.Sparse
import OpenWindows.Lib.StepSystem
import OpenWindows.Lib.Stream
import OpenWindows.Lib.Tiling
import OpenWindows.Lib.Utf8
import OpenWindows.Lib.Window
import OpenWindows.Lib.WriteBack
import OpenWindows.Crt64.Exit
import OpenWindows.Crt64.Format
import OpenWindows.Crt64.FormatDigits
import OpenWindows.Crt64.FormatIso
import OpenWindows.Crt64.FormatRender
import OpenWindows.Crt64.FormatSafety
import OpenWindows.Crt64.Heap
import OpenWindows.Crt64.HeapAlloc
import OpenWindows.Crt64.HeapFree
import OpenWindows.Crt64.HeapLayout
import OpenWindows.Crt64.HeapList
import OpenWindows.Crt64.HeapRep
import OpenWindows.Crt64.HeapRun
import OpenWindows.Crt64.HeapArena
import OpenWindows.Crt64.HeapSizes
import OpenWindows.Crt64.HeapRealloc
import OpenWindows.Crt64.HeapBooks
import OpenWindows.Crt64.Tls
import OpenWindows.Crt64.Utf8
import OpenWindows.Engines.Assemble
import OpenWindows.Engines.AssembleSound
import OpenWindows.Engines.Blocks
import OpenWindows.Engines.Collect
import OpenWindows.Engines.Com
import OpenWindows.Engines.ComHandles
import OpenWindows.Engines.Compile
import OpenWindows.Engines.CompileRun
import OpenWindows.Engines.CompileSound
import OpenWindows.Engines.Division
import OpenWindows.Engines.ElseBlocks
import OpenWindows.Engines.ExprParse
import OpenWindows.Engines.ExprRun
import OpenWindows.Engines.Grammar
import OpenWindows.Engines.Kernel
import OpenWindows.Engines.KernelBudget
import OpenWindows.Engines.KernelSafety
import OpenWindows.Engines.Machine
import OpenWindows.Engines.Numbers
import OpenWindows.Engines.Shell
import OpenWindows.Engines.ShellLabels
import OpenWindows.Engines.ShellVars
import OpenWindows.Engines.Sink
import OpenWindows.Engines.Strings
import OpenWindows.Engines.Structured
import OpenWindows.Engines.Targets
import OpenWindows.Engines.TokenReads
import OpenWindows.Engines.Watchdog
import OpenWindows.Crypto.Aead
import OpenWindows.Crypto.Aes
import OpenWindows.Crypto.AesInverse
import OpenWindows.Crypto.AesTables
import OpenWindows.Crypto.Blake2b
import OpenWindows.Crypto.ChaCha20
import OpenWindows.Crypto.Csprng
import OpenWindows.Crypto.Ed25519
import OpenWindows.Crypto.Field25519
import OpenWindows.Crypto.FieldArith
import OpenWindows.Crypto.FieldInPlace
import OpenWindows.Crypto.Frame
import OpenWindows.Crypto.Gcm
import OpenWindows.Crypto.Ghash
import OpenWindows.Crypto.Poly1305
import OpenWindows.Crypto.Poly1305Lanes
import OpenWindows.Crypto.Poly1305Spec
import OpenWindows.Crypto.Poly1305Tag
import OpenWindows.Crypto.Scalar
import OpenWindows.Crypto.ScalarMul
import OpenWindows.Crypto.Sha256
import OpenWindows.Crypto.Sha512
import OpenWindows.Crypto.X25519
import OpenWindows.Dhcp.Lease
import OpenWindows.Dhcp.Runs
import OpenWindows.Dns.Attribution
import OpenWindows.Dns.Resolver
import OpenWindows.Dns.Wire
import OpenWindows.Extensions.Sutf8
import OpenWindows.Extensions.Sutf16
import OpenWindows.Extensions.Unitrans
import OpenWindows.Fltrmgr.Filters
import OpenWindows.Fltrmgr.Slots
import OpenWindows.Fltrmgr.Chain
import OpenWindows.Netwerk.Ban
import OpenWindows.Netwerk.Count
import OpenWindows.Netwerk.KeepAlive
import OpenWindows.Netwerk.Link
import OpenWindows.Netwerk.Replay
import OpenWindows.Netwerk.Run
import OpenWindows.Tcp.Backlog
import OpenWindows.Tcp.Checksum
import OpenWindows.Tcp.Core
import OpenWindows.Tcp.Demux
import OpenWindows.Tcp.Endpoint
import OpenWindows.Tcp.Events
import OpenWindows.Tcp.Handshake
import OpenWindows.Tcp.Sender
import OpenWindows.Tcp.Receiver
import OpenWindows.Tcp.Segment
import OpenWindows.Tcp.Stream
import OpenWindows.Tcp.Table
import OpenWindows.Pool.Blocks
import OpenWindows.Pool.Owpool
import OpenWindows.Cache.Lru
import OpenWindows.Cache.Dirty
import OpenWindows.Sched.Scheduler
import OpenWindows.Sentinel.Checksum
import OpenWindows.Sentinel.Directives
import OpenWindows.Sentinel.Execute
import OpenWindows.Sentinel.Operands
import OpenWindows.Sentinel.Seal
import OpenWindows.Bdmp.Format
import OpenWindows.Bdmp.RoundTrip
import OpenWindows.Bdmp.Burst
import OpenWindows.Ip.Caches
import OpenWindows.Ip.Datagram
import OpenWindows.Ip.Routing
import OpenWindows.Ip.Stack
import OpenWindows.Owelf.Load
import OpenWindows.Owelf.Loader
import OpenWindows.Owelf.Safety
import OpenWindows.Owelf.Relocation
import OpenWindows.Owelf.Imports
import OpenWindows.Owheap.Blocks
import OpenWindows.Owheap.Calls
import OpenWindows.Owheap.Heap
import OpenWindows.Owheap.Layout
import OpenWindows.Owheap.Runs
import OpenWindows.Owjson.Accepts
import OpenWindows.Owjson.Grammar
import OpenWindows.Owjson.Layout
import OpenWindows.Owjson.Lockstep
import OpenWindows.Owjson.Parser
import OpenWindows.Owjson.Reader
import OpenWindows.Owjson.Readings
import OpenWindows.Owjson.Strings
import OpenWindows.Owjson.Surrogates
import OpenWindows.Owjson.Tree
import OpenWindows.Owreg.Handles
import OpenWindows.Owreg.Store
import OpenWindows.Owtls.Backpressure
import OpenWindows.Owtls.Connection
import OpenWindows.Owtls.Handshake
import OpenWindows.Owtls.Invariant
import OpenWindows.Owtls.Ledger
import OpenWindows.Owtls.Record
import OpenWindows.Owxml.Entity
import OpenWindows.Owzip.RoundTrip
import OpenWindows.Owzip.Checks
import OpenWindows.Partmgr.Discovery
import OpenWindows.Partmgr.Table
import OpenWindows.Ttydrv.Console
import OpenWindows.Vipm.Coherence
import OpenWindows.Vipm.Labels
import OpenWindows.Vipm.Manager
import OpenWindows.Vipm.Mapping
import OpenWindows.Vipm.Trie
import OpenWindows.Vipm.PathMap
import OpenWindows.Vipm.Runs
import OpenWindows.Vipm.TriePut
import OpenWindows.Vipm.TrieRemove
import OpenWindows.Vipm.Verify
import OpenWindows.Htl.Cache
import OpenWindows.Htl.Coherence
import OpenWindows.Htl.Operations
import OpenWindows.Htl.Arrays
import OpenWindows.Classpnp.Device
import OpenWindows.Classpnp.Buses
import OpenWindows.Classpnp.Resources
import OpenWindows.Classpnp.Runs
import OpenWindows.Classpnp.Tree
import OpenWindows.Owhash.Sha256
import OpenWindows.Sentinel.Log
import OpenWindows.Owhash.Crc32c
