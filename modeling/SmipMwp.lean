import SmipMwp.Foundations.PowersOfTwo
import SmipMwp.Foundations.Slices
import SmipMwp.Foundations.RingBuffer
import SmipMwp.Foundations.Words
import SmipMwp.Foundations.Packing
import SmipMwp.Foundations.Runs
import SmipMwp.Foundations.SpscRing
import SmipMwp.Foundations.Writers
import SmipMwp.Foundations.RoundRobin
import SmipMwp.Foundations.DirectMapped
import SmipMwp.Foundations.SortedWindow
import SmipMwp.Foundations.Spacing
import SmipMwp.Foundations.Counters
import SmipMwp.Foundations.Text
import SmipMwp.Wire.Header
import SmipMwp.Wire.Codec
import SmipMwp.Wire.Views
import SmipMwp.Crypto.Session
import SmipMwp.Crypto.EntryPoints
import SmipMwp.Crypto.Derivation
import SmipMwp.Crypto.HkdfCache
import SmipMwp.Crypto.CacheRaces
import SmipMwp.Crypto.RoundTrip
import SmipMwp.Crypto.Kex
import SmipMwp.Crypto.SingleUse
import SmipMwp.Crypto.Agreement
import SmipMwp.Crypto.Channel
import SmipMwp.Crypto.Hardening
import SmipMwp.Crypto.ReplayWindow
import SmipMwp.Crypto.Lifecycle
import SmipMwp.Crypto.Throttle
import SmipMwp.Routing.Table
import SmipMwp.Routing.Interleaving
import SmipMwp.Routing.Sequential
import SmipMwp.Routing.Cache
import SmipMwp.Routing.Isolation
import SmipMwp.Routing.Freshness
import SmipMwp.Routing.Prediction
import SmipMwp.Routing.Spray
import SmipMwp.Routing.ChannelStats
import SmipMwp.Routing.Policy
import SmipMwp.Datapath.AlignedBuffer
import SmipMwp.Datapath.Batch
import SmipMwp.Datapath.Forwarder
import SmipMwp.Datapath.SliceRing
import SmipMwp.Datapath.Emission
import SmipMwp.Datapath.Writes
import SmipMwp.Datapath.Steps
import SmipMwp.Datapath.McrSteps
import SmipMwp.Datapath.Paths
import SmipMwp.Datapath.SlicePath
import SmipMwp.Datapath.Integrity
import SmipMwp.Datapath.Bounds
import SmipMwp.Datapath.OneToOne
import SmipMwp.Datapath.Equivalence
import SmipMwp.Datapath.Decodable
import SmipMwp.Datapath.Nonces
import SmipMwp.Datapath.Copies
import SmipMwp.Datapath.SprayFull
import SmipMwp.Datapath.Telemetry
import SmipMwp.AfXdp.FreeList
import SmipMwp.AfXdp.Headroom
import SmipMwp.AfXdp.Rings
import SmipMwp.AfXdp.Fifo
import SmipMwp.AfXdp.Masks
import SmipMwp.AfXdp.Socket
import SmipMwp.AfXdp.Ownership
import SmipMwp.AfXdp.Send
import SmipMwp.AfXdp.Access
import SmipMwp.AfXdp.Frames
import SmipMwp.AfXdp.Accesses
import SmipMwp.AfXdp.Conservation
import SmipMwp.AfXdp.Accounting
import SmipMwp.AfXdp.Delivery
import SmipMwp.AfXdp.Receive
import SmipMwp.Datapath.Transmission
import SmipMwp.Datapath.Hops
import SmipMwp.Datapath.Peers
import SmipMwp.Cli.Bridge
import SmipMwp.Cli.Workers
import SmipMwp.Cli.Report
import SmipMwp.Cli.Reporter
import SmipMwp.Cli.Control
import SmipMwp.Cli.Metrics
import SmipMwp.Cli.Registry
import SmipMwp.Datapath.Accounts
