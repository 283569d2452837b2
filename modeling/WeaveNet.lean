import WeaveNet.Lib.Search
import WeaveNet.Lib.Boundary
import WeaveNet.Lib.Loop
import WeaveNet.Lib.Pool
import WeaveNet.Lib.Map
import WeaveNet.Lib.Sha1
import WeaveNet.Lib.Interleave
import WeaveNet.Lib.Bytes
import WeaveNet.Lib.Scan
import WeaveNet.Lib.Blocks
import WeaveNet.Lib.Chunks
import WeaveNet.Lib.Window
import WeaveNet.Net.Ipset
import WeaveNet.Address.Basic
import WeaveNet.Address.Cidrs
import WeaveNet.Tracker.Helpers
import WeaveNet.Space.AddSub
import WeaveNet.Space.Basic
import WeaveNet.Space.Walk
import WeaveNet.Space.Spec
import WeaveNet.Space.Run
import WeaveNet.Space.Donate
import WeaveNet.Ring.Basic
import WeaveNet.Ring.Ops
import WeaveNet.Ring.Valid
import WeaveNet.Ring.Claim
import WeaveNet.Ring.Ranges
import WeaveNet.Ring.Updates
import WeaveNet.Paxos.Basic
import WeaveNet.Paxos.Net
import WeaveNet.Npc.Rule
import WeaveNet.Npc.Analyser
import WeaveNet.Npc.Sets
import WeaveNet.Npc.Controller
import WeaveNet.KubeUtils.Annotations
import WeaveNet.KubeUtils.Reclaim
import WeaveNet.Nameserver.Entry
import WeaveNet.Nameserver.Gossip
import WeaveNet.Nameserver.Dns
import WeaveNet.Proxy.Chunked
import WeaveNet.Router.Frames
import WeaveNet.Router.Mtu
import WeaveNet.Router.Fragment
import WeaveNet.Router.NaCl
import WeaveNet.Router.Replay
import WeaveNet.Router.Channel
import WeaveNet.Router.Aggregate
import WeaveNet.Router.Forwarder
import WeaveNet.Lib.SortedSearch
import WeaveNet.Nameserver.Store
import WeaveNet.Lib.UnionWith
import WeaveNet.Nameserver.Check
import WeaveNet.Nameserver.Calls
import WeaveNet.Nameserver.Merge
import WeaveNet.Nameserver.Run
