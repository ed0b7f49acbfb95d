import DnslessHomelab.LineText
import DnslessHomelab.SubstringSearch
import DnslessHomelab.OrderedMap
import DnslessHomelab.BracketedLines
import DnslessHomelab.Runs
import DnslessHomelab.Utf8
import DnslessHomelab.Utf8Lossy
import DnslessHomelab.JsonText
import DnslessHomelab.InodeStore
import DnslessHomelab.FileTree
import DnslessHomelab.Protocol
import DnslessHomelab.Words
import DnslessHomelab.ReplaceOrAppend
import DnslessHomelab.ManagedBlocks
import DnslessHomelab.ForeignLines
import DnslessHomelab.BlockRewrite
import DnslessHomelab.HostsBytes
import DnslessHomelab.HostsUpdate
import DnslessHomelab.HostsConcurrent
import DnslessHomelab.HostsCrash
import DnslessHomelab.MessageText
import DnslessHomelab.ClientStream
import DnslessHomelab.Broadcast
import DnslessHomelab.WireFraming
import DnslessHomelab.MalformedLines
import DnslessHomelab.ConnectionLifecycle
import DnslessHomelab.BroadcastDelivery
import DnslessHomelab.PanelState
import DnslessHomelab.ConnectedClients
import DnslessHomelab.ConnectedPeers
import DnslessHomelab.ConnectionEvents
import DnslessHomelab.EventSinks
import DnslessHomelab.ServerLoop
import DnslessHomelab.LateObserver
import DnslessHomelab.IpDetector
import DnslessHomelab.ChangeDetection
import DnslessHomelab.HostsAgreement
import DnslessHomelab.AddedLines
import DnslessHomelab.ClientPanel
import DnslessHomelab.BoundedHistories
import DnslessHomelab.DesktopApp
import DnslessHomelab.ClientLoop
import DnslessHomelab.StaticFiles
import DnslessHomelab.RequestHead
import DnslessHomelab.AppliedUpdates
import DnslessHomelab.ServerProcess
import DnslessHomelab.SendOrder
import DnslessHomelab.LockProgress
import DnslessHomelab.ClientProcess
import DnslessHomelab.NativeApp
import DnslessHomelab.DesktopProcess
import DnslessHomelab.WebPages
import DnslessHomelab.HttpExchange
import DnslessHomelab.EventLog
import DnslessHomelab.HostsGrowth
import DnslessHomelab.Homelab
import DnslessHomelab.CatchUp
