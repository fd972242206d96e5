import Oaf.Lib.LongestSuffix
import Oaf.Lib.CStr
import Oaf.Lib.CArray
import Oaf.Lib.KScan
import Oaf.Lib.CText
import Oaf.Lib.Words
import Oaf.Lib.Lines
import Oaf.Lib.Crc
import Oaf.Lib.Kmem
import Oaf.Lib.Runs
import Oaf.Lib.Rd
import Oaf.Lib.Chains
import Oaf.Lib.Keyed
import Oaf.Lib.Recent
import Oaf.Lib.Prog
import Oaf.Feature
import Oaf.UrlAc.Model
import Oaf.UrlAc.Trie
import Oaf.UrlAc.FailLinks
import Oaf.UrlAc.Match
import Oaf.Loader.Model
import Oaf.Loader.Spec
import Oaf.Loader.Bounds
import Oaf.UrlAc.Coherence
import Oaf.Dpi.Model
import Oaf.Dpi.Reads
import Oaf.Match.Hosts
import Oaf.Match.Names
import Oaf.Regexp.Model
import Oaf.Regexp.Parts
import Oaf.Match.Paths
import Oaf.Match.Agree
import Oaf.Hook.Rules
import Oaf.Hook.Mark
import Oaf.Hook.Gateway
import Oaf.Hook.Connection
import Oaf.Hook.MacBlock
import Oaf.Hook.Bypass
import Oaf.Hook.ReEval
import Oaf.Hook.AppIdMark
import Oaf.Hook.ConnTable
import Oaf.Hook.Clients
import Oaf.Active.Lists
import Oaf.Filter.Api
import Oaf.Filter.MacLists
import Oaf.Filter.Policy
import Oaf.Manager.Model
import Oaf.Manager.Device
import Oaf.Manager.Whitelist
import Oaf.Manager.MacSync
import Oaf.Manager.SingleUser
import Oaf.Manager.Reconcile
import Oaf.Custom.Model
import Oaf.Custom.Text
import Oaf.Custom.Request
import Oaf.Custom.File
import Oaf.Custom.Kernel
import Oaf.Custom.Delivery
import Oaf.Update.Container
import Oaf.Update.Library
import Oaf.Update.Online
import Oaf.Update.Attribution
import Oaf.Uci.Model
import Oaf.MacFilter.Limits
import Oaf.MacFilter.TimeRules
import Oaf.MacFilter.Enforced
import Oaf.MacFilter.Update
import Oaf.AppFilter.Update
import Oaf.Client.Traffic
import Oaf.Client.Visiting
import Oaf.AppFilter.Buffers
import Oaf.AppFilter.Ids
import Oaf.AppFilter.TimeRules
import Oaf.Client.Backup
import Oaf.Client.ClientFile
import Oaf.Client.History
import Oaf.Client.Hours
import Oaf.Client.Leases
import Oaf.Client.Permission
import Oaf.Client.RecentApps
import Oaf.Client.Records
import Oaf.Client.SessionHistory
import Oaf.Client.TopApps
import Oaf.Client.VisitFiles
import Oaf.Client.VisitOrder
import Oaf.Client.VisitReport
import Oaf.Custom.Allocation
import Oaf.Custom.Netlink
import Oaf.Dpi.Questions
import Oaf.Dpi.Request
import Oaf.Dpi.ServerName
import Oaf.Filter.AppIdLists
import Oaf.Filter.AppIdRanges
import Oaf.Filter.AppIdTokens
import Oaf.Filter.Parts
import Oaf.Hook.Expiry
import Oaf.Hook.NameBlock
import Oaf.Hook.Release
import Oaf.Json.Device
import Oaf.Json.Grammar
import Oaf.Json.Messages
import Oaf.Json.Model
import Oaf.Json.Print
import Oaf.Json.Texts
import Oaf.Json.Tokens
import Oaf.Lib.Cursor
import Oaf.Lib.Double
import Oaf.Lib.Holding
import Oaf.Lib.Inet
import Oaf.Lib.IntLoop
import Oaf.Lib.LocalTime
import Oaf.Lib.Md5
import Oaf.Lib.Recognize
import Oaf.Lib.Ring
import Oaf.Lib.SeqFile
import Oaf.Lib.Sine
import Oaf.Lib.Top
import Oaf.Loader.Dict
import Oaf.Loader.Fields
import Oaf.Loader.PortMatch
import Oaf.Manager.Blacklist
import Oaf.Manager.Categories
import Oaf.Manager.Loaded
import Oaf.Manager.MainLoop
import Oaf.Manager.Messages
import Oaf.Manager.RecordWhitelist
import Oaf.Manager.TimeRange
import Oaf.Manager.Windows
import Oaf.Network.LanAddress
import Oaf.Regexp.Language
import Oaf.Update.Archive
import Oaf.Update.FeatureLines
import Oaf.Update.Md5
import Oaf.Update.Reload
