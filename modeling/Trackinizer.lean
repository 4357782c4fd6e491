import Trackinizer.Lib.Transact
import Trackinizer.Lib.Table
import Trackinizer.AuditFold
import Trackinizer.BatchOrder
import Trackinizer.ClaimSafety
import Trackinizer.GraphRuns
import Trackinizer.CascadeWalk
import Trackinizer.SessionReads
import Trackinizer.PushDelivery
import Trackinizer.KeyedOnce
import Trackinizer.FilterAgreement
import Trackinizer.CostRuns
import Trackinizer.JournalRuns
import Trackinizer.FollowExact
import Trackinizer.Fuse
import Trackinizer.TerminalRelay
import Trackinizer.TerminalTyping
import Trackinizer.HostedDelivery
import Trackinizer.InboundDelivery
import Trackinizer.BatchRetry
import Trackinizer.AskReleaseRuns
import Trackinizer.RedactionSweep
import Trackinizer.ExecOnce
import Trackinizer.SessionRuns
import Trackinizer.SessionNames
import Trackinizer.FeedFollow
import Trackinizer.TerminalPaste
import Trackinizer.ReplayRuns
import Trackinizer.KeyCeilings
import Trackinizer.BearerRuns
import Trackinizer.DaemonReach
import Trackinizer.MachineSafety
import Trackinizer.LoginSafety
import Trackinizer.LockRuns
import Trackinizer.PublishSafety
import Trackinizer.ProjectSlugs
import Trackinizer.HandedSafety
import Trackinizer.ForkOrder
import Trackinizer.EdgeUpsert
import Trackinizer.UdiffLocates
import Trackinizer.ColumnRuns
import Trackinizer.UnmodeledRoundTrip
import Trackinizer.TraxRoundTrip
import Trackinizer.LineCapture
import Trackinizer.FeedGrid
import Trackinizer.BoundariesOptimal
import Trackinizer.DerivedConfidence
import Trackinizer.AncestryLaw
import Trackinizer.Authority
import Trackinizer.Conversation
import Trackinizer.RedactShape
import Trackinizer.ClaudeBlocks
import Trackinizer.ChangeHistory
import Trackinizer.GraphFocus
import Trackinizer.BootSlotSafety
import Trackinizer.UsagePerPart
import Trackinizer.RootsCorrect
import Trackinizer.SessionForks
import Trackinizer.ForkedReads
import Trackinizer.ContextWindow
import Trackinizer.WindowFits
import Trackinizer.WindowPairs
import Trackinizer.WindowCounts
import Trackinizer.ChecksExact
import Trackinizer.QueryMenu
import Trackinizer.LiveLayer
import Trackinizer.QueryCommands
