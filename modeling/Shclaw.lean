import Shclaw.Agent.Answers
import Shclaw.Agent.Appends
import Shclaw.Agent.Exchanges
import Shclaw.Agent.Opening
import Shclaw.Agent.Repeats
import Shclaw.Agent.Trim
import Shclaw.Ca.Pem
import Shclaw.Chat.Cuts
import Shclaw.Chat.Heard
import Shclaw.Config.Comments
import Shclaw.Config.RoundTrip
import Shclaw.Daemon.Clients
import Shclaw.Daemon.Dispatch
import Shclaw.Daemon.Link
import Shclaw.Daemon.Setup
import Shclaw.Daemon.Triggers
import Shclaw.Files
import Shclaw.Http.Answer
import Shclaw.Http.Chunked
import Shclaw.Http.Redirect
import Shclaw.Http.Settings
import Shclaw.Http.WellFormed
import Shclaw.Irc.Mentions
import Shclaw.Irc.Payloads
import Shclaw.Irc.Poll
import Shclaw.Logger
import Shclaw.Memory.Matching
import Shclaw.Memory.Ranking
import Shclaw.Memory.ReadBack
import Shclaw.Messenger.Delivery
import Shclaw.Plugin.Canonical
import Shclaw.Plugin.CompileCheck
import Shclaw.Plugin.Follow
import Shclaw.Plugin.Races
import Shclaw.Plugin.SchemaQuotes
import Shclaw.Provider.Convert
import Shclaw.Provider.Scrub
import Shclaw.Scheduler.Grammar
import Shclaw.Sessions
import Shclaw.Socket
import Shclaw.Tools.Children
import Shclaw.Tools.Pages
import Shclaw.Tools.Recurring
import Shclaw.Tools.Schema
import Shclaw.Tui.Bounds
import Shclaw.Util
