import Lpm.Jobs.EveryRun
import Lpm.Sync.Converge
import Lpm.Jobs.Record
import Lpm.Terminal.Seed
import Lpm.Services.ReadyRuns
import Lpm.GitFollow.Runs
import Lpm.Status.HeldDone
import Lpm.Actions.Settings
import Lpm.AgentTurn.Reports
import Lpm.Phone.Whole
import Lpm.Panes.Restart
import Lpm.RunGuard.Belongs
import Lpm.Composer.Survive
import Lpm.SendLater.Once
import Lpm.Sidebar.Edits
import Lpm.Toolbar.ReadBack
import Lpm.Actions.TidyEdits
import Lpm.Vault.OneKey
import Lpm.Messages.Pages
import Lpm.Ignored.InStep
import Lpm.RemoteStore.InOrder
import Lpm.Forwards.Kept
import Lpm.Telegram.Confirm
import Lpm.AutoSync.Laws
import Lpm.Terminal.Capture
import Lpm.Pairings.Config
import Lpm.PortTunnel.InOrder
import Lpm.Sessions.Whole
import Lpm.Control.OneOwner
import Lpm.Jobs.CronFields
import Lpm.Jobs.CronGaps
import Lpm.Jobs.Lengths
import Lpm.Sync.Canonical
import Lpm.Sync.Revisions
import Lpm.Terminal.TypedLine
import Lpm.Jobs.Capacity
import Lpm.Projects.Order
import Lpm.Status.Moved
import Lpm.Status.TurnDates
import Lpm.Share.Link
import Lpm.ConPty.Chunks
import Lpm.Notes.Orphans
import Lpm.Services.DepsOrder
import Lpm.ClaudePool.Choice
import Lpm.Actions.Move
import Lpm.Skills.Expand
import Lpm.Labels.Render
import Lpm.Ssh.Line
import Lpm.Transfer.Backups
import Lpm.Panes.HostTabs
import Lpm.Config.Dropped
import Lpm.Telegram.Shown
import Lpm.Composer.Anchors
import Lpm.CmdMarks.Scanner
import Lpm.Retained.Sessions
import Lpm.Search.Replace
import Lpm.GitSync.Seed
import Lpm.Peer.Nudge
import Lpm.Peer.Upload
