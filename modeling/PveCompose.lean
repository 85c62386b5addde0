import PveCompose.Applied
import PveCompose.Apply
import PveCompose.Cadence
import PveCompose.Capture
import PveCompose.CommandLine
import PveCompose.Config
import PveCompose.Converge
import PveCompose.Create
import PveCompose.Daemon
import PveCompose.Doc
import PveCompose.Drift
import PveCompose.Foretold
import PveCompose.Forward
import PveCompose.Fresh
import PveCompose.Gaps
import PveCompose.GuestConfig
import PveCompose.GuestFile
import PveCompose.Indexes
import PveCompose.Keep
import PveCompose.LineDiff
import PveCompose.Locks
import PveCompose.Mounted
import PveCompose.Names
import PveCompose.Newest
import PveCompose.Order
import PveCompose.Owned
import PveCompose.Permit
import PveCompose.Plan
import PveCompose.Poll
import PveCompose.Pve
import PveCompose.Reload
import PveCompose.Render
import PveCompose.Reported
import PveCompose.Rewrite
import PveCompose.Roots
import PveCompose.Rounding
import PveCompose.Rounds
import PveCompose.Session
import PveCompose.Settle
import PveCompose.Shortcut
import PveCompose.Silent
import PveCompose.Spec
import PveCompose.Standing
import PveCompose.Stopped
import PveCompose.Stored
import PveCompose.Substitute
import PveCompose.Trust
import PveCompose.Views
import PveCompose.Visit
import PveCompose.Waits
import PveCompose.Writers
