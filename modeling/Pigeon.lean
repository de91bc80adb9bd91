import Pigeon.Library.Trim
import Pigeon.Library.Text
import Pigeon.Library.Torn
import Pigeon.Library.Rows
import Pigeon.Library.Utf8
import Pigeon.Library.Lossy
import Pigeon.Library.Runs
import Pigeon.Library.Watch
import Pigeon.Library.Windows
import Pigeon.Library.Earliest
import Pigeon.Library.FirstFit
import Pigeon.Library.Worklist
import Pigeon.Library.Fair
import Pigeon.Library.Forest
import Pigeon.Library.Leaving
import Pigeon.Library.Queue
import Pigeon.Library.FileTree
import Pigeon.Library.AlikeTrees
import Pigeon.Library.Folder
import Pigeon.Library.Program
import Pigeon.Library.Checked
import Pigeon.Library.Boundary
import Pigeon.Library.Lz77
import Pigeon.Library.FirstMax
import Pigeon.Library.Raster
import Pigeon.Library.Rectangle
import Pigeon.Library.Ini
import Pigeon.Library.LineEnds
import Pigeon.Library.Bisection
import Pigeon.Library.Markup
import Pigeon.Library.Template
import Pigeon.Library.Saturation
import Pigeon.Library.Permits
import Pigeon.Library.Talk
import Pigeon.Library.Failing
import Pigeon.Library.Fallible
import Pigeon.Gate.Model
import Pigeon.Gate.Agreement
import Pigeon.Gate.Budget
import Pigeon.Core.Data
import Pigeon.Core.Filename
import Pigeon.Core.Slug
import Pigeon.Core.Retry
import Pigeon.Keyring.Identity
import Pigeon.Keyring.Segment
import Pigeon.Keyring.Store
import Pigeon.Keyring.Credentials
import Pigeon.Keyring.Provider
import Pigeon.Keyring.Login
import Pigeon.Keyring.Commands
import Pigeon.EmailImport.Sink
import Pigeon.EmailImport.Attach
import Pigeon.EmailImport.Deliver
import Pigeon.EmailImport.Scratch
import Pigeon.EmailImport.Redeliver
import Pigeon.EmailImport.Ledger
import Pigeon.EmailImport.Merge
import Pigeon.EmailImport.Flush
import Pigeon.EmailImport.Gather
import Pigeon.EmailImport.Seed
import Pigeon.EmailImport.LedgerRuns
import Pigeon.EmailImport.Legacy
import Pigeon.EmailImport.Torn
import Pigeon.EmailImport.Modes
import Pigeon.EmailImport.Scans
import Pigeon.EmailImport.Work
import Pigeon.EmailImport.Pace
import Pigeon.EmailImport.Accounting
import Pigeon.EmailImport.Connections
import Pigeon.Transform.Placement
import Pigeon.Transform.Groups
import Pigeon.Transform.Isolation
import Pigeon.Transform.Pipeline
import Pigeon.Transform.Backpressure
import Pigeon.Transform.Intake
import Pigeon.Transform.Reconcile
import Pigeon.Transform.CaseVariants
import Pigeon.Transform.Breaker
import Pigeon.Transform.Report
import Pigeon.Transform.Rerun
import Pigeon.Transform.Process
import Pigeon.Transform.CrashSafety
import Pigeon.Transform.VObject.Folding
import Pigeon.Transform.VObject.Escapes
import Pigeon.Transform.VObject.QuotedPrintable
import Pigeon.Transform.VObject.Property
import Pigeon.Transform.VObject.ContentLine
import Pigeon.Transform.VObject.Components
import Pigeon.Transform.VObject.Rendering
import Pigeon.Transform.VObject.Blocks
import Pigeon.Transform.VObject.Forgery
import Pigeon.Transform.Lzo1x
import Pigeon.Transform.Lzo1x.Safety
import Pigeon.Transform.Lzo1x.Coding
import Pigeon.Transform.Icns
import Pigeon.Transform.Icns.Selection
import Pigeon.Transform.Procreate
import Pigeon.Transform.Procreate.Assembly
import Pigeon.Transform.Procreate.Orientation
import Pigeon.Transform.EmailShape
import Pigeon.Transform.Svg
import Pigeon.Transform.Svg.Drawn
import Pigeon.Transform.Failure
import Pigeon.Transform.Failure.Verdict
import Pigeon.Transform.Convert
import Pigeon.Transform.Convert.Course
import Pigeon.Transform.Convert.Converters
import Pigeon.Transform.Convert.Guards
import Pigeon.Transform.Convert.Checked
import Pigeon.Transform.Format
import Pigeon.Deduplicate.Model
import Pigeon.Deduplicate.Placement
import Pigeon.Deduplicate.Checkpoint
import Pigeon.Deduplicate.Names
import Pigeon.Deduplicate.Expansion
import Pigeon.Deduplicate.Queue
import Pigeon.Deduplicate.Leaving
import Pigeon.Deduplicate.Manifest
import Pigeon.Deduplicate.ContentIndex
import Pigeon.Deduplicate.Outcome
import Pigeon.Deduplicate.Reproducible
import Pigeon.Deduplicate.Retries
import Pigeon.Deduplicate.Summary
import Pigeon.Deduplicate.Resume
import Pigeon.EmailScan.Status
import Pigeon.EmailScan.History
import Pigeon.EmailScan.Bodystructure
import Pigeon.EmailScan.Identity
import Pigeon.Rclone.Log
import Pigeon.Rclone.Tail
import Pigeon.Rclone.Config
import Pigeon.Rclone.Address
import Pigeon.Rclone.Routing
import Pigeon.Rclone.Overrides
import Pigeon.Rclone.Command
import Pigeon.Rclone.Execute
import Pigeon.Rclone.Push
import Pigeon.Observability.Resources
import Pigeon.Dispatch.Input
import Pigeon.Dispatch.Jobs
import Pigeon.Dispatch.Setup
import Pigeon.Dispatch.Safety
