import Timeline.Path.Loose
import Timeline.Proofs.Detected.Distinct
import Timeline.Proofs.Extraction.Suggested
import Timeline.Proofs.Rule.Export
import Timeline.Proofs.Rule.Session
import Timeline.Proofs.Workbench.Shown
import Timeline.Settings.Environment
import Timeline.Proofs.Time.Calendar
import Timeline.Proofs.Time.Iso
import Timeline.Proofs.Extraction.RoundTrip
import Timeline.Proofs.Files.Workspace
import Timeline.Proofs.Json.Lines
import Timeline.Proofs.Rule.Load
import Timeline.Proofs.Workbench.Editor
import Timeline.Proofs.View.Compose
import Timeline.Proofs.Workbench.Blocks
import Timeline.Proofs.Workbench.Accounts
import Timeline.Proofs.Extraction.Files
import Timeline.Proofs.Extraction.Identity
import Timeline.Proofs.Detection.Failure
import Timeline.Proofs.Extraction.Failure
import Timeline.Proofs.Path.Structure
import Timeline.Proofs.Extraction.Union
import Timeline.Proofs.Path.Available
import Timeline.Proofs.Files.Sources
import Timeline.Proofs.Extraction.Isolation
import Timeline.Proofs.Detection.Ignored
import Timeline.Proofs.Detected.Dates
import Timeline.Proofs.Table.Duration
import Timeline.Proofs.Workbench.Columns
import Timeline.Proofs.Json.Canonical
import Timeline.Proofs.Time.Millis
import Timeline.Proofs.Time.Plain
import Timeline.Proofs.Path.Failure
import Timeline.Proofs.Filter.Failure
import Timeline.Proofs.Rule.Names
import Timeline.Proofs.Extraction.WellFormed
import Timeline.Proofs.Path.Lists
import Timeline.Proofs.Rule.Notes
import Timeline.Proofs.Workbench.Export
