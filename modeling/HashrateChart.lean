/-
The hashrate chart of a mining device: from its raw history to the curves, the
axes and the panel that are shown.
-/
import HashrateChart.Arithmetic
import HashrateChart.Axis.Bounds
import HashrateChart.Axis.Options
import HashrateChart.Axis.Scales
import HashrateChart.Axis.Step
import HashrateChart.Axis.Window
import HashrateChart.Binary64
import HashrateChart.Channel
import HashrateChart.Chart.Frame
import HashrateChart.Chart.Import
import HashrateChart.Chart.Keep
import HashrateChart.Chart.Live
import HashrateChart.Chart.State
import HashrateChart.CommandLine.Arguments
import HashrateChart.CommandLine.Conversation
import HashrateChart.CommandLine.Files
import HashrateChart.CommandLine.Launch
import HashrateChart.Config
import HashrateChart.Config.Check
import HashrateChart.Decimal.Digits
import HashrateChart.Decimal.Field
import HashrateChart.Decimal.Printer
import HashrateChart.Decimal.Reader
import HashrateChart.Decimal.Rounded
import HashrateChart.Deferred
import HashrateChart.Device.Batch
import HashrateChart.Device.Client
import HashrateChart.Device.Info
import HashrateChart.Drain
import HashrateChart.Drain.Script
import HashrateChart.Fault
import HashrateChart.Fields
import HashrateChart.Guard
import HashrateChart.History
import HashrateChart.Json
import HashrateChart.Json.Parts
import HashrateChart.Json.Printer
import HashrateChart.Json.Reader
import HashrateChart.Json.Shown
import HashrateChart.Magnitude
import HashrateChart.Main
import HashrateChart.Monitor.Poll
import HashrateChart.Monitor.Script
import HashrateChart.Monitor.State
import HashrateChart.Monitor.Task
import HashrateChart.Number
import HashrateChart.Panel
import HashrateChart.Proofs.Action
import HashrateChart.Proofs.Axis.Bounds
import HashrateChart.Proofs.Axis.Inside
import HashrateChart.Proofs.Axis.Scales
import HashrateChart.Proofs.Axis.Step
import HashrateChart.Proofs.Axis.Sticky
import HashrateChart.Proofs.Axis.Toggle
import HashrateChart.Proofs.Axis.Window
import HashrateChart.Proofs.Binary64
import HashrateChart.Proofs.Binary64.Operations
import HashrateChart.Proofs.Binary64.Order
import HashrateChart.Proofs.Chart.Chunks
import HashrateChart.Proofs.Chart.Cleared
import HashrateChart.Proofs.Chart.Forward
import HashrateChart.Proofs.Chart.Gaps
import HashrateChart.Proofs.Chart.Import
import HashrateChart.Proofs.Chart.Independence
import HashrateChart.Proofs.Chart.Ledger
import HashrateChart.Proofs.Chart.Milestones
import HashrateChart.Proofs.Chart.Once
import HashrateChart.Proofs.Chart.Order
import HashrateChart.Proofs.Chart.Outage
import HashrateChart.Proofs.Chart.Plausible
import HashrateChart.Proofs.Chart.Redelivery
import HashrateChart.Proofs.Chart.Reload
import HashrateChart.Proofs.Chart.Restart
import HashrateChart.Proofs.Chart.Restore
import HashrateChart.Proofs.Chart.Run
import HashrateChart.Proofs.Chart.Values
import HashrateChart.Proofs.Chart.Visible
import HashrateChart.Proofs.Check
import HashrateChart.Proofs.Decimal
import HashrateChart.Proofs.Deferred
import HashrateChart.Proofs.Device
import HashrateChart.Proofs.Drain
import HashrateChart.Proofs.Drain.Deeds
import HashrateChart.Proofs.Drain.Host
import HashrateChart.Proofs.Exact
import HashrateChart.Proofs.Guard
import HashrateChart.Proofs.Guard.Confirmation
import HashrateChart.Proofs.Guard.LiveGate
import HashrateChart.Proofs.Guard.Provenance
import HashrateChart.Proofs.Guard.Run
import HashrateChart.Proofs.Guard.Separation
import HashrateChart.Proofs.History
import HashrateChart.Proofs.History.Positions
import HashrateChart.Proofs.Json.Number
import HashrateChart.Proofs.Json.RoundTrip
import HashrateChart.Proofs.Monitor.Drains
import HashrateChart.Proofs.Monitor.Loop
import HashrateChart.Proofs.Monitor.Moves
import HashrateChart.Proofs.Monitor.Requests
import HashrateChart.Proofs.Series
import HashrateChart.Proofs.Series.Atomic
import HashrateChart.Proofs.Smoothing
import HashrateChart.Proofs.Smoothing.Average
import HashrateChart.Proofs.Smoothing.Zoom
import HashrateChart.Proofs.Sparkline
import HashrateChart.Proofs.Storage
import HashrateChart.Proofs.Storage.Curves
import HashrateChart.Proofs.Storage.Document
import HashrateChart.Proofs.Storage.Rows
import HashrateChart.Proofs.Warmup
import HashrateChart.Proofs.Warmup.Delays
import HashrateChart.Proofs.Warmup.Detection
import HashrateChart.Proofs.Warmup.Recovery
import HashrateChart.Proofs.Warmup.Run
import HashrateChart.Proofs.Zoom
import HashrateChart.Proofs.Zoom.Moves
import HashrateChart.Proofs.Zoom.Steps
import HashrateChart.Sanitize
import HashrateChart.Series
import HashrateChart.Smoothing
import HashrateChart.Sparkline
import HashrateChart.Storage
import HashrateChart.Storage.Archive
import HashrateChart.Storage.Document
import HashrateChart.Storage.Store
import HashrateChart.Text.Blank
import HashrateChart.Text.Digit
import HashrateChart.Text.Half
import HashrateChart.Text.Line
import HashrateChart.Warmup
import HashrateChart.Yaml.Cursor
import HashrateChart.Yaml.Meaning
import HashrateChart.Yaml.Node
import HashrateChart.Yaml.Scalar
import HashrateChart.Yaml.Token
import HashrateChart.Yaml.Trouble
import HashrateChart.Yaml.Value
import HashrateChart.Zoom
import HashrateChart.Proofs.Zoom.Moves
