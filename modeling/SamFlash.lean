import SamFlash.Applet
import SamFlash.Arithmetic
import SamFlash.Chip
import SamFlash.Command
import SamFlash.Command.Reader
import SamFlash.CommandLine.Arguments
import SamFlash.CommandLine.Scan
import SamFlash.CommandLine.Session
import SamFlash.Diagnostic
import SamFlash.Dialogue
import SamFlash.Error
import SamFlash.FlashController
import SamFlash.FlashController.Access
import SamFlash.Image
import SamFlash.Link
import SamFlash.Main
import SamFlash.Monitor
import SamFlash.Options
import SamFlash.Page
import SamFlash.Programmer
import SamFlash.Proofs.Accuracy
import SamFlash.Proofs.Addressing
import SamFlash.Proofs.AppletInUse
import SamFlash.Proofs.Attribution
import SamFlash.Proofs.Bench
import SamFlash.Proofs.BootSource
import SamFlash.Proofs.Checks
import SamFlash.Proofs.Composition
import SamFlash.Proofs.Conduct
import SamFlash.Proofs.Contents
import SamFlash.Proofs.Copying
import SamFlash.Proofs.Detection
import SamFlash.Proofs.Discipline
import SamFlash.Proofs.EndToEnd
import SamFlash.Proofs.Faultless
import SamFlash.Proofs.Follows
import SamFlash.Proofs.Framing
import SamFlash.Proofs.Held
import SamFlash.Proofs.History
import SamFlash.Proofs.Identification
import SamFlash.Proofs.InStep
import SamFlash.Proofs.Interruption
import SamFlash.Proofs.Layout
import SamFlash.Proofs.Line
import SamFlash.Proofs.MonitorMemory
import SamFlash.Proofs.Observation
import SamFlash.Proofs.OnTheWire
import SamFlash.Proofs.Operations
import SamFlash.Proofs.Pages
import SamFlash.Proofs.Pieces
import SamFlash.Proofs.Plan
import SamFlash.Proofs.PlannedCalls
import SamFlash.Proofs.Preparation
import SamFlash.Proofs.Programming
import SamFlash.Proofs.Reception
import SamFlash.Proofs.Replay
import SamFlash.Proofs.Restart
import SamFlash.Proofs.Runs
import SamFlash.Proofs.Script
import SamFlash.Proofs.Seamless
import SamFlash.Proofs.Sends
import SamFlash.Proofs.Stages
import SamFlash.Proofs.StatusWait
import SamFlash.Proofs.Timing
import SamFlash.Proofs.Transparency
import SamFlash.Proofs.Truncation
import SamFlash.Proofs.Wire
import SamFlash.Staging
import SamFlash.Target.Memory
import SamFlash.Target.Model
import SamFlash.Target.Thumb
import SamFlash.Text.ByteSize
import SamFlash.Text.Decimal
import SamFlash.Text.Hex
import SamFlash.Text.Quoted
import SamFlash.Text.Unseen
import SamFlash.Transcript
