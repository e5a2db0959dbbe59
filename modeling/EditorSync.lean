import EditorSync.Main
import EditorSync.Editor.AutoSave
import EditorSync.Proofs.WorkingCopy.Delivery
import EditorSync.Proofs.WorkingCopy.Gaps
import EditorSync.Proofs.WorkingCopy.Sources
import EditorSync.Proofs.Delta.Splice
import EditorSync.Proofs.Editor.Resume
import EditorSync.Proofs.Editor.DocumentChange
import EditorSync.Proofs.Rpc.Framing
import EditorSync.Proofs.Message.EditorChanges
import EditorSync.Proofs.Json.Parser
import EditorSync.Proofs.Json.Members
import EditorSync.Proofs.Rpc.Line
import EditorSync.Proofs.Message.Wire
import EditorSync.Proofs.Editor.Link
import EditorSync.Proofs.Editor.Synchronization
import EditorSync.Proofs.Editor.Accounts
import EditorSync.Proofs.Disk.Walk
import EditorSync.Proofs.Disk.Alteration
import EditorSync.Proofs.Disk.Effects
import EditorSync.Proofs.Workspace
import EditorSync.Proofs.Tracking
import EditorSync.Proofs.Shadows
import EditorSync.Proofs.Store.Actions
import EditorSync.Proofs.Store.Durability
import EditorSync.Proofs.Store.Operations
import EditorSync.Proofs.Store.Run
import EditorSync.Proofs.Store.Restart
import EditorSync.Proofs.Disk.Growth
import EditorSync.Proofs.Disk.Leaves
import EditorSync.Proofs.Shadows.Separation
import EditorSync.Proofs.Store.Transitions
import EditorSync.Proofs.Store.Refusal
import EditorSync.Proofs.Store.Faults
import EditorSync.Proofs.Store.Calls
import EditorSync.Proofs.Store.Projects
import EditorSync.Proofs.Store.Forgetting
import EditorSync.Proofs.Store.Identity
import EditorSync.Proofs.Store.Separation
import EditorSync.Proofs.Store.Recovery
import EditorSync.Proofs.Reconcile.Interleaving
import EditorSync.Proofs.Tracker.Handling
import EditorSync.Proofs.WorkingCopy.Turns
import EditorSync.Proofs.Tracker.Submissions
import EditorSync.Proofs.LanguageServer.Growth
import EditorSync.Proofs.LanguageServer.Interleaving
import EditorSync.Proofs.LanguageServer.Documents
import EditorSync.Proofs.LanguageServer.Actions
import EditorSync.Proofs.LanguageServer.Conversation
import EditorSync.Proofs.WorkingCopy.Journal
import EditorSync.Proofs.Endpoint.Noise
import EditorSync.Proofs.Time.Calendar
import EditorSync.Proofs.Time.Timestamp
import EditorSync.Proofs.Session.Entry
import EditorSync.Proofs.Session.Following
import EditorSync.Proofs.Session.Replay
import EditorSync.Proofs.Store.Backing
import EditorSync.Proofs.Tracker.Records
import EditorSync.Proofs.Store.Owners
import EditorSync.Proofs.Editor.Debounce
import EditorSync.Proofs.Disk.Readback
import EditorSync.Proofs.Store.Anchoring
import EditorSync.Proofs.Tracker.Suspension
import EditorSync.Proofs.LanguageServer.Reading
import EditorSync.Proofs.Rpc.Header
import EditorSync.Proofs.Text.Lines
import EditorSync.Proofs.Editor.Reproduction
import EditorSync.Proofs.LanguageServer.SemanticTokens
import EditorSync.Proofs.Text.Positions
import EditorSync.Proofs.LanguageServer.Findings
import EditorSync.Proofs.Disk.Resolution
import EditorSync.Proofs.Path.Ancestry
import EditorSync.Proofs.Workspace.Projects
import EditorSync.Proofs.Session.Lookup
import EditorSync.Proofs.Shadows.Containment
import EditorSync.Proofs.Console.EventLine
import EditorSync.Proofs.LanguageServer.FileUrl
import EditorSync.Proofs.Text.Offsets
import EditorSync.Proofs.Workspace.Normalization
