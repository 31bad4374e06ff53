import Ouroboros.Action
import Ouroboros.CommandLine.Folder
import Ouroboros.CommandLine.Options
import Ouroboros.CommandLine.Run
import Ouroboros.Decimal.Binary64
import Ouroboros.Decimal.Layout
import Ouroboros.Decimal.Shortest
import Ouroboros.Diagnostic
import Ouroboros.Fault
import Ouroboros.Machine.Apply
import Ouroboros.Machine.Core
import Ouroboros.Machine.Eval
import Ouroboros.Machine.Host
import Ouroboros.Machine.Outside
import Ouroboros.Machine.Primitives
import Ouroboros.Machine.Snapshot
import Ouroboros.Machine.State
import Ouroboros.Main
import Ouroboros.Number
import Ouroboros.Program
import Ouroboros.Program.Parse
import Ouroboros.Program.Render
import Ouroboros.Prompt.Console
import Ouroboros.Prompt.History
import Ouroboros.Prompt.Input
import Ouroboros.Proofs.Bounds
import Ouroboros.Proofs.Calls
import Ouroboros.Proofs.Continuation
import Ouroboros.Proofs.Dispatch
import Ouroboros.Proofs.Execution.Assigning
import Ouroboros.Proofs.Execution.Captures
import Ouroboros.Proofs.Execution.Contents
import Ouroboros.Proofs.Execution.Copies
import Ouroboros.Proofs.Execution.Declaring
import Ouroboros.Proofs.Execution.Deeds
import Ouroboros.Proofs.Execution.Discipline
import Ouroboros.Proofs.Execution.Enclosed
import Ouroboros.Proofs.Execution.Evaluation
import Ouroboros.Proofs.Execution.Hosts
import Ouroboros.Proofs.Execution.Idle
import Ouroboros.Proofs.Execution.Judgments
import Ouroboros.Proofs.Execution.Laps
import Ouroboros.Proofs.Execution.Limits
import Ouroboros.Proofs.Execution.Matching
import Ouroboros.Proofs.Execution.Nesting
import Ouroboros.Proofs.Execution.Outside
import Ouroboros.Proofs.Execution.Pairing
import Ouroboros.Proofs.Execution.Sequence
import Ouroboros.Proofs.Execution.Settling
import Ouroboros.Proofs.Execution.Soundness
import Ouroboros.Proofs.Execution.Tasks
import Ouroboros.Proofs.Execution.Termination
import Ouroboros.Proofs.Execution.Tracing
import Ouroboros.Proofs.Execution.Traversal
import Ouroboros.Proofs.Execution.Values
import Ouroboros.Proofs.Execution.WellFormed
import Ouroboros.Proofs.Failures.Carets
import Ouroboros.Proofs.Failures.Phases
import Ouroboros.Proofs.Failures.Placed
import Ouroboros.Proofs.Failures.Pointing
import Ouroboros.Proofs.Failures.Raising
import Ouroboros.Proofs.Failures.Sorted
import Ouroboros.Proofs.Failures.Unwinding
import Ouroboros.Proofs.Flatten
import Ouroboros.Proofs.Forgetting.Evaluation
import Ouroboros.Proofs.Forgetting.Machine
import Ouroboros.Proofs.Forgetting.Steps
import Ouroboros.Proofs.Forgetting.Trees
import Ouroboros.Proofs.Grammar
import Ouroboros.Proofs.Grouping
import Ouroboros.Proofs.Integers
import Ouroboros.Proofs.Isolation.Closing
import Ouroboros.Proofs.Isolation.Regions
import Ouroboros.Proofs.Isolation.Resolving
import Ouroboros.Proofs.Isolation.Schedules
import Ouroboros.Proofs.Isolation.Spawning
import Ouroboros.Proofs.Isolation.Twins
import Ouroboros.Proofs.Isolation.Waiting
import Ouroboros.Proofs.Lexemes
import Ouroboros.Proofs.Nearest
import Ouroboros.Proofs.NumberScan
import Ouroboros.Proofs.NumberText
import Ouroboros.Proofs.Numerals
import Ouroboros.Proofs.Operators
import Ouroboros.Proofs.Packing
import Ouroboros.Proofs.Parsing.Agreeing
import Ouroboros.Proofs.Parsing.Complete
import Ouroboros.Proofs.Parsing.Completing
import Ouroboros.Proofs.Parsing.Composing
import Ouroboros.Proofs.Parsing.Exact
import Ouroboros.Proofs.Parsing.Expressions
import Ouroboros.Proofs.Parsing.Indexed
import Ouroboros.Proofs.Parsing.Language
import Ouroboros.Proofs.Parsing.Progress
import Ouroboros.Proofs.Parsing.Recording
import Ouroboros.Proofs.Parsing.Rounds
import Ouroboros.Proofs.Parsing.Sound
import Ouroboros.Proofs.Places
import Ouroboros.Proofs.Readable
import Ouroboros.Proofs.Recall
import Ouroboros.Proofs.Recovery
import Ouroboros.Proofs.RoundTrip
import Ouroboros.Proofs.Rounding
import Ouroboros.Proofs.Scanning.Joining
import Ouroboros.Proofs.Scanning.Lines
import Ouroboros.Proofs.Scanning.Longest
import Ouroboros.Proofs.Scanning.Offsets
import Ouroboros.Proofs.Scanning.Pieces
import Ouroboros.Proofs.Scanning.Quoting
import Ouroboros.Proofs.Scanning.Writing
import Ouroboros.Proofs.Scopes
import Ouroboros.Proofs.Segments
import Ouroboros.Proofs.Shortest
import Ouroboros.Proofs.Snapshot.Copying
import Ouroboros.Proofs.Snapshot.Holding
import Ouroboros.Proofs.Snapshot.Sharing
import Ouroboros.Proofs.Visibility
import Ouroboros.Scope
import Ouroboros.Session
import Ouroboros.Text.Bytes
import Ouroboros.Text.Lines
import Ouroboros.Text.Quoted
import Ouroboros.Text.Utf8
import Ouroboros.Token
import Ouroboros.Token.Scan
import Ouroboros.Value
