/-
Diagnostics: a fault with its place, the calls that were active when it arose, and a mark for faults that only say that
the text ended too early.

`Failure.report` renders a failure for users: a header with source name, line and column, the line of the source with
its neighbours and a caret under the column, and the active calls, innermost first.
-/
import Ouroboros.Fault
import Ouroboros.Text.Utf8

namespace Ouroboros

/-- an active call: the function's name and the place of the call, unknown when a host or a builtin made it -/
structure Frame where
  name : Bytes
  pos : Pos
deriving DecidableEq, Repr

/-- the frame as a traceback shows it -/
def Frame.text (f : Frame) : Bytes :=
  if f.pos.line = 0 then Ouroboros.text "in " ++ f.name ++ Ouroboros.text " (called from host)"
  else Ouroboros.text "in " ++ f.name ++ Ouroboros.text " called at " ++ f.pos.text

inductive TraceLine where
  | call (frame : Frame)
  /-- a line that a host wrote -/
  | note (t : Bytes)
deriving DecidableEq, Repr

def TraceLine.text : TraceLine → Bytes
  | .call frame => frame.text
  | .note t => t

/-- a fault with its circumstances -/
structure Diagnostic where
  fault : Fault
  /-- where the fault lies; line 0 when that is not known yet -/
  pos : Pos
  /-- the calls active when the fault arose, innermost first; empty when none was or when it is not recorded yet -/
  trace : List TraceLine := []
  /-- whether more text could mend the fault -/
  incomplete : Bool := false
deriving DecidableEq

namespace Diagnostic

def kind (d : Diagnostic) : ErrorKind := d.fault.kind

/-- category, place and message on one line -/
def summary (d : Diagnostic) : Bytes :=
  d.kind.name ++ text " at " ++ d.pos.text ++ text ": " ++ d.fault.message

/-- a source line with its number in front -/
def numbered (n : Nat) (line : Bytes) : Bytes :=
  Bytes.padLeft 4 (Bytes.ofNat n) ++ text " | " ++ line ++ text "\n"

/-- the line under a source line that marks its column `col` -/
def caret (col : Nat) : Bytes := text "     | " ++ List.replicate (col - 1) Bytes.space ++ text "^\n"

/-- line `n` of the source, counted from 1, with the line before it, a caret under column `col`, and the line after it
unless that is blank; nothing when the source is empty or has no such line -/
def snippet (source : Bytes) (n col : Nat) : Bytes :=
  let lines := Bytes.lines source
  match source, lines[n - 1]? with
  | _ :: _, some line =>
    let before := if n ≤ 1 then [] else numbered (n - 1) ((lines[n - 2]?).getD [])
    let after :=
      match lines[n]? with
      | some next => if Text.isBlankText next then [] else numbered (n + 1) next
      | none => []
    text "\n" ++ before ++ numbered n line ++ caret col ++ after
  | _, _ => []

def traceback (trace : List TraceLine) : Bytes :=
  if trace = [] then []
  else text "\ntraceback (innermost first):\n" ++ trace.flatMap fun l => text "  " ++ l.text ++ text "\n"

/-- header, snippet and traceback; unknown places count as the start of the source -/
def report (name source : Bytes) (d : Diagnostic) : Bytes :=
  let shownName := if name = [] then text "<input>" else name
  let line := max 1 d.pos.line.toNat
  let col := max 1 d.pos.col.toNat
  text "Ouroboros Error at " ++ shownName ++ text ":" ++ Bytes.ofNat line ++ text ":" ++ Bytes.ofNat col ++
    text ": " ++ d.fault.message ++ text "\n" ++ snippet source line col ++ traceback d.trace

end Diagnostic

/-- the diagnostics of one pass in one line: the first, and how many follow it -/
def summarize : List Diagnostic → Bytes
  | [] => text "no errors"
  | [d] => d.summary
  | d :: rest => d.summary ++ text " (and " ++ Bytes.ofNat rest.length ++ text " more errors)"

/-- whether only more text is missing: the first diagnostic decides, for later ones may follow from it -/
def isIncomplete : List Diagnostic → Bool
  | [] => false
  | d :: _ => d.incomplete

def firstKind? : List Diagnostic → Option ErrorKind
  | [] => none
  | d :: _ => some d.kind

/-- what an operation can hand to a reporter -/
inductive Failure where
  | nothing
  | diagnostics (all : List Diagnostic)
  /-- diagnostics with a remark in front -/
  | remarked (remark : Bytes) (all : List Diagnostic)
  /-- a failure that is none of the language's -/
  | foreign (message : Bytes)
deriving DecidableEq

namespace Failure

def all : Failure → List Diagnostic
  | .diagnostics ds | .remarked _ ds => ds
  | .nothing | .foreign _ => []

def message? : Failure → Option Bytes
  | .nothing => none
  | .diagnostics ds => some (summarize ds)
  | .remarked remark ds => some (remark ++ text ": " ++ summarize ds)
  | .foreign message => some message

/-- the failure for users, with the source it arose in -/
def report (name source : Bytes) (f : Failure) : Bytes :=
  match f.all with
  | [] => text "Ouroboros Error: " ++ f.message?.getD (text "<nil>")
  | ds => Bytes.trimRight (· == Bytes.newline) (Bytes.join (text "\n") (ds.map (Diagnostic.report name source)))

end Failure

end Ouroboros
