/-
A run of the program from the command line to its exit status.

A run that cannot start, because its options or its file cannot be read, has status 1, and so has one whose source is
not a program. A program that fails has status 2. A session at the prompt ends well whatever happened in it, and writes
its history as it ends. In every case spawned work runs to its end before the program does, so a run whose spawned
work never ends has no end either.

The debug log goes to standard error, a line an entry, with the level, the message and the named texts, each as
`name=text`. A text is quoted when a reader could not tell where it ends or what it holds.
-/
import Ouroboros.CommandLine.Folder
import Ouroboros.Prompt.Console
import Ouroboros.Text.Quoted

namespace Ouroboros.CommandLine

/-! ## The debug log as text -/

/-- whether a glyph makes a text ambiguous: a blank, an equals sign, a double quote, a control character, and any
character beyond ASCII that is not printable or stands for one that could not be read -/
def isAmbiguous : Text.Glyph → Bool
  | .stray _ => true
  | .char c =>
    if c.toNat < 0x80 then c.toNat ≤ 0x20 || c == '=' || c == Text.doubleQuote
    else c == Text.replacement || Text.isBlank c || !Text.isPrintable c

/-- a text of the log, quoted if need be -/
def logText (t : Bytes) : Bytes :=
  if t = [] ∨ (Text.decode t).any isAmbiguous then Text.quoted t else t

def logField (name value : Bytes) : Bytes := logText name ++ text "=" ++ logText value

def logLine (e : LogEntry) : Bytes :=
  Bytes.join (text " ")
    ([logField (text "level") (text "DEBUG"), logField (text "msg") e.message] ++
      e.fields.map fun f => logField f.1 f.2) ++ text "\n"

/-! ## Runs -/

inductive Status where
  | success
  /-- the run could not start, or the source is not a program -/
  | unusable
  /-- the program failed -/
  | failed
deriving DecidableEq, Repr

namespace Status

def code : Status → Nat
  | .success => 0
  | .unusable => 1
  | .failed => 2

/-- the status of a run that ended with diagnostics -/
def ofDiagnostics (ds : List Diagnostic) : Status :=
  match firstKind? ds with
  | some kind => if kind.phase = .running then .failed else .unusable
  | none => .unusable

end Status

/-- the history file: there may be no place for one, or no file at its place -/
inductive HistoryFile where
  | nowhere
  | file (content : Option Bytes)
deriving DecidableEq, Repr

namespace HistoryFile

def load : HistoryFile → History
  | .file (some content) => History.ofFile content
  | .file none | .nowhere => .empty

/-- the file after a history is written to it -/
def save (f : HistoryFile) (h : History) : HistoryFile :=
  match f with
  | .file _ => .file (some h.toFile)
  | .nowhere => .nowhere

end HistoryFile

/-- what the program finds around it -/
structure Surroundings where
  folder : Folder
  /-- the input of programs -/
  input : Bytes
  /-- what is typed at the prompt -/
  script : List Typed
  /-- whether the output can show colours -/
  colors : Bool
  /-- whether the debug log is asked for -/
  debug : Bool
  history : HistoryFile

/-- a run at its end: the status, what was done to the outside, and the history file -/
structure Report where
  status : Status
  effects : Array Effect
  history : HistoryFile

namespace Report

/-- what an effect writes to standard output -/
def outOf : Effect → Bytes
  | .out t => t
  | _ => []

/-- what an effect writes to standard error, where the debug log goes too -/
def errOf : Effect → Bytes
  | .err t => t
  | .log e => logLine e
  | _ => []

def out (r : Report) : Bytes := r.effects.toList.flatMap outOf

def err (r : Report) : Bytes := r.effects.toList.flatMap errOf

end Report

/-- the source name of text given on the command line -/
def givenName : Bytes := text "<eval>"

/-- a remark of the program about itself -/
def remark (t : Bytes) : Bytes := programName ++ text ": " ++ t ++ text "\n"

/-- what is said about a file that cannot be read -/
def unreadable (path : Bytes) (fault : FileFault) : Bytes :=
  remark (text "cannot read " ++ path ++ text ": " ++ fault.message path)

/-- runs source text; a failure is reported -/
def runSource (m : Machine) (colors : Bool) (name source : Bytes) : Status × Machine :=
  match m.execSource name source with
  | (.ok _, m) => (.success, m)
  | (.error ds, m) => (Status.ofDiagnostics ds, m.reportFailure colors name source ds)

/-- runs source text on its own, spawned work included -/
def runAlone (m : Machine) (colors : Bool) (name source : Bytes) : Status × Array Effect :=
  let (status, m) := runSource m colors name source
  (status, m.close.world.record)

def newMachine (input : Bytes) (debug : Bool) : Machine :=
  Machine.start { World.fresh with input := ⟨input, none⟩, logging := debug } defaultLimit

/-- what is done about options that cannot be read -/
def refuse (fault : OptionFault) : List Effect := [.err (remark fault.message), .err usage]

/-- a run of the program -/
def run (s : Surroundings) (arguments : List Bytes) : Report :=
  match Options.ofArguments arguments with
  | .error fault => ⟨.unusable, (refuse fault).toArray, s.history⟩
  | .ok o =>
    let colors := s.colors && !o.plain
    let m := newMachine s.input (s.debug || o.debug)
    match o.task with
    | .showHelp => ⟨.success, #[.out usage], s.history⟩
    | .showVersion => ⟨.success, #[.out (Release.version ++ text "\n")], s.history⟩
    | .runSource source =>
      let (status, effects) := runAlone m colors givenName source
      ⟨status, effects, s.history⟩
    | .runFile path =>
      match s.folder.read path with
      | .error fault => ⟨.unusable, #[.err (unreadable path fault)], s.history⟩
      | .ok source =>
        let (status, effects) := runAlone m colors path source
        ⟨status, effects, s.history⟩
    | .openConsole =>
      let c := (Console.start m s.history.load colors).run s.script
      ⟨.success, c.machine.close.world.record, s.history.save c.history⟩

end Ouroboros.CommandLine
