/-
The program: it reads the command line, the environment, files and the terminal, lets `CommandLine` decide, and carries
out the effects that come back, in order.
-/
import Ouroboros.CommandLine.Run

namespace Ouroboros.Terminal

open CommandLine

def writeBytes (stream : IO.FS.Stream) (t : Bytes) : IO Unit := do
  unless t.isEmpty do
    stream.write ⟨t.toArray⟩
    stream.flush

def carryOut (e : Effect) : IO Unit := do
  match e with
  | .sleep nanoseconds => IO.sleep (nanoseconds.toNat / 1000000).toUInt32
  | _ =>
    writeBytes (← IO.getStdout) (Report.outOf e)
    writeBytes (← IO.getStderr) (Report.errOf e)

/-- carries out the effects from number `told` on, and gives the number of effects carried out -/
def carryOutFrom (told : Nat) (effects : Array Effect) : IO Nat := do
  (effects.extract told effects.size).forM carryOut
  return effects.size

/-- the bytes of a stream up to its end -/
partial def readToEnd (stream : IO.FS.Stream) (before : ByteArray) : IO Bytes := do
  let chunk ← stream.read 65536
  if chunk.isEmpty then return before.toList else readToEnd stream (before ++ chunk)

/-- the input of a program, which is waited for only if the program can ask for it -/
def inputFor (source : Bytes) : IO Bytes := do
  if (Token.scan source).tokens.any fun t => t.lexeme = text "get_input" then
    readToEnd (← IO.getStdin) .empty
  else return []

/-- the fault behind an error of the system -/
def faultOf : IO.Error → FileFault
  | .noFileOrDirectory .. => .notFound
  | .inappropriateType _ code _ => if code = 20 then .notFolder else .isFolder
  | .permissionDenied .. => .refused (text "permission denied")
  | e => .refused (text (toString e))

def readFile (path : String) : IO (Except FileFault Bytes) := do
  try
    return .ok (← IO.FS.readBinFile path).toList
  catch e => return .error (faultOf e)

/-- the environment's value of a name, unless it is empty -/
def setting? (name : String) : IO (Option String) := do
  return (← IO.getEnv name).filter fun value => !value.isEmpty

/-- where the history is kept, if anywhere -/
def historyPath? : IO (Option String) := do
  match ← setting? "OURO_HISTORY", ← setting? "HOME" with
  | some path, _ => return some path
  | none, some home => return some (home ++ "/.ouro_history")
  | none, none => return none

def findHistory (path : Option String) : IO HistoryFile := do
  match path with
  | none => return .nowhere
  | some path => return .file (← readFile path).toOption

def showsColors : IO Bool := do
  return (← (← IO.getStdout).isTty) && (← setting? "NO_COLOR").isNone && (← setting? "TERM") != some "dumb"

/-- the machine at the present time -/
def atPresent (m : Machine) : IO Machine := do
  return { m with world := { m.world with clock := ← IO.monoNanosNow } }

/-- what is typed next: the first of the entries that wait, or else of those in a further line; and the entries that wait
behind it -/
def nextTyped (waiting : List Typed) : IO (Typed × List Typed) := do
  let entries ← if waiting.isEmpty then Typed.ofText <$> (text <$> (← IO.getStdin).getLine) else pure waiting
  match entries with
  | [] => return (.ended, [])
  | typed :: waiting => return (typed, waiting)

/-- a session at the terminal -/
partial def converse (c : Console) (told : Nat) (waiting : List Typed) : IO (Console × Nat) := do
  let c := c.ask
  let told ← carryOutFrom told c.machine.world.record
  let (typed, waiting) ← nextTyped waiting
  let c := { c with machine := ← atPresent c.machine }.take typed
  let told ← carryOutFrom told c.machine.world.record
  if c.isOpen then converse c told waiting else return (c, told)

/-- a session at the terminal with its history -/
def openConsole (m : Machine) (colors : Bool) : IO Status := do
  let path ← historyPath?
  let file ← findHistory path
  let (c, told) ← converse (Console.start m file.load colors) 0 []
  match path, file.save c.history with
  | some path, .file (some content) =>
    try IO.FS.writeBinFile path ⟨content.toArray⟩ catch _ => pure ()
  | _, _ => pure ()
  let _ ← carryOutFrom told c.machine.close.world.record
  return .success

def runText (debug colors : Bool) (name source : Bytes) : IO Status := do
  let m ← atPresent (newMachine (← inputFor source) debug)
  let (status, effects) := runAlone m colors name source
  let _ ← carryOutFrom 0 effects
  return status

/-- does what the options ask for -/
def perform (o : Options) : IO Status := do
  let debug := o.debug || (← setting? "OURO_DEBUG") == some "1"
  let colors := (← showsColors) && !o.plain
  match o.task with
  | .showHelp =>
    carryOut (.out usage)
    return .success
  | .showVersion =>
    carryOut (.out (Release.version ++ text "\n"))
    return .success
  | .runSource source => runText debug colors givenName source
  | .runFile path =>
    match ← readFile (String.ofList (Text.shownChars path)) with
    | .ok source => runText debug colors path source
    | .error fault =>
      carryOut (.err (unreadable path fault))
      return .unusable
  | .openConsole => openConsole (← atPresent (newMachine [] debug)) colors

end Ouroboros.Terminal

def main (arguments : List String) : IO UInt32 := do
  let status ← match Ouroboros.CommandLine.Options.ofArguments (arguments.map Ouroboros.text) with
    | .ok o => Ouroboros.Terminal.perform o
    | .error fault => do
      (Ouroboros.CommandLine.refuse fault).forM Ouroboros.Terminal.carryOut
      pure .unusable
  return status.code.toUInt32
