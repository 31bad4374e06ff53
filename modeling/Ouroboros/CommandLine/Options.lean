/-
Options of the command line. Options come before the other arguments; several may share a hyphen, and the last of
them may take the rest of its argument, or else the next argument, as its value. A hyphen alone and an empty argument
are no options, and two hyphens end the options.
-/
import Ouroboros.Text.Utf8

namespace Ouroboros

def Release.version : Bytes := text "0.1.0-dev"

def Release.built : Bytes := text "unknown"

namespace CommandLine

def programName : Bytes := text "ouro"

/-- what the command line asks for -/
structure Options where
  /-- source text to run; the last one given counts -/
  source : Option Bytes := none
  debug : Bool := false
  version : Bool := false
  help : Bool := false
  /-- whether colours are off -/
  plain : Bool := false
  /-- the arguments after the options -/
  arguments : List Bytes := []
deriving DecidableEq, Repr

/-- what can be wrong with options -/
inductive OptionFault where
  | unknown (option : Char)
  | noValue (option : Char)
deriving DecidableEq, Repr

namespace OptionFault

def message : OptionFault → Bytes
  | .unknown option => programName ++ text ": unknown option -" ++ Text.encode option
  | .noValue option => programName ++ text ": expected argument for -" ++ Text.encode option

end OptionFault

/-- the option that takes a value -/
def sourceOption : Char := 'e'

/-- the options with an option that takes no value -/
def Options.withFlag? (o : Options) : Char → Option Options
  | 'd' => some { o with debug := true }
  | 'v' => some { o with version := true }
  | 'h' => some { o with help := true }
  | 'n' => some { o with plain := true }
  | _ => none

/-- options that share a hyphen, and whether the last of them still lacks its value -/
def readCluster : List Char → Options → Except OptionFault (Options × Bool)
  | [], o => .ok (o, false)
  | c :: rest, o =>
    if c = sourceOption then
      match rest with
      | [] => .ok (o, true)
      | value => .ok ({ o with source := some (value.flatMap Text.encode) }, false)
    else
      match o.withFlag? c with
      | some o => readCluster rest o
      | none => .error (.unknown c)

/-- the characters behind the hyphen of an argument that holds options -/
def cluster? : Bytes → Option (List Char)
  | b :: c :: rest => if b = Bytes.minus then some (Text.shownChars (c :: rest)) else none
  | _ => none

def readArguments : List Bytes → Options → Except OptionFault Options
  | [], o => .ok o
  | a :: rest, o =>
    if a = text "--" then .ok { o with arguments := rest }
    else
      match cluster? a with
      | none => .ok { o with arguments := a :: rest }
      | some letters =>
        match readCluster letters o, rest with
        | .error fault, _ => .error fault
        | .ok (o, false), rest => readArguments rest o
        | .ok (_, true), [] => .error (.noValue sourceOption)
        | .ok (o, true), value :: rest => readArguments rest { o with source := some value }

/-- the options and arguments of a command line -/
def Options.ofArguments (arguments : List Bytes) : Except OptionFault Options := readArguments arguments {}

/-- what the program is asked to do -/
inductive Task where
  | showHelp
  | showVersion
  /-- runs source text -/
  | runSource (source : Bytes)
  /-- runs the source text in a file -/
  | runFile (path : Bytes)
  /-- starts a session at the prompt -/
  | openConsole
deriving DecidableEq, Repr

/-- the task: help comes before the version, given source before a file -/
def Options.task (o : Options) : Task :=
  if o.help then .showHelp
  else if o.version then .showVersion
  else
    match o.source, o.arguments with
    | some source, _ => .runSource source
    | none, path :: _ => .runFile path
    | none, [] => .openConsole

/-- a line of the usage text: how to call the program, and what that does -/
def usageLine (call effect : String) : Bytes :=
  text "  " ++ programName ++ text " " ++ text call ++ List.replicate (23 - call.length) Bytes.space ++ text effect ++
    text "\n"

def usage : Bytes :=
  text "Ouroboros " ++ Release.version ++ text " (built " ++ Release.built ++ text ")\n\nUsage:\n" ++
    usageLine "[-d] [-n] <file>" "Run a script." ++
    usageLine "[-d] [-n] -e <source>" "Run source given on the command line." ++
    usageLine "[-d] [-n]" "Start the REPL." ++
    usageLine "-v" "Print the version." ++
    text "\nFlags:\n  -d  debug logging to stderr (also OURO_DEBUG=1)\n  -n  disable coloured output (also NO_COLOR)\n" ++
    text "  -h  show this help\n\nExit status: 0 success, 1 lex/parse error, 2 runtime error.\n"

end CommandLine

end Ouroboros
