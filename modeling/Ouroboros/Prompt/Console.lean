/-
The console: a session at the prompt. Each input runs in the same machine; its value is echoed unless it is unit, and
its failure is reported on standard error.

Terminals show text in a colour between two control sequences.

A console takes one typed entry after the other, so that a terminal can drive it. `run` takes a whole script, after
which the input has ended.
-/
import Ouroboros.CommandLine.Options
import Ouroboros.Prompt.History
import Ouroboros.Prompt.Input
import Ouroboros.Session

namespace Ouroboros

/-! ## Painted text -/

namespace Text

inductive Color where
  /-- for errors -/
  | red
  /-- for echoed values -/
  | brightBlue
deriving DecidableEq, Repr

namespace Color

/-- the number of the colour in a control sequence -/
def code : Color → Nat
  | .red => 31
  | .brightBlue => 94

end Color

def controlSequence (n : Nat) : Bytes := text "\x1b[" ++ Bytes.ofNat n ++ text "m"

/-- the text in a colour, if colours are shown -/
def painted (shown : Bool) (c : Color) (t : Bytes) : Bytes :=
  if shown then controlSequence c.code ++ t ++ controlSequence 0 else t

end Text

/-! ## The console -/

structure Console where
  machine : Machine
  /-- the lines of the input that is being typed -/
  buffer : Bytes
  history : History
  /-- whether colours are shown -/
  colors : Bool
  /-- whether the session goes on -/
  isOpen : Bool

namespace Machine

def say (m : Machine) (t : Bytes) : Machine := (Eval.perform (.out t) m).2

def warn (m : Machine) (t : Bytes) : Machine := (Eval.perform (.err t) m).2

def reportFailure (m : Machine) (colors : Bool) (name source : Bytes) (ds : List Diagnostic) : Machine :=
  m.warn (Text.painted colors .red ((Failure.diagnostics ds).report name source) ++ text "\n")

end Machine

namespace Console

def banner : Bytes :=
  text "Ouroboros " ++ Release.version ++ text " REPL\nCtrl+C cancels input, Ctrl+D exits. Type exit to quit.\n"

def sourceName : Bytes := text "<repl>"

def start (m : Machine) (history : History) (colors : Bool) : Console := ⟨m.say banner, [], history, colors, true⟩

def say (c : Console) (t : Bytes) : Console := { c with machine := c.machine.say t }

def ask (c : Console) : Console := c.say (Prompt.sign c.buffer)

/-- shows how the run of an input ended -/
def tell (c : Console) (code : Bytes) : Outcome → Console
  | .error ds => { c with machine := c.machine.reportFailure c.colors sourceName code ds }
  | .ok .unit => c
  | .ok v => c.say (Text.painted c.colors .brightBlue v.echoed ++ text "\n")

/-- runs a submitted input; a blank one does nothing, and the word `exit` ends the session -/
def submit (c : Console) (code : Bytes) : Console :=
  if Text.isBlankText code then c
  else if Prompt.isExit code then { c with isOpen := false }
  else
    let (outcome, machine) := c.machine.execSource sourceName code
    { c with machine, history := c.history.add (History.entryOf code) }.tell code outcome

/-- takes what the user did at the prompt -/
def take (c : Console) (e : Typed) : Console :=
  match Prompt.enter c.buffer e with
  | .more buffer => { c with buffer }
  | .submitted code => { c with buffer := [] }.submit code
  | .aborted => { c with buffer := [] }.say Prompt.abortMark
  | .finished => { c with isOpen := false }.say (text "\n")

def run : Console → List Typed → Console
  | c, [] => c.ask.take .ended
  | c, e :: rest =>
    let c := c.ask.take e
    if c.isOpen then run c rest else c

end Console

end Ouroboros
