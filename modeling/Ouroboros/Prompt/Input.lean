/-
Reading an input at the prompt. An input is one or more typed lines: the reader asks for another line as long as the
lines so far are the start of a program that is not finished yet.

A blank line after the first submits what was typed, finished or not. An open string literal is submitted too, since
a further line can never close it. The word `exit` alone is an input of its own, finished or not. Cancelling drops
the lines typed so far and starts over.

`readInput` reads one input from a script of what the user does, and `rounds` reads inputs until the script ends.
-/
import Ouroboros.Program.Parse
import Ouroboros.Text.Lines

namespace Ouroboros

/-- what the user does at a prompt -/
inductive Typed where
  | line (t : Bytes)
  /-- cancels the input -/
  | abort
  /-- ends the input for good -/
  | ended
  /-- the line cannot be read -/
  | broken
deriving DecidableEq, Repr

namespace Typed

/-- the lines of a text as they would be typed one after the other; each part of a line that is longer than the buffer
is an entry of its own -/
def ofText (t : Bytes) : List Typed := (Line.all t).map fun l => .line l.text

end Typed

namespace Prompt

/-- the prompt for the first line, or for a further line after those in the buffer -/
def sign (buffer : Bytes) : Bytes := if buffer = [] then text ">> " else text ".. "

/-- what is written when an input is cancelled -/
def abortMark : Bytes := text "^C\n"

/-- whether the code is the word that ends the session -/
def isExit (code : Bytes) : Bool := Text.trim code = "exit".toList

/-- whether a further line could mend a program with these diagnostics: text is missing at its end, and not inside a
string literal -/
def needsMore (errors : List Diagnostic) : Bool :=
  isIncomplete errors && firstKind? errors != some .unterminatedString

/-- where the reading of an input stands -/
inductive Progress where
  /-- a further line is needed after those in the buffer -/
  | more (buffer : Bytes)
  | submitted (code : Bytes)
  | aborted
  | finished
deriving DecidableEq, Repr

def extend (buffer line : Bytes) : Bytes := if buffer = [] then line else buffer ++ Bytes.newline :: line

def enter (buffer : Bytes) : Typed → Progress
  | .abort => .aborted
  | .ended | .broken => .finished
  | .line t =>
    if buffer ≠ [] ∧ Text.isBlankText t then .submitted buffer
    else
      let code := extend buffer t
      if !isExit code && needsMore (Program.ofSource code).errors then .more code else .submitted code

/-- the reading of one input: the prompts shown, what else was written, and the code, unless the script ended -/
structure Round where
  prompts : List Bytes
  written : Bytes
  code : Option Bytes
deriving DecidableEq, Repr

namespace Round

def single (buffer : Bytes) (code : Option Bytes) : Round := ⟨[sign buffer], [], code⟩

/-- the round with an earlier prompt, after which something was written -/
def after (buffer written : Bytes) (r : Round) : Round :=
  { r with prompts := sign buffer :: r.prompts, written := written ++ r.written }

end Round

/-- reads one input, the first lines of which are in the buffer; gives the rest of the script with it -/
def readFrom : Bytes → List Typed → Round × List Typed
  | buffer, [] => (.single buffer none, [])
  | buffer, e :: rest =>
    match enter buffer e with
    | .submitted code => (.single buffer (some code), rest)
    | .finished => (.single buffer none, rest)
    | .more longer =>
      let later := readFrom longer rest
      (later.1.after buffer [], later.2)
    | .aborted =>
      let later := readFrom [] rest
      (later.1.after buffer abortMark, later.2)

def readInput (script : List Typed) : Round × List Typed := readFrom [] script

/-- an input takes something from the script, unless the script ends before it -/
theorem readFrom_length (buffer : Bytes) (script : List Typed) (code : Bytes)
    (h : (readFrom buffer script).1.code = some code) : (readFrom buffer script).2.length < script.length := by
  induction script generalizing buffer with
  | nil => simp [readFrom, Round.single] at h
  | cons e rest ih =>
    unfold readFrom at h ⊢
    split at h
    · simp
    · simp [Round.single] at h
    · simpa using Nat.lt_succ_of_lt (ih _ h)
    · simpa using Nat.lt_succ_of_lt (ih _ h)

/-- reads inputs until the script ends -/
def rounds (script : List Typed) : List Round :=
  let read := readInput script
  match _h : read.1.code with
  | some _ => read.1 :: rounds read.2
  | none => [read.1]
termination_by script.length
decreasing_by exact readFrom_length _ _ _ _h

end Prompt

end Ouroboros
