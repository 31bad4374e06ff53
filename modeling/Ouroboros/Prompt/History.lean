/-
The history of a prompt: what was submitted, oldest first, one entry a line in its file.

An entry equal to the last one is not added again, and only the newest entries are kept. Reading a history file stops
at the first line that does not fit into the reader's buffer or is not well-formed UTF-8, and keeps the lines before
it.
-/
import Ouroboros.Text.Lines
import Ouroboros.Text.Utf8

namespace Ouroboros

/-- what was submitted, oldest first -/
structure History where
  entries : List Bytes
deriving DecidableEq, Repr

namespace History

def empty : History := ⟨[]⟩

def limit : Nat := 1000

/-- the newest entries, as many as are kept -/
def newest (entries : List Bytes) : List Bytes := entries.drop (entries.length - limit)

/-- the history with a further entry, unless it repeats the last one -/
def add (h : History) (entry : Bytes) : History :=
  if h.entries.getLast? = some entry then h else ⟨newest (h.entries ++ [entry])⟩

/-- an input as a history entry, on one line -/
def entryOf (code : Bytes) : Bytes := code.map fun b => if b = Bytes.newline then Bytes.space else b

/-- whether a line of a history file can be an entry -/
def isReadable (line : Line) : Bool := !line.isPart && Text.isUtf8 line.text

def ofFile (t : Bytes) : History := ⟨newest (((Line.all t).takeWhile isReadable).map Line.text)⟩

def toFile (h : History) : Bytes := h.entries.flatMap (· ++ [Bytes.newline])

/-- a history never grows beyond its limit -/
theorem length_newest_le (entries : List Bytes) : (newest entries).length ≤ limit := by
  simp only [newest, List.length_drop]
  omega

end History

end Ouroboros
