/-
Reading lines through a buffer. A line ends in a line feed, and a carriage return right before the line feed does not
count; what follows the last line feed is a line only if there is something.

A line that does not fit into the buffer comes in parts: whenever the buffer is full, what it holds is given as a part.
A carriage return at the end of a full buffer is left for the next part, since a line feed may follow it.
-/
import Ouroboros.Text.Bytes

namespace Ouroboros

/-- what is read at once: a line, or a part of a line that is longer than the buffer -/
structure Line where
  text : Bytes
  /-- whether the buffer was full before the line ended -/
  isPart : Bool
deriving DecidableEq, Repr

namespace Line

def bufferSize : Nat := 4096

/-- the bytes without a carriage return at their end -/
def dropReturn (t : Bytes) : Bytes := if t.getLast? = some Bytes.carriageReturn then t.dropLast else t

/-- at most one byte is dropped -/
theorem length_le_dropReturn (t : Bytes) : t.length ≤ (dropReturn t).length + 1 := by
  unfold dropReturn
  split
  · simp only [List.length_dropLast]
    omega
  · omega

/-- the next line, and the text behind it -/
def next (t : Bytes) : Line × Bytes :=
  let line := t.takeWhile (· != Bytes.newline)
  if bufferSize ≤ line.length then
    let part := dropReturn (line.take bufferSize)
    (⟨part, true⟩, t.drop part.length)
  else
    match t.drop line.length with
    | [] => (⟨line, false⟩, [])
    | _ :: rest => (⟨dropReturn line, false⟩, rest)

/-- reading takes something from a text that has not ended -/
theorem next_length (t : Bytes) (h : t ≠ []) : (next t).2.length < t.length := by
  have pos : 0 < t.length := List.length_pos_iff.2 h
  simp only [next]
  split
  next full =>
    have kept := length_le_dropReturn ((t.takeWhile (· != Bytes.newline)).take bufferSize)
    have size : 1 < bufferSize := by decide
    simp only [List.length_take, Nat.min_eq_left full] at kept
    simp only [List.length_drop]
    omega
  next =>
    split
    next => simpa using pos
    next b rest eq =>
      have := congrArg List.length eq
      simp only [List.length_drop, List.length_cons] at this
      simp only
      omega

def all (t : Bytes) : List Line :=
  if _h : t = [] then []
  else
    let read := next t
    read.1 :: all read.2
termination_by t.length
decreasing_by exact next_length t _h

end Line

end Ouroboros
