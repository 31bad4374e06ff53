/-
How the prompt cuts what is typed into inputs.

The lines of an input are typed one after the other. Those that were cancelled are segments of their own, and only the
last segment becomes code. A `Reading` is one reading of an input, told by what was typed; it says which prompts were
shown, what else was written and what the code is. It `Holds` if a further line was asked for behind each start of a
segment, and behind a whole segment unless the segment is the code.

`rounds_partition` is the main result: whatever is typed is cut into readings without a gap, and the rounds are what the
readings say. That a line is the first of its segment is seen by the empty buffer, so it matters that text which needs
more is never empty (`Asks.ne_nil`).
-/
import Mathlib
import Ouroboros.Prompt.Input

namespace Ouroboros

namespace Prompt

/-! ## Readings -/

/-- lines with line ends between them -/
def joined (lines : List Bytes) : Bytes := Bytes.join [Bytes.newline] lines

/-- a further line is asked for behind the code -/
def Asks (code : Bytes) : Prop := needsMore (Program.ofSource code).errors = true ∧ isExit code = false

/-- the prompts for `n` things typed in one segment -/
def prompts : Nat → List Bytes
  | 0 => []
  | n + 1 => text ">> " :: List.replicate n (text ".. ")

/-- what ended the lines of an input -/
inductive Ending where
  /-- nothing: the lines are the code as they are -/
  | complete
  /-- a blank line behind them -/
  | blank (t : Bytes)
  /-- the end of the input or a line that cannot be read, so that there is no code -/
  | stopped (e : Typed)
  /-- the end of the script, so that there is no code -/
  | pending

namespace Ending

/-- what was typed behind the lines -/
def typed : Ending → List Typed
  | .complete | .pending => []
  | .blank t => [.line t]
  | .stopped e => [e]

/-- the number of prompts behind those for the lines -/
def asked : Ending → Nat
  | .complete => 0
  | .blank _ | .stopped _ | .pending => 1

/-- whether the lines are code -/
def submits : Ending → Bool
  | .complete | .blank _ => true
  | .stopped _ | .pending => false

end Ending

/-- the lines of the segments that were cancelled, those of the last segment, and what ended them -/
structure Reading where
  cancelled : List (List Bytes)
  lines : List Bytes
  ending : Ending

namespace Reading

/-- what was typed: each cancelled segment with what cancelled it, and the last segment -/
def typed (r : Reading) : List Typed :=
  r.cancelled.flatMap (fun lines => lines.map .line ++ [.abort]) ++ (r.lines.map .line ++ r.ending.typed)

/-- the round: the prompts of each segment, a mark for each that was cancelled, and the lines of the last one -/
def round (r : Reading) : Round where
  prompts := r.cancelled.flatMap (fun lines => prompts (lines.length + 1)) ++
    prompts (r.lines.length + r.ending.asked)
  written := (List.replicate r.cancelled.length abortMark).flatten
  code := if r.ending.submits then some (joined r.lines) else none

end Reading

/-- a further line was asked for behind each of the lines, and none but the first is blank -/
structure Waits (lines : List Bytes) : Prop where
  asks : ∀ front, front <+: lines → front ≠ [] → Asks (joined front)
  further : ∀ t ∈ lines.tail, Text.isBlankText t = false

/-- the lines of the last segment, with what ended them -/
inductive Closes : List Bytes → Ending → Prop where
  | complete {lines : List Bytes} {t : Bytes} (h : Waits lines) (ht : lines = [] ∨ Text.isBlankText t = false)
      (hcode : ¬ Asks (joined (lines ++ [t]))) : Closes (lines ++ [t]) .complete
  | blank {lines : List Bytes} {t : Bytes} (h : Waits lines) (hne : lines ≠ []) (ht : Text.isBlankText t = true) :
      Closes lines (.blank t)
  | stopped {lines : List Bytes} {e : Typed} (h : Waits lines) (he : e = .ended ∨ e = .broken) :
      Closes lines (.stopped e)
  | pending {lines : List Bytes} (h : Waits lines) : Closes lines .pending

/-- the reading is as the prompt makes it -/
structure Reading.Holds (r : Reading) : Prop where
  cancelled : ∀ lines ∈ r.cancelled, Waits lines
  closes : Closes r.lines r.ending

/-! ## The buffer -/

variable {lines : List Bytes} {t : Bytes}

theorem errors_nil : (Program.ofSource []).errors = [] := by
  decide +kernel

/-- no line is asked for behind nothing -/
theorem Asks.ne_nil {code : Bytes} (h : Asks code) : code ≠ [] := by
  rintro rfl
  rw [Asks, errors_nil] at h
  exact absurd h.1 Bool.false_ne_true

theorem asks_iff {code : Bytes} :
    Asks code ↔ (!isExit code && needsMore (Program.ofSource code).errors) = true := by
  rw [Asks, Bool.and_eq_true, Bool.not_eq_true', and_comm]

theorem Waits.nil : Waits [] where
  asks front h hne := absurd (List.prefix_nil.1 h) hne
  further t ht := by cases ht

/-- the buffer is empty only in front of the first line -/
theorem Waits.joined_eq_nil (h : Waits lines) : joined lines = [] ↔ lines = [] := by
  refine ⟨fun hnil => ?_, fun hnil => by rw [hnil]; rfl⟩
  by_contra hne
  exact (h.asks lines (List.prefix_refl _) hne).ne_nil hnil

theorem joined_concat (hne : lines ≠ []) : joined (lines ++ [t]) = joined lines ++ Bytes.newline :: t := by
  unfold joined
  induction lines with
  | nil => exact absurd rfl hne
  | cons l lines ih =>
    cases lines with
    | nil => simp [Bytes.join]
    | cons l' lines =>
      have ih := ih (by simp)
      simp only [List.cons_append, Bytes.join] at ih ⊢
      simp [ih]

theorem Waits.extend (h : Waits lines) : extend (joined lines) t = joined (lines ++ [t]) := by
  unfold Prompt.extend
  by_cases hnil : lines = []
  · rw [if_pos (h.joined_eq_nil.2 hnil), hnil]
    rfl
  · rw [if_neg (mt h.joined_eq_nil.1 hnil), joined_concat hnil]

theorem Waits.concat (h : Waits lines) (ht : lines = [] ∨ Text.isBlankText t = false)
    (hasks : Asks (joined (lines ++ [t]))) : Waits (lines ++ [t]) where
  asks front hfront hne := by
    rcases List.prefix_concat_iff.1 hfront with rfl | hfront
    · exact hasks
    · exact h.asks front hfront hne
  further u hu := by
    cases lines with
    | nil => cases hu
    | cons l lines =>
      rcases List.mem_append.1 hu with hu | hu
      · exact h.further u hu
      · rw [List.mem_singleton.1 hu]
        exact ht.resolve_left (List.cons_ne_nil _ _)

theorem Waits.sign_eq (h : Waits lines) : sign (joined lines) = if lines = [] then text ">> " else text ".. " := by
  rw [Prompt.sign]
  simp only [h.joined_eq_nil]

/-- one prompt more -/
theorem Waits.prompts_succ (h : Waits lines) :
    prompts (lines.length + 1) = prompts lines.length ++ [sign (joined lines)] := by
  rw [h.sign_eq]
  cases lines with
  | nil => rfl
  | cons l lines => simp [prompts, List.replicate_succ']

/-! ## One reading -/

/-- `out` is what comes of the script with the lines in the buffer: the rest of the reading, and what is left unread -/
structure Continues (lines : List Bytes) (script : List Typed) (r : Reading) (out : Round × List Typed) : Prop where
  typed : lines.map .line ++ script = r.typed ++ out.2
  holds : r.Holds
  prompts : r.round.prompts = prompts lines.length ++ out.1.prompts
  written : r.round.written = out.1.written
  code : r.round.code = out.1.code
  unread : r.ending = .pending → out.2 = []

variable {script : List Typed} {r : Reading} {out : Round × List Typed} {ending : Ending}

/-- what is typed next ends the lines in the buffer -/
theorem Waits.ended (h : Waits lines) (hcloses : Closes lines ending) (hasked : ending.asked = 1)
    (hunread : ending = .pending → script = []) : Continues lines (ending.typed ++ script) ⟨[], lines, ending⟩
      (.single (joined lines) (if ending.submits then some (joined lines) else none), script) where
  typed := by simp [Reading.typed]
  holds := ⟨List.forall_mem_nil _, hcloses⟩
  prompts := by
    simp only [Reading.round, List.flatMap_nil, List.nil_append, hasked, h.prompts_succ]
    rfl
  written := rfl
  code := rfl
  unread := hunread

/-- the next line makes the code complete -/
theorem Waits.completed (h : Waits lines) (ht : lines = [] ∨ Text.isBlankText t = false)
    (hcode : ¬ Asks (joined (lines ++ [t]))) : Continues lines (.line t :: script) ⟨[], lines ++ [t], .complete⟩
      (.single (joined lines) (some (joined (lines ++ [t]))), script) where
  typed := by simp [Reading.typed, Ending.typed]
  holds := ⟨List.forall_mem_nil _, .complete h ht hcode⟩
  prompts := by
    simp only [Reading.round, List.flatMap_nil, List.nil_append, List.length_append, List.length_singleton, Ending.asked,
      Nat.add_zero, h.prompts_succ]
    rfl
  written := rfl
  code := rfl
  unread := by simp

/-- behind the next line a further one is asked for -/
theorem Continues.line (h : Waits lines) (hr : Continues (lines ++ [t]) script r out) :
    Continues lines (.line t :: script) r (out.1.after (joined lines) [], out.2) where
  typed := by simpa using hr.typed
  holds := hr.holds
  prompts := by
    rw [hr.prompts, List.length_append, List.length_singleton, h.prompts_succ, List.append_assoc]
    rfl
  written := hr.written
  code := hr.code
  unread := hr.unread

/-- the lines in the buffer are cancelled -/
theorem Continues.abort (h : Waits lines) (hr : Continues [] script r out) :
    Continues lines (.abort :: script) { r with cancelled := lines :: r.cancelled }
      (out.1.after (joined lines) abortMark, out.2) where
  typed := by
    have htyped := hr.typed
    simp only [List.map_nil, List.nil_append] at htyped
    simp [Reading.typed, htyped]
  holds := ⟨List.forall_mem_cons.2 ⟨h, hr.holds.cancelled⟩, hr.holds.closes⟩
  prompts := by
    have hprompts := hr.prompts
    simp only [Reading.round, List.length_nil] at hprompts
    simp only [Reading.round, List.flatMap_cons, List.append_assoc, h.prompts_succ, hprompts]
    rfl
  written := by
    have hwritten := hr.written
    simp only [Reading.round] at hwritten
    simp only [Reading.round, List.length_cons, List.replicate_succ, List.flatten_cons, hwritten]
    rfl
  code := hr.code
  unread := hr.unread

/-- what the next line does to the lines in the buffer -/
theorem Waits.enter_line (h : Waits lines) (t : Bytes) : enter (joined lines) (.line t) =
    if lines ≠ [] ∧ Text.isBlankText t = true then .submitted (joined lines)
    else if !isExit (joined (lines ++ [t])) && needsMore (Program.ofSource (joined (lines ++ [t]))).errors then
      .more (joined (lines ++ [t]))
    else .submitted (joined (lines ++ [t])) := by
  simp only [enter, h.extend, ne_eq, h.joined_eq_nil]

/-- **What the rest of a script makes of the lines in the buffer.** -/
theorem exists_continues (script : List Typed) (h : Waits lines) :
    ∃ r, Continues lines script r (readFrom (joined lines) script) := by
  induction script generalizing lines with
  | nil => exact ⟨_, h.ended (.pending h) rfl fun _ => rfl⟩
  | cons e script ih =>
    cases e with
    | ended => exact ⟨_, h.ended (.stopped h (Or.inl rfl)) rfl (by simp)⟩
    | broken => exact ⟨_, h.ended (.stopped h (Or.inr rfl)) rfl (by simp)⟩
    | abort =>
      obtain ⟨r, hr⟩ := ih Waits.nil
      exact ⟨_, hr.abort h⟩
    | line t =>
      rw [readFrom, h.enter_line]
      by_cases hblank : lines ≠ [] ∧ Text.isBlankText t = true
      · rw [if_pos hblank]
        exact ⟨_, h.ended (.blank h hblank.1 hblank.2) rfl (by simp)⟩
      rw [if_neg hblank]
      have ht : lines = [] ∨ Text.isBlankText t = false := by
        by_cases hnil : lines = []
        · exact Or.inl hnil
        · exact Or.inr (Bool.eq_false_iff.2 fun ht => hblank ⟨hnil, ht⟩)
      by_cases hasks : Asks (joined (lines ++ [t]))
      · rw [if_pos (asks_iff.1 hasks)]
        obtain ⟨r, hr⟩ := ih (h.concat ht hasks)
        exact ⟨r, hr.line h⟩
      · rw [if_neg (mt asks_iff.2 hasks)]
        exact ⟨_, h.completed ht hasks⟩

/-- one reading from the start of a script -/
theorem exists_reading (script : List Typed) : ∃ (r : Reading) (unread : List Typed),
    readInput script = (r.round, unread) ∧ r.Holds ∧
    script = r.typed ++ unread ∧ (r.ending = .pending → unread = []) := by
  obtain ⟨r, hr⟩ := exists_continues script Waits.nil
  refine ⟨r, (readInput script).2, Prod.ext ?_ rfl, hr.holds, hr.typed, hr.unread⟩
  calc (readInput script).1
      = ⟨(readInput script).1.prompts, (readInput script).1.written, (readInput script).1.code⟩ := rfl
    _ = ⟨r.round.prompts, r.round.written, r.round.code⟩ := by rw [hr.prompts, hr.written, hr.code]; rfl
    _ = r.round := rfl

/-! ## All readings -/

theorem rounds_of_code {read : Round} {rest : List Typed} {code : Bytes} (h : readInput script = (read, rest))
    (hcode : read.code = some code) : rounds script = read :: rounds rest := by
  rw [rounds]
  split
  · rw [h]
  · rename_i hnone
    rw [h, hcode] at hnone
    cases hnone

theorem rounds_of_no_code {read : Round} {rest : List Typed} (h : readInput script = (read, rest))
    (hcode : read.code = none) : rounds script = [read] := by
  rw [rounds]
  split
  · rename_i hsome
    rw [h, hcode] at hsome
    cases hsome
  · rw [h]

/-- **The prompt cuts what is typed into inputs.** Whatever the script is, it is cut without a gap into readings, and what
is left unread when the input ended. The rounds are what the readings say: in each segment the first prompt is the one for
a first line and the others are those for further lines, each cancelled segment is marked once, and the code is the lines
of the last segment without a blank line that ended them. Behind each start of a segment a further line was asked for,
and behind the lines of the code it was not, unless a blank line ended them. All readings but the last give a code, and
the last one gives none. -/
theorem rounds_partition (script : List Typed) : ∃ readings last unread,
    script = (readings ++ [last]).flatMap Reading.typed ++ unread ∧
    rounds script = (readings ++ [last]).map Reading.round ∧
    (∀ r ∈ readings ++ [last], r.Holds) ∧
    (∀ r ∈ readings, r.ending.submits = true) ∧ last.ending.submits = false ∧
    (last.ending = .pending → unread = []) := by
  induction hlength : script.length using Nat.strong_induction_on generalizing script with
  | _ n ih =>
    obtain ⟨r, rest, hread, hholds, hscript, hpending⟩ := exists_reading script
    by_cases hsubmits : r.ending.submits = true
    · -- a code: the rest of the script is shorter, and is cut like this one
      have hcode : r.round.code = some (joined r.lines) := if_pos hsubmits
      have hshort := readFrom_length [] script (joined r.lines)
      rw [show readFrom [] script = (r.round, rest) from hread] at hshort
      obtain ⟨readings, last, unread, hrest, hrounds, hall, hcodes, hlast, hend⟩ :=
        ih _ (hlength ▸ hshort hcode) rest rfl
      refine ⟨r :: readings, last, unread, ?_, ?_, List.forall_mem_cons.2 ⟨hholds, hall⟩,
        List.forall_mem_cons.2 ⟨hsubmits, hcodes⟩, hlast, hend⟩
      · calc script = r.typed ++ (List.flatMap Reading.typed (readings ++ [last]) ++ unread) := by rw [hscript, ← hrest]
          _ = _ := by rw [List.cons_append, List.flatMap_cons, List.append_assoc]
      · rw [rounds_of_code hread hcode, hrounds]
        rfl
    · have hcode : r.round.code = none := if_neg hsubmits
      exact ⟨[], r, rest, by simpa using hscript, rounds_of_no_code hread hcode, by simpa using hholds,
        List.forall_mem_nil _, Bool.eq_false_iff.2 hsubmits, hpending⟩

end Prompt

end Ouroboros
