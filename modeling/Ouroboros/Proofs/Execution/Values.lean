/-
Values that evaluation makes.

A value is sound when a number counts as an integer only if it is one, and a range does not end before it begins. Literals,
operators, ranges and builtins make sound values whatever they are given (`Eval.sound_binary`, `Eval.sound_range`,
`Primitive.sound_run`): arithmetic looks at its result before it calls it an integer, and a range is made only of integers
that are in order.
-/
import Ouroboros.Proofs.Integers
import Ouroboros.Proofs.Operators
import Ouroboros.Proofs.Execution.Deeds

namespace Ouroboros

/-- the value is of a sort that programs produce; a number counts as an integer only if it is one, and a range does not end
before it begins -/
def Value.Sound : Value → Prop
  | .number n => n.Sound
  | .range low high => low ≤ high
  | .unknown _ => False
  | .unit | .string _ | .bool _ | .function _ | .builtin _ => True

/-- only integers are of the type `int` -/
theorem Value.Sound.integer {v : Value} (h : v.Sound) (hv : v.typeName = text "int") :
    ∃ n i, v = .number n ∧ Decimal.integer? n.value = some i := by
  cases v with
  | number n =>
    cases hn : n.isInt with
    | true =>
      obtain ⟨i, hi⟩ := h hn
      exact ⟨n, i, rfl, hi⟩
    | false =>
      simp only [typeName, hn] at hv
      exact absurd hv (by decide)
  | unknown code => cases h
  | unit => exact absurd (show text "unit" = text "int" from hv) (by decide)
  | string t => exact absurd (show text "string" = text "int" from hv) (by decide)
  | bool b => exact absurd (show text "bool" = text "int" from hv) (by decide)
  | function f => exact absurd (show text "function" = text "int" from hv) (by decide)
  | builtin b => exact absurd (show text "function" = text "int" from hv) (by decide)
  | range low high => exact absurd (show text "range" = text "int" from hv) (by decide)

namespace Eval

variable {α β : Type} {V : α → Prop} {W : β → Prop}

/-- what the step gives is as `V` says -/
def Gives (V : α → Prop) (x : Eval α) : Prop := ∀ m a, (x m).1 = .ok a → V a

namespace Gives

theorem pure {a : α} (h : V a) : Gives V (Pure.pure a) := by
  intro m b hb
  cases hb
  exact h

theorem fail (d : Diagnostic) : Gives V (Action.fail d) := by
  intro m a ha
  cases ha

theorem raise (fault : Fault) : Gives V (Eval.raise fault) := fail _

/-- the last step decides -/
theorem andThen {x : Eval α} {k : α → Eval β} (h : ∀ a, Gives W (k a)) : Gives W (x >>= k) := by
  intro m b hb
  rw [Action.bind_apply] at hb
  rcases hx : x m with ⟨d | a, m'⟩
  · rw [hx] at hb
    cases hb
  · rw [hx] at hb
    exact h a m' b hb

end Gives

/-- operators make sound values -/
theorem sound_binary (pos rightPos : Pos) (op : BinaryOp) (left right : Value) :
    Gives (fun v => v.IsPlain ∧ v.Sound) (binary pos op rightPos left right) := by
  cases applied op left right with
  | value hv h =>
    rw [h]
    refine .pure ⟨hv.ne_function, ?_⟩
    cases hv with
    | number => exact Number.sound_make _ _
    | bool | string => trivial
  | zero h | types h =>
    rw [h]
    exact .fail _

theorem integer?_of_int64? {f : Float} {i : Int} (h : Decimal.int64? f = some i) : Decimal.integer? f = some i := by
  unfold Decimal.int64? at h
  split at h
  · rename_i n hn
    split at h
    · rw [hn, h]
    · cases h
  · cases h

/-- a range is made of integers that are in order -/
theorem sound_range (pos : Pos) (low high : Value) : Gives (fun v => v.IsPlain ∧ v.Sound) (range pos low high) := by
  cases ranged low high with
  | range horder hi hj h =>
    rw [h]
    exact .pure ⟨nofun, Decimal.le_of_not_lt (integer?_of_int64? hi) (integer?_of_int64? hj) horder⟩
  | fault _ h =>
    rw [h]
    exact .fail _

end Eval

namespace Primitive

open Eval

variable {p : Primitive}

theorem sound_markArg (mark : Signature → Bool) (v : Value) : Gives Value.Sound (p.markArg mark v) := by
  cases v with
  | function | builtin => exact .pure trivial
  | unit | number | string | bool | range | unknown => exact .raise _

theorem sound_drawing (args : Eval GraphicsCall) : Gives Value.Sound (p.drawing args) :=
  .andThen fun _ => .andThen fun _ => .andThen fun _ => .pure trivial

/-- builtins make sound values, apart from what they hand on from the functions that they call -/
theorem sound_run (p : Primitive) (args : List Value) : Gives Value.Sound (p.run Deed.idle args) := by
  cases p.given args with
  | wrong harity hargs =>
    rw [run_of_length_ne harity hargs]
    exact .pure trivial
  | print => exact .andThen fun _ => .pure trivial
  | len | stringLength => exact .andThen fun _ => .pure (Number.sound_ofInt _)
  | toString | typeOf => exact .pure trivial
  | stringConcat a b =>
    rcases run_stringConcat a b with ⟨t, u, -, -, hrun⟩ | ⟨-, hrun⟩ <;> rw [hrun]
    · exact .pure trivial
    · exact .raise _
  | isAsync | isGpu => exact sound_markArg _ _
  | getInput =>
    refine .andThen fun _ => ?_
    split
    · exact .andThen fun _ => .andThen fun _ => .pure trivial
    · exact .andThen fun _ => .pure trivial
  | spawn f =>
    have hspawn : Gives Value.Sound (Eval.spawn f >>= fun _ => Pure.pure .unit) := .andThen fun _ => .pure trivial
    refine .andThen fun _ => ?_
    split
    · split
      · exact .andThen fun _ => hspawn
      · exact hspawn
    · exact hspawn
  | sleep => exact .andThen fun _ => .andThen fun _ => .pure trivial
  | setTimeout => exact .andThen fun _ => .andThen fun _ => .andThen fun _ => .pure trivial
  | clock => exact .andThen fun _ => .pure (Number.sound_ofFloat _)
  | graphicsInit | createWindow | clear | swapBuffers | graphicsShutdown => exact sound_drawing _
  | registerEvent => exact .andThen fun _ => .andThen fun _ => .andThen fun _ => .andThen fun _ => .pure trivial
  | triggerEvent => exact .andThen fun _ => .andThen fun _ => .andThen fun _ => .pure (Number.sound_ofInt _)
  | httpGet =>
    refine .andThen fun url => .andThen fun answer => ?_
    rcases answer with reason | ⟨status, body⟩
    · exact .raise _
    · refine .andThen fun _ => ?_
      split
      · exact .raise _
      · exact .pure trivial

end Primitive

end Ouroboros
