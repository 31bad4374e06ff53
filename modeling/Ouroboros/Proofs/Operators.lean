/-
What operators and ranges come to.

An operator looks at two values and at nothing else. It makes a number, a truth value or a text of them, or it fails: at the
right operand when that is a zero to divide by, and at its own place when it does not take such values (`Eval.applied`). Two
values are the bounds of a range, or the range fails with a type error (`Eval.ranged`). Both fail for a function, whichever
it is (`Eval.binary_of_function`, `Eval.range_of_function`).
-/
import Ouroboros.Machine.Eval

namespace Ouroboros.Eval

/-- what operators make: numbers as arithmetic makes them, truth values and texts -/
inductive Made : Value → Prop where
  | number (x : Float) (isInt : Bool) : Made (.number (Number.make x isInt))
  | bool (b : Bool) : Made (.bool b)
  | string (t : Bytes) : Made (.string t)

theorem Made.ne_function {v : Value} (h : Made v) (f : Closure) : v ≠ .function f := by
  cases h <;> nofun

/-- what becomes of an operator and two values, wherever they stand -/
inductive Applied (op : BinaryOp) (left right : Value) : Prop where
  | value {v : Value} (hv : Made v) (h : ∀ pos rightPos, binary pos op rightPos left right = pure v)
  | zero (h : ∀ pos rightPos, binary pos op rightPos left right = Action.failAt rightPos .divisionByZero)
  | types (h : ∀ pos rightPos, binary pos op rightPos left right =
      Action.failAt pos (.operandTypes op left.typeName right.typeName))

theorem applied (op : BinaryOp) (left right : Value) : Applied op left right := by
  cases left with
  | number a =>
    cases right with
    | number b =>
      cases op with
      | add | sub | mul => exact .value (.number ..) fun _ _ => rfl
      | div =>
        by_cases hzero : b.isZero = true
        · exact .zero fun _ _ => if_pos hzero
        · exact .value (.number ..) fun _ _ => if_neg hzero
      | greater => exact .value (.bool _) fun _ _ => rfl
      | unknown => exact .types fun _ _ => rfl
    | unit | string | bool | function | builtin | range | unknown => exact .types fun _ _ => by cases op <;> rfl
  | string a =>
    cases right with
    | string b =>
      cases op with
      | add => exact .value (.string _) fun _ _ => rfl
      | greater => exact .value (.bool _) fun _ _ => rfl
      | sub | mul | div | unknown => exact .types fun _ _ => rfl
    | unit | number | bool | function | builtin | range | unknown => exact .types fun _ _ => by cases op <;> rfl
  | unit | bool | function | builtin | range | unknown => exact .types fun _ _ => by cases op <;> rfl

/-- no operator takes a function -/
theorem binary_of_function {pos rightPos : Pos} {op : BinaryOp} {left right : Value}
    (h : left.isFunction ∨ right.isFunction) :
    binary pos op rightPos left right = Action.failAt pos (.operandTypes op left.typeName right.typeName) := by
  unfold binary
  split <;> first
    | rfl
    | simp [Value.isFunction] at h

/-- what becomes of two values that are to bound a range, wherever it stands -/
inductive Ranged : Value → Value → Prop where
  | range {a b : Number} {i j : Int} (horder : ¬b.value < a.value) (hi : Decimal.int64? a.value = some i)
    (hj : Decimal.int64? b.value = some j) (h : ∀ pos, range pos (.number a) (.number b) = pure (.range i j)) :
    Ranged (.number a) (.number b)
  | fault {low high : Value} {fault : Fault} (hkind : fault.kind = .typeError)
    (h : ∀ pos, range pos low high = Action.failAt pos fault) : Ranged low high

theorem ranged (low high : Value) : Ranged low high := by
  cases low with
  | number a =>
    cases high with
    | number b =>
      by_cases hintegral : (!Decimal.isIntegral a.value || !Decimal.isIntegral b.value) = true
      · exact .fault rfl fun pos => if_pos hintegral
      by_cases horder : b.value < a.value
      · exact .fault rfl fun pos => (if_neg hintegral).trans (if_pos horder)
      cases hi : Decimal.int64? a.value with
      | none => exact .fault rfl fun pos => by rw [Eval.range, if_neg hintegral, if_neg horder, hi]
      | some i =>
        cases hj : Decimal.int64? b.value with
        | none => exact .fault rfl fun pos => by rw [Eval.range, if_neg hintegral, if_neg horder, hi, hj]
        | some j =>
          refine .range horder hi hj fun pos => ?_
          rw [Eval.range, if_neg hintegral, if_neg horder, hi, hj]
    | unit | string | bool | function | builtin | range | unknown => exact .fault rfl fun _ => rfl
  | unit | string | bool | function | builtin | range | unknown => exact .fault rfl fun _ => rfl

/-- no function bounds a range -/
theorem range_of_function {pos : Pos} {low high : Value} (h : low.isFunction ∨ high.isFunction) :
    range pos low high = Action.failAt pos (.rangeBounds low.described high.described) := by
  unfold range
  split
  · simp [Value.isFunction] at h
  · rfl

end Ouroboros.Eval
