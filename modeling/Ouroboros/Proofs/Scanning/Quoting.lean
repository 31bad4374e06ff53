/-
Strings as literals.

A byte of a string is written as itself or as one of the four escapes, so the text between the quotes of a literal is one
that the token grammar takes for the string (`escaped_literal`). A quote or a backslash of the string never stands there
alone, and a line feed does not stand there at all. So the literal is one part of the grammar, from its first byte to its
last: `scan_literal` says that reading gives it back, whatever the bytes of the string are.
-/
import Ouroboros.Proofs.Scanning.Longest

namespace Ouroboros

/-- the place behind a text on one line -/
theorem Pos.after_of_not_mem {t : Bytes} (h : Bytes.newline ∉ t) (p : Pos) : p.after t = ⟨p.line, p.col + t.length⟩ := by
  induction t generalizing p with
  | nil => simp [Pos.after]
  | cons b t ih =>
    have hb : b ≠ Bytes.newline := (List.ne_of_not_mem_cons h).symm
    calc p.after (b :: t) = (p.next b).after t := rfl
      _ = (⟨p.line, p.col + 1⟩ : Pos).after t := by rw [Pos.next, if_neg hb]
      _ = ⟨p.line, p.col + 1 + t.length⟩ := ih (List.not_mem_of_not_mem_cons h) _
      _ = ⟨p.line, p.col + (b :: t).length⟩ := by
        rw [List.length_cons]
        congr 1
        push_cast
        omega

namespace Token

/-- a byte is written with an escape that stands for it, or as itself when it may stand in a string -/
theorem literalByte_cases (b : UInt8) : (∃ e, Text.literalByte b = [Bytes.backslash, e] ∧ (e, b) ∈ escapes) ∨
    Text.literalByte b = [b] ∧ b ∉ [Bytes.quote, Bytes.newline, Bytes.backslash] := by
  unfold Text.literalByte
  split_ifs with hs hq hn ht
  · exact .inl ⟨_, rfl, by rw [hs]; decide⟩
  · exact .inl ⟨_, rfl, by rw [hq]; decide⟩
  · exact .inl ⟨_, rfl, by rw [hn]; decide⟩
  · exact .inl ⟨_, rfl, by rw [ht]; decide⟩
  · exact .inr ⟨rfl, by simp [hs, hq, hn]⟩

/-- what a literal has between its quotes stands for the string -/
theorem escaped_literal (s : Bytes) : Escaped (s.flatMap Text.literalByte) s := by
  induction s with
  | nil => exact .nil
  | cons b s ih =>
    rw [List.flatMap_cons]
    rcases literalByte_cases b with ⟨e, hb, he⟩ | ⟨hb, hplain⟩
    · rw [hb]
      exact .escape he ih
    · rw [hb]
      exact .byte hplain ih

theorem newline_not_mem_escaped {w s : Bytes} (h : Escaped w s) : Bytes.newline ∉ w := by
  induction h with
  | nil => exact List.not_mem_nil
  | byte hb _ ih =>
    simp only [List.mem_cons, not_or] at hb
    exact List.not_mem_cons_of_ne_of_not_mem (Ne.symm hb.2.1) ih
  | escape he _ ih =>
    have htable : escapes.all (fun x => Bytes.newline ≠ x.1) = true := by decide
    have hne := of_decide_eq_true (List.all_eq_true.1 htable _ he)
    exact List.not_mem_cons_of_ne_of_not_mem (by decide) (List.not_mem_cons_of_ne_of_not_mem hne ih)

theorem newline_not_mem_literal (s : Bytes) : Bytes.newline ∉ Text.literal s := by
  simp only [Text.literal, List.mem_cons, List.mem_append, List.not_mem_nil, or_false, not_or]
  exact ⟨by decide, newline_not_mem_escaped (escaped_literal s), by decide⟩

/-- a literal is one part of the token grammar -/
theorem splits_literal (s : Bytes) : Splits (Text.literal s) [(.token .stringLiteral (.text s), Text.literal s)] :=
  (Part.Reads.string (escaped_literal s)).splits

/-- reading a literal gives one token, spelled as the literal and with the string as its payload, and the end of input -/
theorem scan_eq_of_literal (s : Bytes) : scan (Text.literal s) =
    ⟨[⟨.stringLiteral, Text.literal s, .text s, .start⟩, .finish ⟨1, 1 + (Text.literal s).length⟩], []⟩ := by
  rw [scan, scanFrom_of_splits (splits_literal s)]
  simp only [tokensOf, Part.token?, Option.toList_some, List.singleton_append,
    Pos.after_of_not_mem (newline_not_mem_literal s)]
  rfl

/-- **Quoting is undone by reading.** For every string of bytes, reading its literal reports no fault and gives one string
token, at the start of the text, whose spelling is the whole literal and whose payload is the string, and then the end of
input behind it. So different strings have different literals. A literal is on one line. -/
theorem scan_literal :
    (∀ s, scan (Text.literal s) = ⟨[⟨.stringLiteral, Text.literal s, .text s, .start⟩,
      .finish ⟨1, 1 + (Text.literal s).length⟩], []⟩) ∧
    Function.Injective Text.literal ∧ ∀ s, Bytes.newline ∉ Text.literal s := by
  refine ⟨scan_eq_of_literal, fun s t heq => ?_, newline_not_mem_literal⟩
  have htokens := congrArg (fun w => (scan w).tokens.map Token.payload) heq
  simp only [scan_eq_of_literal, List.map_cons] at htokens
  exact (List.cons.inj htokens).1

/-- a quote, a backslash in front of the closing quote, a line feed and a byte that is no UTF-8 -/
example : Text.literal [Bytes.quote, 10, 255, Bytes.backslash] =
    [34, 92, 34, 92, 110, 255, 92, 92, 34] := by decide

end Token

end Ouroboros
