/-
Recalling an input.

The history keeps an input on one line: each of its line feeds becomes a space. Where a line feed is a blank between
tokens that changes nothing, since a space is a blank too, and no token holds a line feed. But a line feed also ends a
comment. On one line the first comment of the input goes on to the end and takes in whatever stood behind it.

- `splits_entryOf`: the parts of the entry are those of the input up to its first comment, which takes in the rest.
- `ofSource_of_plain`, `plain_of_unplacedAll`: two faultless texts hold the same program, up to places, exactly when
  their tokens say the same.
- `entryOf_keeps`: recalling an input means what was typed exactly when no token stands behind a comment.
-/
import Ouroboros.Proofs.RoundTrip
import Ouroboros.Proofs.Scanning.Quoting
import Ouroboros.Prompt.Console

namespace Ouroboros

/-! ## A text on one line -/

namespace History

theorem entryOf_append (t u : Bytes) : entryOf (t ++ u) = entryOf t ++ entryOf u := List.map_append

theorem entryOf_of_not_mem {t : Bytes} (h : Bytes.newline ∉ t) : entryOf t = t := by
  refine (List.map_congr_left fun b hb => ?_).trans (List.map_id t)
  exact if_neg (ne_of_mem_of_not_mem hb h)

theorem newline_not_mem_entryOf (t : Bytes) : Bytes.newline ∉ entryOf t := by
  intro h
  obtain ⟨b, -, hb⟩ := List.mem_map.1 h
  split_ifs at hb with hnewline
  · exact absurd hb (by decide)
  · exact hnewline hb

theorem space_mem_entryOf {t : Bytes} (h : Bytes.newline ∈ t) : Bytes.space ∈ entryOf t :=
  List.mem_map.2 ⟨Bytes.newline, h, rfl⟩

/-- a slash at the start of an entry stood there before -/
theorem exists_eq_slash {t u : Bytes} (h : entryOf t = Bytes.slash :: u) : ∃ v, t = Bytes.slash :: v := by
  cases t with
  | nil => cases h
  | cons b t =>
    have hb := (List.cons.inj h).1
    dsimp only at hb
    split_ifs at hb
    · exact absurd hb (by decide)
    · exact ⟨t, by rw [hb]⟩

/-- what stands at the start of an entry is the entry of what stands at the start of the text -/
theorem prefix_entryOf {v t : Bytes} (h : v <+: entryOf t) : ∃ w, w <+: t ∧ v = entryOf w := List.prefix_map_iff.1 h

end History

namespace Token

open History

/-! ## Tokens without their places -/

/-- the token at no place -/
def unplaced (t : Token) : Token := { t with pos := .unknown }

/-- what a token says: its kind and its payload -/
def said (t : Token) : TokenKind × Literal := (t.kind, t.literal)

/-- the tokens among some parts, at no place -/
def tokensAmong (parts : List (Part × Bytes)) : List Token := parts.filterMap fun x => x.1.token? x.2 .unknown

theorem map_unplaced_tokensOf (parts : List (Part × Bytes)) (p : Pos) :
    (tokensOf p parts).map unplaced = tokensAmong parts ++ [.finish .unknown] := by
  induction parts generalizing p with
  | nil => rfl
  | cons x parts ih =>
    obtain ⟨part, w⟩ := x
    rw [tokensOf, List.map_append, ih]
    cases part <;> rfl

theorem map_said_unplaced (ts : List Token) : (ts.map unplaced).map said = ts.map said := by
  rw [List.map_map]
  rfl

theorem map_plain_unplaced (ts : List Token) : (ts.map unplaced).map plain = ts.map plain := by
  rw [List.map_map]
  rfl

theorem map_said_of_plain {ts us : List Token} (h : us.map plain = ts.map plain) : us.map said = ts.map said := by
  have hsaid : ∀ l : List Token, l.map said = (l.map plain).map said := fun l => by
    rw [List.map_map]
    rfl
  rw [hsaid us, h, ← hsaid ts]

/-! ## Comments -/

/-- whether a part is a comment -/
def Part.isComment : Part → Bool
  | .comment => true
  | .blank | .token .. => false

/-- the parts in front of the first comment -/
def uncommented (parts : List (Part × Bytes)) : List (Part × Bytes) := parts.takeWhile fun x => !x.1.isComment

/-- a token stands behind a comment -/
def HidesToken (parts : List (Part × Bytes)) : Prop :=
  ∃ front w behind, parts = front ++ (.comment, w) :: behind ∧ ∃ kind literal v, (.token kind literal, v) ∈ behind

theorem tokensAmong_ne_nil {parts : List (Part × Bytes)} :
    tokensAmong parts ≠ [] ↔ ∃ kind literal v, (Part.token kind literal, v) ∈ parts := by
  constructor
  · intro h
    obtain ⟨t, ht⟩ := List.exists_mem_of_ne_nil _ h
    obtain ⟨⟨part, v⟩, hmem, htoken⟩ := List.mem_filterMap.1 ht
    cases part with
    | token kind literal => exact ⟨kind, literal, v, hmem⟩
    | blank | comment => cases htoken
  · rintro ⟨kind, literal, v, hmem⟩
    exact List.ne_nil_of_mem (List.mem_filterMap.2 ⟨_, hmem, rfl⟩)

/-- what stands behind a comment is not in front of the first one -/
theorem mem_dropWhile_of_mem_behind {front behind : List (Part × Bytes)} {w : Bytes} {x : Part × Bytes}
    (hx : x ∈ behind) : x ∈ (front ++ (.comment, w) :: behind).dropWhile fun y => !y.1.isComment := by
  rw [List.dropWhile_append]
  split_ifs
  · exact List.mem_cons_of_mem _ hx
  · exact List.mem_append_right _ (List.mem_cons_of_mem _ hx)

/-- the tokens in front of the first comment are all there are, unless a comment hides some -/
theorem exists_hidden (parts : List (Part × Bytes)) : ∃ hidden,
    tokensAmong parts = tokensAmong (uncommented parts) ++ hidden ∧ (hidden ≠ [] ↔ HidesToken parts) := by
  have hcut := List.takeWhile_append_dropWhile (p := fun x : Part × Bytes => !x.1.isComment) (l := parts)
  refine ⟨tokensAmong (parts.dropWhile fun x => !x.1.isComment), ?_, tokensAmong_ne_nil.trans ⟨?_, ?_⟩⟩
  · rw [tokensAmong, tokensAmong, tokensAmong, uncommented, ← List.filterMap_append, hcut]
  · rintro ⟨kind, literal, v, hmem⟩
    have hfirst := List.head_dropWhile_not (fun x : Part × Bytes => !x.1.isComment) (List.ne_nil_of_mem hmem)
    obtain ⟨⟨part, w⟩, behind, hdrop⟩ := List.exists_cons_of_ne_nil (List.ne_nil_of_mem hmem)
    simp only [hdrop, List.head_cons] at hfirst
    rw [hdrop] at hcut hmem
    cases part with
    | comment => exact ⟨_, w, behind, hcut.symm, kind, literal, v, by simpa using hmem⟩
    | blank | token => cases hfirst
  · rintro ⟨front, w, behind, rfl, kind, literal, v, hmem⟩
    exact ⟨kind, literal, v, mem_dropWhile_of_mem_behind hmem⟩

/-! ## The parts of a text on one line -/

/-- the parts of a text when its line feeds have become spaces: the first comment takes in all that follows it -/
def onOneLine : List (Part × Bytes) → List (Part × Bytes)
  | [] => []
  | (.comment, w) :: parts => [(.comment, entryOf (w ++ parts.flatMap Prod.snd))]
  | (.blank, w) :: parts => (.blank, entryOf w) :: onOneLine parts
  | (.token kind literal, w) :: parts => (.token kind literal, w) :: onOneLine parts

theorem tokensAmong_onOneLine (parts : List (Part × Bytes)) :
    tokensAmong (onOneLine parts) = tokensAmong (uncommented parts) := by
  induction parts with
  | nil => rfl
  | cons x parts ih =>
    obtain ⟨part, w⟩ := x
    cases part with
    | comment => rfl
    | blank => exact ih
    | token kind literal => exact congrArg (⟨kind, w, literal, .unknown⟩ :: ·) ih

section OneLine

variable {kind : TokenKind} {literal : Literal} {w u : Bytes}

/-- a token is a string, or holds no blank -/
theorem Part.Reads.token_cases (h : Part.Reads (.token kind literal) w) :
    (∃ v s, w = Bytes.quote :: (v ++ [Bytes.quote]) ∧ Escaped v s) ∨ ∀ x ∈ w, isBlankByte x = false := by
  have hdigit : ∀ {x : UInt8}, Bytes.isDigit x = true → isBlankByte x = false :=
    fun hx => isBlankByte_eq_false hx (by decide)
  cases h with
  | string h => exact .inl ⟨_, _, rfl, h⟩
  | word hb hw =>
    refine .inr (List.forall_mem_cons.2 ⟨isBlankByte_eq_false hb (by decide), fun x hx => ?_⟩)
    exact isBlankByte_eq_false (hw x hx) (by decide)
  | whole hb hw => exact .inr (List.forall_mem_cons.2 ⟨hdigit hb, fun x hx => hdigit (hw x hx)⟩)
  | decimal hb hw hd hv =>
    simp only [List.forall_mem_cons, List.forall_mem_append]
    exact .inr ⟨hdigit hb, fun x hx => hdigit (hw x hx), by decide, hdigit hd, fun x hx => hdigit (hv x hx)⟩
  | sign h =>
    have htable : ∀ e ∈ signs, ∀ x ∈ e.1, isBlankByte x = false := by decide +kernel
    exact .inr (htable _ h)

theorem Part.Reads.newline_not_mem_token (h : Part.Reads (.token kind literal) w) : Bytes.newline ∉ w := by
  rcases h.token_cases with ⟨v, s, rfl, hv⟩ | hw
  · simp only [List.mem_cons, List.mem_append, List.not_mem_nil, or_false, not_or]
    exact ⟨by decide, newline_not_mem_escaped hv, by decide⟩
  · exact fun h => absurd (hw _ h) (by decide)

/-- a string that starts as another one is that one -/
theorem Part.Reads.eq_of_quote {v v' s : Bytes} (h : Part.Reads (.token kind literal) w)
    (heq : w ++ v' = Bytes.quote :: (v ++ [Bytes.quote])) (hv : Escaped v s) : v' = [] := by
  obtain ⟨b, w, rfl⟩ := List.exists_cons_of_ne_nil h.ne_nil
  simp only [List.cons_append, List.cons.injEq] at heq
  obtain ⟨rfl, heq⟩ := heq
  obtain ⟨v₁, s₁, rfl, hv₁⟩ := h.of_quote
  rw [List.append_assoc, List.singleton_append] at heq
  obtain rfl := hv₁.eq_of_append hv heq
  exact List.tail_eq_of_cons_eq (List.append_cancel_left heq)

/-- A longest token stays the longest when the line feeds behind it become spaces. A longer part would hold one of these
spaces. No token but a string does, a string ends at its own quote, and a comment would have started before. -/
theorem Longest.token_entryOf (h : Longest (.token kind literal) w (w ++ u)) :
    Longest (.token kind literal) w (w ++ entryOf u) := by
  refine ⟨h.reads, List.prefix_append _ _, fun other v hother hv => ?_⟩
  by_contra hlonger
  obtain ⟨v, rfl⟩ := List.prefix_of_prefix_length_le (List.prefix_append w _) hv (Nat.le_of_not_ge hlonger)
  obtain ⟨v, ⟨u, rfl⟩, rfl⟩ := prefix_entryOf ((List.prefix_append_right_inj w).1 hv)
  have hne : v ≠ [] := by
    rintro rfl
    exact hlonger (by simp [entryOf])
  have hnewline : Bytes.newline ∈ v := by
    by_contra hnone
    rw [entryOf_of_not_mem hnone] at hother
    exact h.not_reads hne hother
  obtain ⟨b, w, rfl⟩ := List.exists_cons_of_ne_nil h.reads.ne_nil
  cases other with
  | blank =>
    rw [List.cons_append] at hother
    generalize w ++ entryOf v = tail at hother
    obtain ⟨hb⟩ := hother
    exact absurd (mem_blanks.1 hb) (by simp [h.reads.token_lead])
  | comment =>
    obtain ⟨v₁, heq, -⟩ := hother.of_comment
    simp only [List.cons_append, List.cons.injEq] at heq
    obtain ⟨rfl, heq⟩ := heq
    obtain rfl := h.reads.token_slash
    obtain ⟨v, rfl⟩ := exists_eq_slash heq
    exact h.not_reads (v := [Bytes.slash]) (by simp) (.comment (w := []) (by simp))
  | token kind' literal' =>
    rcases hother.token_cases with ⟨v₁, s, heq, hv₁⟩ | hblank
    · exact hne (List.map_eq_nil_iff.1 (h.reads.eq_of_quote heq hv₁))
    · exact absurd (hblank _ (List.mem_append_right _ (space_mem_entryOf hnewline))) (by decide)

theorem splits_entryOf {t : Bytes} {parts : List (Part × Bytes)} (h : Splits t parts) :
    Splits (entryOf t) (onOneLine parts) := by
  induction h with
  | nil => exact .nil
  | @cons part w rest parts h hrest ih =>
    cases part with
    | blank =>
      obtain ⟨hb⟩ := h.reads
      rw [entryOf_append]
      refine .cons (longest_blank ?_) ih
      dsimp only
      split_ifs
      · rfl
      · exact mem_blanks.1 hb
    | token kind literal =>
      rw [entryOf_append, onOneLine, entryOf_of_not_mem h.reads.newline_not_mem_token]
      exact .cons h.token_entryOf ih
    | comment =>
      obtain ⟨v, rfl, -⟩ := h.reads.of_comment
      rw [onOneLine, hrest.flatMap_eq]
      exact (Part.Reads.comment (newline_not_mem_entryOf (v ++ rest))).splits

end OneLine

/-- the tokens of a text and of its entry, up to places: the entry has those in front of the first comment -/
theorem exists_hidden_tokens {t : Bytes} {parts : List (Part × Bytes)} (h : Splits t parts) :
    (scan (entryOf t)).errors = [] ∧ ∃ hidden,
      (scan t).tokens.map unplaced = tokensAmong (uncommented parts) ++ hidden ++ [.finish .unknown] ∧
      (scan (entryOf t)).tokens.map unplaced = tokensAmong (uncommented parts) ++ [.finish .unknown] ∧
      (hidden ≠ [] ↔ HidesToken parts) := by
  obtain ⟨hidden, hall, hhides⟩ := exists_hidden parts
  rw [scan, scan, scanFrom_of_splits h, scanFrom_of_splits (splits_entryOf h)]
  refine ⟨rfl, hidden, ?_, ?_, hhides⟩
  · rw [map_unplaced_tokensOf, hall]
  · rw [map_unplaced_tokensOf, tokensAmong_onOneLine]

/-- a text and its entry have the same tokens, up to places, unless a comment hides one -/
theorem unplaced_entryOf {t : Bytes} {parts : List (Part × Bytes)} (h : Splits t parts) (hnone : ¬HidesToken parts) :
    (scan (entryOf t)).tokens.map unplaced = (scan t).tokens.map unplaced := by
  obtain ⟨-, hidden, hall, hentry, hhides⟩ := exists_hidden_tokens h
  rw [hall, hentry, not_ne_iff.1 (mt hhides.1 hnone), List.append_nil]

/-- a token that a comment hides is missing from the entry -/
theorem not_hidesToken_of_said {t : Bytes} {parts : List (Part × Bytes)} (h : Splits t parts)
    (hsaid : (scan (entryOf t)).tokens.map said = (scan t).tokens.map said) : ¬HidesToken parts := by
  obtain ⟨-, hidden, hall, hentry, hhides⟩ := exists_hidden_tokens h
  have hlength := congrArg List.length hsaid
  rw [← map_said_unplaced, ← map_said_unplaced (scan t).tokens, hall, hentry] at hlength
  simp only [List.length_map, List.length_append, List.length_singleton] at hlength
  have hempty : hidden.length = 0 := by omega
  exact fun hhidden => hhides.2 hhidden (List.length_eq_zero_iff.1 hempty)

end Token

/-! ## Programs with the same tokens -/

namespace Program

open Token

variable {a b : Bytes}

/-- a text whose tokens say the same as those of a faultless one holds the same program -/
theorem ofSource_of_plain (ha : (ofSource a).errors = []) (hb : (scan b).errors = [])
    (h : (scan b).tokens.map plain = (scan a).tokens.map plain) :
    (ofSource b).errors = [] ∧ Stmt.unplacedAll (ofSource b).stmts = Stmt.unplacedAll (ofSource a).stmts := by
  obtain ⟨ts, p, hscan, -, hderives⟩ := exists_derives_of_errors_nil ha
  obtain ⟨us, q, htokens, -⟩ := exists_tokens_eq .start b
  have hscanned : scan b = ⟨us ++ [.finish q], []⟩ := by
    rw [← htokens, ← hb]
    rfl
  rw [hscan, hscanned, List.map_append, List.map_append] at h
  obtain ⟨stmts, hstmts, hsame⟩ := hderives.transfer (List.append_inj_left' h rfl)
  rw [ofSource_of_derives hscanned hstmts]
  exact ⟨rfl, hsame⟩

/-- the tokens of a faultless text say what those of its program's canonical text say -/
theorem plain_render (ha : (ofSource a).errors = []) :
    (scan (Stmt.renderAll 0 (ofSource a).stmts)).tokens.map plain = (scan a).tokens.map plain := by
  obtain ⟨ts, p, hscan, hts, hderives⟩ := exists_derives_of_errors_nil ha
  obtain ⟨-, us, q, htokens, hus⟩ := scanFrom_of_writes (printed_stmt hderives hts 0) trivial .start
  rw [scan, htokens, hscan, List.map_append, List.map_append, hus]
  rfl

/-- texts that hold the same program have tokens that say the same -/
theorem plain_of_unplacedAll (ha : (ofSource a).errors = []) (hb : (ofSource b).errors = [])
    (h : Stmt.unplacedAll (ofSource b).stmts = Stmt.unplacedAll (ofSource a).stmts) :
    (scan b).tokens.map plain = (scan a).tokens.map plain := by
  rw [← plain_render ha, ← plain_render hb, ← Stmt.renderAll_unplaced, h, Stmt.renderAll_unplaced]

end Program

/-! ## Recalling -/

theorem Console.history_tell (c : Console) (code : Bytes) (o : Outcome) : (c.tell code o).history = c.history := by
  unfold tell say
  split <;> rfl

/-- the console remembers an input by its entry, unless it is blank or the word that ends the session -/
theorem Console.history_submit (c : Console) {code : Bytes} (hblank : Text.isBlankText code = false)
    (hexit : Prompt.isExit code = false) : (c.submit code).history = c.history.add (History.entryOf code) := by
  simp only [submit, hblank, hexit, Bool.false_eq_true, if_false, history_tell]

namespace History

open Token Program

/-- **What a recalled entry says.** The entry of a faultless input, which the console adds to the history, is on one line
and is scanned without a fault. Up to places its tokens are those in front of the first comment of the input. So they
are of the kinds and payloads of the input's tokens, and the entry is read without a fault as the program that was
typed, up to places, exactly when no token of the input stands behind a comment. -/
theorem entryOf_keeps (code : Bytes) (h : (ofSource code).errors = []) :
    Bytes.newline ∉ entryOf code ∧
    (∀ c : Console, Text.isBlankText code = false → Prompt.isExit code = false →
      (c.submit code).history = c.history.add (entryOf code)) ∧
    (scan (entryOf code)).errors = [] ∧
    ∃ parts, Splits code parts ∧
      (scan (entryOf code)).tokens.map unplaced = (tokensOf .start (uncommented parts)).map unplaced ∧
      ((scan (entryOf code)).tokens.map said = (scan code).tokens.map said ↔ ¬HidesToken parts) ∧
      ((ofSource (entryOf code)).errors = [] ∧
        Stmt.unplacedAll (ofSource (entryOf code)).stmts = Stmt.unplacedAll (ofSource code).stmts ↔
          ¬HidesToken parts) := by
  obtain ⟨parts, hparts⟩ := splits_of_errors_nil (scan_errors_of_errors_nil h)
  obtain ⟨herrors, -, -, hentry, -⟩ := exists_hidden_tokens hparts
  refine ⟨newline_not_mem_entryOf code, fun c hblank hexit => c.history_submit hblank hexit, herrors, parts, hparts,
    ?_, ⟨not_hidesToken_of_said hparts, fun hnone => ?_⟩, ⟨fun hsame => ?_, fun hnone => ?_⟩⟩
  · rw [hentry, map_unplaced_tokensOf]
  · rw [← map_said_unplaced, unplaced_entryOf hparts hnone, map_said_unplaced]
  · exact not_hidesToken_of_said hparts (map_said_of_plain (plain_of_unplacedAll h hsame.1 hsame.2))
  · refine ofSource_of_plain h herrors ?_
    rw [← map_plain_unplaced, unplaced_entryOf hparts hnone, map_plain_unplaced]

/-- a block with a comment on its first line: recalled, nothing but its opening brace is left, and it has no end -/
theorem entryOf_keeps_commented :
    (Prompt.readInput [.line (text "\x7b // x"), .line (text "print(1);\x7d")]).1.code =
      some (text "\x7b // x\nprint(1);\x7d") ∧
    (ofSource (text "\x7b // x\nprint(1);\x7d")).errors = [] ∧
    (∃ parts, Splits (text "\x7b // x\nprint(1);\x7d") parts ∧ HidesToken parts) ∧
    (scan (entryOf (text "\x7b // x\nprint(1);\x7d"))).tokens.map Token.kind = [.leftBrace, .endOfInput] ∧
    isIncomplete (ofSource (entryOf (text "\x7b // x\nprint(1);\x7d"))).errors = true := by
  have hnone : (ofSource (text "\x7b // x\nprint(1);\x7d")).errors = [] := by decide +kernel
  obtain ⟨-, -, -, parts, hparts, -, hsaid, -⟩ := entryOf_keeps (text "\x7b // x\nprint(1);\x7d") hnone
  refine ⟨by decide +kernel, hnone, ⟨parts, hparts, ?_⟩, by decide +kernel, by decide +kernel⟩
  by_contra hhides
  exact absurd (congrArg List.length (hsaid.2 hhides)) (by decide +kernel)

end History

end Ouroboros
