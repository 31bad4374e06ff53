/-
Where tokens and faults stand, by their offset in the text.

`place` gives line and column of an offset from the text alone: line feeds in front of it are counted, and the bytes
since the last of them, less what a stray character takes beyond one column. `Laid` cuts a text from left to right into
what reading finds in it (tokens, stray characters and strings without an end) with blanks and comments around.

- `behind_append`, `behind_stray`: how the place moves over bytes and over a stray character.
- `nextPiece_finds`: one piece is one find, with its token and its faults at the places of their offsets.
- `scanFrom_finds`: the same for the rest of a text.
- `scan_places`: tokens and faults of a whole text are those of its finds, at their places.
-/
import Mathlib.Algebra.Ring.Nat
import Mathlib.Data.List.DropRight
import Ouroboros.Proofs.Scanning.Longest

namespace Ouroboros

namespace Token

/-! ## Places by offset -/

/-- the bytes behind the last line feed of a text -/
def openLine (u : Bytes) : Bytes := u.rtakeWhile (· != Bytes.newline)

/-- how much the characters between two offsets take beyond one column each; a character is given by offset and size -/
def spared (strays : List (Nat × Nat)) (lo hi : Nat) : Nat :=
  ((strays.filter fun s => lo ≤ s.1 ∧ s.1 < hi).map fun s => s.2 - 1).sum

/-- the place behind a text in which stray characters take one column each -/
def behind (strays : List (Nat × Nat)) (u : Bytes) : Pos :=
  ⟨1 + u.count Bytes.newline,
   1 + (openLine u).length - spared strays (u.length - (openLine u).length) u.length⟩

/-- no stray character starts from one offset up to another -/
def Free (strays : List (Nat × Nat)) (lo hi : Nat) : Prop := ∀ s ∈ strays, s.1 < lo ∨ hi ≤ s.1

/-- the place of an offset in a source -/
def place (source : Bytes) (strays : List (Nat × Nat)) (o : Nat) : Pos := behind strays (source.take o)

section Places

variable {S : List (Nat × Nat)} {u v w : Bytes} {b : UInt8}

theorem place_append : place (u ++ v) S u.length = behind S u := by
  rw [place, List.take_left]

theorem behind_nil : behind S [] = .start := by
  simp [behind, openLine, spared, Pos.start]

theorem openLine_newline : openLine (u ++ [Bytes.newline]) = [] := by
  simp [openLine]

theorem openLine_append (hv : Bytes.newline ∉ v) : openLine (u ++ v) = openLine u ++ v := by
  induction v using List.reverseRecOn with
  | nil => simp
  | append_singleton v b ih =>
    simp only [List.mem_append, List.mem_singleton, not_or] at hv
    have hb : (b != Bytes.newline) = true := by simpa using fun h => hv.2 h.symm
    rw [← List.append_assoc, openLine, List.rtakeWhile_concat_pos (· != Bytes.newline) _ _ hb, ← openLine, ih hv.1,
      List.append_assoc]

theorem length_openLine_le : (openLine u).length ≤ u.length := (List.rtakeWhile_suffix _ _).length_le

theorem spared_cons (s : Nat × Nat) (lo hi : Nat) :
    spared (s :: S) lo hi = (if lo ≤ s.1 ∧ s.1 < hi then s.2 - 1 else 0) + spared S lo hi := by
  simp only [spared, List.filter_cons, decide_eq_true_eq]
  split <;> simp

theorem spared_add {lo mid hi : Nat} (h₁ : lo ≤ mid) (h₂ : mid ≤ hi) :
    spared S lo hi = spared S lo mid + spared S mid hi := by
  induction S with
  | nil => rfl
  | cons s S ih =>
    rw [spared_cons, spared_cons, spared_cons, ih]
    split_ifs <;> omega

theorem free_iff {lo hi : Nat} : Free S lo hi ↔ S.filter (fun s => lo ≤ s.1 ∧ s.1 < hi) = [] := by
  simp [Free, List.filter_eq_nil_iff, imp_iff_not_or]

theorem Free.left {lo mid hi : Nat} (h : Free S lo hi) (hmid : mid ≤ hi) : Free S lo mid := by
  intro s hs
  have := h s hs
  omega

theorem Free.right {lo mid hi : Nat} (h : Free S lo hi) (hmid : lo ≤ mid) : Free S mid hi := by
  intro s hs
  have := h s hs
  omega

theorem spared_eq_zero {lo hi : Nat} (h : Free S lo hi) : spared S lo hi = 0 := by
  rw [spared, free_iff.1 h]
  rfl

/-- a text without line feeds moves the place along its line -/
theorem behind_flat (hv : Bytes.newline ∉ v) :
    behind S (u ++ v) = ⟨(behind S u).line,
      (behind S u).col + v.length - spared S u.length (u.length + v.length)⟩ := by
  have hle := length_openLine_le (u := u)
  have hstart : u.length + v.length - ((openLine u).length + v.length) = u.length - (openLine u).length := by omega
  have hsplit := spared_add (S := S) (Nat.sub_le u.length (openLine u).length)
    (Nat.le_add_right u.length v.length)
  simp only [behind, openLine_append hv, List.count_append, List.count_eq_zero.2 hv, List.length_append, hstart, hsplit]
  push_cast
  refine congrArg₂ Pos.mk ?_ ?_ <;> omega

theorem behind_next (h : Free S u.length (u.length + 1)) : behind S (u ++ [b]) = (behind S u).next b := by
  by_cases hb : b = Bytes.newline
  · subst hb
    have hspared : spared S (u.length + 1) (u.length + 1) = 0 := spared_eq_zero fun s _ => by omega
    simp only [behind, openLine_newline, Pos.next, if_true, List.length_append, List.length_singleton,
      List.length_nil, Nat.sub_zero, hspared, List.count_append, List.count_singleton_self]
    push_cast
    refine congrArg₂ Pos.mk ?_ ?_ <;> omega
  · have hflat := behind_flat (S := S) (u := u) (v := [b]) (by simpa using fun h => hb h.symm)
    rw [hflat, List.length_singleton, spared_eq_zero h, Pos.next, if_neg hb]
    simp

/-- bytes move the place one by one where no stray character stands -/
theorem behind_append (h : Free S u.length (u.length + v.length)) : behind S (u ++ v) = (behind S u).after v := by
  induction v generalizing u with
  | nil => simp [Pos.after]
  | cons b v ih =>
    rw [List.length_cons] at h
    have hv : Free S (u ++ [b]).length ((u ++ [b]).length + v.length) := by
      rw [List.length_append, List.length_singleton, Nat.add_assoc, Nat.add_comm 1]
      exact h.right (by omega)
    calc behind S (u ++ b :: v) = behind S (u ++ [b] ++ v) := by rw [List.append_assoc, List.singleton_append]
      _ = (behind S (u ++ [b])).after v := ih hv
      _ = (behind S u).after (b :: v) := by rw [behind_next (h.left (by omega))]; rfl

theorem Free.behind (h : Free S u.length (u.length + (v ++ w).length)) :
    Free S (u ++ v).length ((u ++ v).length + w.length) := by
  rw [List.length_append] at h ⊢
  exact Nat.add_assoc u.length v.length w.length ▸ h.right (by omega)

theorem Free.inFront (h : Free S u.length (u.length + (v ++ w).length)) : Free S u.length (u.length + v.length) := by
  rw [List.length_append] at h
  exact h.left (by omega)

/-- a stray character moves the place by one column -/
theorem behind_stray (hw : Bytes.newline ∉ w) (hpos : 0 < w.length)
    (h : S.filter (fun s => u.length ≤ s.1 ∧ s.1 < u.length + w.length) = [(u.length, w.length)]) :
    behind S (u ++ w) = ⟨(behind S u).line, (behind S u).col + 1⟩ := by
  have hspared : spared S u.length (u.length + w.length) = w.length - 1 := by
    rw [spared, h]
    simp
  rw [behind_flat hw, hspared]
  refine congrArg₂ Pos.mk rfl ?_
  omega

/-- the name stands in the third column, behind a stray character of two bytes and a space -/
example : place (Ouroboros.text "é x") [(0, 2)] 3 = ⟨1, 3⟩ := by decide

end Places

/-! ## What reading finds -/

/-- what is found in a text -/
inductive Found where
  | token (kind : TokenKind) (literal : Literal)
  /-- a character that starts no token -/
  | stray (c : Char)
  /-- a string that does not end on its line -/
  | broken
  /-- a string that the end of the text leaves open -/
  | unfinished

/-- a find with its offset and its bytes -/
structure Find where
  offset : Nat
  bytes : Bytes
  found : Found

/-- text between quotes and its payload; an escape that means nothing stands for nothing -/
inductive Quotes : Bytes → Bytes → Prop where
  | nil : Quotes [] []
  | byte {b : UInt8} {w s : Bytes} (hb : b ∉ [Bytes.quote, Bytes.newline, Bytes.backslash]) (h : Quotes w s) :
    Quotes (b :: w) (b :: s)
  | escape (e : UInt8) {w s : Bytes} (h : Quotes w s) :
    Quotes (Bytes.backslash :: e :: w) ((unescape? e).toList ++ s)

/-- the bytes `w` in front of `rest` are such a find -/
inductive Found.Stands : Found → Bytes → Bytes → Prop where
  | token {kind : TokenKind} {literal : Literal} {w rest : Bytes} (hk : kind ≠ .stringLiteral)
    (h : Spelled kind w literal) : Stands (.token kind literal) w rest
  | string {w s rest : Bytes} (h : Quotes w s) :
    Stands (.token .stringLiteral (.text s)) (Bytes.quote :: (w ++ [Bytes.quote])) rest
  | stray {c : Char} {w rest : Bytes}
    (h : (Text.first? (w ++ rest)).getD (Text.replacement, 1) = (c, w.length)) : Stands (.stray c) w rest
  | broken {w s rest : Bytes} (h : Quotes w s) : Stands .broken (Bytes.quote :: w) (Bytes.newline :: rest)
  | unfinished {w s : Bytes} (h : Quotes w s) : Stands .unfinished (Bytes.quote :: w) []
  /-- a backslash at the very end escapes nothing -/
  | cut {w s : Bytes} (h : Quotes w s) : Stands .unfinished (Bytes.quote :: (w ++ [Bytes.backslash])) []

/-- bytes in front of `rest` that only separate: blanks, and comments up to the end of their line -/
inductive Gap : Bytes → Bytes → Prop where
  | nil {rest : Bytes} : Gap [] rest
  | blank {b : UInt8} {w rest : Bytes} (hb : b ∈ blanks) (h : Gap w rest) : Gap (b :: w) rest
  | comment {v w rest : Bytes} (hv : Bytes.newline ∉ v) (hend : ∀ b ∈ (w ++ rest).head?, b = Bytes.newline)
    (h : Gap w rest) : Gap (Bytes.slash :: Bytes.slash :: (v ++ w)) rest

/-- the finds of a text from an offset on, with nothing but separators around them -/
inductive Laid : Nat → Bytes → List Find → Prop where
  | nil {o : Nat} {gap : Bytes} (h : Gap gap []) : Laid o gap []
  | cons {o : Nat} {gap w rest : Bytes} {found : Found} {finds : List Find} (hgap : Gap gap (w ++ rest))
    (h : found.Stands w rest) (hrest : Laid (o + gap.length + w.length) rest finds) :
    Laid o (gap ++ (w ++ rest)) (⟨o + gap.length, w, found⟩ :: finds)

/-- the escapes that mean nothing in a text between quotes that starts at an offset, each with that of its backslash -/
def badEscapes : Nat → Bytes → List (Nat × UInt8)
  | _, [] => []
  | o, b :: w =>
    if b = Bytes.backslash then
      match w with
      | [] => []
      | e :: w => (if unescape? e = none then [(o, e)] else []) ++ badEscapes (o + 2) w
    else badEscapes (o + 1) w

namespace Find

variable (place : Nat → Pos) (f : Find)

/-- the token of a find, at the place of its offset -/
def token? : Option Token :=
  match f.found with
  | .token kind literal => some ⟨kind, f.bytes, literal, place f.offset⟩
  | .stray _ | .broken | .unfinished => none

/-- the escapes that mean nothing in a find that starts with a quote -/
def escapes : List (Nat × UInt8) :=
  if f.bytes.head? = some Bytes.quote then badEscapes (f.offset + 1) f.bytes.tail else []

/-- an escape that means nothing, reported at its backslash -/
def escapeFault (x : Nat × UInt8) : Diagnostic := ⟨.badEscape x.2 (place x.1).line, place x.1, [], false⟩

/-- the faults of a find: those of its escapes, and its own at the place of its offset -/
def faults : List Diagnostic :=
  f.escapes.map (escapeFault place) ++
    match f.found with
    | .token _ _ => []
    | .stray c => [⟨.strayCharacter c (place f.offset).line, place f.offset, [], false⟩]
    | .broken => [⟨.newlineInString, place f.offset, [], false⟩]
    | .unfinished => [⟨.openString, place f.offset, [], true⟩]

/-- offset and size of a stray character -/
def stray? : Option (Nat × Nat) :=
  match f.found with
  | .stray _ => some (f.offset, f.bytes.length)
  | .token _ _ | .broken | .unfinished => none

end Find

/-- the stray characters among some finds -/
def strays (finds : List Find) : List (Nat × Nat) := finds.filterMap Find.stray?

/-! ## Separators -/

/-- blanks and comments are skipped, and nothing else -/
theorem skipBlanks_gap (p : Pos) (t : Bytes) : ∃ gap, t = gap ++ (skipBlanks false p t).2 ∧
    Gap gap (skipBlanks false p t).2 ∧ (skipBlanks false p t).1 = p.after gap := by
  induction hn : t.length using Nat.strong_induction_on generalizing p t with
  | _ n ih =>
  subst hn
  match t with
  | [] => exact ⟨[], rfl, .nil, rfl⟩
  | b :: rest =>
    by_cases hb : isBlankByte b = true
    · obtain ⟨gap, hcut, hgap, hpos⟩ := ih rest.length (by simp) (p.next b) rest rfl
      rw [skipBlanks, if_pos hb]
      refine ⟨b :: gap, ?_, .blank (mem_blanks.2 hb) hgap, hpos⟩
      rw [List.cons_append, ← hcut]
    by_cases hslash : b = Bytes.slash ∧ rest.head? = some Bytes.slash
    · obtain ⟨rfl, hhead⟩ := hslash
      obtain ⟨rest, rfl⟩ := List.head?_eq_some_iff.1 hhead
      have hcomment : skipBlanks false p (Bytes.slash :: Bytes.slash :: rest) = skipBlanks false
          (((p.next Bytes.slash).next Bytes.slash).after (rest.takeWhile (· != Bytes.newline)))
          (rest.dropWhile (· != Bytes.newline)) := skipBlanks_comment _ rest
      have hshorter : (rest.dropWhile (· != Bytes.newline)).length < (Bytes.slash :: Bytes.slash :: rest).length := by
        have := length_dropWhile_le (· != Bytes.newline) rest
        simp only [List.length_cons]
        omega
      obtain ⟨gap, hcut, hgap, hpos⟩ := ih _ hshorter
        (((p.next Bytes.slash).next Bytes.slash).after (rest.takeWhile (· != Bytes.newline)))
        (rest.dropWhile (· != Bytes.newline)) rfl
      rw [hcomment]
      refine ⟨Bytes.slash :: Bytes.slash :: (rest.takeWhile (· != Bytes.newline) ++ gap), ?_, .comment ?_ ?_ hgap, ?_⟩
      · rw [List.cons_append, List.cons_append, List.append_assoc, ← hcut, List.takeWhile_append_dropWhile]
      · intro h
        simpa using List.mem_takeWhile_imp h
      · intro c hc
        rw [← hcut] at hc
        have := List.head?_dropWhile_not (· != Bytes.newline) rest
        rw [Option.mem_def.1 hc] at this
        simpa using this
      · rw [hpos]
        simp [Pos.after]
    · rw [skipBlanks, if_neg hb, if_neg hslash]
      exact ⟨[], rfl, .nil, rfl⟩

theorem isBlankByte_of_skipBlanks {comment : Bool} {p q : Pos} {t : Bytes} {b : UInt8} {rest : Bytes}
    (h : skipBlanks comment p t = (q, b :: rest)) : isBlankByte b = false := by
  fun_induction skipBlanks comment p t with
  | case1 => cases h
  | case2 _ _ _ ih | case3 _ _ _ _ ih | case4 _ _ _ _ _ ih => exact ih h
  | case5 p c rest hc =>
    cases h
    simpa using hc

/-! ## Strings -/

theorem badEscapes_byte {b : UInt8} (hb : b ≠ Bytes.backslash) (o : Nat) (w : Bytes) :
    badEscapes o (b :: w) = badEscapes (o + 1) w := by
  rw [badEscapes.eq_def]
  simp [hb]

theorem badEscapes_escape (o : Nat) (e : UInt8) (w : Bytes) :
    badEscapes o (Bytes.backslash :: e :: w) =
      (if unescape? e = none then [(o, e)] else []) ++ badEscapes (o + 2) w := by
  rw [badEscapes.eq_def]
  simp

/-- the last bytes of a string and the text after it -/
inductive StringEnd.Cuts : StringEnd → Bytes → Bytes → Prop where
  | closed {rest : Bytes} : Cuts .closed [Bytes.quote] rest
  | line {rest : Bytes} : Cuts .line [] (Bytes.newline :: rest)
  | text : Cuts .text [] []
  | cut : Cuts .text [Bytes.backslash] []

/-- a string runs to its end and no further -/
theorem stringBody_cuts (p : Pos) (s : Bytes) : ∃ w v, Quotes w (stringBody p s).payload ∧
    (stringBody p s).raw = w ++ v ∧ (stringBody p s).ending.Cuts v (stringBody p s).rest := by
  fun_induction stringBody p s with
  | case1 p => exact ⟨[], [], .nil, rfl, .text⟩
  | case2 p rest => exact ⟨[], [Bytes.quote], .nil, rfl, .closed⟩
  | case3 p rest => exact ⟨[], [], .nil, rfl, .line⟩
  | case4 p => exact ⟨[], [Bytes.backslash], .nil, rfl, .cut⟩
  | case5 p e rest c hc _ _ body ih =>
    obtain ⟨w, v, hw, hraw, hend⟩ := ih
    refine ⟨Bytes.backslash :: e :: w, v, ?_, by rw [hraw]; rfl, hend⟩
    simpa [hc] using Quotes.escape e hw
  | case6 p e rest hc _ _ body ih =>
    obtain ⟨w, v, hw, hraw, hend⟩ := ih
    refine ⟨Bytes.backslash :: e :: w, v, ?_, by rw [hraw]; rfl, hend⟩
    simpa [hc] using Quotes.escape e hw
  | case7 p b rest hq hn hs body ih =>
    obtain ⟨w, v, hw, hraw, hend⟩ := ih
    exact ⟨b :: w, v, .byte (by simp [hq, hn, hs]) hw, by rw [hraw]; rfl, hend⟩

theorem stringBody_raw (p : Pos) (s : Bytes) : (stringBody p s).raw ++ (stringBody p s).rest = s ∧
    (stringBody p s).pos = p.after (stringBody p s).raw := by
  fun_induction stringBody p s with
  | case1 | case2 | case3 | case4 => exact ⟨rfl, rfl⟩
  | case5 p e rest _ _ _ _ body ih | case6 p e rest _ _ _ body ih =>
    exact ⟨congrArg (fun t => Bytes.backslash :: e :: t) ih.1, ih.2⟩
  | case7 p b rest _ _ _ body ih => exact ⟨congrArg (b :: ·) ih.1, ih.2⟩

/-- an escape that means nothing is reported at its backslash -/
theorem stringBody_faults {S : List (Nat × Nat)} {u : Bytes} {p : Pos} {s : Bytes} (hp : behind S u = p)
    (hS : Free S u.length (u.length + (stringBody p s).raw.length)) :
    (stringBody p s).faults = (badEscapes u.length (stringBody p s).raw).map (Find.escapeFault (place (u ++ s) S)) := by
  fun_induction stringBody p s generalizing u with
  | case1 | case2 | case3 | case4 => rfl
  | case5 p e rest c hc _ _ body =>
    rename_i ih
    have hmove := (behind_append (v := [Bytes.backslash, e]) hS.inFront).trans (congrArg (Pos.after · _) hp)
    have hrest := ih hmove hS.behind
    simp only [List.length_append, List.append_assoc] at hrest
    rw [badEscapes_escape, hc, if_neg (Option.some_ne_none c)]
    exact hrest
  | case6 p e rest hc _ _ body =>
    rename_i ih
    have hmove := (behind_append (v := [Bytes.backslash, e]) hS.inFront).trans (congrArg (Pos.after · _) hp)
    have hrest := ih hmove hS.behind
    simp only [List.length_append, List.append_assoc] at hrest
    rw [badEscapes_escape, if_pos hc, List.singleton_append, List.map_cons, Find.escapeFault, place_append, hp]
    exact congrArg (_ :: ·) hrest
  | case7 p b rest _ _ hs body =>
    rename_i ih
    have hmove := (behind_append (v := [b]) hS.inFront).trans (congrArg (Pos.after · _) hp)
    have hrest := ih hmove hS.behind
    simp only [List.length_append, List.append_assoc] at hrest
    rw [badEscapes_byte hs]
    exact hrest

/-! ## One piece -/

/-- the piece read in front of `t` at a place is a find of the bytes `w` -/
structure Piece.Finds (piece : Piece) (p : Pos) (t w : Bytes) (found : Found) : Prop where
  stands : found.Stands w piece.rest
  takes : 0 < w.length
  cut : w ++ piece.rest = t
  placed : ∀ u S, behind S u = p →
    S.filter (fun s => u.length ≤ s.1 ∧ s.1 < u.length + w.length) = (Find.stray? ⟨u.length, w, found⟩).toList →
    piece.token? = Find.token? (place (u ++ t) S) ⟨u.length, w, found⟩ ∧
    piece.faults = Find.faults (place (u ++ t) S) ⟨u.length, w, found⟩ ∧ behind S (u ++ w) = piece.pos

section Pieces

variable (p : Pos) (rest : Bytes)

/-- a token that is no string is a find without faults -/
theorem finds_piece {kind : TokenKind} {literal : Literal} {b : UInt8} {w : Bytes} (hb : b ≠ Bytes.quote)
    (hk : kind ≠ .stringLiteral) (h : Spelled kind (b :: w) literal) :
    (piece kind (b :: w) literal p rest).Finds p (b :: w ++ rest) (b :: w) (.token kind literal) := by
  refine ⟨.token hk h, Nat.succ_pos _, rfl, ?_⟩
  intro u S hp hfree
  refine ⟨?_, ?_, ?_⟩
  · simp [piece, Find.token?, place_append, hp]
  · simp [piece, Find.faults, Find.escapes, hb]
  · rw [behind_append (free_iff.2 hfree), hp]
    rfl

/-- what is said of a string that starts at `u`, up to how it ends -/
theorem stringBody_placed {u : Bytes} {S : List (Nat × Nat)} (hp : behind S u = p)
    (hS : Free S u.length (u.length + (Bytes.quote :: (stringBody (p.next Bytes.quote) rest).raw).length)) :
    (stringBody (p.next Bytes.quote) rest).faults =
      (badEscapes (u.length + 1) (stringBody (p.next Bytes.quote) rest).raw).map
        (Find.escapeFault (place (u ++ Bytes.quote :: rest) S)) ∧
    behind S (u ++ Bytes.quote :: (stringBody (p.next Bytes.quote) rest).raw) =
      (stringBody (p.next Bytes.quote) rest).pos := by
  have hquote : Free S u.length (u.length + ([Bytes.quote] ++ (stringBody (p.next Bytes.quote) rest).raw).length) := hS
  have hmove := (behind_append hquote.inFront).trans (congrArg (Pos.after · _) hp)
  have hbody := stringBody_faults hmove hquote.behind
  simp only [List.length_append, List.append_assoc] at hbody
  refine ⟨hbody, ?_⟩
  rw [behind_append hS, hp, (stringBody_raw _ rest).2]
  rfl

/-- a string is a token, or broken by the end of its line or of the text -/
theorem finds_string : ∃ w found, (stringPiece p Bytes.quote rest).Finds p (Bytes.quote :: rest) w found := by
  obtain ⟨w, v, hquotes, hraw, hend⟩ := stringBody_cuts (p.next Bytes.quote) rest
  have hcut := (stringBody_raw (p.next Bytes.quote) rest).1
  have hbody := @stringBody_placed p rest
  generalize hB : stringBody (p.next Bytes.quote) rest = B at hquotes hraw hend hcut hbody
  obtain ⟨payload, raw, faults, ending, pos, after⟩ := B
  dsimp only at hquotes hraw hend hcut hbody
  subst hraw hcut
  simp only [stringPiece, hB]
  cases hend with
  | closed =>
    refine ⟨_, _, .string hquotes, Nat.succ_pos _, rfl, ?_⟩
    intro u S hp hfree
    obtain ⟨hfaults, hpos⟩ := hbody hp (free_iff.2 hfree)
    exact ⟨by simp [Find.token?, place_append, hp], by simpa [Find.faults, Find.escapes] using hfaults, hpos⟩
  | line =>
    rw [List.append_nil] at hbody ⊢
    refine ⟨_, _, .broken hquotes, Nat.succ_pos _, rfl, ?_⟩
    intro u S hp hfree
    obtain ⟨hfaults, hpos⟩ := hbody hp (free_iff.2 hfree)
    refine ⟨rfl, ?_, hpos⟩
    simp [Find.faults, Find.escapes, place_append, hp, hfaults]
  | text =>
    rw [List.append_nil] at hbody ⊢
    refine ⟨_, _, .unfinished hquotes, Nat.succ_pos _, rfl, ?_⟩
    intro u S hp hfree
    obtain ⟨hfaults, hpos⟩ := hbody hp (free_iff.2 hfree)
    refine ⟨rfl, ?_, hpos⟩
    simp [Find.faults, Find.escapes, place_append, hp, hfaults]
  | cut =>
    refine ⟨_, _, .cut hquotes, Nat.succ_pos _, rfl, ?_⟩
    intro u S hp hfree
    obtain ⟨hfaults, hpos⟩ := hbody hp (free_iff.2 hfree)
    refine ⟨rfl, ?_, hpos⟩
    simp [Find.faults, Find.escapes, place_append, hp, hfaults]

/-- a character that starts no token is a find with itself as its fault -/
theorem finds_stray {b : UInt8} (hquote : b ≠ Bytes.quote) (hnewline : b ≠ Bytes.newline) :
    ∃ w found, (strayPiece p b rest).Finds p (b :: rest) w found := by
  obtain ⟨c, n, hchar, hpos, hle, hbytes⟩ : ∃ c n, (Text.first? (b :: rest)).getD (Text.replacement, 1) = (c, n) ∧
      0 < n ∧ n - 1 ≤ rest.length ∧ Bytes.newline ∉ rest.take (n - 1) := by
    cases h : Text.first? (b :: rest) with
    | none => exact ⟨Text.replacement, 1, rfl, by simp⟩
    | some x => exact ⟨x.1, x.2, rfl, size_first? h⟩
  have hsize : (b :: rest.take (n - 1)).length = n := by
    rw [List.length_cons, List.length_take]
    omega
  have hcut : b :: rest.take (n - 1) ++ rest.drop (n - 1) = b :: rest := by
    rw [List.cons_append, List.take_append_drop]
  have hflat : Bytes.newline ∉ b :: rest.take (n - 1) := by
    simpa [hnewline.symm] using hbytes
  simp only [strayPiece, hchar]
  refine ⟨b :: rest.take (n - 1), .stray c, .stray (by rw [hcut, hsize, hchar]), Nat.succ_pos _, hcut, ?_⟩
  intro u S hp halone
  refine ⟨rfl, by simp [Find.faults, Find.escapes, place_append, hp, hquote], ?_⟩
  rw [behind_stray hflat (Nat.succ_pos _) halone, hp]

/-- every piece is a find -/
theorem nextPiece_finds {b : UInt8} (hb : isBlankByte b = false) :
    ∃ w found, (nextPiece p b rest).Finds p (b :: rest) w found := by
  cases starts b rest with
  | token hquote hkind hspelled hcut hpiece =>
    rw [hpiece, ← hcut]
    exact ⟨_, _, finds_piece p _ hquote hkind hspelled⟩
  | string hquote hpiece =>
    subst hquote
    rw [hpiece]
    exact finds_string p rest
  | stray hquote hpiece =>
    rw [hpiece]
    refine finds_stray p rest hquote ?_
    rintro rfl
    exact absurd hb (by decide)

end Pieces

/-! ## The whole text -/

theorem Laid.offset_le {o : Nat} {t : Bytes} {finds : List Find} (h : Laid o t finds) : ∀ f ∈ finds, o ≤ f.offset := by
  induction h with
  | nil => simp
  | cons hgap hstands hrest ih =>
    rintro f (_ | ⟨_, hf⟩)
    · simp
    · have := ih f hf
      omega

theorem Laid.stray_le {o : Nat} {t : Bytes} {finds : List Find} (h : Laid o t finds) :
    ∀ s ∈ strays finds, o ≤ s.1 := by
  intro s hs
  obtain ⟨f, hf, hstray⟩ := List.mem_filterMap.1 hs
  obtain ⟨offset, bytes, found⟩ := f
  have hle := h.offset_le _ hf
  cases found <;> cases hstray
  exact hle

/-- the bytes of a find stand at its offset -/
theorem Laid.prefix {o : Nat} {t : Bytes} {finds : List Find} (h : Laid o t finds) :
    ∀ f ∈ finds, f.bytes <+: t.drop (f.offset - o) := by
  induction h with
  | nil => simp
  | @cons o gap w rest found finds hgap hstands hrest ih =>
    rintro f (_ | ⟨_, hf⟩)
    · simp
    · have hle := hrest.offset_le f hf
      have hdrop : f.offset - o = (gap ++ w).length + (f.offset - (o + gap.length + w.length)) := by
        rw [List.length_append]
        omega
      rw [hdrop, ← List.append_assoc, List.drop_length_add_append]
      exact ih f hf

theorem filterMap_cons_toList {α β : Type} (f : α → Option β) (a : α) (l : List α) :
    (a :: l).filterMap f = (f a).toList ++ l.filterMap f := by
  rw [List.filterMap_cons]
  cases f a <;> rfl

/-- choosing from what was chosen by a weaker condition -/
theorem filter_of_imp {α : Type} {l : List α} {q r : α → Bool} (h : ∀ a, r a = true → q a = true) :
    (l.filter q).filter r = l.filter r := by
  rw [List.filter_filter]
  refine List.filter_congr fun a _ => ?_
  cases hr : r a with
  | false => rfl
  | true => exact h a hr

/-- a stray character at an offset and those behind its bytes, cut apart -/
theorem filter_cut {S later : List (Nat × Nat)} {first : Option (Nat × Nat)} {o n m : Nat}
    (h : S.filter (o ≤ ·.1) = first.toList ++ later) (hfirst : ∀ s ∈ first, s.1 = n) (hlater : ∀ s ∈ later, m ≤ s.1)
    (ho : o ≤ n) (hn : n < m) :
    Free S o n ∧ S.filter (fun s => n ≤ s.1 ∧ s.1 < m) = first.toList ∧ S.filter (m ≤ ·.1) = later := by
  have hat : ∀ s ∈ first.toList, s.1 = n := fun s hs => hfirst s (Option.mem_toList.1 hs)
  refine ⟨?_, ?_, ?_⟩
  · intro s hs
    by_cases hlt : s.1 < o
    · exact Or.inl hlt
    · have hin : s ∈ first.toList ++ later := h ▸ List.mem_filter.2 ⟨hs, by simpa using hlt⟩
      rcases List.mem_append.1 hin with hin | hin
      · exact Or.inr (hat s hin).ge
      · exact Or.inr (Nat.le_trans hn.le (hlater s hin))
  · have hnear : ∀ s ∈ first.toList, decide (n ≤ s.1 ∧ s.1 < m) = true := by
      intro s hs
      simp [hat s hs, hn]
    have hfar : ∀ s ∈ later, ¬decide (n ≤ s.1 ∧ s.1 < m) = true := by
      intro s hs
      simp [Nat.not_lt.2 (hlater s hs)]
    calc S.filter (fun s => n ≤ s.1 ∧ s.1 < m)
        = (S.filter (o ≤ ·.1)).filter (fun s => n ≤ s.1 ∧ s.1 < m) :=
          (filter_of_imp fun s hs => by simp only [decide_eq_true_eq] at hs ⊢; omega).symm
      _ = first.toList := by
          rw [h, List.filter_append, List.filter_eq_self.2 hnear, List.filter_eq_nil_iff.2 hfar, List.append_nil]
  · have hnear : ∀ s ∈ first.toList, ¬decide (m ≤ s.1) = true := by
      intro s hs
      simp [hat s hs, hn]
    have hfar : ∀ s ∈ later, decide (m ≤ s.1) = true := by
      intro s hs
      simp [hlater s hs]
    calc S.filter (m ≤ ·.1)
        = (S.filter (o ≤ ·.1)).filter (m ≤ ·.1) :=
          (filter_of_imp fun s hs => by simp only [decide_eq_true_eq] at hs ⊢; omega).symm
      _ = later := by
          rw [h, List.filter_append, List.filter_eq_nil_iff.2 hnear, List.filter_eq_self.2 hfar, List.nil_append]

/-- **The rest of a text.** What is read from a place on are the tokens and the faults of finds that lie in the text. -/
theorem scanFrom_finds (p : Pos) (t : Bytes) (o : Nat) : ∃ finds, Laid o t finds ∧ ∀ u S, u.length = o →
    behind S u = p → S.filter (o ≤ ·.1) = strays finds →
    scanFrom p t = ⟨finds.filterMap (Find.token? (place (u ++ t) S)) ++ [.finish (place (u ++ t) S (u ++ t).length)],
      finds.flatMap (Find.faults (place (u ++ t) S))⟩ := by
  induction p, t using scan_induction generalizing o with
  | hend p t q hblank =>
    obtain ⟨gap, hcut, hgap, hpos⟩ := skipBlanks_gap p t
    rw [hblank] at hcut hgap hpos
    rw [List.append_nil] at hcut
    dsimp only at hpos
    subst hcut hpos
    refine ⟨[], .nil hgap, ?_⟩
    intro u S hu hp hstrays
    have hfree : Free S u.length (u.length + t.length) := by
      intro s hs
      have hmem := List.filter_eq_nil_iff.1 hstrays s hs
      simp only [decide_eq_true_eq] at hmem
      omega
    rw [scanFrom_end hblank, place, List.take_length, behind_append hfree, hp]
    rfl
  | hnext p t q b rest hblank ih =>
    obtain ⟨gap, hcut, hgap, hpos⟩ := skipBlanks_gap p t
    rw [hblank] at hcut hgap hpos
    dsimp only at hcut hpos hgap
    obtain ⟨w, found, hstands, htakes, hsplit, hplaced⟩ := nextPiece_finds q rest (isBlankByte_of_skipBlanks hblank)
    obtain ⟨finds, hlaid, hrest⟩ := ih (o + gap.length + w.length)
    rw [← hsplit] at hgap hcut
    refine ⟨⟨o + gap.length, w, found⟩ :: finds, hcut ▸ .cons hgap hstands hlaid, ?_⟩
    intro u S hu hp hstrays
    subst hu hcut
    have hfirst : ∀ s ∈ Find.stray? ⟨u.length + gap.length, w, found⟩, s.1 = u.length + gap.length := by
      intro s hs
      cases found <;> cases hs
      rfl
    obtain ⟨hfree, halone, hlater⟩ := filter_cut
      (hstrays.trans (filterMap_cons_toList Find.stray? _ _)) hfirst hlaid.stray_le
      (Nat.le_add_right _ _) (Nat.lt_add_of_pos_right htakes)
    have hgapped : behind S (u ++ gap) = q := by rw [behind_append hfree, hp, hpos]
    rw [← List.length_append] at halone hrest hlater
    obtain ⟨htoken, hfaults, hmove⟩ := hplaced (u ++ gap) S hgapped halone
    have hothers := hrest (u ++ gap ++ w) S List.length_append hmove hlater
    rw [← hsplit] at htoken hfaults
    simp only [List.append_assoc] at htoken hfaults hothers
    rw [scanFrom_next hblank, hothers, htoken, hfaults, filterMap_cons_toList, List.flatMap_cons, List.append_assoc,
      List.length_append]

/-- the end of input stands on the last line -/
theorem line_of_finish {source : Bytes} {ts : List Token} {q : Pos} (h : (scan source).tokens = ts ++ [.finish q]) :
    q.line = 1 + source.count Bytes.newline := by
  obtain ⟨finds, -, hscan⟩ := scanFrom_finds .start source 0
  have hall : (strays finds).filter (0 ≤ ·.1) = strays finds := List.filter_eq_self.2 fun s _ => by simp
  rw [scan, hscan [] (strays finds) rfl behind_nil hall] at h
  obtain ⟨-, hlast⟩ := List.append_inj' h rfl
  obtain rfl : _ = q := by simpa [finish] using hlast
  simp [place, behind]

/-! ## The order of tokens -/

/-- a piece ends behind the place where it starts -/
theorem before_nextPiece (p : Pos) (b : UInt8) (rest : Bytes) : p.before (nextPiece p b rest).pos = true := by
  have hfirst := Pos.before_next p b
  cases starts b rest with
  | token _ _ _ _ hpiece =>
    rw [hpiece]
    exact Pos.UpTo.before hfirst (Pos.upTo_after _ _)
  | string _ hpiece =>
    have hbody := Pos.UpTo.before hfirst (stringBody_passes (p.next b) rest).upTo
    rw [hpiece, stringPiece]
    split <;> exact hbody
  | stray _ hpiece =>
    rw [hpiece, Pos.before_iff]
    exact Or.inr ⟨rfl, Int.lt_succ p.col⟩

/-- tokens stand one behind the other -/
theorem tokens_ordered (p : Pos) (t : Bytes) : (∀ x ∈ (scanFrom p t).tokens, p.UpTo x.pos) ∧
    (scanFrom p t).tokens.Pairwise fun x y => x.pos.before y.pos = true := by
  induction p, t using scan_induction with
  | hend p t q hblank =>
    have hskip := upTo_skipBlanks false p t
    rw [hblank] at hskip
    rw [scanFrom_end hblank]
    exact ⟨List.forall_mem_singleton.2 hskip, List.pairwise_singleton _ _⟩
  | hnext p t q b rest hblank ih =>
    obtain ⟨hbehind, hordered⟩ := ih
    have hskip := upTo_skipBlanks false p t
    rw [hblank] at hskip
    have hfirst : ∀ x ∈ (nextPiece q b rest).token?.toList, x.pos = q :=
      fun x hx => pos_of_nextPiece (Option.mem_toList.1 hx)
    have hlater : ∀ y ∈ (scanFrom (nextPiece q b rest).pos (nextPiece q b rest).rest).tokens, q.before y.pos = true :=
      fun y hy => Pos.UpTo.before (before_nextPiece q b rest) (hbehind y hy)
    rw [scanFrom_next hblank]
    refine ⟨?_, List.pairwise_append.2 ⟨?_, hordered, ?_⟩⟩
    · intro x hx
      rcases List.mem_append.1 hx with hx | hx
      · rw [hfirst x hx]
        exact hskip
      · exact hskip.trans (Or.inr (hlater x hx))
    · cases (nextPiece q b rest).token? <;> simp
    · intro x hx y hy
      rw [hfirst x hx]
      exact hlater y hy

theorem ne_end_of_laid {o : Nat} {t : Bytes} {finds : List Find} (h : Laid o t finds) (place : Nat → Pos) :
    ∀ x ∈ finds.filterMap (Find.token? place), x.kind ≠ .endOfInput := by
  induction h with
  | nil => simp
  | cons hgap hstands hrest ih =>
    intro x hx
    rw [filterMap_cons_toList] at hx
    rcases List.mem_append.1 hx with hx | hx
    · cases hstands with
      | token hk hspelled =>
        obtain rfl : x = _ := by simpa [Find.token?] using hx
        exact IsSpelled.ne_end (t := ⟨_, _, _, _⟩) hspelled
      | string =>
        obtain rfl : x = _ := by simpa [Find.token?] using hx
        simp
      | stray | broken | unfinished | cut => cases hx
    · exact ih x hx

/-- **Exact places.** Every text is laid out in finds with only separators around them. Its tokens are those of the finds:
the bytes at an offset, at the place that line feeds and bytes in front of the offset give when a stray character counts
for one column. Its faults stand at the places of stray characters, backslashes and opening quotes by the same rule.
Tokens stand strictly one behind the other, and the end of input is the last and only one. -/
theorem scan_places (source : Bytes) : ∃ finds, Laid 0 source finds ∧
    (scan source).tokens = finds.filterMap (Find.token? (place source (strays finds))) ++
      [.finish (place source (strays finds) source.length)] ∧
    (scan source).errors = finds.flatMap (Find.faults (place source (strays finds))) ∧
    (∀ f ∈ finds, f.bytes <+: source.drop f.offset) ∧
    (scan source).tokens.Pairwise (fun x y => x.pos.before y.pos = true) ∧
    ∀ x ∈ finds.filterMap (Find.token? (place source (strays finds))), x.kind ≠ .endOfInput := by
  obtain ⟨finds, hlaid, hscan⟩ := scanFrom_finds .start source 0
  have hall : (strays finds).filter (0 ≤ ·.1) = strays finds := List.filter_eq_self.2 fun s _ => by simp
  have hwhole := hscan [] (strays finds) rfl behind_nil hall
  refine ⟨finds, hlaid, ?_, ?_, hlaid.prefix, (tokens_ordered .start source).2, ne_end_of_laid hlaid _⟩
  · rw [scan, hwhole]
    rfl
  · rw [scan, hwhole]
    rfl

end Token

end Ouroboros
