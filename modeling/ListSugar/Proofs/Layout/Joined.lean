/-
A text written behind another one.

A line break ends every piece before it: it goes on with no word, number or symbol, it ends
a comment to the end of the line, and what is still open at the end of a text is a fault
there.  So a text that is cut into tokens is cut into the same tokens in front of a line
break, and a text behind the line break is cut as it is on its own, further down.
-/
import ListSugar.Proofs.Grammar.Steady
import ListSugar.Proofs.Layout.Pieces

namespace ListSugar

/-- The same scan of a text that has `cs` behind. -/
def Scan.before {α : Type} (s : Scan α) (cs : List Char) : Scan α :=
  { s with rest := s.rest ++ cs }

namespace Scanner

/-! ### Pieces that end by themselves

A block comment and a quoted literal are over at a mark of their own.  If they are whole,
they have been read without a look at what follows, whatever that is.
-/

theorem blockComment_append {cs : List Char} {found : Piece}
    (h : (blockComment cs).value = .ok found) (more : List Char) :
    blockComment (cs ++ more) = (blockComment cs).before more := by
  induction cs with
  | nil => cases h
  | cons c rest ih =>
    rw [List.cons_append, blockComment, blockComment] at *
    cases rest with
    | nil =>
      -- A star at the end of the text closes nothing.
      rw [if_neg (by simp)] at h
      cases h
    | cons d rest =>
      by_cases hclose : c = '*' ∧ d = '/'
      · simp [hclose, Scan.before]
      · simp only [List.cons_append, List.head?_cons, Option.some.injEq, hclose, if_false] at h ih ⊢
        rw [ih h]
        rfl

theorem stringBody_escape {e value : Char} (h : Text.unescape? e = some value)
    (rest : List Char) : stringBody ('\\' :: e :: rest)
      = ((stringBody rest).map (value :: ·)).after ['\\', e] := by
  rw [stringBody.eq_def]
  simp [Text.Quote.mark, h]

theorem stringBody_plain {c : Char} (hmark : c ≠ Text.Quote.string.mark) (hline : c ≠ '\n')
    (hslash : c ≠ '\\') (rest : List Char) :
    stringBody (c :: rest) = ((stringBody rest).map (c :: ·)).after [c] := by
  rw [stringBody.eq_def]
  simp [hmark, hline, hslash]

theorem stringBody_append {cs : List Char} : ∀ {found : List Char},
    (stringBody cs).value = .ok found →
    ∀ more, stringBody (cs ++ more) = (stringBody cs).before more := by
  fun_induction stringBody cs with
  | case1 => intro found h; cases h
  | case2 rest =>
    intro found _ more
    rw [List.cons_append, stringBody.eq_def]
    rfl
  | case3 => intro found h; cases h
  | case4 => intro found h; cases h
  | case5 e rest value hread _ _ ih =>
    intro found h more
    obtain ⟨inner, hinner, -⟩ := map_value_eq_ok_iff.mp h
    rw [List.cons_append, List.cons_append, stringBody_escape hread, ih hinner]
    rfl
  | case6 => intro found h; cases h
  | case7 c rest hmark hline hslash ih =>
    intro found h more
    obtain ⟨inner, hinner, -⟩ := map_value_eq_ok_iff.mp h
    rw [List.cons_append, stringBody_plain hmark hline hslash, ih hinner]
    rfl

theorem closeCharacter_append {value : Char} {cs : List Char} {found : Char}
    (h : (closeCharacter value cs).value = .ok found) (more : List Char) :
    closeCharacter value (cs ++ more) = (closeCharacter value cs).before more := by
  cases cs with
  | nil => cases h
  | cons c rest =>
    by_cases hmark : c = Text.Quote.character.mark
    · simp [closeCharacter, hmark, Scan.before]
    · simp [closeCharacter, hmark] at h

theorem characterBody_append {cs : List Char} {found : Char}
    (h : (characterBody cs).value = .ok found) (more : List Char) :
    characterBody (cs ++ more) = (characterBody cs).before more := by
  cases cs with
  | nil => cases h
  | cons c rest =>
    rw [List.cons_append]
    simp only [characterBody] at h ⊢
    split at h
    · cases h
    next hends =>
    rw [if_neg hends, if_neg hends]
    split at h
    · next hslash =>
      rw [if_pos hslash, if_pos hslash]
      cases rest with
      | nil => cases h
      | cons e rest =>
        simp only [List.cons_append] at h ⊢
        cases hread : Text.unescape? e with
        | none =>
          rw [hread] at h
          cases h
        | some value =>
          rw [hread] at h
          simp only
          rw [closeCharacter_append h]
          rfl
    · next hslash =>
      rw [if_neg hslash, if_neg hslash, closeCharacter_append h]
      rfl

/-! ### Pieces that the line break ends

Words, numbers and symbols go on as long as they can, so what follows matters.  A line
break is no character of any of them.
-/

theorem takeWhile_line {p : Char → Bool} (hp : p '\n' = false) (cs tail : List Char) :
    (cs ++ '\n' :: tail).takeWhile p = cs.takeWhile p ∧
      (cs ++ '\n' :: tail).dropWhile p = cs.dropWhile p ++ '\n' :: tail := by
  induction cs with
  | nil => simp [hp]
  | cons c rest ih =>
    by_cases hc : p c = true
    · simp [hc, ih]
    · simp [hc]

theorem startsFraction_line (cs tail : List Char) :
    startsFraction (cs ++ '\n' :: tail) = startsFraction cs := by
  match cs with
  | [] => cases tail <;> rfl
  | [c] => simp [startsFraction]
  | c :: d :: rest => rfl

theorem number_line (cs tail : List Char) :
    number (cs ++ '\n' :: tail) = (number cs).before ('\n' :: tail) := by
  obtain ⟨htake, hdrop⟩ := takeWhile_line (show Char.isDigit '\n' = false from rfl) cs tail
  unfold number
  rw [htake, hdrop, startsFraction_line]
  by_cases hpoint : startsFraction (cs.dropWhile Char.isDigit) = true
  · obtain ⟨behind, hbehind⟩ : ∃ behind, cs.dropWhile Char.isDigit = '.' :: behind :=
      ⟨_, eq_point_cons_of_startsFraction hpoint⟩
    obtain ⟨htake', hdrop'⟩ :=
      takeWhile_line (show Char.isDigit '\n' = false from rfl) behind tail
    rw [if_pos hpoint, if_pos hpoint, hbehind]
    simp [fractional, htake', hdrop', Scan.before]
  · rw [if_neg hpoint, if_neg hpoint]
    rfl

theorem word_line (cs tail : List Char) :
    word (cs ++ '\n' :: tail) = (word cs).before ('\n' :: tail) := by
  obtain ⟨htake, hdrop⟩ := takeWhile_line (show isWordChar '\n' = false from rfl) cs tail
  simp only [word, htake, hdrop, Scan.before]

theorem isPrefixOf_line {sign : List Char} (h : '\n' ∉ sign) (cs tail : List Char) :
    sign.isPrefixOf (cs ++ '\n' :: tail) = sign.isPrefixOf cs := by
  induction sign generalizing cs with
  | nil => simp
  | cons c rest ih =>
    have hne : c ≠ '\n' := fun hc => h (by simp [hc])
    cases cs with
    | nil => simp [List.isPrefixOf, hne]
    | cons d cs => simp [List.isPrefixOf, ih fun hmem => h (by simp [hmem])]

theorem line_not_mem_spelling (sign : Symbol) : '\n' ∉ sign.spelling := by
  cases sign <;> decide

theorem symbol_line {c : Char} {rest : List Char} {found : Token}
    (h : (symbol c rest).value = .ok found) (tail : List Char) :
    symbol c (rest ++ '\n' :: tail) = (symbol c rest).before ('\n' :: tail) := by
  have hbegins : ∀ sign : Symbol, sign.spelling.isPrefixOf (c :: (rest ++ '\n' :: tail))
      = sign.spelling.isPrefixOf (c :: rest) :=
    fun sign => isPrefixOf_line (line_not_mem_spelling sign) (c :: rest) tail
  unfold symbol at h ⊢
  simp only [hbegins]
  cases hfind : Symbol.all.find? (·.spelling.isPrefixOf (c :: rest)) with
  | none =>
    rw [hfind] at h
    cases h
  | some sign =>
    have hspelled : sign.spelling <+: c :: rest := by
      simpa using List.find?_some hfind
    simp only [Scan.before]
    rw [← List.cons_append, List.drop_append_of_le_length hspelled.length_le]

/-! ### Any piece -/

theorem head?_line {cs tail : List Char} {c : Char} (hc : c ≠ '\n') :
    (cs ++ '\n' :: tail).head? = some c ↔ cs.head? = some c := by
  cases cs with
  | nil => simp [Ne.symm hc]
  | cons d rest => simp

/-- **A piece is the same one in front of a line break.** -/
theorem piece_line {c : Char} {rest : List Char} {found : Piece}
    (h : (piece c rest).value = .ok found) (tail : List Char) :
    piece c (rest ++ '\n' :: tail) = (piece c rest).before ('\n' :: tail) := by
  unfold piece at h ⊢
  simp only [head?_line (show '/' ≠ '\n' by decide), head?_line (show '*' ≠ '\n' by decide)]
  split at h
  · next hspace => rw [if_pos hspace, if_pos hspace]; rfl
  next hspace =>
  rw [if_neg hspace, if_neg hspace]
  split at h
  · next hline =>
    obtain ⟨htake, hdrop⟩ := takeWhile_line (p := (· != '\n')) rfl (c :: rest) tail
    rw [if_pos hline, if_pos hline, ← List.cons_append]
    simp only [lineComment, htake, hdrop, Scan.before]
  next hline =>
  rw [if_neg hline, if_neg hline]
  split at h
  · next hblock =>
    obtain ⟨body, rfl⟩ : ∃ body, rest = '*' :: body := by
      cases rest with
      | nil => cases hblock.2
      | cons d body => exact ⟨body, by simpa using hblock.2⟩
    have hbody : (blockComment body).value = .ok found := h
    rw [if_pos hblock, if_pos hblock]
    show (blockComment (body ++ '\n' :: tail)).after _ = _
    rw [blockComment_append hbody]
    rfl
  next hblock =>
  rw [if_neg hblock, if_neg hblock]
  split at h
  · next hquote =>
    obtain ⟨inner, hinner, -⟩ := map_value_eq_ok_iff.mp h
    rw [if_pos hquote, if_pos hquote, stringBody_append hinner]
    rfl
  next hquote =>
  rw [if_neg hquote, if_neg hquote]
  split at h
  · next hquote' =>
    obtain ⟨inner, hinner, -⟩ := map_value_eq_ok_iff.mp h
    rw [if_pos hquote', if_pos hquote', characterBody_append hinner]
    rfl
  next hquote' =>
  rw [if_neg hquote', if_neg hquote', ← List.cons_append]
  split at h
  · next hdigit =>
    rw [if_pos hdigit, if_pos hdigit, number_line]
    rfl
  next hdigit =>
  rw [if_neg hdigit, if_neg hdigit]
  split at h
  · next hstart =>
    rw [if_pos hstart, if_pos hstart, word_line]
    rfl
  · next hstart =>
    obtain ⟨inner, hinner, -⟩ := map_value_eq_ok_iff.mp h
    rw [if_neg hstart, if_neg hstart, symbol_line hinner]
    rfl

end Scanner

/-! ### Texts -/

open Scanner

theorem piece_lineEnd (tail : List Char) : piece '\n' tail = ⟨.ok .gap, ['\n'], tail⟩ := by
  unfold piece
  rw [if_pos (by decide)]

/-- **Tokens of a text in front of a line break and of the text behind it.** -/
theorem LexesAt.join {p : Pos} {cs ds : List Char} {found found' : List Located}
    (h : LexesAt p cs found) : LexesAt ((p.past cs).after '\n') ds found' →
    LexesAt p (cs ++ '\n' :: ds) (found ++ found') := by
  induction h with
  | nil =>
    intro h'
    refine .gap ?_ ?_
    · rw [piece_lineEnd]
    · rw [piece_lineEnd]
      exact h'
  | gap hgap _ ih =>
    intro h'
    have hpiece := piece_line hgap ds
    rw [← past_piece] at h'
    rw [List.cons_append]
    refine .gap ?_ ?_
    · rw [hpiece]
      exact hgap
    · rw [hpiece]
      exact ih h'
  | token htoken _ ih =>
    intro h'
    have hpiece := piece_line htoken ds
    rw [← past_piece] at h'
    rw [List.cons_append, List.cons_append]
    refine .token ?_ ?_
    · rw [hpiece]
      exact htoken
    · rw [hpiece]
      exact ih h'

/-! ### Texts further down

A place is counted from a first place, so the text behind the line break has its tokens
where they would be, moved down by the lines before it.  No column changes, since the
second text begins a line.
-/

theorem Pos.past_shift (ids lines : Nat) (p : Pos) (cs : List Char) :
    ((Relabel.shift ids lines).pos p).past cs = (Relabel.shift ids lines).pos (p.past cs) := by
  induction cs generalizing p with
  | nil => rfl
  | cons c rest ih =>
    have hafter : ((Relabel.shift ids lines).pos p).after c
        = (Relabel.shift ids lines).pos (p.after c) := by
      by_cases hc : c = '\n'
      · simp [Pos.after, hc, Relabel.shift, Nat.add_right_comm]
      · simp [Pos.after, hc, Relabel.shift]
    rw [Pos.past_cons, Pos.past_cons, hafter, ih]

theorem LexesAt.shift (ids lines : Nat) {p : Pos} {cs : List Char} {found : List Located}
    (h : LexesAt p cs found) : LexesAt ((Relabel.shift ids lines).pos p) cs
      (found.map (Located.relabel (.shift ids lines))) := by
  induction h with
  | nil => exact .nil
  | gap hgap _ ih =>
    refine .gap hgap ?_
    rw [Pos.past_shift]
    exact ih
  | token htoken _ ih =>
    refine .token htoken ?_
    rw [Pos.past_shift]
    exact ih

theorem Pos.line_past (p : Pos) (cs : List Char) : (p.past cs).line = p.line + cs.count '\n' := by
  induction cs generalizing p with
  | nil => rfl
  | cons c rest ih =>
    rw [Pos.past_cons, ih]
    by_cases hc : c = '\n'
    · simp [Pos.after, hc]
      omega
    · simp [Pos.after, hc]

/-- The first line behind a text and a line break. -/
theorem Pos.after_past (ids : Nat) (cs : List Char) : (Pos.start.past cs).after '\n'
    = (Relabel.shift ids (cs.count '\n' + 1)).pos .start := by
  rw [Pos.after, if_pos rfl, line_past]
  simp only [Relabel.shift, start]
  congr 1

/-- **The tokens of two texts with a line break between them** are those of the first text,
and those of the second one as many lines further down as the first text has, ended. -/
theorem LexesAt.join_start (ids : Nat) {cs ds : List Char} {found found' : List Located}
    (h : LexesAt .start cs found) (h' : LexesAt .start ds found') :
    LexesAt .start (cs ++ '\n' :: ds)
      (found ++ found'.map (Located.relabel (.shift ids (cs.count '\n' + 1)))) := by
  refine h.join ?_
  rw [Pos.after_past ids]
  exact h'.shift ids _

end ListSugar
