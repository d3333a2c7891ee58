/-
A text is covered by its tokens and the gaps between them.

A gap is white space and whole comments, one after the other.  A lexeme is the longest text
at its place that stands for a token.  The scanner finds these and nothing else
(`isLexeme_iff_piece`, `isGapPiece_iff_piece`), so the tokens of a text are those of the one
way to cut it into gaps and lexemes.
-/
import Mathlib.Algebra.Group.Int.Defs
import ListSugar.Proofs.Layout.Lexemes

namespace ListSugar

open Scanner

/-! ### Longest texts

The scanner never tries a longer text and gives it up.  It looks at the first character
and takes what its rule allows, so it has to be shown of each rule that no longer text
stands for a token, and that where some text does, the rule finds one.  Only tokens that
begin with the same kind of character have to be compared.
-/

/-- No text that `text` begins with stands for a token and is longer than `w`. -/
def Longest (w text : List Char) : Prop :=
  ∀ w' (t : Token), w' <+: text → t.WrittenAs w' → w'.length ≤ w.length

/-- A whole number is not too large. -/
def Token.Fits (t : Token) : Prop := ∀ value, t = .int value → value < 2 ^ (63 : Nat)

/-- No comment begins the text. -/
def NoComment (text : List Char) : Prop := ¬ ['/', '/'] <+: text ∧ ¬ ['/', '*'] <+: text

/-- The text `w`, with `rest` behind it, is the longest one there that stands for a token; the
token is `t`, and it fits. -/
structure IsLexeme (w rest : List Char) (t : Token) : Prop where
  written : t.WrittenAs w
  fits : t.Fits
  longest : Longest w (w ++ rest)
  noComment : NoComment (w ++ rest)

theorem length_le_takeWhile {p : Char → Bool} {w text : List Char} (h : w <+: text)
    (hw : ∀ c ∈ w, p c = true) : w.length ≤ (text.takeWhile p).length := by
  obtain ⟨rest, rfl⟩ := h
  rw [List.takeWhile_append_of_pos hw, List.length_append]
  exact Nat.le_add_right _ _

/-- Two longest texts at one place are the same. -/
theorem Longest.eq {w w' text : List Char} {t t' : Token} (h : Longest w text)
    (h' : Longest w' text) (hw : w <+: text) (hw' : w' <+: text) (ht : t.WrittenAs w)
    (ht' : t'.WrittenAs w') : w = w' := by
  have hle := h' w t hw ht
  have hge := h w' t' hw' ht'
  exact (List.prefix_of_prefix_length_le hw hw' hle).eq_of_length (Nat.le_antisymm hle hge)

/-- Only tokens that begin like the text count for the longest one. -/
theorem longest_of_start {w : List Char} {c : Char} {cs : List Char}
    (h : ∀ w' (t : Token), w' <+: c :: cs → t.WrittenAs w' → t.start = startOf c →
      w'.length ≤ w.length) : Longest w (c :: cs) := by
  intro w' t hfront hwritten
  obtain ⟨d, ds, rfl, -, hstart⟩ := hwritten.first
  obtain ⟨rfl, -⟩ := List.cons_prefix_cons.mp hfront
  exact h _ t hfront hwritten hstart.symm

theorem Token.fits_of_start {t : Token} (h : t.start ≠ .digit) : t.Fits := by
  rintro value rfl
  exact absurd rfl h

theorem opens_iff {c d : Char} {cs : List Char} :
    ['/', d] <+: c :: cs ↔ c = '/' ∧ cs.head? = some d := by
  cases cs with
  | nil => simp
  | cons e rest => simp [eq_comm]

/-- The piece at a place where neither a gap nor a comment begins, by its first character. -/
theorem piece_of_startOf {c : Char} {cs : List Char} (hwhite : Text.isWhiteSpace c = false)
    (hcomment : NoComment (c :: cs)) : piece c cs = match startOf c with
      | .string => ((stringBody cs).map (Piece.token ∘ Token.str ∘ String.ofList)).after [c]
      | .character => ((characterBody cs).map (Piece.token ∘ Token.char)).after [c]
      | .digit => (number (c :: cs)).map .token
      | .word => (word (c :: cs)).map .token
      | .symbol => (symbol c cs).map .token := by
  unfold piece startOf
  rw [if_neg (by simp [hwhite]), if_neg (fun hopens => hcomment.1 (opens_iff.mpr hopens)),
    if_neg (fun hopens => hcomment.2 (opens_iff.mpr hopens))]
  split
  · rfl
  split
  · rfl
  split
  · rfl
  split
  · rfl
  · rfl

/-- What a scan gives is the longest text that stands for a token, and it gives something
where there is such a text. -/
structure ScansLexemes (s : Scan Piece) (text : List Char) : Prop where
  sound : ∀ t, s.value = .ok (.token t) → t.WrittenAs s.taken ∧ t.Fits ∧ Longest s.taken text
  complete : ∀ w rest t, w ++ rest = text → IsLexeme w rest t → ∃ t', s.value = .ok (.token t')

theorem isWordStart_of_startOf {c : Char} (h : startOf c = .word) : isWordStart c = true := by
  unfold startOf at h
  repeat' split at h
  all_goals first | assumption | cases h

theorem isDigit_of_startOf {c : Char} (h : startOf c = .digit) : c.isDigit = true := by
  unfold startOf at h
  repeat' split at h
  all_goals first | assumption | cases h

/-- **The scanner takes the longest word.** -/
theorem word_scansLexemes {c : Char} {cs : List Char} (h : startOf c = .word) :
    ScansLexemes ((word (c :: cs)).map .token) (c :: cs) where
  sound := by
    intro t ht
    obtain rfl : Token.ofWord (String.ofList ((c :: cs).takeWhile isWordChar)) = t := by
      cases ht
      rfl
    have hstart := isWordStart_of_startOf h
    have hcons : (c :: cs).takeWhile isWordChar = c :: cs.takeWhile isWordChar := by
      rw [List.takeWhile_cons, if_pos (isWordChar_of_isWordStart hstart)]
    have hword : WordText ((c :: cs).takeWhile isWordChar) :=
      ⟨⟨c, _, hcons, hstart⟩, fun d hd => List.all_eq_true.mp List.all_takeWhile d hd⟩
    have hwritten := hword.writtenAs_ofWord
    refine ⟨hwritten, Token.fits_of_start ?_, longest_of_start fun w' t hfront hw' hstart' => ?_⟩
    · obtain ⟨d, ds, hd, -, hstart'⟩ := hwritten.first
      obtain ⟨rfl, -⟩ := List.cons.inj (hcons.symm.trans hd)
      rw [← hstart', h]
      decide
    · exact length_le_takeWhile hfront (hw'.wordText (hstart'.trans h)).chars
  complete := fun _ _ _ _ _ => ⟨_, rfl⟩

theorem toDouble_ofDigits (whole fraction : List Char) :
    (Decimal.ofDigits whole fraction).toDouble =
      Double.nearest (Nat.ofDigitChars 10 (whole ++ fraction) 0) (10 ^ fraction.length) := by
  simp [Decimal.toDouble, Decimal.ofDigits, Decimal.valueOf_eq]

theorem integerToken_eq_ok_iff {digits : List Char} {t : Token} :
    integerToken digits = .ok t ↔ t = .int (Nat.ofDigitChars 10 digits 0) ∧ t.Fits := by
  rw [integerToken, Decimal.valueOf_eq]
  constructor
  · intro h
    split at h
    · next hlt =>
      cases h
      refine ⟨rfl, fun value hvalue => ?_⟩
      cases hvalue
      exact_mod_cast hlt
    · cases h
  · rintro ⟨rfl, hfits⟩
    have hlt := hfits _ rfl
    rw [if_pos (by exact_mod_cast hlt)]

theorem startsFraction_iff {cs : List Char} :
    startsFraction cs = true ↔ ∃ d rest, d.isDigit = true ∧ cs = '.' :: d :: rest := by
  constructor
  · intro h
    match cs, h with
    | p :: d :: rest, h =>
      obtain ⟨rfl, hd⟩ : p = '.' ∧ d.isDigit = true := by simpa [startsFraction] using h
      exact ⟨d, rest, hd, rfl⟩
  · rintro ⟨d, rest, hd, rfl⟩
    simp [startsFraction, hd]

theorem takeWhile_isDigit {c : Char} (cs : List Char) (h : c.isDigit = true) :
    (c :: cs).takeWhile Char.isDigit ≠ [] ∧
      ∀ d ∈ (c :: cs).takeWhile Char.isDigit, d.isDigit = true := by
  refine ⟨?_, fun d hd => List.all_eq_true.mp List.all_takeWhile d hd⟩
  rw [List.takeWhile_cons, if_pos h]
  exact List.cons_ne_nil _ _

/-- A text of digits around a point has a fraction behind its first digits. -/
theorem startsFraction_of_pointed {w whole fraction text : List Char}
    (h : Double.Pointed w whole fraction) (hfront : w <+: text) :
    text.takeWhile Char.isDigit = whole ∧ ∃ rest,
      startsFraction ('.' :: (fraction ++ rest)) = true ∧
      text.dropWhile Char.isDigit = '.' :: (fraction ++ rest) := by
  obtain ⟨rest, rfl⟩ := hfront
  obtain ⟨htake, hdrop⟩ := h.digits rest
  obtain ⟨d, ds, rfl⟩ := List.exists_cons_of_ne_nil h.fraction_ne
  have hd := h.fraction_digits d (by simp)
  exact ⟨htake, rest, startsFraction_iff.mpr ⟨d, ds ++ rest, hd, rfl⟩, hdrop⟩

/-- **The scanner takes the longest number with a fraction.** -/
theorem fractional_scansLexemes {c d : Char} {cs whole behind : List Char} (h : startOf c = .digit)
    (hwhole : (c :: cs).takeWhile Char.isDigit = whole) (hd : d.isDigit = true)
    (hbehind : (c :: cs).dropWhile Char.isDigit = '.' :: d :: behind) :
    ScansLexemes ((fractional whole (d :: behind)).map .token) (c :: cs) where
  sound := by
    intro t ht
    obtain ⟨hne, hdigits⟩ := takeWhile_isDigit cs (isDigit_of_startOf h)
    obtain ⟨hne', hdigits'⟩ := takeWhile_isDigit behind hd
    rw [hwhole] at hne hdigits
    cases ht
    refine ⟨⟨_, _, ⟨rfl, hne, hne', hdigits, hdigits'⟩, toDouble_ofDigits _ _⟩, ?_, ?_⟩
    · intro value hvalue
      cases hvalue
    · refine longest_of_start fun w' t hfront hwritten hstart => ?_
      show w'.length ≤ (whole ++ '.' :: (d :: behind).takeWhile Char.isDigit).length
      rw [List.length_append, List.length_cons]
      cases t with
      | int value =>
        have hle := length_le_takeWhile hfront hwritten.2.1
        rw [hwhole] at hle
        omega
      | double value =>
        obtain ⟨whole', fraction, hpointed, -⟩ := hwritten
        obtain ⟨htake, rest, -, hdrop⟩ := startsFraction_of_pointed hpointed hfront
        obtain rfl : whole = whole' := hwhole.symm.trans htake
        have hrest : d :: behind = fraction ++ rest := by simpa [hbehind] using hdrop
        have hle : fraction.length ≤ ((d :: behind).takeWhile Char.isDigit).length := by
          rw [hrest]
          exact length_le_takeWhile (List.prefix_append _ _) hpointed.fraction_digits
        rw [hpointed.text_eq, List.length_append, List.length_cons]
        omega
      | _ => cases hstart.trans h
  complete := fun _ _ _ _ _ => ⟨_, rfl⟩

/-- Where no fraction follows, the first digits are the longest number. -/
theorem longest_digits {c : Char} {cs : List Char} (h : startOf c = .digit)
    (hno : startsFraction ((c :: cs).dropWhile Char.isDigit) = false) :
    Longest ((c :: cs).takeWhile Char.isDigit) (c :: cs) := by
  refine longest_of_start fun w' t hfront hwritten hstart => ?_
  cases t with
  | int value => exact length_le_takeWhile hfront hwritten.2.1
  | double value =>
    obtain ⟨whole, fraction, hpointed, -⟩ := hwritten
    obtain ⟨-, rest, hstarts, hdrop⟩ := startsFraction_of_pointed hpointed hfront
    rw [hdrop, hstarts] at hno
    cases hno
  | _ => cases hstart.trans h

/-- **The scanner takes the longest number.** -/
theorem number_scansLexemes {c : Char} {cs : List Char} (h : startOf c = .digit) :
    ScansLexemes ((number (c :: cs)).map .token) (c :: cs) := by
  cases hfraction : startsFraction ((c :: cs).dropWhile Char.isDigit) with
  | true =>
    obtain ⟨d, behind, hd, hbehind⟩ := startsFraction_iff.mp hfraction
    rw [number, if_pos hfraction, hbehind]
    exact fractional_scansLexemes h rfl hd hbehind
  | false =>
    obtain ⟨hne, hdigits⟩ := takeWhile_isDigit cs (isDigit_of_startOf h)
    have hwritten : (Token.int (Nat.ofDigitChars 10 ((c :: cs).takeWhile Char.isDigit) 0)).WrittenAs
        ((c :: cs).takeWhile Char.isDigit) := ⟨hne, hdigits, rfl⟩
    have hlongest := longest_digits h hfraction
    rw [number, if_neg (by simp [hfraction])]
    constructor
    · intro t ht
      obtain ⟨t', ht', heq⟩ := map_value_eq_ok_iff.mp ht
      cases heq
      obtain ⟨rfl, hfits⟩ := integerToken_eq_ok_iff.mp ht'
      exact ⟨hwritten, hfits, hlongest⟩
    · rintro w rest t hsplit ⟨hw, hfits, hlongest', -⟩
      rw [hsplit] at hlongest'
      have hfront : w <+: c :: cs := ⟨rest, hsplit⟩
      obtain rfl := hlongest'.eq hlongest hfront (List.takeWhile_prefix _) hw hwritten
      obtain rfl := hw.unique hwritten
      exact ⟨_, map_value_eq_ok_iff.mpr ⟨_, integerToken_eq_ok_iff.mpr ⟨rfl, hfits⟩, rfl⟩⟩

/-- **The scanner takes a literal up to its closing quote.**  What it reads behind the quote
`q` is given by `scan`, and `P` says what stands between the quotes of such a literal. -/
theorem quoted_scansLexemes {α : Type} {scan : List Char → Scan α} {P : List Char → α → Prop}
    {wrap : α → Token} {q : Char} (hq : startOf q ≠ .digit)
    (hscan : ∀ {body a}, P body a → ∀ rest,
      scan (body ++ q :: rest) = ⟨.ok a, body ++ [q], rest⟩)
    (hbody : ∀ {cs a}, (scan cs).value = .ok a → ∃ body, P body a ∧
      (scan cs).taken = body ++ [q])
    (hwritten : ∀ {t : Token} {w}, t.start = startOf q ∧ t.WrittenAs w ↔
      ∃ body a, P body a ∧ t = wrap a ∧ w = q :: (body ++ [q])) (cs : List Char) :
    ScansLexemes (((scan cs).map (Piece.token ∘ wrap)).after [q]) (q :: cs) where
  sound := by
    intro t ht
    obtain ⟨a, ha, heq⟩ := map_value_eq_ok_iff.mp ht
    cases heq
    obtain ⟨body, hholds, htaken⟩ := hbody ha
    obtain ⟨hstart, hw⟩ := hwritten.mpr ⟨body, a, hholds, rfl, rfl⟩
    have htext : (((scan cs).map (Piece.token ∘ wrap)).after [q]).taken = q :: (body ++ [q]) := by
      show [q] ++ (scan cs).taken = _
      rw [htaken]
      rfl
    rw [htext]
    have hfits := Token.fits_of_start (hstart ▸ hq)
    refine ⟨hw, hfits, longest_of_start fun w' t hfront hw' hstart' => ?_⟩
    -- A text of the same kind ends at the first quote that closes it, so it is the same text.
    obtain ⟨body', a', hholds', -, rfl⟩ := hwritten.mp ⟨hstart', hw'⟩
    obtain ⟨rest, hrest⟩ := hfront
    have hcs : cs = body' ++ q :: rest := by simpa using hrest.symm
    rw [hcs, hscan hholds'] at htaken
    exact Nat.le_of_eq (by rw [← htaken])
  complete := by
    rintro w rest t hsplit ⟨hw, -, -, -⟩
    obtain ⟨d, ds, rfl, -, hstart⟩ := hw.first
    obtain ⟨rfl, -⟩ := List.cons.inj hsplit
    obtain ⟨body, a, hholds, -, hcons⟩ := hwritten.mp ⟨hstart.symm, hw⟩
    have hcs : cs = body ++ d :: rest := by
      rw [hcons] at hsplit
      simpa using hsplit.symm
    refine ⟨wrap a, map_value_eq_ok_iff.mpr ⟨a, ?_, rfl⟩⟩
    rw [hcs, hscan hholds]

theorem string_scansLexemes (cs : List Char) : ScansLexemes
    (((stringBody cs).map (Piece.token ∘ Token.str ∘ String.ofList)).after ['"']) ('"' :: cs) := by
  refine quoted_scansLexemes (by decide) stringBody_eq stringBody_unescapes ?_ cs
  intro t w
  constructor
  · rintro ⟨hstart, hw⟩
    cases t with
    | str value =>
      obtain ⟨body, hbody, rfl⟩ := hw
      exact ⟨body, _, hbody, by simp, rfl⟩
    | _ => cases hstart
  · rintro ⟨body, value, hbody, rfl, rfl⟩
    exact ⟨rfl, body, by simpa using hbody, rfl⟩

theorem character_scansLexemes (cs : List Char) : ScansLexemes
    (((characterBody cs).map (Piece.token ∘ Token.char)).after ['\x27']) ('\x27' :: cs) := by
  refine quoted_scansLexemes (P := fun body value => Unescapes .character body [value])
    (by decide) characterBody_eq characterBody_unescapes ?_ cs
  intro t w
  constructor
  · rintro ⟨hstart, hw⟩
    cases t with
    | char value =>
      obtain ⟨body, hbody, rfl⟩ := hw
      exact ⟨body, value, hbody, rfl, rfl⟩
    | _ => cases hstart
  · rintro ⟨body, value, hbody, rfl, rfl⟩
    exact ⟨rfl, body, hbody, rfl⟩

/-- The first symbol of the table that a text begins with is a longest one. -/
theorem length_spelling_le {text : List Char} {sign sign' : Symbol}
    (hfind : Symbol.all.find? (·.spelling.isPrefixOf text) = some sign)
    (hfront : sign'.spelling <+: text) : sign'.spelling.length ≤ sign.spelling.length := by
  obtain ⟨rest, rfl⟩ := hfront
  have hshort : sign'.spelling.length = 1 ∨ sign'.Ends rest := by
    cases sign' <;> first | exact Or.inl rfl | exact Or.inr trivial
  rcases hshort with hone | hends
  · rw [hone]
    cases sign <;> decide
  · rw [find?_spelling sign' hends] at hfind
    obtain rfl := Option.some.inj hfind
    exact Nat.le_refl _

/-- **The scanner takes the longest symbol.** -/
theorem symbol_scansLexemes {c : Char} {cs : List Char} (h : startOf c = .symbol) :
    ScansLexemes ((symbol c cs).map .token) (c :: cs) := by
  have hsign : ∀ {t : Token} {w}, t.WrittenAs w → t.start = startOf c → w <+: c :: cs →
      ∃ sign : Symbol, sign.spelling = w ∧ sign.spelling <+: c :: cs := by
    intro t w hw hstart hfront
    cases t with
    | symbol sign => exact ⟨sign, Eq.symm hw, Eq.symm hw ▸ hfront⟩
    | _ => cases hstart.trans h
  unfold symbol
  cases hfind : Symbol.all.find? (·.spelling.isPrefixOf (c :: cs)) with
  | some found =>
    refine ⟨fun t ht => ?_, fun _ _ _ _ _ => ⟨_, rfl⟩⟩
    cases ht
    refine ⟨rfl, Token.fits_of_start (by simp [Token.start]), ?_⟩
    refine longest_of_start fun w' t hfront hw hstart => ?_
    obtain ⟨sign, rfl, hfront'⟩ := hsign hw hstart hfront
    exact length_spelling_le hfind hfront'
  | none =>
    refine ⟨fun t ht => (by cases ht), ?_⟩
    rintro w rest t hsplit ⟨hw, -, -, -⟩
    obtain ⟨d, ds, rfl, -, hstart⟩ := hw.first
    obtain ⟨rfl, -⟩ := List.cons.inj hsplit
    obtain ⟨sign, -, hfront⟩ := hsign hw hstart.symm ⟨rest, hsplit⟩
    have hall : sign ∈ Symbol.all := by cases sign <;> decide
    have hnot := List.find?_eq_none.mp hfind sign hall
    exact absurd (List.isPrefixOf_iff_prefix.mpr hfront) hnot

/-! ### Lexemes and gaps

A slash begins a comment before it begins a symbol, so a lexeme is a longest text where
neither white space nor a comment begins.  With that, what a piece is and what the text at
its place is are the same question, for lexemes and for gaps.
-/

theorem startOf_cases (c : Char) : c = Text.Quote.string.mark ∧ startOf c = .string ∨
    c = Text.Quote.character.mark ∧ startOf c = .character ∨ startOf c = .digit ∨
    startOf c = .word ∨ startOf c = .symbol := by
  unfold startOf
  repeat' split
  all_goals simp [*]

/-- Where neither a gap nor a comment begins, a piece is a lexeme. -/
theorem piece_scansLexemes {c : Char} {cs : List Char} (hwhite : Text.isWhiteSpace c = false)
    (hcomment : NoComment (c :: cs)) : ScansLexemes (piece c cs) (c :: cs) := by
  rw [piece_of_startOf hwhite hcomment]
  rcases startOf_cases c with ⟨rfl, h⟩ | ⟨rfl, h⟩ | h | h | h <;> rw [h]
  · exact string_scansLexemes cs
  · exact character_scansLexemes cs
  · exact number_scansLexemes h
  · exact word_scansLexemes h
  · exact symbol_scansLexemes h

/-- A piece that is a token begins neither with white space nor with a comment. -/
theorem not_gap_of_piece {c : Char} {cs : List Char} {t : Token}
    (h : (piece c cs).value = .ok (.token t)) :
    Text.isWhiteSpace c = false ∧ NoComment (c :: cs) := by
  unfold piece at h
  split at h
  · cases h
  next hwhite =>
  split at h
  · cases h
  next hline =>
  split at h
  · exact absurd h (blockComment_value_ne _ t)
  next hblock =>
  exact ⟨by simpa using hwhite, fun hopens => hline (opens_iff.mp hopens),
    fun hopens => hblock (opens_iff.mp hopens)⟩

/-- **A piece that is a token is the longest text that stands for one.** -/
theorem isLexeme_iff_piece {c : Char} {cs w rest : List Char} {t : Token}
    (hsplit : w ++ rest = c :: cs) :
    IsLexeme w rest t ↔ piece c cs = ⟨.ok (.token t), w, rest⟩ := by
  have hcovers : (piece c cs).taken ++ (piece c cs).rest = c :: cs := piece_covers c cs
  constructor
  · intro h
    obtain ⟨d, ds, rfl, hwhite, -⟩ := h.written.first
    obtain ⟨rfl, -⟩ := List.cons.inj hsplit
    have hscans := piece_scansLexemes hwhite (hsplit ▸ h.noComment)
    obtain ⟨t', ht'⟩ := hscans.complete _ _ _ hsplit h
    obtain ⟨hwritten, -, hlongest⟩ := hscans.sound t' ht'
    have hw := (hsplit ▸ h.longest).eq hlongest ⟨rest, hsplit⟩ ⟨_, hcovers⟩ h.written hwritten
    obtain rfl := h.written.unique (hw ▸ hwritten)
    have hrest : rest = (piece d cs).rest := by
      rw [hw] at hsplit
      exact List.append_cancel_left (hsplit.trans hcovers.symm)
    rw [← ht', hw, hrest]
  · intro h
    have ht : (piece c cs).value = .ok (.token t) := by rw [h]
    obtain ⟨hwhite, hcomment⟩ := not_gap_of_piece ht
    obtain ⟨hwritten, hfits, hlongest⟩ := (piece_scansLexemes hwhite hcomment).sound t ht
    rw [h] at hwritten hlongest
    rw [← hsplit] at hlongest hcomment
    exact ⟨hwritten, hfits, hlongest, hcomment⟩

/-- The text, with `rest` behind it, is a character of white space or a whole comment: from
`//` up to a line break or the end, or from `/*` up to the first `*/` behind it. -/
inductive IsGapPiece : List Char → List Char → Prop
  | white {c : Char} {rest : List Char} : Text.isWhiteSpace c = true → IsGapPiece [c] rest
  | line {body rest : List Char} : '\n' ∉ body → (∀ c ∈ rest.head?, c = '\n') →
      IsGapPiece ('/' :: '/' :: body) rest
  | block {body rest : List Char} : ¬ ['*', '/'] <:+: body →
      IsGapPiece ('/' :: '*' :: (body ++ ['*', '/'])) rest

theorem blockComment_eq {body : List Char} (h : ¬ ['*', '/'] <:+: body) (rest : List Char) :
    blockComment (body ++ '*' :: '/' :: rest) = ⟨.ok .gap, body ++ ['*', '/'], rest⟩ := by
  induction body with
  | nil => rfl
  | cons c body ih =>
    have hopen : ¬ (c = '*' ∧ (body ++ '*' :: '/' :: rest).head? = some '/') := by
      rintro ⟨rfl, hhead⟩
      cases body with
      | nil => cases hhead
      | cons d body =>
        obtain rfl : d = '/' := by simpa using hhead
        exact h (List.infix_cons_iff.mpr (Or.inl ⟨body, rfl⟩))
    rw [List.cons_append, blockComment, if_neg hopen,
      ih fun hin => h (List.infix_cons_iff.mpr (Or.inr hin))]
    rfl

theorem blockComment_gap {cs : List Char} : (blockComment cs).value = .ok .gap →
    ∃ body, ¬ ['*', '/'] <:+: body ∧ (blockComment cs).taken = body ++ ['*', '/'] := by
  induction cs with
  | nil => intro h; cases h
  | cons c rest ih =>
    intro h
    have hcovers : (blockComment rest).taken ++ (blockComment rest).rest = rest :=
      blockComment_covers rest
    rw [blockComment] at h ⊢
    by_cases hclose : c = '*' ∧ rest.head? = some '/'
    · rw [if_pos hclose, hclose.1]
      exact ⟨[], by simp, rfl⟩
    · rw [if_neg hclose] at h ⊢
      obtain ⟨body, hbody, htaken⟩ := ih h
      refine ⟨c :: body, ?_, by simp [Scan.after, htaken]⟩
      rw [List.infix_cons_iff]
      rintro (hfront | hin)
      · -- The closing would stand at the head already.
        obtain ⟨rfl, hslash⟩ := List.cons_prefix_cons.mp hfront
        obtain ⟨more, rfl⟩ := hslash
        rw [htaken] at hcovers
        exact hclose ⟨rfl, by rw [← hcovers]; rfl⟩
      · exact hbody hin

theorem lineComment_eq {body rest : List Char} (hline : '\n' ∉ body)
    (hend : ∀ c ∈ rest.head?, c = '\n') :
    lineComment ('/' :: '/' :: (body ++ rest)) = ⟨.ok .gap, '/' :: '/' :: body, rest⟩ := by
  have hbody : ∀ c ∈ '/' :: '/' :: body, (c != '\n') = true := by
    intro c hc
    rw [bne_iff_ne]
    rintro rfl
    simp [hline] at hc
  have hend' : ∀ c ∈ rest.head?, (c != '\n') = false := by simpa using hend
  obtain ⟨htake, hdrop⟩ := takeWhile_append hbody hend'
  rw [List.cons_append, List.cons_append] at htake hdrop
  rw [lineComment, htake, hdrop]

/-- Where neither white space nor a comment begins, there is no gap. -/
theorem piece_value_ne_gap {c : Char} {cs : List Char} (hwhite : Text.isWhiteSpace c = false)
    (hcomment : NoComment (c :: cs)) : (piece c cs).value ≠ .ok .gap := by
  have htoken : ∀ {α : Type} (s : Scan α) (wrap : α → Token),
      (s.map (Piece.token ∘ wrap)).value ≠ .ok .gap := by
    intro α s wrap h
    obtain ⟨a, -, heq⟩ := map_value_eq_ok_iff.mp h
    cases heq
  rw [piece_of_startOf hwhite hcomment]
  cases startOf c with
  | string => exact htoken (stringBody cs) _
  | character => exact htoken (characterBody cs) _
  | digit => exact htoken (number (c :: cs)) id
  | word => exact htoken (word (c :: cs)) id
  | symbol => exact htoken (symbol c cs) id

theorem isGapPiece_of_piece {c : Char} {cs : List Char} (h : (piece c cs).value = .ok .gap) :
    IsGapPiece (piece c cs).taken (piece c cs).rest := by
  by_cases hwhite : Text.isWhiteSpace c = true
  · rw [piece, if_pos hwhite]
    exact .white hwhite
  by_cases hline : c = '/' ∧ cs.head? = some '/'
  · rw [piece, if_neg hwhite, if_pos hline]
    obtain ⟨rfl, hhead⟩ := hline
    obtain ⟨more, rfl⟩ := List.head?_eq_some_iff.mp hhead
    refine @IsGapPiece.line (more.takeWhile (· != '\n')) (more.dropWhile (· != '\n')) ?_ ?_
    · intro hmem
      have := List.all_eq_true.mp List.all_takeWhile _ hmem
      cases this
    · intro d hd
      have := List.head?_dropWhile_not (· != '\n') more
      simpa [Option.mem_def.mp hd] using this
  by_cases hblock : c = '/' ∧ cs.head? = some '*'
  · rw [piece, if_neg hwhite, if_neg hline, if_pos hblock] at h ⊢
    obtain ⟨rfl, hhead⟩ := hblock
    obtain ⟨more, rfl⟩ := List.head?_eq_some_iff.mp hhead
    obtain ⟨body, hbody, htaken⟩ := blockComment_gap h
    have htext : ((blockComment more).after ['/', '*']).taken
        = '/' :: '*' :: (body ++ ['*', '/']) := by
      show ['/', '*'] ++ (blockComment more).taken = _
      rw [← htaken]
      rfl
    show IsGapPiece ((blockComment more).after ['/', '*']).taken _
    rw [htext]
    exact .block hbody
  · refine absurd h (piece_value_ne_gap (by simpa using hwhite) ⟨?_, ?_⟩)
    · exact fun hopens => hline (opens_iff.mp hopens)
    · exact fun hopens => hblock (opens_iff.mp hopens)

/-- **A piece that is a gap is a character of white space or a whole comment.** -/
theorem isGapPiece_iff_piece {c : Char} {cs g rest : List Char} (hsplit : g ++ rest = c :: cs) :
    IsGapPiece g rest ↔ piece c cs = ⟨.ok .gap, g, rest⟩ := by
  constructor
  · intro h
    cases h with
    | white hwhite =>
      obtain ⟨rfl, rfl⟩ : _ = c ∧ rest = cs := by simpa using hsplit
      rw [piece, if_pos hwhite]
    | @line body _ hline hend =>
      obtain ⟨rfl, rfl⟩ : '/' = c ∧ '/' :: (body ++ rest) = cs := by simpa using hsplit
      rw [piece, if_neg (by decide), if_pos ⟨rfl, rfl⟩, lineComment_eq hline hend]
    | @block body _ hbody =>
      obtain ⟨rfl, rfl⟩ : '/' = c ∧ '*' :: (body ++ '*' :: '/' :: rest) = cs := by
        simpa using hsplit
      rw [piece, if_neg (by decide), if_neg (by simp), if_pos ⟨rfl, rfl⟩, List.drop_one,
        List.tail_cons, blockComment_eq hbody]
      rfl
  · intro h
    have hgap : IsGapPiece (piece c cs).taken (piece c cs).rest :=
      isGapPiece_of_piece (by rw [h])
    rwa [h] at hgap

/-! ### Places

The scanner moves its place character by character.  Counting line breaks over the whole
front of the text gives the same place, and says nothing of how the text was cut.
-/

/-- The place behind the characters of a text: its line is one more than the line breaks, and
its column one more than the characters behind the last of them. -/
def Pos.behind (before : List Char) : Pos :=
  ⟨1 + before.count '\n', 1 + (before.reverse.takeWhile (· ≠ '\n')).length⟩

/-- **Counting lines and columns step by step comes to counting them over the whole text.** -/
theorem Pos.behind_eq_past (before : List Char) : Pos.behind before = Pos.start.past before := by
  have hreverse : ∀ cs : List Char, Pos.behind cs.reverse = Pos.start.past cs.reverse := by
    intro cs
    induction cs with
    | nil => rfl
    | cons c rest ih =>
      rw [List.reverse_cons, Pos.past_append, ← ih]
      show _ = (Pos.behind rest.reverse).after c
      by_cases hc : c = '\n'
      · simp [Pos.behind, Pos.after, hc, Nat.add_assoc]
      · simp [Pos.behind, Pos.after, hc, Nat.add_comm]
  have h := hreverse before.reverse
  rwa [List.reverse_reverse] at h

/-! ### Whole texts

The two cuts differ in one point: a scan meets gaps piece by piece, and a cover puts all
that stand together into one.  Both directions are inductions on the cut that is given.
-/

/-- The text, with `behind` after it, is white space and whole comments, one after the other. -/
inductive IsGap : List Char → List Char → Prop
  | nil {behind : List Char} : IsGap [] behind
  | cons {g gap behind : List Char} : IsGapPiece g (gap ++ behind) → IsGap gap behind →
      IsGap (g ++ gap) behind

/-- The text, with `before` in front of it, is cut into gaps and lexemes, with a gap at either
end; the tokens are those of the lexemes, each at the place of its first character, and the
end mark behind the last character. -/
inductive Covered : List Char → List Char → List Located → Prop
  | last {before gap : List Char} : IsGap gap [] →
      Covered before gap [⟨.eof, .behind (before ++ gap)⟩]
  | token {before gap w rest : List Char} {t : Token} {tokens : List Located} :
      IsGap gap (w ++ rest) → IsLexeme w rest t → Covered (before ++ (gap ++ w)) rest tokens →
      Covered before (gap ++ (w ++ rest)) (⟨t, .behind (before ++ gap)⟩ :: tokens)

theorem Pos.past_behind (before cs : List Char) :
    (Pos.behind before).past cs = .behind (before ++ cs) := by
  rw [behind_eq_past, behind_eq_past, past_append]

/-- One more piece in front of the first gap. -/
theorem Covered.gap {before g rest : List Char} {tokens : List Located} (hg : IsGapPiece g rest)
    (h : Covered (before ++ g) rest tokens) : Covered before (g ++ rest) tokens := by
  cases h with
  | last hgap =>
    rw [List.append_assoc]
    exact .last (.cons (by rwa [List.append_nil]) hgap)
  | @token _ gap w rest t tokens hgap hlexeme hrest =>
    rw [List.append_assoc before, ← List.append_assoc g] at hrest
    rw [List.append_assoc before, ← List.append_assoc g]
    exact .token (.cons hg hgap) hlexeme hrest

/-- **What the scanner cuts a text into covers it.** -/
theorem LexesAt.covered {p : Pos} {cs : List Char} {found : List Located} (h : LexesAt p cs found) :
    ∀ {before}, p = .behind before → Covered before cs (found ++ [⟨.eof, p.past cs⟩]) := by
  induction h with
  | nil =>
    rintro before rfl
    rw [Pos.past_behind]
    exact .last .nil
  | @gap p c cs found hvalue _ ih =>
    rintro before rfl
    have hcovers : (piece c cs).taken ++ (piece c cs).rest = c :: cs := piece_covers c cs
    have hrest := ih (Pos.past_behind before _)
    rw [past_piece, ← hcovers] at hrest
    rw [← hcovers]
    exact .gap (isGapPiece_of_piece hvalue) hrest
  | @token p c cs t found hvalue _ ih =>
    rintro before rfl
    have hcovers : (piece c cs).taken ++ (piece c cs).rest = c :: cs := piece_covers c cs
    have hrest := ih (Pos.past_behind before _)
    have hlexeme := (isLexeme_iff_piece hcovers).mpr (by rw [← hvalue])
    rw [past_piece, ← hcovers] at hrest
    rw [← hcovers]
    have hall : Covered before ([] ++ _) (_ :: _) := .token .nil hlexeme hrest
    rwa [List.append_nil] at hall

theorem IsGap.lexesAt {gap behind : List Char} {found : List Located} (h : IsGap gap behind) :
    ∀ {p}, LexesAt (p.past gap) behind found → LexesAt p (gap ++ behind) found := by
  induction h with
  | nil => exact id
  | @cons g gap behind hg _ ih =>
    intro p hbehind
    obtain ⟨c, cs, rfl⟩ : ∃ c cs, g = c :: cs := by
      cases hg <;> exact ⟨_, _, rfl⟩
    have hpiece := (isGapPiece_iff_piece (List.cons_append ..)).mp hg
    rw [List.append_assoc, List.cons_append]
    refine .gap (by rw [hpiece]) ?_
    rw [hpiece]
    refine ih ?_
    rwa [← Pos.past_append]

/-- **What covers a text is what the scanner cuts it into.** -/
theorem Covered.lexesAt {before cs : List Char} {tokens : List Located}
    (h : Covered before cs tokens) : ∃ found, LexesAt (.behind before) cs found ∧
      tokens = found ++ [⟨.eof, (Pos.behind before).past cs⟩] := by
  induction h with
  | @last before gap hgap =>
    refine ⟨[], ?_, by rw [Pos.past_behind]; rfl⟩
    have hlexes := hgap.lexesAt (p := .behind before) .nil
    rwa [List.append_nil] at hlexes
  | @token before gap w rest t tokens hgap hlexeme _ ih =>
    obtain ⟨found, hfound, rfl⟩ := ih
    obtain ⟨c, cs, rfl, -⟩ := hlexeme.written.first
    have hpiece := (isLexeme_iff_piece (List.cons_append ..)).mp hlexeme
    refine ⟨⟨t, .behind (before ++ gap)⟩ :: found, hgap.lexesAt ?_, ?_⟩
    · rw [Pos.past_behind, List.cons_append]
      refine .token (by rw [hpiece]) ?_
      rw [hpiece, Pos.past_behind, List.append_assoc]
      exact hfound
    · rw [Pos.past_behind, Pos.past_behind]
      simp

/-- **Tokenizing covers a text exactly.**  A text has these tokens just when it can be cut
into gaps and lexemes that are they: gaps are white space and whole comments, each lexeme is
the longest text at its place that stands for a token, a token stands where its lexeme does,
counted over all that is before it, and the end mark stands behind the last character. -/
theorem tokenize_eq_ok_iff_covered (source : String) (tokens : List Located) :
    tokenize source = .ok tokens ↔ Covered [] source.toList tokens := by
  rw [tokenize_eq_ok_iff_at]
  constructor
  · rintro ⟨found, hfound, rfl⟩
    exact hfound.covered rfl
  · intro h
    exact h.lexesAt

end ListSugar
