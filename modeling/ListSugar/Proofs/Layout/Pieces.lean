/-
Texts and the tokens they hold.

`LexesAt` says that a text is cut into pieces which are these tokens at their places, gaps
apart; it is what tokenizing a text comes to.  `Lexes` forgets the places.  Two facts tie
it to tokens.  Every token that is read has a spelling of its own (`Scanned`), and a
spelling in front of a text adds its token in front of the others, as long as the text does
not go on with a character that would make the piece longer (`Closes`).
-/
import ListSugar.Proofs.Layout.Numbers
import ListSugar.Token.Cursor

namespace ListSugar

open Scanner

/-- The text is cut into gaps and the given tokens. -/
inductive Lexes : List Char → List Token → Prop
  | nil : Lexes [] []
  | gap {c : Char} {rest : List Char} {ts : List Token} :
      (piece c rest).value = .ok .gap → Lexes (piece c rest).rest ts → Lexes (c :: rest) ts
  | token {c : Char} {rest : List Char} {t : Token} {ts : List Token} :
      (piece c rest).value = .ok (.token t) → Lexes (piece c rest).rest ts →
      Lexes (c :: rest) (t :: ts)

/-! ### Tokenizing a text

The cursor counts pieces down from the length of the text so that it stops.  A piece is
never empty, so the count is never what ends the reading, and the tokens can be described
by the text alone.
-/

theorem length_piece_rest_lt (c : Char) (rest : List Char) :
    (piece c rest).rest.length < (c :: rest).length := by
  have hcovers : (piece c rest).taken ++ (piece c rest).rest = c :: rest := piece_covers c rest
  have hpos := List.length_pos_iff.mpr (piece_taken_ne_nil c rest)
  rw [← hcovers, List.length_append]
  omega

/-- The text, whose first character stands at `p`, is cut into gaps and the given tokens,
each of them at the place of its first character. -/
inductive LexesAt : Pos → List Char → List Located → Prop
  | nil {p : Pos} : LexesAt p [] []
  | gap {p : Pos} {c : Char} {rest : List Char} {found : List Located} :
      (piece c rest).value = .ok .gap →
      LexesAt (p.past (piece c rest).taken) (piece c rest).rest found → LexesAt p (c :: rest) found
  | token {p : Pos} {c : Char} {rest : List Char} {t : Token} {found : List Located} :
      (piece c rest).value = .ok (.token t) →
      LexesAt (p.past (piece c rest).taken) (piece c rest).rest found →
      LexesAt p (c :: rest) (⟨t, p⟩ :: found)

theorem LexesAt.lexes {p : Pos} {cs : List Char} {found : List Located} (h : LexesAt p cs found) :
    Lexes cs (found.map Located.token) := by
  induction h with
  | nil => exact .nil
  | gap hgap _ ih => exact .gap hgap ih
  | token htoken _ ih => exact .token htoken ih

theorem Lexes.exists_at {cs : List Char} {ts : List Token} (h : Lexes cs ts) :
    ∀ p, ∃ found, LexesAt p cs found ∧ found.map Located.token = ts := by
  induction h with
  | nil => exact fun p => ⟨[], .nil, rfl⟩
  | gap hgap _ ih =>
    intro p
    obtain ⟨found, hfound, hmap⟩ := ih _
    exact ⟨found, .gap hgap hfound, hmap⟩
  | token htoken _ ih =>
    intro p
    obtain ⟨found, hfound, rfl⟩ := ih _
    exact ⟨_, .token htoken hfound, rfl⟩

/-- What stands behind a piece and the rest of the text stands behind the text. -/
theorem past_piece (p : Pos) (c : Char) (rest : List Char) :
    (p.past (piece c rest).taken).past (piece c rest).rest = p.past (c :: rest) := by
  rw [← Pos.past_append]
  exact congrArg p.past (piece_covers c rest)

theorem tokens_of_nil (count : Nat) (p : Pos) :
    Cursor.tokens count ⟨[], p⟩ = (.ok [⟨.eof, p⟩], ⟨[], p⟩) := by
  cases count <;> rfl

/-- The tokens of a text that is cut into pieces, from a count that its length does not
pass. -/
theorem LexesAt.tokens_eq {p : Pos} {cs : List Char} {found : List Located}
    (h : LexesAt p cs found) : ∀ {count : Nat}, cs.length ≤ count →
    (Cursor.tokens count ⟨cs, p⟩).1 = .ok (found ++ [⟨.eof, p.past cs⟩]) := by
  induction h with
  | nil =>
    intro count _
    rw [tokens_of_nil]
    rfl
  | @gap p c rest found hgap _ ih =>
    intro count hlen
    have hshorter := length_piece_rest_lt c rest
    cases count with
    | zero => cases hlen
    | succ count =>
      unfold Cursor.tokens
      simp only [hgap, Cursor.behind]
      rw [ih (by omega), past_piece]
  | @token p c rest t found htoken _ ih =>
    intro count hlen
    have hshorter := length_piece_rest_lt c rest
    cases count with
    | zero => cases hlen
    | succ count =>
      unfold Cursor.tokens
      simp only [htoken, Cursor.behind]
      rw [ih (by omega), past_piece]
      rfl

theorem lexesAt_of_tokens : ∀ {count : Nat} {p : Pos} {cs : List Char} {all : List Located},
    cs.length ≤ count → (Cursor.tokens count ⟨cs, p⟩).1 = .ok all →
    ∃ found, LexesAt p cs found := by
  intro count
  induction count with
  | zero =>
    intro p cs all hlen _
    obtain rfl := List.length_eq_zero_iff.mp (Nat.le_zero.mp hlen)
    exact ⟨[], .nil⟩
  | succ count ih =>
    intro p cs all hlen h
    cases cs with
    | nil => exact ⟨[], .nil⟩
    | cons c rest =>
      have hshorter := length_piece_rest_lt c rest
      unfold Cursor.tokens at h
      simp only [Cursor.behind] at h
      cases hvalue : (piece c rest).value with
      | error fault =>
        rw [hvalue] at h
        cases h
      | ok piece =>
        rw [hvalue] at h
        cases piece with
        | gap =>
          obtain ⟨found, hfound⟩ := ih (by omega) h
          exact ⟨found, .gap hvalue hfound⟩
        | token t =>
          cases hinner : (Cursor.tokens count
            ⟨(Scanner.piece c rest).rest, p.past (Scanner.piece c rest).taken⟩).1 with
          | error e =>
            simp only [hinner] at h
            cases h
          | ok inner =>
            obtain ⟨found, hfound⟩ := ih (by omega) hinner
            exact ⟨⟨t, p⟩ :: found, .token hvalue hfound⟩

/-- **Tokenizing a text gives its tokens at their places, and the end mark behind them.** -/
theorem tokenize_eq_ok_iff_at {source : String} {all : List Located} :
    tokenize source = .ok all ↔ ∃ found, LexesAt .start source.toList found ∧
      all = found ++ [⟨.eof, Pos.start.past source.toList⟩] := by
  unfold tokenize Cursor.tokenize Cursor.ofText
  constructor
  · intro h
    obtain ⟨found, hfound⟩ := lexesAt_of_tokens (Nat.le_refl _) h
    rw [hfound.tokens_eq (Nat.le_refl _)] at h
    exact ⟨found, hfound, (Except.ok.inj h).symm⟩
  · rintro ⟨found, hfound, rfl⟩
    exact hfound.tokens_eq (Nat.le_refl _)

/-- The tokens of a text without their places. -/
theorem tokenize_eq_ok_iff {source : String} {kinds : List Token} :
    (∃ found, tokenize source = .ok found ∧ found.map Located.token = kinds) ↔
      ∃ ts, Lexes source.toList ts ∧ kinds = ts ++ [.eof] := by
  constructor
  · rintro ⟨all, hall, rfl⟩
    obtain ⟨found, hfound, rfl⟩ := tokenize_eq_ok_iff_at.mp hall
    exact ⟨_, hfound.lexes, by simp⟩
  · rintro ⟨ts, hts, rfl⟩
    obtain ⟨found, hfound, rfl⟩ := hts.exists_at .start
    exact ⟨_, tokenize_eq_ok_iff_at.mpr ⟨found, hfound, rfl⟩, by simp⟩

/-! ### Tokens that are read

Not every token can come out of a text: a name may not be a keyword, a number may not be
negative.  What the scanner can give is the condition under which a token has a text that
is read back.
-/

/-- A text that is read as one word. -/
structure IsWord (text : String) : Prop where
  starts : ∃ c cs, text.toList = c :: cs ∧ isWordStart c = true ∧
    Text.isWhiteSpace c = false ∧ c.isDigit = false
  chars : ∀ c ∈ text.toList, isWordChar c = true

theorem IsWord.of_chars {text : String} {c : Char} {cs : List Char} (htext : text.toList = c :: cs)
    (hstart : isWordStart c = true ∧ Text.isWhiteSpace c = false ∧ c.isDigit = false)
    (hchars : (c :: cs).all isWordChar = true) : IsWord text where
  starts := ⟨c, cs, htext, hstart⟩
  chars := by
    rw [htext]
    exact List.all_eq_true.mp hchars

/-- A word that is a name. -/
structure IsName (name : String) : Prop extends IsWord name where
  word : Token.ofWord name = .ident name

/-- The test for a name. -/
def nameCheck (name : String) : Bool :=
  match name.toList with
  | [] => false
  | c :: cs => isWordStart c && !Text.isWhiteSpace c && !c.isDigit && (c :: cs).all isWordChar &&
      Token.ofWord name = .ident name

theorem isName_iff_check (name : String) : IsName name ↔ nameCheck name = true := by
  unfold nameCheck
  constructor
  · rintro ⟨⟨⟨c, cs, htext, hstart, hwhite, hdigit⟩, hchars⟩, hword⟩
    rw [htext] at hchars ⊢
    simpa [hstart, hwhite, hdigit, hword] using hchars
  · intro h
    split at h
    · cases h
    · rename_i c cs htext
      simp only [Bool.and_eq_true, Bool.not_eq_true', List.all_eq_true, decide_eq_true_eq] at h
      obtain ⟨⟨⟨⟨hstart, hwhite⟩, hdigit⟩, hchars⟩, hword⟩ := h
      exact ⟨⟨⟨c, cs, htext, hstart, hwhite, hdigit⟩, htext ▸ hchars⟩, hword⟩

instance (name : String) : Decidable (IsName name) :=
  decidable_of_iff _ (isName_iff_check name).symm

/-- A token that the scanner can give. -/
def Token.Scanned : Token → Prop
  | .int value => 0 ≤ value ∧ value < (2 ^ (63 : Nat) : Nat)
  | .double value => value.isNegative = false
  | .ident name => IsName name
  | .eof => False
  | _ => True

theorem Token.ofWord_eq_ident {word name : String} (h : Token.ofWord word = .ident name) :
    name = word := by
  unfold Token.ofWord at h
  split at h
  · cases h
  split at h
  · cases h
  split at h
  · cases h
  split at h
  · cases h
  · cases h
    rfl

theorem Double.isNegative_ofPattern {n : Nat} (h : n < 2 ^ (63 : Nat)) :
    (ofPattern n).isNegative = false := by
  have hlt : n < 2 ^ (64 : Nat) := Nat.lt_trans h (by decide)
  simp only [isNegative, ofPattern, UInt64.toNat_ofNat', Nat.mod_eq_of_lt hlt]
  simpa using h

theorem Double.isNegative_nearest (n d : Nat) : (nearest n d).isNegative = false := by
  have hinf : infinityPattern < 2 ^ (63 : Nat) := by decide
  unfold nearest
  exact isNegative_ofPattern (Nat.lt_of_le_of_lt (Nat.min_le_right _ _) hinf)

theorem number_scanned {cs : List Char} {t : Token} (h : (number cs).value = .ok t) :
    t.Scanned := by
  unfold number at h
  split at h
  · cases h
    exact Double.isNegative_nearest _ _
  · unfold integerToken at h
    simp only at h
    split at h
    · cases h
      refine ⟨Int.natCast_nonneg _, ?_⟩
      omega
    · cases h

theorem word_scanned {c : Char} {rest : List Char} (hspace : Text.isWhiteSpace c = false)
    (hdigit : c.isDigit = false) (hstart : isWordStart c = true) {t : Token}
    (h : (word (c :: rest)).value = .ok t) : t.Scanned := by
  have hchar := isWordChar_of_isWordStart hstart
  have hof : Token.ofWord (String.ofList ((c :: rest).takeWhile isWordChar)) = t := by
    unfold word at h
    cases h
    rfl
  cases t with
  | ident name =>
    obtain rfl := Token.ofWord_eq_ident hof
    refine ⟨⟨⟨c, rest.takeWhile isWordChar, ?_, hstart, hspace, hdigit⟩, ?_⟩, hof⟩
    · simp [hchar]
    · intro d hd
      rw [String.toList_ofList] at hd
      exact List.all_eq_true.mp List.all_takeWhile d hd
  | int value =>
    unfold Token.ofWord at hof
    repeat' split at hof
    all_goals cases hof
  | double value =>
    unfold Token.ofWord at hof
    repeat' split at hof
    all_goals cases hof
  | eof =>
    unfold Token.ofWord at hof
    repeat' split at hof
    all_goals cases hof
  | _ => exact trivial

theorem map_value_eq_ok_iff {α β : Type} {s : Scan α} {f : α → β} {b : β} :
    (s.map f).value = .ok b ↔ ∃ a, s.value = .ok a ∧ f a = b :=
  map_eq_ok_iff

/-- A comment gives no token. -/
theorem blockComment_value_ne (cs : List Char) (t : Token) :
    (blockComment cs).value ≠ .ok (.token t) := by
  induction cs with
  | nil => intro h; cases h
  | cons c rest ih =>
    intro h
    rw [blockComment] at h
    split at h
    · cases h
    · exact ih h

/-- Every token that a piece of text gives is one of these. -/
theorem piece_scanned {c : Char} {rest : List Char} {t : Token}
    (h : (piece c rest).value = .ok (.token t)) : t.Scanned := by
  unfold piece at h
  split at h
  · cases h
  next hspace =>
  split at h
  · cases h
  split at h
  · exact absurd h (blockComment_value_ne _ t)
  split at h
  · obtain ⟨cs, -, ht⟩ := map_value_eq_ok_iff.mp h
    cases ht
    exact trivial
  split at h
  · obtain ⟨value, -, ht⟩ := map_value_eq_ok_iff.mp h
    cases ht
    exact trivial
  split at h
  · obtain ⟨found, hnumber, ht⟩ := map_value_eq_ok_iff.mp h
    cases ht
    exact number_scanned hnumber
  next hdigit =>
  split at h
  · next hstart =>
    obtain ⟨found, hword, ht⟩ := map_value_eq_ok_iff.mp h
    cases ht
    exact word_scanned (by simpa using hspace) (by simpa using hdigit) hstart hword
  · obtain ⟨found, hsymbol, ht⟩ := map_value_eq_ok_iff.mp h
    cases ht
    unfold symbol at hsymbol
    split at hsymbol
    · cases hsymbol
      exact trivial
    · cases hsymbol

/-- **Every token of a text is one that the scanner can give.** -/
theorem Lexes.scanned {cs : List Char} {ts : List Token} (h : Lexes cs ts) :
    ∀ t ∈ ts, t.Scanned := by
  induction h with
  | nil => simp
  | gap hgap hrest ih => exact ih
  | token htoken hrest ih =>
    intro t ht
    rcases List.mem_cons.mp ht with rfl | ht
    · exact piece_scanned htoken
    · exact ih t ht

/-! ### What may follow a token

Words and numbers take every further character that they can, a slash may begin a comment,
and an equals sign may make a longer symbol.  The layout puts one of a few characters
behind each token, and none of them does any of this.
-/

/-- The text does not go on with a character that would make the piece before it longer. -/
structure Closes (rest : List Char) : Prop where
  word : ∀ c ∈ rest.head?, isWordChar c = false
  equal : rest.head? ≠ some '='
  slash : rest.head? ≠ some '/'
  star : rest.head? ≠ some '*'
  fraction : startsFraction rest = false

/-- A text that begins with a character that ends every piece. -/
theorem Closes.cons {c : Char} {rest : List Char} (hword : isWordChar c = false)
    (hequal : c ≠ '=') (hslash : c ≠ '/') (hstar : c ≠ '*') (hpoint : c ≠ '.') :
    Closes (c :: rest) where
  word := by simpa using hword
  equal := by simpa using hequal
  slash := by simpa using hslash
  star := by simpa using hstar
  fraction := by cases rest <;> simp [startsFraction, hpoint]

/-- Characters that end every piece before them. -/
def separators : List Char := [' ', '\n', ',', ';', '(', ')', '[', ']', '<', '>']

theorem Closes.separator {c : Char} {rest : List Char} (hc : c ∈ separators) :
    Closes (c :: rest) := by
  have hall : separators.all fun d =>
      decide (isWordChar d = false ∧ d ≠ '=' ∧ d ≠ '/' ∧ d ≠ '*' ∧ d ≠ '.') := by
    decide
  obtain ⟨hword, hequal, hslash, hstar, hpoint⟩ := of_decide_eq_true (List.all_eq_true.mp hall c hc)
  exact .cons hword hequal hslash hstar hpoint

theorem Closes.nil : Closes [] := ⟨by simp, by simp, by simp, by simp, rfl⟩

theorem isWordChar_of_isDigit {c : Char} (h : c.isDigit = true) : isWordChar c = true := by
  have hascii : c.toNat < 0x80 := by
    have := (Char.isDigit_iff_toNat.mp h).2
    have hnine : '9'.toNat = 57 := rfl
    omega
  simp [isWordChar, Text.isNumeric_of_ascii hascii, h]

theorem Closes.digit {rest : List Char} (h : Closes rest) :
    ∀ c ∈ rest.head?, c.isDigit = false := by
  intro c hc
  cases hd : c.isDigit with
  | false => rfl
  | true =>
    have := h.word c hc
    rw [isWordChar_of_isDigit hd] at this
    cases this

/-- The symbol is not the beginning of a longer piece. -/
def Symbol.Ends : Symbol → List Char → Prop
  | .assign, rest => rest.head? ≠ some '='
  | .bang, rest => rest.head? ≠ some '='
  | .lt, rest => rest.head? ≠ some '='
  | .gt, rest => rest.head? ≠ some '='
  | .slash, rest => rest.head? ≠ some '/' ∧ rest.head? ≠ some '*'
  | _, _ => True

theorem Closes.ends {rest : List Char} (h : Closes rest) (sign : Symbol) : sign.Ends rest := by
  cases sign with
  | assign => exact h.equal
  | bang => exact h.equal
  | lt => exact h.equal
  | gt => exact h.equal
  | slash => exact ⟨h.slash, h.star⟩
  | _ => exact trivial

/-! ### One token more in front of a text

`Starts` says what the first piece of a text is and what it leaves.  It is shown for each
kind of token, for its spelling in front of a rest that closes it, and then serves in both
directions: to put a token in front of others, and to take the first one off.
-/

theorem takeWhile_append {p : Char → Bool} {cs rest : List Char} (hcs : ∀ c ∈ cs, p c = true)
    (hrest : ∀ c ∈ rest.head?, p c = false) :
    (cs ++ rest).takeWhile p = cs ∧ (cs ++ rest).dropWhile p = rest := by
  induction cs with
  | nil =>
    cases rest with
    | nil => exact ⟨rfl, rfl⟩
    | cons c rest =>
      have hc := hrest c rfl
      simp [hc]
  | cons c cs ih =>
    have hc := hcs c (by simp)
    obtain ⟨htake, hdrop⟩ := ih fun d hd => hcs d (by simp [hd])
    simp [hc, htake, hdrop]

/-- White space in front of a text changes nothing. -/
theorem lexes_white_iff {c : Char} (hc : Text.isWhiteSpace c = true) {rest : List Char}
    {ts : List Token} : Lexes (c :: rest) ts ↔ Lexes rest ts := by
  have hpiece : piece c rest = ⟨.ok .gap, [c], rest⟩ := by
    unfold piece
    rw [if_pos hc]
  constructor
  · intro h
    cases h with
    | gap hgap hrest => rwa [hpiece] at hrest
    | token htoken hrest =>
      rw [hpiece] at htoken
      cases htoken
  · intro h
    refine .gap ?_ ?_
    · rw [hpiece]
    · rw [hpiece]
      exact h

theorem Lexes.white {c : Char} (hc : Text.isWhiteSpace c = true) {rest : List Char}
    {ts : List Token} (h : Lexes rest ts) : Lexes (c :: rest) ts :=
  (lexes_white_iff hc).mpr h

theorem Lexes.space {rest : List Char} {ts : List Token} (h : Lexes rest ts) :
    Lexes (' ' :: rest) ts := h.white (by decide)

/-- The text begins with a piece that is the token, and `rest` stands behind it. -/
def Starts (text : List Char) (t : Token) (rest : List Char) : Prop :=
  ∃ c cs, text = c :: cs ∧ (piece c cs).value = .ok (.token t) ∧ (piece c cs).rest = rest

/-- A first token is followed by the tokens of what stands behind it, and by nothing else. -/
theorem Starts.lexes_iff {text rest : List Char} {t : Token} (h : Starts text t rest)
    {all : List Token} : Lexes text all ↔ ∃ ts, all = t :: ts ∧ Lexes rest ts := by
  obtain ⟨c, cs, rfl, hvalue, rfl⟩ := h
  constructor
  · intro hall
    cases hall with
    | gap hgap hrest =>
      rw [hvalue] at hgap
      cases hgap
    | token htoken hrest =>
      rw [hvalue] at htoken
      cases htoken
      exact ⟨_, rfl, hrest⟩
  · rintro ⟨ts, rfl, hts⟩
    exact .token hvalue hts

theorem Starts.lexes {text rest : List Char} {t : Token} {ts : List Token}
    (h : Starts text t rest) (hts : Lexes rest ts) : Lexes text (t :: ts) :=
  h.lexes_iff.mpr ⟨ts, rfl, hts⟩

theorem not_quote_of_wordStart {c : Char} (h : isWordStart c = true) :
    c ≠ '/' ∧ c ≠ Text.Quote.string.mark ∧ c ≠ Text.Quote.character.mark := by
  refine ⟨?_, ?_, ?_⟩ <;>
  · intro hc
    rw [hc] at h
    exact absurd h (by decide)

theorem Starts.word {w : String} (hw : IsWord w) {rest : List Char}
    (hrest : ∀ c ∈ rest.head?, isWordChar c = false) :
    Starts (w.toList ++ rest) (Token.ofWord w) rest := by
  obtain ⟨c, cs, hcons, hstart, hspace, hdigit⟩ := hw.starts
  obtain ⟨hslash, hstring, hcharacter⟩ := not_quote_of_wordStart hstart
  have hpiece : piece c (cs ++ rest) = (Scanner.word (c :: (cs ++ rest))).map .token := by
    unfold piece
    rw [if_neg (by simp [hspace]), if_neg (fun hc => hslash hc.1), if_neg (fun hc => hslash hc.1),
      if_neg hstring, if_neg hcharacter, if_neg (by simp [hdigit]), if_pos hstart]
  obtain ⟨htake, hdrop⟩ := takeWhile_append hw.chars hrest
  rw [hcons, List.cons_append] at htake hdrop ⊢
  refine ⟨c, cs ++ rest, rfl, ?_, ?_⟩
  · rw [hpiece]
    simp only [Scan.map, Scanner.word, htake, ← hcons, String.ofList_toList]
    rfl
  · rw [hpiece]
    simp only [Scan.map, Scanner.word, hdrop]

theorem Starts.ident {name : String} (hname : IsName name) {rest : List Char}
    (hrest : ∀ c ∈ rest.head?, isWordChar c = false) :
    Starts (name.toList ++ rest) (.ident name) rest := by
  rw [← hname.word]
  exact .word hname.toIsWord hrest

theorem Lexes.ident {name : String} (hname : IsName name) {rest : List Char} {ts : List Token}
    (hrest : Closes rest) (h : Lexes rest ts) :
    Lexes (name.toList ++ rest) (.ident name :: ts) :=
  (Starts.ident hname hrest.word).lexes h

theorem isWord_keyword (k : Keyword) : IsWord k.spelling := by
  cases k <;> exact .of_chars rfl (by decide) (by decide)

theorem Starts.keyword (k : Keyword) {rest : List Char} (hrest : Closes rest) :
    Starts (k.spelling.toList ++ rest) (.keyword k) rest := by
  have hof : Token.ofWord k.spelling = .keyword k := by
    cases k <;> decide
  rw [← hof]
  exact .word (isWord_keyword k) hrest.word

theorem Lexes.keyword (k : Keyword) {rest : List Char} {ts : List Token} (hrest : Closes rest)
    (h : Lexes rest ts) : Lexes (k.spelling.toList ++ rest) (.keyword k :: ts) :=
  (Starts.keyword k hrest).lexes h

theorem isWhiteSpace_of_isDigit {c : Char} (h : c.isDigit = true) :
    Text.isWhiteSpace c = false := by
  have hbounds := Char.isDigit_iff_toNat.mp h
  have hzero : '0'.toNat = 48 := rfl
  have hnine : '9'.toNat = 57 := rfl
  simp [Text.isWhiteSpace, Text.WhiteSpace.ranges, Text.Ranges.holds]
  omega

/-- A text that begins with a digit begins with a number. -/
theorem piece_of_isDigit {c : Char} {rest : List Char} (h : c.isDigit = true) :
    piece c rest = (number (c :: rest)).map .token := by
  have hne : ∀ d : Char, d.isDigit = false → c ≠ d := by
    intro d hd hc
    rw [hc, hd] at h
    cases h
  unfold piece
  rw [if_neg (by simp [isWhiteSpace_of_isDigit h]), if_neg (fun hc => hne '/' rfl hc.1),
    if_neg (fun hc => hne '/' rfl hc.1), if_neg (hne _ rfl), if_neg (hne _ rfl), if_pos h]

/-- A text that begins with a number, of which `rest` is what the number leaves. -/
theorem Starts.digits {text rest : List Char} {t : Token} (hne : text ≠ [])
    (hfirst : ∀ c ∈ text.head?, c.isDigit = true)
    (hvalue : (number (text ++ rest)).value = .ok t)
    (hleft : (number (text ++ rest)).rest = rest) : Starts (text ++ rest) t rest := by
  obtain ⟨c, cs, rfl⟩ := List.exists_cons_of_ne_nil hne
  have hc := hfirst c rfl
  rw [List.cons_append] at hvalue hleft ⊢
  refine ⟨c, cs ++ rest, rfl, ?_, ?_⟩
  · rw [piece_of_isDigit hc]
    simp only [Scan.map, hvalue]
    rfl
  · rw [piece_of_isDigit hc]
    simp only [Scan.map, hleft]

theorem Starts.int {value : Int} (hvalue : 0 ≤ value ∧ value < (2 ^ (63 : Nat) : Nat))
    {rest : List Char} (hrest : Closes rest) :
    Starts ((toString value).toList ++ rest) (.int value) rest := by
  obtain ⟨n, rfl⟩ := Int.eq_ofNat_of_zero_le hvalue.1
  have htext : (toString (n : Int)).toList = Nat.toDigits 10 n := Nat.toList_repr
  have hdigits : ∀ c ∈ Nat.toDigits 10 n, c.isDigit = true := fun c hc =>
    Nat.isDigit_of_mem_toDigits (by decide) (by decide) hc
  have hlt : Decimal.valueOf (Nat.toDigits 10 n) < 2 ^ (63 : Nat) := by
    rw [Decimal.valueOf_toDigits]
    omega
  obtain ⟨htake, hdrop⟩ := takeWhile_append hdigits hrest.digit
  have hnumber : number (Nat.toDigits 10 n ++ rest) = ⟨.ok (.int n), Nat.toDigits 10 n, rest⟩ := by
    unfold number
    rw [htake, hdrop, if_neg (by simp [hrest.fraction]), integerToken, if_pos hlt,
      Decimal.valueOf_toDigits]
  rw [htext]
  refine .digits Nat.toDigits_ne_nil ?_ (by rw [hnumber]) (by rw [hnumber])
  exact fun c hc => hdigits c (List.mem_of_mem_head? hc)

/-- Digits around a point are read as the double nearest to the number that they write. -/
theorem Starts.pointed {text whole fraction : List Char}
    (hpointed : Double.Pointed text whole fraction) {rest : List Char} (hrest : Closes rest) :
    Starts (text ++ rest) (.double (Decimal.ofDigits whole fraction).toDouble) rest := by
  have hpoint : ∀ c ∈ ('.' :: (fraction ++ rest)).head?, c.isDigit = false := by simp
  obtain ⟨htake, hdrop⟩ := takeWhile_append hpointed.whole_digits hpoint
  obtain ⟨htake', hdrop'⟩ := takeWhile_append hpointed.fraction_digits hrest.digit
  have hstarts : startsFraction ('.' :: (fraction ++ rest)) = true := by
    cases hcons : fraction with
    | nil => exact absurd hcons hpointed.fraction_ne
    | cons d ds =>
      have hd := hpointed.fraction_digits d (by rw [hcons]; simp)
      simp [startsFraction, hd]
  have hnumber : number (whole ++ '.' :: (fraction ++ rest))
      = ⟨.ok (.double (Decimal.ofDigits whole fraction).toDouble), whole ++ '.' :: fraction,
        rest⟩ := by
    unfold number
    rw [htake, hdrop, if_pos hstarts, List.drop_one, List.tail_cons, fractional, htake', hdrop']
  have hsplit : whole ++ '.' :: fraction ++ rest = whole ++ '.' :: (fraction ++ rest) := by simp
  rw [hpointed.text_eq]
  refine .digits (by simp) ?_ (by rw [hsplit, hnumber]) (by rw [hsplit, hnumber])
  intro c hc
  refine hpointed.whole_digits c ?_
  obtain ⟨d, ds, rfl⟩ := List.exists_cons_of_ne_nil hpointed.whole_ne
  obtain rfl : d = c := by simpa using hc
  simp

theorem Starts.double {value : Double} (hfin : value.isFinite = true)
    (hsign : value.isNegative = false) {rest : List Char} (hrest : Closes rest) :
    Starts (value.sourceText.toList ++ rest) (.double value) rest := by
  obtain ⟨whole, fraction, hpointed, hread⟩ := Double.sourceText_pointed hfin hsign
  have hstarts := Starts.pointed hpointed hrest
  rwa [hread] at hstarts

/-! ### Quoted literals

The printer escapes every character that the scanner would not take as it is.  So what
stands between the quotes is read character by character, and only the closing quote ends
it.
-/

/-- What a character is written as inside quotes. -/
theorem sourceChar_cases (q : Text.Quote) (c : Char) :
    (∃ letter, Text.sourceChar q c = ['\\', letter] ∧ Text.unescape? letter = some c) ∨
      (Text.sourceChar q c = [c] ∧ c ≠ q.mark ∧ c ≠ '\n' ∧ c ≠ '\\') := by
  unfold Text.sourceChar
  cases hletter : Text.letterEscape? c with
  | some letter => exact Or.inl ⟨letter, rfl, Text.unescape?_of_letterEscape? hletter⟩
  | none =>
    by_cases hmark : c = q.mark
    · refine Or.inl ⟨c, by simp [hmark], ?_⟩
      rw [hmark]
      exact Text.unescape?_mark q
    · refine Or.inr ⟨by simp [hmark], hmark, ?_, ?_⟩
      · rintro rfl
        cases hletter
      · rintro rfl
        cases hletter

theorem stringBody_quoted (cs rest : List Char) :
    (stringBody (cs.flatMap (Text.sourceChar .string) ++ '"' :: rest)).value = .ok cs ∧
      (stringBody (cs.flatMap (Text.sourceChar .string) ++ '"' :: rest)).rest = rest := by
  induction cs with
  | nil =>
    rw [List.flatMap_nil, List.nil_append]
    unfold stringBody
    rw [if_pos (show '"' = Text.Quote.string.mark from rfl)]
    exact ⟨rfl, rfl⟩
  | cons c cs ih =>
    rcases sourceChar_cases .string c with ⟨letter, htext, hread⟩ | ⟨htext, hmark, hline, hslash⟩
    · have hbody : (c :: cs).flatMap (Text.sourceChar .string) ++ '"' :: rest
          = '\\' :: letter :: (cs.flatMap (Text.sourceChar .string) ++ '"' :: rest) := by
        simp [htext]
      rw [hbody]
      unfold stringBody
      rw [if_neg (by decide), if_neg (by decide), if_pos rfl]
      simp [hread, Scan.after, Scan.map, ih.1, ih.2, Except.map]
    · have hbody : (c :: cs).flatMap (Text.sourceChar .string) ++ '"' :: rest
          = c :: (cs.flatMap (Text.sourceChar .string) ++ '"' :: rest) := by
        simp [htext]
      rw [hbody]
      unfold stringBody
      rw [if_neg hmark, if_neg hline, if_neg hslash]
      simp [Scan.after, Scan.map, ih.1, ih.2, Except.map]

theorem Starts.str (value : String) (rest : List Char) :
    Starts ((Text.sourceQuoted .string value.toList).toList ++ rest) (.str value) rest := by
  obtain ⟨hvalue, hrest⟩ := stringBody_quoted value.toList rest
  have htext : (Text.sourceQuoted .string value.toList).toList ++ rest
      = '"' :: (value.toList.flatMap (Text.sourceChar .string) ++ '"' :: rest) := by
    simp [Text.sourceQuoted, Text.Quote.mark]
  have hpiece : ∀ body, piece '"' body
      = ((stringBody body).map (Piece.token ∘ Token.str ∘ String.ofList)).after ['"'] := by
    intro body
    unfold piece
    rw [if_neg (by decide), if_neg (by simp), if_neg (by simp), if_pos (by decide)]
  rw [htext]
  refine ⟨_, _, rfl, ?_, ?_⟩
  · rw [hpiece]
    simp only [Scan.after, Scan.map, hvalue]
    simp [Except.map]
  · rw [hpiece]
    simp only [Scan.after, Scan.map, hrest]

theorem characterBody_quoted (c : Char) (rest : List Char) :
    (characterBody (Text.sourceChar .character c ++ '\x27' :: rest)).value = .ok c ∧
      (characterBody (Text.sourceChar .character c ++ '\x27' :: rest)).rest = rest := by
  have hclose : closeCharacter c ('\x27' :: rest) = ⟨.ok c, ['\x27'], rest⟩ := rfl
  rcases sourceChar_cases .character c with ⟨letter, htext, hread⟩ | ⟨htext, hmark, hline, hslash⟩
  · rw [htext, List.cons_append, List.cons_append, List.nil_append, characterBody,
      if_neg (by decide), if_pos rfl]
    simp [hread, Scan.after, hclose]
  · rw [htext, List.cons_append, List.nil_append, characterBody,
      if_neg (by simp [hline, hmark]), if_neg hslash]
    simp [Scan.after, hclose]

theorem Starts.char (value : Char) (rest : List Char) :
    Starts ((Text.sourceQuoted .character [value]).toList ++ rest) (.char value) rest := by
  obtain ⟨hvalue, hrest⟩ := characterBody_quoted value rest
  have htext : (Text.sourceQuoted .character [value]).toList ++ rest
      = '\x27' :: (Text.sourceChar .character value ++ '\x27' :: rest) := by
    simp [Text.sourceQuoted, Text.Quote.mark]
  have hpiece : ∀ body, piece '\x27' body
      = ((characterBody body).map (Piece.token ∘ Token.char)).after ['\x27'] := by
    intro body
    unfold piece
    rw [if_neg (by decide), if_neg (by simp), if_neg (by simp), if_neg (by decide),
      if_pos (by decide)]
  rw [htext]
  refine ⟨_, _, rfl, ?_, ?_⟩
  · rw [hpiece]
    simp only [Scan.after, Scan.map, hvalue]
    rfl
  · rw [hpiece]
    simp only [Scan.after, Scan.map, hrest]

/-! ### Symbols

The scanner takes the first symbol of its table that fits, and those of two characters
come first.  So a symbol of one character is taken only if the next character does not
make a longer one, which `Ends` rules out.
-/

/-- A symbol that ends where it is written is the first one that matches. -/
theorem find?_spelling (sign : Symbol) {rest : List Char} (hends : sign.Ends rest) :
    Symbol.all.find? (·.spelling.isPrefixOf (sign.spelling ++ rest)) = some sign := by
  have hequal : rest.head? ≠ some '=' → ['='].isPrefixOf rest = false := by
    intro h
    cases rest with
    | nil => rfl
    | cons d rest =>
      have hd : '=' ≠ d := fun heq => h (by rw [← heq]; rfl)
      simp [List.isPrefixOf, hd]
  -- Only these four are the beginning of a longer symbol.
  cases sign with
  | assign => simp [Symbol.all, Symbol.spelling, hequal hends]
  | bang => simp [Symbol.all, Symbol.spelling, hequal hends]
  | lt => simp [Symbol.all, Symbol.spelling, hequal hends]
  | gt => simp [Symbol.all, Symbol.spelling, hequal hends]
  | _ => rfl

theorem symbol_spelling {sign : Symbol} {c : Char} {cs rest : List Char}
    (hcons : sign.spelling = c :: cs) (hends : sign.Ends rest) :
    (symbol c (cs ++ rest)).value = .ok (.symbol sign) ∧ (symbol c (cs ++ rest)).rest = rest := by
  have hfind := find?_spelling sign hends
  rw [hcons, List.cons_append] at hfind
  unfold symbol
  rw [hfind]
  refine ⟨rfl, ?_⟩
  show (c :: (cs ++ rest)).drop sign.spelling.length = rest
  rw [← List.cons_append, ← hcons, List.drop_left]

theorem Starts.symbol (sign : Symbol) {rest : List Char} (hends : sign.Ends rest) :
    Starts (sign.spelling ++ rest) (.symbol sign) rest := by
  obtain ⟨c, cs, hcons⟩ : ∃ c cs, sign.spelling = c :: cs := by
    cases sign <;> exact ⟨_, _, rfl⟩
  obtain ⟨hvalue, hrest⟩ := symbol_spelling hcons hends
  have hpiece : piece c (cs ++ rest) = (Scanner.symbol c (cs ++ rest)).map .token := by
    unfold piece
    cases sign with
    | slash =>
      obtain ⟨rfl, rfl⟩ : c = '/' ∧ cs = [] := by simpa [Symbol.spelling, eq_comm] using hcons
      rw [if_neg (by decide), if_neg (fun hc => hends.1 hc.2), if_neg (fun hc => hends.2 hc.2),
        if_neg (by decide), if_neg (by decide), if_neg (by decide), if_neg (by decide)]
    | _ =>
      obtain ⟨rfl, rfl⟩ := List.cons.inj hcons.symm
      rw [if_neg (by decide), if_neg (fun hc => absurd hc.1 (by decide)),
        if_neg (fun hc => absurd hc.1 (by decide)), if_neg (by decide), if_neg (by decide),
        if_neg (by decide), if_neg (by decide)]
  rw [hcons, List.cons_append]
  refine ⟨c, cs ++ rest, rfl, ?_, ?_⟩
  · rw [hpiece]
    simp only [Scan.map, hvalue]
    rfl
  · rw [hpiece]
    simp only [Scan.map, hrest]

theorem Lexes.symbol (sign : Symbol) {rest : List Char} {ts : List Token}
    (hends : sign.Ends rest) (h : Lexes rest ts) :
    Lexes (sign.spelling ++ rest) (.symbol sign :: ts) :=
  (Starts.symbol sign hends).lexes h

end ListSugar
