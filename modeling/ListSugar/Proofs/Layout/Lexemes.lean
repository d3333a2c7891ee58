/-
Which texts stand for which tokens.

`WrittenAs` says it token by token, without the scanner: a run of digits, digits around a
point, characters between quotes, a word, the characters of a symbol.  The first character
tells the kind of token, and a text stands for one token at most.  For each kind there is
also what the scanner makes of such a text.
-/
import ListSugar.Proofs.Layout.Joined

namespace ListSugar

open Scanner

/-! ### Texts of tokens -/

/-- The characters between two quotes, and the characters that they stand for. -/
inductive Unescapes (q : Text.Quote) : List Char → List Char → Prop
  | nil : Unescapes q [] []
  | plain {c : Char} {body value : List Char} : c ≠ q.mark → c ≠ '\n' → c ≠ '\\' →
      Unescapes q body value → Unescapes q (c :: body) (c :: value)
  | escape {letter c : Char} {body value : List Char} : Text.unescape? letter = some c →
      Unescapes q body value → Unescapes q ('\\' :: letter :: body) (c :: value)

/-- The text is a word: it begins like one, and goes on like one. -/
structure WordText (w : List Char) : Prop where
  starts : ∃ c cs, w = c :: cs ∧ isWordStart c = true
  chars : ∀ c ∈ w, isWordChar c = true

/-- The token that a word with a meaning of its own stands for. -/
inductive Reserved : List Char → Token → Prop
  | keyword (word : Keyword) : Reserved word.spelling.toList (.keyword word)
  | yes : Reserved "true".toList (.bool true)
  | no : Reserved "false".toList (.bool false)
  | null : Reserved "null".toList .null

/-- The text stands for the token. -/
def Token.WrittenAs : Token → List Char → Prop
  | .int value, w => w ≠ [] ∧ (∀ c ∈ w, c.isDigit = true) ∧ value = Nat.ofDigitChars 10 w 0
  | .double value, w => ∃ whole fraction, Double.Pointed w whole fraction ∧
      value = Double.nearest (Nat.ofDigitChars 10 (whole ++ fraction) 0) (10 ^ fraction.length)
  | .str value, w => ∃ body, Unescapes .string body value.toList ∧ w = '"' :: (body ++ ['"'])
  | .char value, w => ∃ body, Unescapes .character body [value] ∧
      w = '\x27' :: (body ++ ['\x27'])
  | .ident name, w => WordText w ∧ (∀ t, ¬ Reserved w t) ∧ w = name.toList
  | .bool value, w => Reserved w (.bool value)
  | .null, w => Reserved w .null
  | .keyword word, w => Reserved w (.keyword word)
  | .symbol sign, w => w = sign.spelling
  | .eof, _ => False

/-! ### First characters

The kinds of tokens share no first character.  So two tokens written as one text are of
one kind, and each of the comparisons that follow is among tokens of one kind.
-/

/-- Kinds of tokens that differ in how they begin. -/
inductive TokenStart where
  | string
  | character
  | digit
  | word
  | symbol
deriving DecidableEq

/-- The kind of token that a character begins. -/
def startOf (c : Char) : TokenStart :=
  if c = Text.Quote.string.mark then .string
  else if c = Text.Quote.character.mark then .character
  else if c.isDigit then .digit
  else if isWordStart c then .word
  else .symbol

/-- How a token begins. -/
def Token.start : Token → TokenStart
  | .int _ => .digit
  | .double _ => .digit
  | .str _ => .string
  | .char _ => .character
  | .symbol _ => .symbol
  | _ => .word

theorem Text.Ranges.mem_of_holds {n : Nat} : ∀ {rs : Text.Ranges}, rs.holds n = true →
    n ∈ rs.flatMap fun r => List.range' r.1 (r.2 + 1 - r.1) := by
  intro rs
  induction rs with
  | nil => intro h; cases h
  | cons r rest ih =>
    intro h
    rw [holds] at h
    split at h
    · cases h
    rw [List.flatMap_cons, List.mem_append, List.mem_range'_1]
    rcases Bool.or_eq_true_iff.mp h with h | h
    · have hle : n ≤ r.2 := by simpa using h
      omega
    · exact Or.inr (ih h)

/-- White space begins no word. -/
theorem isWhiteSpace_of_isWordStart {c : Char} (h : isWordStart c = true) :
    Text.isWhiteSpace c = false := by
  have hall : (Text.WhiteSpace.ranges.flatMap fun r => List.range' r.1 (r.2 + 1 - r.1)).all
      (fun n => !isWordStart (Char.ofNat n)) = true := by
    decide +kernel
  cases hwhite : Text.isWhiteSpace c with
  | false => rfl
  | true =>
    have hnot := List.all_eq_true.mp hall _ (Text.Ranges.mem_of_holds hwhite)
    rw [Char.ofNat_toNat, h] at hnot
    cases hnot

theorem isDigit_of_isWordStart {c : Char} (h : isWordStart c = true) : c.isDigit = false := by
  cases hdigit : c.isDigit with
  | false => rfl
  | true =>
    have hbounds := Char.isDigit_iff_toNat.mp hdigit
    have hall : (List.range' 48 10).all (fun n => !isWordStart (Char.ofNat n)) = true := by decide
    have hmem : c.toNat ∈ List.range' 48 10 := by
      rw [List.mem_range'_1]
      exact ⟨hbounds.1, Nat.lt_succ_of_le hbounds.2⟩
    have hnot := List.all_eq_true.mp hall _ hmem
    rw [Char.ofNat_toNat, h] at hnot
    cases hnot

theorem startOf_of_isWordStart {c : Char} (h : isWordStart c = true) : startOf c = .word := by
  obtain ⟨-, hstring, hcharacter⟩ := not_quote_of_wordStart h
  simp [startOf, hstring, hcharacter, isDigit_of_isWordStart h, h]

theorem startOf_of_isDigit {c : Char} (h : c.isDigit = true) : startOf c = .digit := by
  have hne : ∀ q : Text.Quote, c ≠ q.mark := by
    rintro q rfl
    cases q <;> cases h
  simp [startOf, hne, h]

theorem startOf_of_spelling {sign : Symbol} {c : Char} {cs : List Char}
    (h : sign.spelling = c :: cs) : Text.isWhiteSpace c = false ∧ startOf c = .symbol := by
  cases sign <;> obtain ⟨rfl, rfl⟩ := List.cons.inj h <;> exact ⟨by decide, by decide⟩

theorem Reserved.wordText {w : List Char} {t : Token} (h : Reserved w t) : WordText w := by
  have hword : ∀ text : String, IsWord text → WordText text.toList := by
    intro text htext
    obtain ⟨c, cs, hcons, hstart, -⟩ := htext.starts
    exact ⟨⟨c, cs, hcons, hstart⟩, htext.chars⟩
  cases h with
  | keyword word => exact hword _ (isWord_keyword word)
  | yes => exact hword _ (.of_chars rfl (by decide) (by decide))
  | no => exact hword _ (.of_chars rfl (by decide) (by decide))
  | null => exact hword _ (.of_chars rfl (by decide) (by decide))

/-- A token that begins like a word is written as one. -/
theorem Token.WrittenAs.wordText {t : Token} {w : List Char} (h : t.WrittenAs w)
    (hstart : t.start = .word) : WordText w := by
  cases t with
  | ident name => exact h.1
  | bool value => exact Reserved.wordText h
  | null => exact Reserved.wordText h
  | keyword word => exact Reserved.wordText h
  | eof => exact h.elim
  | _ => cases hstart

/-- **The first character of a token tells its kind.** -/
theorem Token.WrittenAs.first {t : Token} {w : List Char} (h : t.WrittenAs w) :
    ∃ c cs, w = c :: cs ∧ Text.isWhiteSpace c = false ∧ startOf c = t.start := by
  have hdigits : ∀ {w : List Char}, w ≠ [] → (∀ c ∈ w, c.isDigit = true) → ∃ c cs,
      w = c :: cs ∧ Text.isWhiteSpace c = false ∧ startOf c = .digit := by
    intro w hne hdigit
    obtain ⟨c, cs, rfl⟩ := List.exists_cons_of_ne_nil hne
    have hc := hdigit c (by simp)
    exact ⟨c, cs, rfl, isWhiteSpace_of_isDigit hc, startOf_of_isDigit hc⟩
  cases t with
  | int value => exact hdigits h.1 h.2.1
  | double value =>
    obtain ⟨whole, fraction, hpointed, -⟩ := h
    obtain ⟨c, cs, rfl, hc⟩ := hdigits hpointed.whole_ne hpointed.whole_digits
    exact ⟨c, _, hpointed.text_eq, hc⟩
  | str value =>
    obtain ⟨body, -, rfl⟩ := h
    exact ⟨_, _, rfl, by decide, rfl⟩
  | char value =>
    obtain ⟨body, -, rfl⟩ := h
    exact ⟨_, _, rfl, by decide, rfl⟩
  | symbol sign =>
    obtain rfl : w = sign.spelling := h
    obtain ⟨c, cs, hcons⟩ : ∃ c cs, sign.spelling = c :: cs := by
      cases sign <;> exact ⟨_, _, rfl⟩
    exact ⟨c, cs, hcons, startOf_of_spelling hcons⟩
  | _ =>
    obtain ⟨c, cs, rfl, hc⟩ := (h.wordText rfl).starts
    exact ⟨c, cs, rfl, isWhiteSpace_of_isWordStart hc, startOf_of_isWordStart hc⟩

/-! ### Words -/

theorem Token.ofWord_of_reserved {w : List Char} {t : Token} (h : Reserved w t) :
    Token.ofWord (String.ofList w) = t := by
  cases h with
  | keyword word =>
    rw [String.ofList_toList]
    cases word <;> decide
  | yes => decide
  | no => decide
  | null => decide

theorem Token.ofWord_of_not_reserved {w : List Char} (h : ∀ t, ¬ Reserved w t) :
    Token.ofWord (String.ofList w) = .ident (String.ofList w) := by
  have hne : ∀ {text : String} {t : Token}, Reserved text.toList t → String.ofList w ≠ text := by
    rintro text t ht rfl
    rw [String.toList_ofList] at ht
    exact h t ht
  have hkeyword : Keyword.all.find? (·.spelling = String.ofList w) = none := by
    rw [List.find?_eq_none]
    intro word _
    simpa using (hne (.keyword word)).symm
  unfold Token.ofWord
  rw [hkeyword]
  simp only
  rw [if_neg (hne .yes), if_neg (hne .no), if_neg (hne .null)]

/-- A word stands for what the table of words says. -/
theorem WordText.writtenAs_ofWord {w : List Char} (h : WordText w) :
    (Token.ofWord (String.ofList w)).WrittenAs w := by
  by_cases hreserved : ∃ t, Reserved w t
  · obtain ⟨t, ht⟩ := hreserved
    rw [Token.ofWord_of_reserved ht]
    cases ht with
    | keyword word => exact .keyword word
    | yes => exact .yes
    | no => exact .no
    | null => exact .null
  · have hno : ∀ t, ¬ Reserved w t := fun t ht => hreserved ⟨t, ht⟩
    rw [Token.ofWord_of_not_reserved hno]
    exact ⟨h, hno, String.toList_ofList.symm⟩

theorem Token.WrittenAs.eq_ofWord {t : Token} {w : List Char} (h : t.WrittenAs w)
    (hstart : t.start = .word) : t = Token.ofWord (String.ofList w) := by
  cases t with
  | ident name =>
    obtain ⟨-, hno, rfl⟩ := h
    rw [Token.ofWord_of_not_reserved hno, String.ofList_toList]
  | bool value => exact (Token.ofWord_of_reserved h).symm
  | null => exact (Token.ofWord_of_reserved h).symm
  | keyword word => exact (Token.ofWord_of_reserved h).symm
  | eof => exact h.elim
  | _ => cases hstart

/-! ### Quoted characters

Between quotes a backslash takes the next character with it.  So the text has to be cut
from the left, and both the reading and its uniqueness are inductions along that cut.
-/

theorem Unescapes.unique {q : Text.Quote} {body value value' : List Char}
    (h : Unescapes q body value) : Unescapes q body value' → value = value' := by
  induction h generalizing value' with
  | nil =>
    intro h'
    cases h'
    rfl
  | plain _ _ hslash _ ih =>
    intro h'
    cases h' with
    | plain _ _ _ hrest => rw [ih hrest]
    | escape _ _ => exact absurd rfl hslash
  | escape hletter _ ih =>
    intro h'
    cases h' with
    | plain _ _ hslash _ => exact absurd rfl hslash
    | escape hletter' hrest => rw [ih hrest, Option.some.inj (hletter.symm.trans hletter')]

theorem stringBody_eq {body value : List Char} (h : Unescapes .string body value)
    (rest : List Char) : stringBody (body ++ '"' :: rest) = ⟨.ok value, body ++ ['"'], rest⟩ := by
  induction h with
  | nil =>
    rw [List.nil_append, stringBody.eq_def]
    rfl
  | plain hmark hline hslash _ ih =>
    rw [List.cons_append, stringBody_plain hmark hline hslash, ih]
    rfl
  | escape hletter _ ih =>
    rw [List.cons_append, List.cons_append, stringBody_escape hletter, ih]
    rfl

theorem stringBody_unescapes {cs : List Char} : ∀ {value : List Char},
    (stringBody cs).value = .ok value → ∃ body, Unescapes .string body value ∧
      (stringBody cs).taken = body ++ ['"'] := by
  fun_induction stringBody cs with
  | case1 => intro value h; cases h
  | case2 rest =>
    intro value h
    cases h
    exact ⟨[], .nil, rfl⟩
  | case3 => intro value h; cases h
  | case4 => intro value h; cases h
  | case5 e rest c hread _ _ ih =>
    intro value h
    obtain ⟨inner, hinner, rfl⟩ := map_value_eq_ok_iff.mp h
    obtain ⟨body, hbody, htaken⟩ := ih hinner
    refine ⟨'\\' :: e :: body, .escape hread hbody, ?_⟩
    show ['\\', e] ++ (stringBody rest).taken = _
    rw [htaken]
    rfl
  | case6 => intro value h; cases h
  | case7 c rest hmark hline hslash ih =>
    intro value h
    obtain ⟨inner, hinner, rfl⟩ := map_value_eq_ok_iff.mp h
    obtain ⟨body, hbody, htaken⟩ := ih hinner
    refine ⟨c :: body, .plain hmark hline hslash hbody, ?_⟩
    show [c] ++ (stringBody rest).taken = _
    rw [htaken]
    rfl

theorem characterBody_eq {body : List Char} {value : Char} (h : Unescapes .character body [value])
    (rest : List Char) :
    characterBody (body ++ '\x27' :: rest) = ⟨.ok value, body ++ ['\x27'], rest⟩ := by
  have hclose : ∀ c, closeCharacter c ('\x27' :: rest) = ⟨.ok c, ['\x27'], rest⟩ := fun _ => rfl
  cases h with
  | plain hmark hline hslash hrest =>
    cases hrest
    rw [List.cons_append, List.nil_append, characterBody, if_neg (by simp [hline, hmark]),
      if_neg hslash, hclose]
    rfl
  | escape hletter hrest =>
    cases hrest
    rw [List.cons_append, List.cons_append, List.nil_append, characterBody, if_neg (by decide),
      if_pos rfl]
    simp [hletter, hclose, Scan.after]

theorem closeCharacter_eq {c value : Char} {cs : List Char}
    (h : (closeCharacter c cs).value = .ok value) :
    value = c ∧ (closeCharacter c cs).taken = ['\x27'] := by
  cases cs with
  | nil => cases h
  | cons d rest =>
    by_cases hmark : d = Text.Quote.character.mark
    · rw [closeCharacter, if_pos hmark] at h ⊢
      cases h
      exact ⟨rfl, by rw [hmark]; rfl⟩
    · rw [closeCharacter, if_neg hmark] at h
      cases h

theorem characterBody_unescapes {cs : List Char} {value : Char}
    (h : (characterBody cs).value = .ok value) : ∃ body, Unescapes .character body [value] ∧
      (characterBody cs).taken = body ++ ['\x27'] := by
  cases cs with
  | nil => cases h
  | cons c rest =>
    simp only [characterBody] at h ⊢
    split at h
    · cases h
    next hends =>
    rw [if_neg hends]
    split at h
    · next hslash =>
      rw [if_pos hslash]
      cases rest with
      | nil => cases h
      | cons e rest =>
        simp only at h ⊢
        cases hread : Text.unescape? e with
        | none =>
          rw [hread] at h
          cases h
        | some v =>
          rw [hread] at h
          obtain ⟨rfl, htaken⟩ := closeCharacter_eq h
          refine ⟨[c, e], ?_, ?_⟩
          · rw [hslash]
            exact .escape hread .nil
          · show [c, e] ++ (closeCharacter value rest).taken = _
            rw [htaken]
    · next hslash =>
      rw [if_neg hslash]
      obtain ⟨rfl, htaken⟩ := closeCharacter_eq h
      obtain ⟨hline, hmark⟩ := not_or.mp hends
      refine ⟨[value], .plain hmark hline hslash .nil, ?_⟩
      show [value] ++ (closeCharacter value rest).taken = _
      rw [htaken]

/-! ### Numbers and symbols -/

/-- Where a text begins with digits around a point, these are its first digits, and the
fraction is behind them. -/
theorem Double.Pointed.digits {w whole fraction : List Char} (h : Pointed w whole fraction)
    (rest : List Char) : (w ++ rest).takeWhile Char.isDigit = whole ∧
      (w ++ rest).dropWhile Char.isDigit = '.' :: (fraction ++ rest) := by
  have hsplit : w ++ rest = whole ++ '.' :: (fraction ++ rest) := by
    rw [h.text_eq]
    simp
  rw [hsplit]
  exact takeWhile_append h.whole_digits (by simp)

theorem Double.Pointed.unique {w whole fraction whole' fraction' : List Char}
    (h : Pointed w whole fraction) (h' : Pointed w whole' fraction') :
    whole = whole' ∧ fraction = fraction' := by
  obtain ⟨htake, hdrop⟩ := h.digits []
  obtain ⟨htake', hdrop'⟩ := h'.digits []
  rw [htake] at htake'
  rw [hdrop] at hdrop'
  exact ⟨htake', by simpa using hdrop'⟩

theorem Double.Pointed.not_digits {w whole fraction : List Char} (h : Pointed w whole fraction) :
    ¬ ∀ c ∈ w, c.isDigit = true := by
  intro hdigits
  refine not_point_mem hdigits ?_
  rw [h.text_eq]
  simp

theorem Symbol.spelling_injective {sign sign' : Symbol} (h : sign.spelling = sign'.spelling) :
    sign = sign' := by
  have hfind : ∀ s : Symbol, Symbol.all.find? (·.spelling.isPrefixOf s.spelling) = some s := by
    intro s
    cases s <;> rfl
  have hfound := hfind sign
  rw [h, hfind sign'] at hfound
  exact (Option.some.inj hfound).symm

/-- **A text stands for one token at most.** -/
theorem Token.WrittenAs.unique {t t' : Token} {w : List Char} (h : t.WrittenAs w)
    (h' : t'.WrittenAs w) : t = t' := by
  have hstart : t.start = t'.start := by
    obtain ⟨c, cs, hcons, -, hc⟩ := h.first
    obtain ⟨c', cs', hcons', -, hc'⟩ := h'.first
    obtain ⟨rfl, -⟩ := List.cons.inj (hcons.symm.trans hcons')
    rw [← hc, hc']
  by_cases hword : t.start = .word
  · rw [h.eq_ofWord hword, h'.eq_ofWord (hstart ▸ hword)]
  cases t with
  | int value =>
    cases t' with
    | int value' => rw [h.2.2, h'.2.2]
    | double value' =>
      obtain ⟨whole, fraction, hpointed, -⟩ := h'
      exact absurd h.2.1 hpointed.not_digits
    | _ => cases hstart
  | double value =>
    obtain ⟨whole, fraction, hpointed, rfl⟩ := h
    cases t' with
    | int value' => exact absurd h'.2.1 hpointed.not_digits
    | double value' =>
      obtain ⟨whole', fraction', hpointed', rfl⟩ := h'
      obtain ⟨rfl, rfl⟩ := hpointed.unique hpointed'
      rfl
    | _ => cases hstart
  | str value =>
    obtain ⟨body, hbody, rfl⟩ := h
    cases t' with
    | str value' =>
      obtain ⟨body', hbody', heq⟩ := h'
      obtain rfl : body = body' := by simpa using heq
      rw [String.toList_inj.mp (hbody.unique hbody')]
    | _ => cases hstart
  | char value =>
    obtain ⟨body, hbody, rfl⟩ := h
    cases t' with
    | char value' =>
      obtain ⟨body', hbody', heq⟩ := h'
      obtain rfl : body = body' := by simpa using heq
      rw [List.singleton_inj.mp (hbody.unique hbody')]
    | _ => cases hstart
  | symbol sign =>
    cases t' with
    | symbol sign' => rw [Symbol.spelling_injective (Eq.trans (Eq.symm h) h')]
    | _ => cases hstart
  | _ => exact absurd rfl hword

end ListSugar
