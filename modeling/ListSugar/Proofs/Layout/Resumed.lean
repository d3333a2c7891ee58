/-
A text can be read on behind every fault.

`tokenize` stops at the first piece that is at fault, and the cursor it gives back stands
behind the characters that piece used up.  Calling it again goes on from there.  Where a
piece stops depends on its rule: a string at the end of its line, an escape behind the
character that it cannot escape, which may itself be a line end.  None of that matters here.
Two facts about pieces carry the whole argument: what a piece used up and what it left are
the text it was given, and it used up at least one character.

The invariant is `Stands`: so many characters lie before the cursor, its place is counted
over just those, and the others are left.  A call keeps it.  A call that fails adds at least
one character to those before the cursor, so no more calls can fail than the text has
characters; a call that does not fail leaves nothing, and from there on every call finds
the end mark only.
-/
import Mathlib.Data.Nat.Find
import ListSugar.Proofs.Layout.Covered

namespace ListSugar

open Scanner

namespace Cursor

/-- The cursor after `n` calls of `tokenize`, failed ones among them. -/
def afterCalls : Nat → Cursor → Cursor
  | 0, c => c
  | n + 1, c => (afterCalls n c).tokenize.2

/-- The cursor stands in the text behind the characters `before`. -/
structure Stands (text before : List Char) (c : Cursor) : Prop where
  text_eq : before ++ c.rest = text
  pos_eq : c.pos = .behind before

/-- What a call comes to that began behind `before` and used up `taken`: a fault, and it
used up something; or tokens and the end mark, and it used up all. -/
inductive CallResult (text before taken : List Char) : Except LexError (List Located) → Prop
  | fails {e : LexError} : taken ≠ [] → CallResult text before taken (.error e)
  | ends (front : List Located) : before ++ taken = text →
      CallResult text before taken (.ok (front ++ [⟨.eof, .behind text⟩]))

/-! ### One call -/

theorem stands_ofText (source : String) : Stands source.toList [] (ofText source) :=
  ⟨rfl, rfl⟩

variable {text before taken : List Char} {c : Cursor}

theorem Stands.length_le (h : Stands text before c) : before.length ≤ text.length := by
  rw [← h.text_eq, List.length_append]
  exact Nat.le_add_right _ _

/-- A cursor with nothing left. -/
theorem Stands.eq_of_all (h : Stands text text c) : c = ⟨[], .behind text⟩ := by
  have hrest : c.rest = [] := List.append_right_eq_self.mp h.text_eq
  have hpos := h.pos_eq
  cases c
  simp only at hrest hpos
  rw [hrest, hpos]

/-- One piece keeps the invariant, whatever it comes to. -/
theorem Stands.behind {first : Char} {others : List Char} (h : Stands text before c)
    (hrest : c.rest = first :: others) :
    Stands text (before ++ (piece first others).taken) (c.behind (piece first others)) where
  text_eq := by
    have hcovers : (piece first others).taken ++ (piece first others).rest = first :: others :=
      piece_covers first others
    rw [List.append_assoc, ← h.text_eq, hrest, ← hcovers]
    rfl
  pos_eq := by rw [← Pos.past_behind, ← h.pos_eq]; rfl

/-- A call that goes on behind a piece adds the characters of the piece. -/
theorem CallResult.after {front : List Char} {result : Except LexError (List Located)}
    (h : CallResult text (before ++ front) taken result) :
    CallResult text before (front ++ taken) result := by
  cases h with
  | fails hne => exact .fails fun hnil => hne (List.append_eq_nil_iff.mp hnil).2
  | ends front' hall => exact .ends front' (by rwa [← List.append_assoc])

theorem CallResult.cons {result : Except LexError (List Located)}
    (h : CallResult text before taken result) (found : Located) :
    CallResult text before taken (result.map (found :: ·)) := by
  cases h with
  | fails hne => exact .fails hne
  | ends front hall => exact .ends (found :: front) hall

/-- With nothing left a call uses up nothing. -/
theorem Stands.tokens_done (h : Stands text before c) (hrest : c.rest = []) (count : Nat) :
    ∃ taken, Stands text (before ++ taken) (tokens count c).2 ∧
      CallResult text before taken (tokens count c).1 := by
  obtain rfl : before = text := by rw [← h.text_eq, hrest, List.append_nil]
  obtain rfl := h.eq_of_all
  rw [tokens_of_nil]
  exact ⟨[], by rwa [List.append_nil], .ends [] (List.append_nil before)⟩

/-- The pieces read in one call, from a count that the length of the text does not pass. -/
theorem Stands.tokens : ∀ {count : Nat} {before : List Char} {c : Cursor},
    Stands text before c → c.rest.length ≤ count →
    ∃ taken, Stands text (before ++ taken) (tokens count c).2 ∧
      CallResult text before taken (tokens count c).1 := by
  intro count
  induction count with
  | zero =>
    exact fun h hlen => h.tokens_done (List.length_eq_zero_iff.mp (Nat.le_zero.mp hlen)) 0
  | succ count ih =>
    intro before c h hlen
    cases hrest : c.rest with
    | nil => exact h.tokens_done hrest _
    | cons first others =>
      have hshorter := length_piece_rest_lt first others
      rw [← hrest] at hshorter
      have hbehind := h.behind hrest
      have hless : (c.behind (piece first others)).rest.length ≤ count :=
        Nat.le_of_lt_succ (Nat.lt_of_lt_of_le hshorter hlen)
      obtain ⟨taken, hstands, hresult⟩ := ih hbehind hless
      unfold Cursor.tokens
      simp only [hrest]
      cases hvalue : (piece first others).value with
      | error fault => exact ⟨_, hbehind, .fails (piece_taken_ne_nil first others)⟩
      | ok found =>
        rw [List.append_assoc] at hstands
        cases found with
        | gap => exact ⟨_, hstands, hresult.after⟩
        | token t => exact ⟨_, hstands, hresult.after.cons _⟩

/-- **A call keeps the invariant; it moves on or it reaches the end.** -/
theorem Stands.tokenize (h : Stands text before c) :
    ∃ taken, Stands text (before ++ taken) c.tokenize.2 ∧
      CallResult text before taken c.tokenize.1 :=
  h.tokens (Nat.le_refl _)

/-- With nothing left there is only the end mark to find. -/
theorem tokenize_of_all (text : List Char) : Cursor.tokenize ⟨[], .behind text⟩
    = (.ok [⟨.eof, .behind text⟩], ⟨[], .behind text⟩) :=
  tokens_of_nil _ _

/-! ### Any number of calls

Every call that fails takes at least one character away from those that are left.
Counting the calls against the characters gives the first call that does not fail, and
behind it nothing is left to fail at.
-/

/-- The cursor stands somewhere in the text after every call, and behind at least one
character for each call if all of them failed. -/
theorem Stands.afterCalls (h : Stands text before c) (n : Nat) :
    ∃ taken, Stands text (before ++ taken) (c.afterCalls n) ∧
      ((∀ m < n, ∃ e, (c.afterCalls m).tokenize.1 = .error e) → n ≤ taken.length) := by
  induction n with
  | zero => exact ⟨[], by rwa [List.append_nil], fun _ => Nat.zero_le _⟩
  | succ n ih =>
    obtain ⟨taken, hstands, hlen⟩ := ih
    obtain ⟨more, hmore, hresult⟩ := hstands.tokenize
    rw [List.append_assoc] at hmore
    refine ⟨taken ++ more, hmore, fun hfail => ?_⟩
    have htaken := hlen fun m hm => hfail m (Nat.lt_succ_of_lt hm)
    obtain ⟨e, he⟩ := hfail n (Nat.lt_succ_self n)
    rw [he] at hresult
    cases hresult with
    | fails hne =>
      have hpos := List.length_pos_iff.mpr hne
      rw [List.length_append]
      omega

/-- Not every call can fail: the first one that does not is no later than the text has
characters. -/
theorem exists_first_end (source : String) : ∃ last ≤ source.length,
    (∀ n < last, ∃ e, ((ofText source).afterCalls n).tokenize.1 = .error e) ∧
    ∃ found, ((ofText source).afterCalls last).tokenize.1 = .ok found := by
  classical
  have hfail : ∀ n, (¬ ∃ found, ((ofText source).afterCalls n).tokenize.1 = .ok found) →
      ∃ e, ((ofText source).afterCalls n).tokenize.1 = .error e := by
    intro n hnone
    cases hcall : ((ofText source).afterCalls n).tokenize.1 with
    | error e => exact ⟨e, rfl⟩
    | ok found => exact absurd ⟨found, hcall⟩ hnone
  have hends : ∃ n ≤ source.length,
      ∃ found, ((ofText source).afterCalls n).tokenize.1 = .ok found := by
    by_contra hnone
    obtain ⟨taken, hstands, hlen⟩ := (stands_ofText source).afterCalls (source.length + 1)
    have hle := hstands.length_le
    have hmany := hlen fun n hn =>
      hfail n fun hfound => hnone ⟨n, Nat.le_of_lt_succ hn, hfound⟩
    rw [List.nil_append, String.length_toList] at hle
    omega
  obtain ⟨bound, hbound, hfound⟩ := hends
  have hfirst : ∃ n, ∃ found, ((ofText source).afterCalls n).tokenize.1 = .ok found :=
    ⟨bound, hfound⟩
  exact ⟨Nat.find hfirst, Nat.le_trans (Nat.find_min' hfirst hfound) hbound,
    fun n hn => hfail n (Nat.find_min hfirst hn), Nat.find_spec hfirst⟩

/-- A call that gives tokens gives the end mark behind them, and the calls behind it give
nothing else. -/
theorem ends_stay (h : Stands text before c) {last : Nat} {found : List Located}
    (hfound : (c.afterCalls last).tokenize.1 = .ok found) :
    (∃ front, found = front ++ [⟨.eof, .behind text⟩]) ∧
      ∀ n > last, (c.afterCalls n).tokenize = (.ok [⟨.eof, .behind text⟩], ⟨[], .behind text⟩) := by
  obtain ⟨taken, hstands, -⟩ := h.afterCalls last
  obtain ⟨more, hnext, hresult⟩ := hstands.tokenize
  rw [hfound] at hresult
  cases hresult with
  | ends front hall =>
    refine ⟨⟨front, rfl⟩, fun n hn => ?_⟩
    rw [hall] at hnext
    have hstay : c.afterCalls n = ⟨[], .behind text⟩ := by
      induction n, hn using Nat.le_induction with
      | base => exact hnext.eq_of_all
      | succ n _ ih => rw [Cursor.afterCalls, ih, tokenize_of_all]
    rw [hstay, tokenize_of_all]

/-- **Calling again always gets to the end.**  Between one call and the next the cursor moves
on over `taken`, its place counted over all the characters before it, and a call that fails
has moved on by at least one character.  So one of the first calls, no later than there are
characters, gives tokens up to the end mark, and every call behind it the end mark alone, at
the same place. -/
theorem calls_reach_end (source : String) :
    (∀ n, ∃ before taken,
      Stands source.toList before ((ofText source).afterCalls n) ∧
      Stands source.toList (before ++ taken) ((ofText source).afterCalls (n + 1)) ∧
      ∀ e, ((ofText source).afterCalls n).tokenize.1 = .error e → taken ≠ []) ∧
    ∃ last ≤ source.length,
      (∀ n < last, ∃ e, ((ofText source).afterCalls n).tokenize.1 = .error e) ∧
      (∃ front, ((ofText source).afterCalls last).tokenize.1
        = .ok (front ++ [⟨.eof, .behind source.toList⟩])) ∧
      ∀ n > last, ((ofText source).afterCalls n).tokenize
        = (.ok [⟨.eof, .behind source.toList⟩], ⟨[], .behind source.toList⟩) := by
  have hstart := stands_ofText source
  constructor
  · intro n
    obtain ⟨before, hstands, -⟩ := hstart.afterCalls n
    obtain ⟨taken, hnext, hresult⟩ := hstands.tokenize
    refine ⟨before, taken, hstands, hnext, fun e he => ?_⟩
    rw [he] at hresult
    cases hresult with
    | fails hne => exact hne
  · obtain ⟨last, hlast, hfail, found, hfound⟩ := exists_first_end source
    obtain ⟨⟨front, rfl⟩, hstay⟩ := ends_stay hstart hfound
    exact ⟨last, hlast, hfail, ⟨front, hfound⟩, hstay⟩

/-- A backslash in front of a line end fails behind the line end; the quote that is left
fails once more, and the third call finds the number. -/
theorem calls_reach_end_lineEnd :
    (∃ before taken,
      Stands ['\'', '\\', '\n', '\'', ' ', '3'] (before ++ taken)
        ⟨['\'', ' ', '3'], ⟨2, 1⟩⟩ ∧ taken ≠ []) ∧
    ((ofText "'\\\n' 3").afterCalls 3).tokenize = (.ok [⟨.eof, ⟨2, 4⟩⟩], ⟨[], ⟨2, 4⟩⟩) := by
  obtain ⟨hsteps, last, hlast, hfail, hends, hstay⟩ := calls_reach_end "'\\\n' 3"
  constructor
  · obtain ⟨before, taken, -, hnext, hmoved⟩ := hsteps 0
    exact ⟨before, taken, hnext, hmoved _ rfl⟩
  · have hthird : last ≤ 2 := by
      by_contra hlater
      obtain ⟨e, he⟩ := hfail 2 (by omega)
      cases he
    exact hstay 3 (by omega)

end Cursor

end ListSugar
