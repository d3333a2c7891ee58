/-
Reading stops at the end mark.

A list of tokens may have no end mark, one at its end, or several of them with anything in
between.  Whatever is asked of a stream of all these tokens, and whatever failed before, a
reading ends, it never steps over the first end mark, and what it gives is what the tokens
up to that mark give.  So the library may cut the tokens off there, and the bounds that its
parsers take from the number of unread tokens stand for loops that end by themselves.
-/
import Mathlib.Data.List.TakeWhile
import ListSugar.Proofs.Grammar.Bounds
import ListSugar.Proofs.Grammar.Calls

namespace ListSugar

/-! ### Tokens up to the first end mark

A list is cut in front of its first end mark, if it has one.  In front of the mark is the
stream that the library reads, and behind it the tail that no reading may see.
-/

/-- Where the first end mark of a list of tokens stands, or would stand. -/
def endIndex (tokens : List Located) : Nat := tokens.findIdx fun t => t.token = .eof

/-- A list of tokens has no end mark, or a first one. -/
theorem end_cases (tokens : List Located) : (∀ t ∈ tokens, t.token ≠ .eof) ∨
    ∃ before place after, tokens = before ++ ⟨.eof, place⟩ :: after ∧
      ∀ t ∈ before, t.token ≠ .eof := by
  induction tokens with
  | nil => exact Or.inl (by simp)
  | cons first rest ih =>
    by_cases hfirst : first.token = .eof
    · obtain ⟨token, place⟩ := first
      obtain rfl : token = .eof := hfirst
      exact Or.inr ⟨[], place, rest, rfl, by simp⟩
    · rcases ih with hnone | ⟨before, place, after, rfl, hbefore⟩
      · exact Or.inl (by simpa [hfirst] using hnone)
      · exact Or.inr ⟨first :: before, place, after, rfl, by simpa [hfirst] using hbefore⟩

section

variable {before : List Located} (h : ∀ t ∈ before, t.token ≠ .eof)

include h

theorem endIndex_of_forall_ne : endIndex before = before.length := by
  rw [endIndex, List.findIdx_eq_length]
  simpa using h

theorem endIndex_append (place : Pos) (after : List Located) :
    endIndex (before ++ ⟨.eof, place⟩ :: after) = before.length := by
  have hbefore := endIndex_of_forall_ne h
  unfold endIndex at hbefore ⊢
  rw [List.findIdx_append, hbefore]
  simp [List.findIdx_cons]

end

namespace TokenStream

/-- The stream of all tokens of a list, those behind an end mark included.  At its end it
shows an end mark in the place of the last token. -/
def ofAllTokens (tokens : List Located) : TokenStream :=
  ⟨tokens, (tokens.getLast?.map Located.pos).getD .start, 0⟩

theorem ofTokens_of_forall_ne {tokens : List Located} (h : ∀ t ∈ tokens, t.token ≠ .eof) :
    ofTokens tokens = ofAllTokens tokens := by
  have hfind : tokens.find? (fun t => t.token = .eof) = none := by simpa using h
  have htake : tokens.takeWhile (fun t => t.token ≠ .eof) = tokens :=
    List.takeWhile_eq_self_iff.mpr (by simpa using h)
  rw [ofTokens, stopOf, hfind, htake]
  rfl

/-- All tokens of a list are those before the first end mark with a tail behind them. -/
theorem exists_withTail (tokens : List Located) : ∃ b : Tail,
    ofAllTokens tokens = (ofTokens tokens).withTail b ∧ (ofTokens tokens).stop = b.place ∧
      (ofTokens tokens).unread.length = endIndex tokens := by
  rcases end_cases tokens with hnone | ⟨before, place, after, rfl, hbefore⟩
  · refine ⟨⟨(ofAllTokens tokens).stop, [], (ofAllTokens tokens).stop, Or.inl ⟨rfl, rfl⟩⟩, ?_⟩
    rw [ofTokens_of_forall_ne hnone, endIndex_of_forall_ne hnone]
    simp [withTail, ofAllTokens]
  · let stop := (ofAllTokens (before ++ ⟨.eof, place⟩ :: after)).stop
    refine ⟨⟨place, ⟨.eof, place⟩ :: after, stop, Or.inr ⟨after, rfl⟩⟩, ?_⟩
    rw [ofTokens_append hbefore, endIndex_append hbefore]
    exact ⟨rfl, rfl, rfl⟩

/-- What stands behind the first end mark is not part of the stream. -/
theorem ofTokens_take (tokens : List Located) :
    ofTokens (tokens.take (endIndex tokens + 1)) = ofTokens tokens := by
  rcases end_cases tokens with hnone | ⟨before, place, after, rfl, hbefore⟩
  · rw [endIndex_of_forall_ne hnone, List.take_of_length_le (Nat.le_succ _)]
  · rw [endIndex_append hbefore, List.take_length_add_append, List.take_succ_cons, List.take_zero,
      ofTokens_append hbefore, ofTokens_append hbefore]

/-- With a tail behind it, what is left of a stream is what its position says is left. -/
theorem Moves.unread_withTail {b : Tail} {s t : TokenStream} (h : s.Moves t) :
    (t.withTail b).unread =
      (s.withTail b).unread.drop (s.kinds.length - t.kinds.length) := by
  obtain ⟨i, k, rfl⟩ := h
  have hposition : s.unread.drop i = s.unread.drop (s.kinds.length - (s.kinds.length - i)) := by
    rw [← length_unread]
    rcases Nat.le_total i s.unread.length with hle | hle
    · rw [Nat.sub_sub_self hle]
    · rw [Nat.sub_eq_zero_of_le hle, Nat.sub_zero, List.drop_length, List.drop_of_length_le hle]
  have hlength : (⟨s.unread.drop i, s.stop, s.nextId + k⟩ : TokenStream).kinds.length =
      s.kinds.length - i := by
    simp only [kinds, List.length_map, List.length_drop]
  show s.unread.drop i ++ b.tokens = (s.unread ++ b.tokens).drop _
  rw [hlength, List.drop_append_of_le_length (by simp), ← hposition]

end TokenStream

namespace Call

open ListSugar.Parser TokenStream Unbounded

/-- The reader without bounds that answers a call. -/
def unbounded : Call → Reader Reading
  | .expr => Reading.expr <$> Unbounded.expr
  | .stmt => Reading.stmt <$> Unbounded.stmt
  | .program => Reading.program <$> Unbounded.program

/-- **A call needs no bounds and sees nothing behind the end mark.** -/
theorem follows_run (c : Call) {b : Tail} {s : TokenStream} : Follows b c.unbounded c.run s := by
  cases c with
  | expr => exact follows_expr.map Reading.expr
  | stmt => exact follows_stmt.map Reading.stmt
  | program => exact follows_program.map Reading.program

/-- What a parser answers, without the stream that it leaves. -/
def answer : EStateM.Result ParseError TokenStream Reading → Except ParseError Reading
  | .ok x _ => .ok x
  | .error e _ => .error e

/-- What several calls answer, one after the other, each from where the last one stopped. -/
def answers : List Call → TokenStream → List (Except ParseError Reading)
  | [], _ => []
  | c :: rest, s => answer (c.run s) :: answers rest (reached (c.run s))

/-- A call, the streams before and after it, and what it answered. -/
structure Turn where
  call : Call
  before : TokenStream
  answer : Except ParseError Reading
  after : TokenStream

/-- Several calls without bounds, one after the other, each from where the last one stopped:
every one of them ends. -/
inductive Turns : List Call → TokenStream → List Turn → Prop where
  | nil {s : TokenStream} : Turns [] s []
  | cons {c : Call} {rest : List Call} {s : TokenStream} {ts : List Turn}
      {x : EStateM.Result ParseError TokenStream Reading} (hends : Ends c.unbounded s x)
      (hrest : Turns rest (reached x) ts) :
      Turns (c :: rest) s (⟨c, s, answer x, reached x⟩ :: ts)

/-- Calls can go in one way only. -/
theorem Turns.unique {calls : List Call} {s : TokenStream} {ts us : List Turn}
    (hts : Turns calls s ts) (hus : Turns calls s us) : ts = us := by
  induction hts generalizing us with
  | nil =>
    cases hus
    rfl
  | cons hends hrest ih =>
    cases hus with
    | cons hends' hrest' =>
      cases hends.unique hends'
      rw [ih hrest']

/-- A statement that was read has used up a token. -/
theorem length_lt_of_stmt {s : TokenStream} {x : Reading} (h : answer (run .stmt s) = .ok x) :
    (reached (run .stmt s)).kinds.length < s.kinds.length := by
  cases hrun : run .stmt s with
  | error e t =>
    rw [hrun] at h
    cases h
  | ok y t =>
    obtain ⟨st, hst, -⟩ := map_eq_ok_iff.mp hrun
    rw [Parser.stmt, remaining_bind] at hst
    exact stmtNested_length_lt (by simp) hst

/-- What is kept at a turn of calls on the stream `s` with a tail behind it: both streams are
what is left of `s`, with the tail where it was. -/
structure Turn.Stays (b : Tail) (s : TokenStream) (turn : Turn) (t u : TokenStream) : Prop where
  before : turn.before = t.withTail b
  after : turn.after = u.withTail b
  reaches : s.Moves t
  moves : t.Moves u
  uses : turn.call = .stmt → ∀ x, turn.answer = .ok x → u.kinds.length < t.kinds.length

/-- **Calls without bounds end, stay in front of the tail, and answer as those with bounds
do.** -/
theorem turns_withTail {b : Tail} (calls : List Call) : ∀ s : TokenStream, s.stop = b.place →
    ∃ ts, Turns calls (s.withTail b) ts ∧ ts.map Turn.answer = answers calls s ∧
      ∀ turn ∈ ts, ∃ t u, turn.Stays b s t u := by
  induction calls with
  | nil => exact fun s _ => ⟨[], .nil, rfl, by simp⟩
  | cons c rest ih =>
    intro s hstop
    obtain ⟨hmoves, hends⟩ := c.follows_run (b := b) hstop
    obtain ⟨ts, hturns, hanswers, hstays⟩ := ih _ (hmoves.stop_eq.trans hstop)
    have hanswer : answer (withTail b (c.run s)) = answer (c.run s) := by cases c.run s <;> rfl
    have hreached : reached (withTail b (c.run s)) = (reached (c.run s)).withTail b := by
      cases c.run s <;> rfl
    refine ⟨_, .cons hends (hreached ▸ hturns), ?_, ?_⟩
    · rw [List.map_cons, hanswers, hanswer, answers]
    · intro turn hturn
      rcases List.mem_cons.mp hturn with rfl | hturn
      · refine ⟨s, reached (c.run s), rfl, hreached, .refl s, hmoves, ?_⟩
        rintro rfl x hx
        rw [hanswer] at hx
        exact length_lt_of_stmt hx
      · obtain ⟨t, u, hstay⟩ := hstays turn hturn
        exact ⟨t, u, { hstay with reaches := hmoves.trans hstay.reaches }⟩

/-- **Reading always ends, never steps over the first end mark, and ignores what follows
it.**  Take any tokens and any calls on the stream of all of them, going on after failures.
Without any bound on its loops every call ends, and in one way only.  No call moves back, none
goes beyond the first end mark, and a statement that is read moves forward.  The answers are
those of the library's parsers on the tokens before that mark, and so the same as on the
tokens that are cut off behind it. -/
theorem calls_stay_before_end (tokens : List Located) (calls : List Call) :
    ∃ ts, Turns calls (ofAllTokens tokens) ts ∧
      (∀ us, Turns calls (ofAllTokens tokens) us → us = ts) ∧
      (∀ turn ∈ ts, ∃ p q, turn.before.unread = tokens.drop p ∧
        turn.after.unread = tokens.drop q ∧ p ≤ q ∧ q ≤ endIndex tokens ∧
        (turn.call = .stmt → ∀ x, turn.answer = .ok x → p < q)) ∧
      ts.map Turn.answer = answers calls (ofTokens tokens) ∧
      ∃ cut, Turns calls (ofAllTokens (tokens.take (endIndex tokens + 1))) cut ∧
        cut.map Turn.answer = ts.map Turn.answer := by
  obtain ⟨b, hall, hstop, hlength⟩ := exists_withTail tokens
  obtain ⟨b', hall', hstop', -⟩ := exists_withTail (tokens.take (endIndex tokens + 1))
  obtain ⟨ts, hturns, hanswers, hstays⟩ := turns_withTail calls _ hstop
  obtain ⟨cut, hcut, hanswers', -⟩ := turns_withTail calls _ hstop'
  rw [← hall] at hturns
  rw [← hall'] at hcut
  rw [ofTokens_take] at hanswers'
  refine ⟨ts, hturns, fun us hus => hus.unique hturns, fun turn hturn => ?_, hanswers, cut, hcut,
    hanswers'.trans hanswers.symm⟩
  obtain ⟨t, u, hstay⟩ := hstays turn hturn
  have hmoves := hstay.reaches.trans hstay.moves
  have hle := hstay.moves.length_le
  have hreach := hstay.reaches.length_le
  rw [length_unread] at hlength
  -- A position is told by how many tokens before the end mark are left.
  have htokens : tokens = ((ofTokens tokens).withTail b).unread := congrArg unread hall
  refine ⟨(ofTokens tokens).kinds.length - t.kinds.length,
    (ofTokens tokens).kinds.length - u.kinds.length, ?_, ?_, by omega, by omega, ?_⟩
  · rw [hstay.before, hstay.reaches.unread_withTail, ← htokens]
  · rw [hstay.after, hmoves.unread_withTail, ← htokens]
  · intro hcall x hx
    have hlt := hstay.uses hcall x hx
    omega

end Call

end ListSugar
