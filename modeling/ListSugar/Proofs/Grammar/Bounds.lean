/-
The bounds of the parsers are never felt, and nothing behind the end mark is seen.

Both facts are one comparison.  On one side stands a parser of the library, with its
bounds, on the tokens before an end mark; on the other the grammar without bounds, on the
same tokens with anything at all behind the mark.  `Follows` says that the second does what
the first does, and in particular that it ends.  It passes through every way in which
parsers are put together, as long as a token is only ever used up after it was seen not to
be the end mark.

What is left is that the bounds suffice, and that is the reason why the grammar ends: a
loop goes round again, and a nested construct begins, only after a token was used up, so
the number of unread tokens bounds both.
-/
import ListSugar.Proofs.Grammar.Programs
import ListSugar.Proofs.Grammar.Steady
import ListSugar.Proofs.Grammar.Unbounded

namespace ListSugar

/-! ### Streams with something behind their end

Behind its tokens a stream shows its end mark again and again.  With a tail it shows the
same mark once, and then whatever the tail holds.  So the two look alike until somebody
steps over the mark.
-/

/-- What stands behind the tokens of a stream that ends at `place`: nothing, or an end mark
and whatever follows it. -/
structure Tail where
  place : Pos
  tokens : List Located
  stop : Pos
  begins : (tokens = [] ∧ stop = place) ∨ ∃ others, tokens = ⟨.eof, place⟩ :: others

namespace TokenStream

/-- The stream with a tail behind its tokens. -/
def withTail (b : Tail) (s : TokenStream) : TokenStream := ⟨s.unread ++ b.tokens, b.stop, s.nextId⟩

variable {b : Tail} {s : TokenStream}

theorem unread_ne_nil (h : s.current.token ≠ .eof) : s.unread ≠ [] := by
  intro hnil
  apply h
  rw [current, hnil]
  rfl

theorem current_withTail (h : s.stop = b.place) : (s.withTail b).current = s.current := by
  unfold current withTail
  cases hunread : s.unread with
  | cons first rest => rfl
  | nil =>
    obtain ⟨htokens, hstop⟩ | ⟨others, htokens⟩ := b.begins
    · simp [htokens, hstop, h]
    · simp [htokens, h]

theorem advance_withTail (hne : s.unread ≠ []) : (s.withTail b).advance = s.advance.withTail b := by
  cases hunread : s.unread with
  | nil => exact absurd hunread hne
  | cons first rest => simp [advance, withTail, hunread]

theorem following_withTail (h : s.stop = b.place) (hne : s.unread ≠ []) :
    (s.withTail b).following = s.following := by
  rw [Parser.following_eq_current_advance, Parser.following_eq_current_advance,
    advance_withTail hne, current_withTail (s := s.advance) h]

theorem length_advance_le : s.advance.kinds.length ≤ s.kinds.length := by
  rw [kinds_advance, List.length_drop]
  omega

/-- Using up a token that is not the end mark leaves fewer of them. -/
theorem length_advance_lt (h : s.current.token ≠ .eof) :
    s.advance.kinds.length < s.kinds.length := by
  have hpos : s.kinds.length ≠ 0 := by
    rw [← length_unread]
    exact fun hzero => unread_ne_nil h (List.length_eq_zero_iff.mp hzero)
  rw [kinds_advance, List.length_drop]
  omega

/-- Where no token is left, there is only the end mark to see. -/
theorem current_of_length_le_zero (h : s.kinds.length ≤ 0) : s.current.token = .eof := by
  rw [current_token, List.length_eq_zero_iff.mp (Nat.le_zero.mp h)]
  rfl

theorem Moves.length_le {t : TokenStream} (h : s.Moves t) : t.kinds.length ≤ s.kinds.length := by
  obtain ⟨i, k, rfl⟩ := h
  simp only [kinds, List.length_map, List.length_drop]
  omega

theorem Moves.stop_eq {t : TokenStream} (h : s.Moves t) : t.stop = s.stop := by
  obtain ⟨i, k, rfl⟩ := h
  rfl

end TokenStream

namespace Unbounded

open ListSugar.Parser TokenStream

variable {α β : Type} {b : Tail} {s : TokenStream}

/-! ### Doing the same without bounds -/

/-- The outcome of a parser with a tail behind what is left of the stream. -/
def withTail (b : Tail) :
    EStateM.Result ParseError TokenStream α → EStateM.Result ParseError TokenStream α
  | .ok a t => .ok a (t.withTail b)
  | .error e t => .error e (t.withTail b)

/-- Started with the tail `b` behind the stream `s`, the reader `u` ends with what the parser
`p` gives on `s` alone, and leaves the tail where it is. -/
def Follows (b : Tail) (u : Reader α) (p : Parser α) (s : TokenStream) : Prop :=
  s.stop = b.place → s.Moves (reached (p s)) ∧ Ends u (s.withTail b) (withTail b (p s))

theorem Follows.congr {u : Reader α} {p q : Parser α} (hpq : p s = q s) (h : Follows b u q s) :
    Follows b u p s := by
  unfold Follows
  rw [hpq]
  exact h

/-! ### Putting readers together -/

theorem Follows.pure (a : α) : Follows b (pure a) (pure a) s := fun _ => ⟨.refl s, .pure⟩

/-- One reading after the other; the second starts where the first stopped. -/
theorem Follows.bind {u : Reader α} {p : Parser α} {k : α → Reader β} {q : α → Parser β}
    (hu : Follows b u p s)
    (hk : ∀ a t, p s = .ok a t → t.kinds.length ≤ s.kinds.length → Follows b (k a) (q a) t) :
    Follows b (u >>= k) (p >>= q) s := by
  intro hstop
  obtain ⟨hmoves, hends⟩ := hu hstop
  cases hp : p s with
  | ok a t =>
    rw [hp] at hmoves hends
    obtain ⟨hmoves', hends'⟩ := hk a t hp hmoves.length_le (hmoves.stop_eq.trans hstop)
    rw [bind_of_ok hp]
    exact ⟨hmoves.trans hmoves', hends.bind hends'⟩
  | error e t =>
    rw [hp] at hmoves hends
    have hrun : (p >>= q) s = .error e t := by
      show EStateM.bind p q s = _
      unfold EStateM.bind
      rw [hp]
    rw [hrun]
    exact ⟨hmoves, hends.bind_error⟩

theorem Follows.map {u : Reader α} {p : Parser α} (f : α → β) (h : Follows b u p s) :
    Follows b (f <$> u) (f <$> p) s := by
  show Follows b (u >>= fun a => Pure.pure (f a)) (f <$> p) s
  rw [map_eq_pure_bind]
  exact h.bind fun a _ _ _ => .pure (f a)

theorem Follows.ite {c : Prop} [Decidable c] {u u' : Reader α} {p p' : Parser α}
    (htrue : c → Follows b u p s) (hfalse : ¬ c → Follows b u' p' s) :
    Follows b (if c then u else u') (if c then p else p') s := by
  by_cases hc : c
  · rw [if_pos hc, if_pos hc]
    exact htrue hc
  · rw [if_neg hc, if_neg hc]
    exact hfalse hc

/-- A construct that is called is read as its body says. -/
theorem Follows.call (c : Construct) {p : Parser c.Tree} (h : Follows b c.body p s) :
    Follows b (call c) p s := by
  intro hstop
  obtain ⟨hmoves, hends⟩ := h hstop
  refine ⟨hmoves, ?_⟩
  cases hp : p s with
  | ok a t =>
    rw [hp] at hends
    exact .call_ok hends .pure
  | error e t =>
    rw [hp] at hends
    exact .call_error hends

theorem Follows.attempt {u : Reader (Option α)} {p : Parser (Option α)} (h : Follows b u p s) :
    Follows b (attempt u) (Parser.attempt p) s := by
  intro hstop
  obtain ⟨hmoves, hends⟩ := h hstop
  unfold Parser.attempt
  cases hp : p s with
  | ok found t =>
    rw [hp] at hmoves hends
    cases found with
    | some a => exact ⟨hmoves, .attempt_ok hends .pure⟩
    | none => exact ⟨.refl s, .attempt_none hends .pure⟩
  | error e t =>
    rw [hp] at hends
    exact ⟨.refl s, .attempt_error hends .pure⟩

/-! ### Single steps

Where only the unbounded side takes a step, the bound on the other side is used up and the
step sees the end mark. -/

theorem follows_step_pure {a : α} {k : α → Reader β} {q : Parser β} (h : Follows b (k a) q s) :
    Follows b (step (Pure.pure a) >>= k) q s :=
  fun hstop => (h hstop).imp_right (.step_ok rfl)

/-- Steps one after the other are a step of their own. -/
theorem follows_step_bind {γ : Type} {p : Parser α} {f : α → Parser β} {k : β → Reader γ}
    {q : Parser γ} (h : Follows b (step p >>= fun a => step (f a) >>= k) q s) :
    Follows b (step (p >>= f) >>= k) q s :=
  fun hstop => (h hstop).imp_right .step_bind

theorem follows_look {k : TokenStream → Reader β} {p : Parser β}
    (h : s.stop = b.place → Follows b (k (s.withTail b)) p s) : Follows b (step get >>= k) p s :=
  fun hstop => (h hstop hstop).imp_right (.step_ok rfl)

theorem follows_peek {k : Token → Reader β} {p : Parser β}
    (h : Follows b (k s.current.token) p s) : Follows b (step token >>= k) p s := by
  intro hstop
  rw [← current_withTail hstop] at h
  exact (h hstop).imp_right (.step_ok rfl)

theorem follows_token {k : Token → Reader β} {q : Token → Parser β}
    (h : ∀ found, s.current.token = found → Follows b (k found) (q found) s) :
    Follows b (step token >>= k) (token >>= q) s :=
  follows_peek (.congr (token_bind q s) (h _ rfl))

theorem follows_place {k : Pos → Reader β} {q : Pos → Parser β}
    (h : ∀ pos, Follows b (k pos) (q pos) s) :
    Follows b (step place >>= k) (place >>= q) s := by
  refine .congr (place_bind q s) fun hstop => ?_
  have h := h s.current.pos
  rw [← current_withTail hstop] at h ⊢
  exact (h hstop).imp_right (.step_ok rfl)

/-- A token is used up only if it is not the end mark, so the tail stays behind. -/
theorem follows_skip {k : Unit → Reader β} {q : Unit → Parser β} (hne : s.current.token ≠ .eof)
    (h : Follows b (k ()) (q ()) s.advance) : Follows b (step skip >>= k) (skip >>= q) s := by
  intro hstop
  obtain ⟨hmoves, hends⟩ := h hstop
  rw [skip_bind]
  rw [← advance_withTail (unread_ne_nil hne)] at hends
  exact ⟨Moves.trans ⟨1, 0, rfl⟩ hmoves, .step_ok rfl hends⟩

theorem follows_mark {k : Mark → Reader β} {q : Mark → Parser β} (pos : Pos)
    (h : ∀ m, Follows b (k m) (q m) s.numbered) :
    Follows b (step (markAt pos) >>= k) (markAt pos >>= q) s := by
  intro hstop
  obtain ⟨hmoves, hends⟩ := h ⟨s.nextId, pos⟩ hstop
  rw [markAt_bind]
  exact ⟨Moves.trans ⟨0, 1, rfl⟩ hmoves, .step_ok rfl hends⟩

theorem follows_fail (fault : ParseFault) :
    Follows b (step (fail fault : Parser α)) (fail fault) s := by
  intro hstop
  have hfail : (fail fault : Parser α) (s.withTail b) =
      .error ⟨fault, s.current.pos⟩ (s.withTail b) := by
    rw [← current_withTail hstop]
    rfl
  exact ⟨.refl s, .step_error hfail⟩

/-- Nothing comes after a failure. -/
theorem follows_fail_bind (fault : ParseFault) {k : α → Reader β} {q : α → Parser β} :
    Follows b (step (fail fault) >>= k) (fail fault >>= q) s :=
  (follows_fail fault).bind fun _ _ hfail _ => absurd hfail fail_ne_ok

theorem follows_accept {sign : Symbol} {k : Bool → Reader β} {q : Bool → Parser β}
    (htrue : s.current.token = .symbol sign → Follows b (k true) (q true) s.advance)
    (hfalse : s.current.token ≠ .symbol sign → Follows b (k false) (q false) s) :
    Follows b (step (accept sign) >>= k) (accept sign >>= q) s := by
  rw [accept, bind_assoc]
  refine follows_step_bind (follows_token fun found hfound => ?_)
  by_cases hsign : found = .symbol sign
  · rw [if_pos hsign, bind_assoc]
    rw [hsign] at hfound
    refine follows_step_bind (follows_skip (by rw [hfound]; simp) ?_)
    exact follows_step_pure (htrue hfound)
  · rw [if_neg hsign]
    exact follows_step_pure (hfalse (hfound ▸ hsign))

/-- A choice by whether a sign stands here. -/
theorem follows_ifAccept {sign : Symbol} {u u' : Reader β} {p p' : Parser β}
    (htrue : s.current.token = .symbol sign → Follows b u p s.advance)
    (hfalse : s.current.token ≠ .symbol sign → Follows b u' p' s) :
    Follows b (step (accept sign) >>= fun found => if found then u else u')
      (accept sign >>= fun found => if found then p else p') s :=
  follows_accept htrue hfalse

theorem follows_notAccept {sign : Symbol} {k : Bool → Reader β} {p : Parser β}
    (hne : s.current.token ≠ .symbol sign) (h : Follows b (k false) p s) :
    Follows b (step (accept sign) >>= k) p s := by
  have hrun : (accept sign >>= fun _ => p) s = p s := by
    rw [accept_bind, if_neg hne]
  exact .congr hrun.symm (follows_accept (fun hsign => absurd hsign hne) fun _ => h)

theorem follows_expect {wanted : Token} {k : Unit → Reader β} {q : Unit → Parser β}
    (hne : wanted ≠ .eof) (h : s.current.token = wanted → Follows b (k ()) (q ()) s.advance) :
    Follows b (step (expect wanted) >>= k) (expect wanted >>= q) s := by
  rw [expect, bind_assoc]
  refine follows_step_bind (follows_token fun found hfound => ?_)
  by_cases hwanted : found = wanted
  · rw [if_pos hwanted]
    rw [hwanted] at hfound
    exact follows_skip (by rwa [hfound]) (h hfound)
  · rw [if_neg hwanted]
    exact follows_fail_bind _

theorem follows_name {role : NameRole} {k : String → Reader β} {q : String → Parser β}
    (h : ∀ text, s.current.token = .ident text → Follows b (k text) (q text) s.advance) :
    Follows b (step (name role) >>= k) (name role >>= q) s := by
  rw [name, bind_assoc]
  refine follows_step_bind (follows_token fun found hfound => ?_)
  cases found with
  | ident text =>
    simp only [bind_assoc]
    refine follows_step_bind (follows_skip (by rw [hfound]; simp) ?_)
    exact follows_step_pure (h text hfound)
  | _ => exact follows_fail_bind _

/-- Items with commas between them: another one is read only after a comma was used up. -/
theorem follows_commaSeparated {item : Reader α} {list : Reader (List α)} {inner : Parser α}
    {m : Nat} (hlist : ∀ {p : Parser (List α)} {s : TokenStream}, Follows b (do
      let first ← item
      if ← step (accept .comma) then
        return first :: (← list)
      else return [first]) p s → Follows b list p s)
    (h : ∀ s, s.kinds.length < m → Follows b item inner s) : ∀ (n : Nat) (s : TokenStream),
    s.kinds.length ≤ n → s.kinds.length < m → Follows b list (commaSeparated inner n) s := by
  intro n
  induction n with
  | zero =>
    intro s hn hm
    refine hlist ((h s hm).bind fun first t _ hle => follows_notAccept ?_ (.pure [first]))
    rw [current_of_length_le_zero (Nat.le_trans hle hn)]
    simp
  | succ n ih =>
    intro s hn hm
    refine hlist ((h s hm).bind fun first t _ hle =>
      follows_ifAccept (fun hcomma => ?_) fun _ => .pure [first])
    have hlt := length_advance_lt (s := t) (by rw [hcomma]; simp)
    exact (ih t.advance (by omega) (by omega)).bind fun rest _ _ _ => .pure (first :: rest)

/-! ### Types -/

theorem follows_arraySuffixes : ∀ (n : Nat) (ty : TypeExpr) (s : TokenStream),
    s.kinds.length ≤ n → Follows b (arraySuffixes ty) (Parser.arraySuffixes n ty) s := by
  intro n
  induction n with
  | zero =>
    intro ty s hn
    refine .call (.arraySuffixes ty) ?_
    rw [Construct.body, arraySuffixesBody]
    refine follows_peek (follows_look fun _ => ?_)
    rw [current_of_length_le_zero hn, if_neg (by simp)]
    exact .pure ty
  | succ n ih =>
    intro ty s hn
    refine .call (.arraySuffixes ty) ?_
    rw [Construct.body, arraySuffixesBody]
    refine follows_token fun found hfound => follows_look fun hstop => .congr (get_bind _ s) ?_
    by_cases hopen : found = .symbol .lBracket
    · have hne : s.current.token ≠ .eof := by
        rw [hfound, hopen]
        simp
      have hlt := length_advance_lt hne
      rw [following_withTail hstop (unread_ne_nil hne)]
      refine .ite (fun hpair => ?_) fun _ => .pure ty
      have hclose : s.advance.current.token = .symbol .rBracket := by
        rw [← following_eq_current_advance]
        exact hpair.2
      have hlt' := length_advance_lt (s := s.advance) (by rw [hclose]; simp)
      refine follows_skip hne (follows_skip (by rw [hclose]; simp) (ih _ _ ?_))
      omega
    · rw [if_neg fun hpair => hopen hpair.1, if_neg fun hpair => hopen hpair.1]
      exact .pure ty

/-- **The bound on nested types is never felt.** -/
theorem follows_typeNested : ∀ (n : Nat) (s : TokenStream),
    s.kinds.length ≤ n → Follows b type (typeNested n) s := by
  intro n
  induction n with
  | zero =>
    intro s hn
    -- Where no token is left, a name is missed with the bound and without it.
    have hend := current_of_length_le_zero hn
    have hrun : typeNested 0 s = (Parser.name .type >>= fun _ => fail .openBlock) s := by
      rw [typeNested, token_bind, Parser.name, bind_assoc, token_bind, hend]
      rfl
    refine .call .type ?_
    rw [Construct.body, typeBody]
    refine .congr hrun (follows_name fun text htext => ?_)
    rw [hend] at htext
    cases htext
  | succ n ih =>
    intro s hn
    refine .call .type ?_
    rw [Construct.body, typeBody]
    refine follows_name fun head hhead => ?_
    have hlt := length_advance_lt (s := s) (by rw [hhead]; simp)
    refine Follows.bind ?_ fun args t _ hle => follows_arraySuffixes n _ t (by omega)
    rw [typeArguments]
    refine follows_ifAccept (fun hopen => ?_) fun _ => .pure []
    have hlt' := length_advance_le (s := s.advance)
    have hitems := follows_commaSeparated (m := n + 1) (.call .typeItems)
      (fun s hs => ih s (by omega)) n s.advance.advance (by omega) (by omega)
    exact hitems.bind fun args t _ _ => follows_expect (by simp) fun _ => .pure args

theorem follows_type : Follows b type Parser.type s :=
  .congr (remaining_bind _ s) (follows_typeNested _ s (by simp))

theorem follows_declarator : Follows b declarator Parser.declarator s := by
  refine .attempt (follows_type.bind fun ty t _ _ => follows_token fun found hfound => ?_)
  cases found with
  | ident declared =>
    have hne : t.current.token ≠ .eof := by
      rw [hfound]
      simp
    refine follows_look fun hstop => .congr (get_bind _ t) ?_
    rw [following_withTail hstop (unread_ne_nil hne)]
    refine .ite (fun _ => follows_skip hne (.pure _)) fun _ => .pure none
  | _ => exact .pure none

/-! ### Expressions

Two bounds are at work: that of the loops, and that of the nesting, which `inner` was
given.  A loop needs as many rounds as there are unread tokens.  What is nested begins
behind a token that was used up, so for it there is one token less.
-/

section

variable {inner : Parser Expr} {m : Nat}
  (h : ∀ s : TokenStream, s.kinds.length < m → Follows b expr inner s)

include h

theorem follows_arguments (close : Symbol) {n : Nat} (hn : s.kinds.length ≤ n)
    (hm : s.kinds.length < m) : Follows b (arguments close) (Parser.arguments inner n close) s := by
  rw [arguments]
  refine follows_ifAccept (fun _ => .pure []) fun _ => ?_
  exact (follows_commaSeparated (.call .items) h n s hn hm).bind fun args _ _ _ =>
    follows_expect (by simp) fun _ => .pure args

theorem follows_suffixes : ∀ (n : Nat) (head : Expr) (s : TokenStream), s.kinds.length ≤ n →
    s.kinds.length ≤ m → Follows b (suffixes head) (Parser.suffixes inner n head) s := by
  intro n
  induction n with
  | zero =>
    intro head s hn _
    refine .call (.suffixes head) ?_
    rw [Construct.body, suffixesBody]
    refine follows_peek ?_
    rw [current_of_length_le_zero hn]
    exact .pure head
  | succ n ih =>
    intro head s hn hm
    refine .call (.suffixes head) ?_
    rw [Construct.body, suffixesBody]
    refine follows_token fun found hfound => ?_
    cases found with
    | symbol sign =>
      have hne : s.current.token ≠ .eof := by
        rw [hfound]
        simp
      have hlt := length_advance_lt hne
      -- Each suffix begins with the token just seen, so fewer are left for the next one.
      have hnext : ∀ next (t : TokenStream), t.kinds.length < s.kinds.length →
          Follows b (suffixes next) (Parser.suffixes inner n next) t.numbered := by
        intro next t ht
        refine ih next t.numbered ?_ ?_ <;> rw [kinds_numbered] <;> omega
      cases sign with
      | dot =>
        have hle := length_advance_le (s := s.advance)
        exact follows_skip hne (follows_name fun text _ => follows_mark _ fun mark =>
          hnext _ _ (by omega))
      | lParen =>
        exact follows_skip hne ((follows_arguments h .rParen (by omega) (by omega)).bind
          fun args t _ hle => follows_mark _ fun mark => hnext _ _ (by omega))
      | lBracket =>
        exact follows_skip hne ((follows_arguments h .rBracket (by omega) (by omega)).bind
          fun args t _ hle => follows_mark _ fun mark => hnext _ _ (by omega))
      | _ => exact .pure head
    | _ => exact .pure head

theorem follows_elements : ∀ (n : Nat) (s : TokenStream), s.kinds.length ≤ n →
    s.kinds.length < m → Follows b elements (Parser.elements inner n) s := by
  intro n
  induction n with
  | zero =>
    intro s hn _
    refine .call .elements ?_
    rw [Construct.body, elementsBody]
    refine follows_peek ?_
    rw [current_of_length_le_zero hn]
    exact .pure []
  | succ n ih =>
    intro s hn hm
    refine .call .elements ?_
    rw [Construct.body, elementsBody]
    refine follows_token fun found hfound => ?_
    have hfirst : Follows b
        (do
          let first ← expr
          if ← step (accept .comma) then
            return first :: (← elements)
          else return [first])
        (do
          let first ← inner
          if ← accept .comma then
            return first :: (← Parser.elements inner n)
          else return [first]) s := by
      refine (h s hm).bind fun first t _ hle =>
        follows_ifAccept (fun hcomma => ?_) fun _ => .pure [first]
      have hlt := length_advance_lt (s := t) (by rw [hcomma]; simp)
      exact (ih t.advance (by omega) (by omega)).bind fun rest _ _ _ => .pure (first :: rest)
    cases found with
    | symbol sign =>
      cases sign with
      | rBrace => exact .pure []
      | _ => exact hfirst
    | eof => exact .pure []
    | _ => exact hfirst

theorem follows_construction (pos : Pos) {n : Nat} (hn : s.kinds.length ≤ n)
    (hm : s.kinds.length < m) :
    Follows b (construction pos) (Parser.construction inner n pos) s := by
  rw [construction]
  refine .congr (construction_apply inner n pos s) ?_
  refine follows_type.bind fun ty t _ ht => Follows.bind ?_ fun args u _ hu =>
    Follows.bind ?_ fun init v _ _ => ?_
  · rw [constructionArguments]
    refine follows_ifAccept (fun _ => ?_) fun _ => .pure none
    have hle := length_advance_le (s := t)
    exact (follows_arguments h .rParen (by omega) (by omega)).bind fun args _ _ _ =>
      .pure (some args)
  · rw [constructionInitializer]
    refine follows_ifAccept (fun _ => ?_) fun _ => .pure none
    have hle := length_advance_le (s := u)
    exact (follows_elements h n u.advance (by omega) (by omega)).bind fun found _ _ _ =>
      follows_expect (by simp) fun _ => .pure (some found)
  · exact .ite (fun _ => follows_token fun found _ => follows_fail _) fun _ =>
      follows_mark pos fun mark => .pure (Expr.new mark ty args init)

theorem follows_primary {n : Nat} (hmn : m ≤ n + 1) (hm : s.kinds.length ≤ m) :
    Follows b primary (Parser.primary inner n) s := by
  rw [primary]
  refine follows_place fun pos => follows_token fun first hfirst => ?_
  have hliteral : ∀ value, first ≠ .eof → Follows b
      (do step skip; return Expr.literal (← step (markAt pos)) value)
      (do skip; return Expr.literal (← markAt pos) value) s := fun value hne =>
    follows_skip (hfirst ▸ hne) (follows_mark pos fun mark => .pure (Expr.literal mark value))
  have hmissing : ∀ found : Token, Follows b
      (if found.endsOperand then return Expr.missing (← step (markAt pos))
        else step (fail (.unexpected found)))
      (if found.endsOperand then return Expr.missing (← markAt pos)
        else fail (.unexpected found)) s := fun found =>
    .ite (fun _ => follows_mark pos fun mark => .pure (Expr.missing mark)) fun _ => follows_fail _
  have hlt : first ≠ .eof → s.advance.kinds.length < s.kinds.length := fun hne =>
    length_advance_lt (hfirst ▸ hne)
  cases first with
  | int value => exact hliteral (.int value) (by simp)
  | double value => exact hliteral (.double value) (by simp)
  | str value => exact hliteral (.str value) (by simp)
  | char value => exact hliteral (.char value) (by simp)
  | bool value => exact hliteral (.bool value) (by simp)
  | null => exact hliteral .null (by simp)
  | ident name =>
    exact follows_skip (by rw [hfirst]; simp)
      (follows_mark pos fun mark => .pure (Expr.ident mark name))
  | keyword word =>
    have hlt := hlt (by simp)
    cases word with
    | new =>
      exact follows_skip (by rw [hfirst]; simp) (follows_construction h pos (by omega) (by omega))
    | _ => exact hmissing _
  | symbol sign =>
    have hlt := hlt (by simp)
    cases sign with
    | lParen =>
      exact follows_skip (by rw [hfirst]; simp) ((h s.advance (by omega)).bind fun body _ _ _ =>
        follows_expect (by simp) fun _ => follows_mark pos fun mark => .pure (Expr.paren mark body))
    | lBracket =>
      refine follows_mark pos fun receiver =>
        follows_skip (by rw [current_numbered, hfirst]; simp) ?_
      have hargs := follows_arguments (s := s.numbered.advance) (n := n) h .rBracket
        (by simp; omega) (by simp; omega)
      exact hargs.bind fun args _ _ _ => follows_mark pos fun mark =>
        .pure (Expr.index mark (.missing receiver) args)
    | _ => exact hmissing _
  | eof => exact hmissing _

theorem follows_operand {n : Nat} (hmn : m ≤ n + 1) (hm : s.kinds.length ≤ m) :
    Follows b operand
      (do Parser.suffixes inner (n + 1) (← Parser.primary inner n)) s := by
  rw [operand]
  exact (follows_primary h hmn hm).bind fun head t _ hle =>
    follows_suffixes h (n + 1) head t (by omega) (by omega)

end

section

variable {base : Parser Expr} {m : Nat}

theorem follows_signed (h : ∀ s : TokenStream, s.kinds.length ≤ m → Follows b operand base s) :
    ∀ (n : Nat) (s : TokenStream), s.kinds.length ≤ n → s.kinds.length ≤ m →
      Follows b signed (Parser.signed base n) s := by
  intro n
  induction n with
  | zero =>
    intro s hn hm
    refine .call .signed ?_
    rw [Construct.body, signedBody]
    refine follows_peek ?_
    rw [current_of_length_le_zero hn]
    exact h s hm
  | succ n ih =>
    intro s hn hm
    refine .call .signed ?_
    rw [Construct.body, signedBody]
    refine follows_token fun found hfound => ?_
    cases hop : found.unaryOp? with
    | none => exact h s hm
    | some op =>
      have hne : s.current.token ≠ .eof := by
        rw [hfound]
        rintro rfl
        cases hop
      have hlt := length_advance_lt hne
      have hbody := ih s.advance (by omega) (by omega)
      exact follows_place fun pos => follows_skip hne (hbody.bind fun body _ _ _ =>
        follows_mark pos fun mark => .pure (Expr.unary mark op body))

theorem follows_operatorsAfter {level : Level} {tighter : List Level} (hend : level .eof = none)
    (h : ∀ s : TokenStream, s.kinds.length ≤ m → Follows b (operators tighter) base s) :
    ∀ (n : Nat) (left : Expr) (s : TokenStream), s.kinds.length ≤ n → s.kinds.length ≤ m →
      Follows b (operatorsAfter level tighter left)
        (Parser.operatorsAfter level base n left) s := by
  intro n
  induction n with
  | zero =>
    intro left s hn _
    refine .call (.operatorsAfter level tighter left) ?_
    rw [Construct.body, operatorsAfterBody]
    refine follows_peek ?_
    rw [current_of_length_le_zero hn, hend]
    exact .pure left
  | succ n ih =>
    intro left s hn hm
    refine .call (.operatorsAfter level tighter left) ?_
    rw [Construct.body, operatorsAfterBody]
    refine follows_token fun found hfound => ?_
    cases hop : level found with
    | none => exact .pure left
    | some op =>
      have hne : s.current.token ≠ .eof := by
        rw [hfound]
        rintro rfl
        rw [hend] at hop
        cases hop
      have hlt := length_advance_lt hne
      refine follows_skip hne ((h s.advance (by omega)).bind fun right t _ hle =>
        follows_mark _ fun mark => ih _ _ ?_ ?_)
      · rw [kinds_numbered]
        omega
      · rw [kinds_numbered]
        omega

theorem follows_operators {n : Nat} (hmn : m ≤ n)
    (h : ∀ s : TokenStream, s.kinds.length ≤ m → Follows b signed base s) :
    ∀ levels : List Level, (∀ level ∈ levels, level .eof = none) → ∀ s : TokenStream,
      s.kinds.length ≤ m → Follows b (operators levels) (Parser.operators base n levels) s := by
  intro levels
  induction levels with
  | nil =>
    intro _ s hm
    rw [operators]
    exact h s hm
  | cons level tighter ih =>
    intro hend s hm
    have htighter := ih fun l hl => hend l (by simp [hl])
    rw [operators]
    exact (htighter s hm).bind fun first t _ hle =>
      follows_operatorsAfter (hend level (by simp)) htighter n first t (by omega) (by omega)

end

theorem level_eof : ∀ level ∈ Level.all, level .eof = none := by
  simp [Level.all, Level.disjunction, Level.conjunction, Level.equality, Level.comparison,
    Level.sum, Level.product]

/-- One nesting: what is nested in an expression has fewer tokens to read. -/
theorem follows_exprNested_succ {m n : Nat} (hmn : m ≤ n + 1)
    (h : ∀ s : TokenStream, s.kinds.length < m → Follows b expr (exprNested n) s)
    (hm : s.kinds.length ≤ m) : Follows b expr (exprNested (n + 1)) s := by
  have hsigned := follows_signed (b := b) (fun s hs => follows_operand h hmn hs) (n + 1)
  refine .call .expr ?_
  exact follows_operators hmn (fun s hs => hsigned s (by omega) hs) Level.all level_eof s hm

/-- **The bound on nested expressions is never felt.** -/
theorem follows_exprNested : ∀ (n : Nat) (s : TokenStream),
    s.kinds.length ≤ n → Follows b expr (exprNested n) s := by
  intro n
  induction n with
  | zero =>
    intro s hn
    -- Without a token nothing can be nested, so one more level changes nothing.
    have hrun : exprNested 0 s = exprNested 1 s := by
      obtain ⟨unread, stop, nextId⟩ := s
      obtain rfl : unread = [] := by simpa [kinds] using hn
      rfl
    exact .congr hrun (follows_exprNested_succ (Nat.zero_le 1) (fun s hs => by omega) hn)
  | succ n ih =>
    intro s hn
    exact follows_exprNested_succ (Nat.le_refl _) (fun s hs => ih s (by omega)) hn

theorem follows_expr : Follows b expr Parser.expr s :=
  .congr (remaining_bind _ s) (follows_exprNested _ s (by simp))

/-! ### Statements -/

theorem follows_simpleStmt : Follows b simpleStmt Parser.simpleStmt s := by
  refine follows_expr.bind fun head t _ _ => follows_ifAccept (fun _ => ?_) fun _ => ?_
  · exact follows_expr.bind fun value _ _ _ => follows_expect (by simp) fun _ =>
      .pure (Stmt.assign head value)
  · exact follows_expect (by simp) fun _ => .pure (Stmt.expr head)

theorem follows_varStmt (line : Nat) : Follows b (varStmt line) (Parser.varStmt line) s := by
  refine follows_name fun declared _ => follows_accept (fun _ => ?_) fun _ => ?_
  · exact follows_expr.bind fun init _ _ _ => follows_expect (by simp) fun _ =>
      .pure (Stmt.declare none declared (some init) line)
  · exact follows_fail_bind _

theorem follows_typedStmt (ty : TypeExpr) (declared : String) (line : Nat) :
    Follows b (typedStmt ty declared line) (Parser.typedStmt ty declared line) s := by
  refine follows_accept (fun _ => ?_) fun _ => ?_
  · exact (follows_expr.map some).bind fun init _ _ _ => follows_expect (by simp) fun _ =>
      .pure (Stmt.declare (some ty) declared init line)
  · exact (Follows.pure none).bind fun init _ _ _ => follows_expect (by simp) fun _ =>
      .pure (Stmt.declare (some ty) declared init line)

theorem follows_loopVariable : Follows b loopVariable Parser.loopVariable s := by
  refine follows_token fun found hfound => .ite (fun hvar => ?_) fun _ => ?_
  · refine follows_skip (by rw [hfound, hvar]; simp) (follows_name fun text _ => .pure (none, text))
  · refine follows_declarator.bind fun found t _ _ => ?_
    cases found with
    | none => exact follows_fail _
    | some declared => exact .pure (some declared.1, declared.2)

section

variable {inner : Parser Stmt} {m : Nat}
  (h : ∀ s : TokenStream, s.kinds.length < m → Follows b stmt inner s)

include h

/-- Another statement of a block is read only after the last one has used up a token. -/
theorem follows_blockItems
    (hless : ∀ ⦃s t : TokenStream⦄ ⦃st : Stmt⦄, s.kinds.length < m → inner s = .ok st t →
      t.kinds.length < s.kinds.length) :
    ∀ (n : Nat) (s : TokenStream), s.kinds.length ≤ n → s.kinds.length < m →
      Follows b blockItems (Parser.blockItems inner n) s := by
  intro n
  induction n with
  | zero =>
    intro s hn _
    have hend := current_of_length_le_zero hn
    refine .call .blockItems ?_
    rw [Construct.body, blockItemsBody]
    refine follows_notAccept (by rw [hend]; simp) (follows_peek ?_)
    -- The bound fails with the same fault as the end mark does without it.
    have hrun : Parser.blockItems inner 0 s =
        (fail .openBlock >>= fun _ : Unit => inner.blockItems 0) s := rfl
    rw [if_pos hend]
    exact .congr hrun (follows_fail_bind _)
  | succ n ih =>
    intro s hn hm
    have hitems : Follows b (do return (← stmt) :: (← blockItems))
        (do return (← inner) :: (← Parser.blockItems inner n)) s := by
      refine (h s hm).bind fun first t hfirst _ => ?_
      have hlt := hless hm hfirst
      exact (ih t (by omega) (by omega)).bind fun rest _ _ _ => .pure (first :: rest)
    refine .call .blockItems ?_
    rw [Construct.body, blockItemsBody]
    refine follows_ifAccept (fun _ => .pure []) fun _ => follows_token fun found _ => ?_
    exact .ite (fun _ => follows_fail_bind _) fun _ => hitems

theorem follows_branchStmt (hm : s.kinds.length < m) :
    Follows b branchStmt (Parser.branchStmt inner) s := by
  have hopen := length_advance_le (s := s)
  rw [branchStmt]
  refine follows_expect (by simp) fun _ => follows_expr.bind fun cond t _ ht =>
    follows_expect (by simp) fun _ => ?_
  have hclose := length_advance_le (s := t)
  refine (h t.advance (by omega)).bind fun thenBranch u _ hu => follows_token fun found hfound => ?_
  refine .ite (fun helse => ?_) fun _ => .pure (Stmt.branch cond thenBranch none)
  have hle := length_advance_le (s := u)
  exact follows_skip (by rw [hfound, helse]; simp) ((h u.advance (by omega)).bind fun other _ _ _ =>
    .pure (Stmt.branch cond thenBranch (some other)))

theorem follows_foreachStmt (hm : s.kinds.length < m) :
    Follows b foreachStmt (Parser.foreachStmt inner) s := by
  have hopen := length_advance_le (s := s)
  rw [foreachStmt]
  refine follows_expect (by simp) fun _ => follows_loopVariable.bind fun declared t _ ht =>
    follows_expect (by simp) fun _ => follows_expr.bind fun iter u _ hu =>
      follows_expect (by simp) fun _ => ?_
  have hin := length_advance_le (s := t)
  have hclose := length_advance_le (s := u)
  exact (h u.advance (by omega)).bind fun body _ _ _ =>
    .pure (Stmt.foreach declared.1 declared.2 iter body)

end

/-- A statement that was read has used up a token. -/
theorem stmtNested_length_lt {n : Nat} {t : TokenStream} {st : Stmt} (hn : s.kinds.length ≤ n)
    (h : stmtNested n s = .ok st t) : t.kinds.length < s.kinds.length :=
  (stmtNested_spans hn h).length_lt

/-- **The bound on nested statements is never felt.** -/
theorem follows_stmtNested : ∀ (n : Nat) (s : TokenStream),
    s.kinds.length ≤ n → Follows b stmt (stmtNested n) s := by
  intro n
  induction n with
  | zero =>
    intro s hn
    have hrun : stmtNested 0 s = (place >>= fun _ => Parser.simpleStmt) s := rfl
    refine .call .stmt ?_
    rw [Construct.body, stmtBody]
    refine .congr hrun (follows_place fun pos => follows_peek ?_)
    rw [current_of_length_le_zero hn]
    exact follows_simpleStmt
  | succ n ih =>
    intro s hn
    have hinner : ∀ s : TokenStream, s.kinds.length < n + 1 → Follows b stmt (stmtNested n) s :=
      fun s hs => ih s (by omega)
    refine .call .stmt ?_
    rw [Construct.body, stmtBody]
    refine follows_place fun pos => follows_token fun found hfound => ?_
    have hlt : found ≠ .eof → s.advance.kinds.length < s.kinds.length := fun hne =>
      length_advance_lt (hfound ▸ hne)
    cases found with
    | symbol sign =>
      have hlt := hlt (by simp)
      cases sign with
      | lBrace =>
        refine follows_skip (by rw [hfound]; simp) (Follows.bind ?_ fun stmts _ _ _ =>
          .pure (Stmt.block stmts))
        refine follows_blockItems hinner (fun s t st hs hst => ?_) n s.advance (by omega) (by omega)
        exact stmtNested_length_lt (by omega) hst
      | _ => exact follows_simpleStmt
    | keyword word =>
      have hlt := hlt (by simp)
      cases word with
      | if_ => exact follows_skip (by rw [hfound]; simp) (follows_branchStmt hinner (by omega))
      | foreach => exact follows_skip (by rw [hfound]; simp) (follows_foreachStmt hinner (by omega))
      | var => exact follows_skip (by rw [hfound]; simp) (follows_varStmt _)
      | _ => exact follows_simpleStmt
    | ident name =>
      refine follows_declarator.bind fun found t _ _ => ?_
      cases found with
      | none => exact follows_simpleStmt
      | some declared => exact follows_typedStmt declared.1 declared.2 _
    | _ => exact follows_simpleStmt

theorem follows_stmt : Follows b stmt Parser.stmt s :=
  .congr (remaining_bind _ s) (follows_stmtNested _ s (by simp))

theorem follows_stmtsToEnd : ∀ (n : Nat) (s : TokenStream),
    s.kinds.length ≤ n → Follows b stmtsToEnd (Parser.stmtsToEnd n) s := by
  intro n
  induction n with
  | zero =>
    intro s hn
    refine .call .stmtsToEnd ?_
    rw [Construct.body, stmtsToEndBody]
    refine follows_peek ?_
    rw [if_pos (current_of_length_le_zero hn)]
    exact .pure []
  | succ n ih =>
    intro s hn
    refine .call .stmtsToEnd ?_
    rw [Construct.body, stmtsToEndBody]
    refine follows_token fun found hfound => .ite (fun _ => .pure []) fun _ => ?_
    refine follows_stmt.bind fun first t hfirst _ => ?_
    -- An expression may be read from no token, but a statement ends with one that is used up.
    have hlt := stmtNested_length_lt (by simp) ((remaining_bind _ s).symm.trans hfirst)
    exact (ih t (by omega)).bind fun rest _ _ _ => .pure (first :: rest)

theorem follows_program : Follows b program Parser.program s := by
  refine .congr (remaining_bind _ s) ?_
  refine (follows_stmtsToEnd _ s (by simp)).bind fun stmts t _ _ => ?_
  exact follows_look fun _ => .congr (get_bind _ t) (.pure (⟨stmts, t.nextId⟩ : Program))

end Unbounded

end ListSugar
