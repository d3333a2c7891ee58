/-
Parsers one step at a time.

A stream is looked at in two ways.  Reading a tree from it is a statement about the
tokens that lie between two streams, so what matters of a stream is the list of its
unread token kinds.  Each step of a parser then is an equation that says what it does
with the first of them, and a parser is opened by rewriting with these equations.
-/
import ListSugar.Expr.Parser

namespace ListSugar

namespace TokenStream

/-- The unread tokens without their places. -/
def kinds (s : TokenStream) : List Token := s.unread.map Located.token

/-- The stream after one more number was given out. -/
def numbered (s : TokenStream) : TokenStream := { s with nextId := s.nextId + 1 }

@[simp] theorem kinds_numbered (s : TokenStream) : s.numbered.kinds = s.kinds := rfl

@[simp] theorem current_numbered (s : TokenStream) : s.numbered.current = s.current := rfl

@[simp] theorem length_unread (s : TokenStream) : s.unread.length = s.kinds.length := by
  simp [kinds]

@[simp] theorem kinds_advance (s : TokenStream) : s.advance.kinds = s.kinds.drop 1 := by
  simp [kinds, advance]

theorem current_token (s : TokenStream) : s.current.token = s.kinds.headD .eof := by
  unfold current kinds
  cases s.unread <;> rfl

theorem following_eq (s : TokenStream) : s.following = (s.kinds.drop 1).headD .eof := by
  unfold following kinds
  cases s.unread with
  | nil => rfl
  | cons first rest => cases rest <;> rfl

theorem current_of_kinds {s : TokenStream} {t : Token} {rest : List Token}
    (h : s.kinds = t :: rest) : s.current.token = t := by
  rw [current_token, h]
  rfl

theorem advance_of_kinds {s : TokenStream} {t : Token} {rest : List Token}
    (h : s.kinds = t :: rest) : s.advance.kinds = rest := by
  rw [kinds_advance, h]
  rfl

/-- A stream whose current token is not the end mark has it to read. -/
theorem kinds_of_current {s : TokenStream} {t : Token} (h : s.current.token = t)
    (ht : t ≠ .eof) : s.kinds = t :: s.advance.kinds := by
  rw [current_token] at h
  rw [kinds_advance]
  cases hk : s.kinds with
  | nil =>
    rw [hk] at h
    exact absurd h.symm ht
  | cons first rest =>
    rw [hk] at h
    rw [show first = t from h]
    rfl

/-- The tokens `ts` are what lies between `s` and `t`, and no number is given out. -/
structure Takes (s : TokenStream) (ts : List Token) (t : TokenStream) : Prop where
  kinds : s.kinds = ts ++ t.kinds
  only : ∃ k, t = { s with unread := s.unread.drop k }

theorem Takes.trans {s t u : TokenStream} {ts us : List Token} (h : s.Takes ts t)
    (h' : t.Takes us u) : s.Takes (ts ++ us) u := by
  obtain ⟨k, rfl⟩ := h.only
  obtain ⟨k', rfl⟩ := h'.only
  refine ⟨by rw [h.kinds, h'.kinds, List.append_assoc], k + k', ?_⟩
  simp

theorem Takes.advance {s : TokenStream} {t : Token} (h : s.current.token = t)
    (ht : t ≠ .eof) : s.Takes [t] s.advance :=
  ⟨kinds_of_current h ht, 1, rfl⟩

theorem Takes.nextId_eq {s t : TokenStream} {ts : List Token} (h : s.Takes ts t) :
    t.nextId = s.nextId := by
  obtain ⟨k, rfl⟩ := h.only
  rfl

/-- The stream of a list of tokens with an end mark holds the tokens before the first one. -/
theorem ofTokens_append {before : List Located} (h : ∀ t ∈ before, t.token ≠ .eof) (place : Pos)
    (after : List Located) : ofTokens (before ++ ⟨.eof, place⟩ :: after) = ⟨before, place, 0⟩ := by
  have hunread : (before ++ ⟨.eof, place⟩ :: after).takeWhile (fun t => t.token ≠ .eof) =
      before := by
    rw [List.takeWhile_append_of_pos (by simpa using h)]
    simp
  have hstop : stopOf (before ++ ⟨.eof, place⟩ :: after) = place := by
    unfold stopOf
    rw [List.find?_append, List.find?_eq_none.mpr (by simpa using h)]
    simp
  unfold ofTokens
  rw [hunread, hstop]

end TokenStream

namespace Parser

/-! ### Opening a parser -/

variable {α β : Type}

theorem bind_eq_ok_iff {p : Parser α} {f : α → Parser β} {s t : TokenStream} {b : β} :
    (p >>= f) s = .ok b t ↔ ∃ a u, p s = .ok a u ∧ f a u = .ok b t := by
  simp only [bind, EStateM.bind]
  constructor
  · intro h
    split at h
    · next a u hp => exact ⟨a, u, hp, h⟩
    · cases h
  · rintro ⟨a, u, hp, hf⟩
    rw [hp]
    exact hf

theorem bind_of_ok {p : Parser α} {f : α → Parser β} {s t : TokenStream} {a : α}
    (h : p s = .ok a t) : (p >>= f) s = f a t := by
  simp only [bind, EStateM.bind, h]

@[simp] theorem pure_apply (a : α) (s : TokenStream) : (pure a : Parser α) s = .ok a s := rfl

theorem pure_eq_ok_iff {a b : α} {s t : TokenStream} :
    (pure a : Parser α) s = .ok b t ↔ b = a ∧ t = s := by
  constructor
  · intro h
    cases h
    exact ⟨rfl, rfl⟩
  · rintro ⟨rfl, rfl⟩
    rfl

@[simp] theorem token_bind (f : Token → Parser β) (s : TokenStream) :
    (token >>= f) s = f s.current.token s := rfl

@[simp] theorem place_bind (f : Pos → Parser β) (s : TokenStream) :
    (place >>= f) s = f s.current.pos s := rfl

@[simp] theorem remaining_bind (f : Nat → Parser β) (s : TokenStream) :
    (remaining >>= f) s = f s.unread.length s := rfl

@[simp] theorem get_bind (f : TokenStream → Parser β) (s : TokenStream) :
    ((get : Parser TokenStream) >>= f) s = f s s := rfl

@[simp] theorem skip_bind (f : Unit → Parser β) (s : TokenStream) :
    (skip >>= f) s = f () s.advance := rfl

@[simp] theorem markAt_bind (pos : Pos) (f : Mark → Parser β) (s : TokenStream) :
    (markAt pos >>= f) s = f ⟨s.nextId, pos⟩ s.numbered := rfl

theorem fail_ne_ok {fault : ParseFault} {s t : TokenStream} {a : α} :
    (fail fault : Parser α) s ≠ .ok a t := by
  intro h
  cases h

theorem accept_bind (sign : Symbol) (f : Bool → Parser β) (s : TokenStream) :
    (accept sign >>= f) s
      = if s.current.token = .symbol sign then f true s.advance else f false s := by
  simp only [accept, bind_assoc, token_bind]
  split <;> rfl

theorem expect_eq_ok_iff {wanted : Token} {s t : TokenStream} {u : Unit} :
    expect wanted s = .ok u t ↔ s.current.token = wanted ∧ t = s.advance := by
  simp only [expect, token_bind]
  constructor
  · intro h
    split at h
    · next hw =>
      cases h
      exact ⟨hw, rfl⟩
    · exact absurd h fail_ne_ok
  · rintro ⟨hw, rfl⟩
    rw [if_pos hw]
    rfl

theorem name_eq_ok_iff {role : NameRole} {s t : TokenStream} {text : String} :
    name role s = .ok text t ↔ s.current.token = .ident text ∧ t = s.advance := by
  simp only [name, token_bind]
  cases s.current.token with
  | ident found =>
    constructor
    · intro h
      cases h
      exact ⟨rfl, rfl⟩
    · rintro ⟨hi, rfl⟩
      cases hi
      rfl
  | _ => exact ⟨fun h => absurd h fail_ne_ok, fun h => Token.noConfusion h.1⟩

/-! ### One round of each choice by the current token

The stream is moved into the cases, so that a case can be opened on its own. -/

theorem suffixes_succ (inner : Parser Expr) (n : Nat) (head : Expr) (s : TokenStream) :
    suffixes inner (n + 1) head s = match s.current.token with
      | .symbol .dot => (do
          let name ← name .member
          suffixes inner n (.member (← markAt head.pos) head name)) s.advance
      | .symbol .lParen => (do
          let args ← arguments inner n .rParen
          suffixes inner n (.call (← markAt head.pos) head args)) s.advance
      | .symbol .lBracket => (do
          let args ← arguments inner n .rBracket
          suffixes inner n (.index (← markAt head.pos) head args)) s.advance
      | _ => .ok head s := by
  rw [suffixes, token_bind]
  cases s.current.token with
  | symbol sign => cases sign <;> rfl
  | _ => rfl

theorem elements_succ (inner : Parser Expr) (n : Nat) (s : TokenStream) :
    elements inner (n + 1) s = match s.current.token with
      | .symbol .rBrace => .ok [] s
      | .eof => .ok [] s
      | _ => (do
          let first ← inner
          if ← accept .comma then
            return first :: (← elements inner n)
          else return [first]) s := by
  rw [elements, token_bind]
  cases s.current.token with
  | symbol sign => cases sign <;> rfl
  | _ => rfl

theorem primary_apply (inner : Parser Expr) (n : Nat) (s : TokenStream) :
    primary inner n s = match s.current.token with
      | .ident name => .ok (.ident ⟨s.nextId, s.current.pos⟩ name) s.advance.numbered
      | .symbol .lParen => (do
          let body ← inner
          expect (.symbol .rParen)
          return Expr.paren (← markAt s.current.pos) body) s.advance
      | .symbol .lBracket => (do
          let args ← arguments inner n .rBracket
          return Expr.index (← markAt s.current.pos) (.missing ⟨s.nextId, s.current.pos⟩) args)
            s.numbered.advance
      | .keyword .new => construction inner n s.current.pos s.advance
      | found => match found.literal? with
        | some value => .ok (.literal ⟨s.nextId, s.current.pos⟩ value) s.advance.numbered
        | none =>
          if found.endsOperand then .ok (.missing ⟨s.nextId, s.current.pos⟩) s.numbered
          else (fail (.unexpected found) : Parser Expr) s := by
  rw [primary, place_bind, token_bind]
  cases s.current.token with
  | symbol sign => cases sign <;> rfl
  | keyword word => cases word <;> rfl
  | _ => rfl

theorem construction_apply (inner : Parser Expr) (n : Nat) (pos : Pos) (s : TokenStream) :
    construction inner n pos s = (do
      let ty ← type
      let args ← constructionArguments inner n
      let init ← constructionInitializer inner n
      if args.isNone && init.isNone then fail (.bareNew (← token))
      else return Expr.new (← markAt pos) ty args init) s := by
  rw [construction]
  refine congrFun (bind_congr fun ty => bind_congr fun args => bind_congr fun init => ?_) s
  cases args <;> cases init <;> rfl

/-! ### Parsers that succeed -/

/-- The outcome is a success whose result and stream satisfy `Q`. -/
def Succeeds (r : EStateM.Result ParseError TokenStream α) (Q : α → TokenStream → Prop) : Prop :=
  ∃ a t, r = .ok a t ∧ Q a t

theorem Succeeds.bind {p : Parser α} {f : α → Parser β} {s : TokenStream}
    {Q : α → TokenStream → Prop} {R : β → TokenStream → Prop} (hp : Succeeds (p s) Q)
    (hf : ∀ a t, Q a t → Succeeds (f a t) R) : Succeeds ((p >>= f) s) R := by
  obtain ⟨a, t, hok, hq⟩ := hp
  rw [bind_of_ok hok]
  exact hf a t hq

theorem Succeeds.imp {r : EStateM.Result ParseError TokenStream α}
    {Q R : α → TokenStream → Prop} (h : Succeeds r Q) (hqr : ∀ a t, Q a t → R a t) :
    Succeeds r R := by
  obtain ⟨a, t, hok, hq⟩ := h
  exact ⟨a, t, hok, hqr a t hq⟩

theorem succeeds_pure {a : α} {s : TokenStream} {Q : α → TokenStream → Prop} (h : Q a s) :
    Succeeds ((pure a : Parser α) s) Q :=
  ⟨a, s, rfl, h⟩

theorem succeeds_expect_bind {wanted : Token} {f : Unit → Parser β} {s : TokenStream}
    {rest : List Token} {R : β → TokenStream → Prop} (h : s.kinds = wanted :: rest)
    (hf : Succeeds (f () s.advance) R) : Succeeds ((expect wanted >>= f) s) R := by
  rw [bind_of_ok (expect_eq_ok_iff.mpr ⟨TokenStream.current_of_kinds h, rfl⟩)]
  exact hf

theorem succeeds_name_bind {role : NameRole} {text : String} {f : String → Parser β}
    {s : TokenStream} {rest : List Token} {R : β → TokenStream → Prop}
    (h : s.kinds = .ident text :: rest) (hf : Succeeds (f text s.advance) R) :
    Succeeds ((name role >>= f) s) R := by
  rw [bind_of_ok (name_eq_ok_iff.mpr ⟨TokenStream.current_of_kinds h, rfl⟩)]
  exact hf

theorem elements_of_open {inner : Parser Expr} {n : Nat} {s : TokenStream}
    (hbrace : s.current.token ≠ .symbol .rBrace) (heof : s.current.token ≠ .eof) :
    elements inner (n + 1) s = (do
      let first ← inner
      if ← accept .comma then
        return first :: (← elements inner n)
      else return [first]) s := by
  rw [elements_succ]
  split
  · next h => exact absurd h hbrace
  · next h => exact absurd h heof
  · rfl

/-- One element that no comma follows. -/
theorem succeeds_elements_last {inner : Parser Expr} {n : Nat} {s : TokenStream}
    {Q : Expr → TokenStream → Prop} {R : List Expr → TokenStream → Prop}
    (hbrace : s.current.token ≠ .symbol .rBrace) (heof : s.current.token ≠ .eof)
    (hitem : Succeeds (inner s) Q)
    (hlast : ∀ e t, Q e t → t.current.token ≠ .symbol .comma ∧ R [e] t) :
    Succeeds (elements inner (n + 1) s) R := by
  rw [elements_of_open hbrace heof]
  refine hitem.bind fun e t hq => ?_
  rw [accept_bind, if_neg (hlast e t hq).1]
  exact succeeds_pure (hlast e t hq).2

/-- One element, a comma, and what the comma leads to. -/
theorem succeeds_elements_more {inner : Parser Expr} {n : Nat} {s : TokenStream}
    {Q : Expr → TokenStream → Prop} {R : List Expr → TokenStream → Prop}
    (hbrace : s.current.token ≠ .symbol .rBrace) (heof : s.current.token ≠ .eof)
    (hitem : Succeeds (inner s) Q)
    (hmore : ∀ e t, Q e t → t.current.token = .symbol .comma ∧
      Succeeds (elements inner n t.advance) fun es u => R (e :: es) u) :
    Succeeds (elements inner (n + 1) s) R := by
  rw [elements_of_open hbrace heof]
  refine hitem.bind fun e t hq => ?_
  rw [accept_bind, if_pos (hmore e t hq).1]
  exact (hmore e t hq).2.bind fun es u hr => succeeds_pure hr

end Parser

end ListSugar
