/-
The tokens of a type.

A written type and its tokens determine each other: `typeNested_takes` says that a
type that was read lies on exactly its own tokens, and `type_of_tokens` that these
tokens are read as the type wherever what follows cannot be taken for a part of it.
The attempt to read a declaration is settled by the same two facts: it succeeds just
where the tokens of a type, a name and one of three tokens after it stand.
-/
import ListSugar.Proofs.Grammar.Steps

namespace ListSugar

namespace TypeExpr

/-- What passes from the arguments of a type and the element of an array to the whole
holds of every written type. -/
@[elab_as_elim] theorem args_induction {P : TypeExpr → Prop}
    (named : ∀ name args, (∀ a ∈ args, P a) → P (.named name args))
    (array : ∀ element, P element → P (.array element)) (unresolved : P .unresolved)
    (ty : TypeExpr) : P ty :=
  match ty with
  | .named name args =>
    named name args fun a ha =>
      have := List.sizeOf_lt_of_mem ha
      args_induction named array unresolved a
  | .array element => array element (args_induction named array unresolved element)
  | .unresolved => unresolved
termination_by sizeOf ty

mutual

/-- The tokens that write a type; a type that is not resolved has no tokens of its own. -/
def tokens : TypeExpr → List Token
  | .named name [] => [.ident name]
  | .named name (first :: rest) =>
    .ident name :: .symbol .lt :: (first.tokens ++ (tokensAfterComma rest ++ [.symbol .gt]))
  | .array element => element.tokens ++ [.symbol .lBracket, .symbol .rBracket]
  | .unresolved => []

/-- The tokens of further types, each after a comma. -/
def tokensAfterComma : List TypeExpr → List Token
  | [] => []
  | ty :: rest => .symbol .comma :: (ty.tokens ++ tokensAfterComma rest)

end

theorem allResolved_iff {args : List TypeExpr} :
    allResolved args = true ↔ ∀ a ∈ args, a.isResolved = true := by
  induction args with
  | nil => simp [allResolved]
  | cons ty rest ih => simp [allResolved, ih]

/-- The tokens of a type are names and the signs around its arguments. -/
def isTypeToken : Token → Bool
  | .ident _ => true
  | .symbol .lt => true
  | .symbol .gt => true
  | .symbol .comma => true
  | .symbol .lBracket => true
  | .symbol .rBracket => true
  | _ => false

theorem isTypeToken_of_mem_afterComma {args : List TypeExpr}
    (ih : ∀ a ∈ args, ∀ t ∈ a.tokens, isTypeToken t = true) :
    ∀ t ∈ tokensAfterComma args, isTypeToken t = true := by
  induction args with
  | nil => simp [tokensAfterComma]
  | cons a rest ihrest =>
    intro t ht
    rcases (by simpa [tokensAfterComma] using ht :
      t = .symbol .comma ∨ t ∈ a.tokens ∨ t ∈ tokensAfterComma rest) with rfl | ht | ht
    · rfl
    · exact ih a (by simp) t ht
    · exact ihrest (fun b hb => ih b (by simp [hb])) t ht

theorem isTypeToken_of_mem_tokens (ty : TypeExpr) : ∀ t ∈ ty.tokens, isTypeToken t = true := by
  induction ty using args_induction with
  | named name args ih =>
    intro t ht
    cases args with
    | nil =>
      obtain rfl : t = .ident name := by simpa [tokens] using ht
      rfl
    | cons first rest =>
      rcases (by simpa [tokens] using ht : t = .ident name ∨ t = .symbol .lt ∨
        t ∈ first.tokens ∨ t ∈ tokensAfterComma rest ∨ t = .symbol .gt) with
        rfl | rfl | ht | ht | rfl
      · rfl
      · rfl
      · exact ih first (by simp) t ht
      · exact isTypeToken_of_mem_afterComma (fun a ha => ih a (by simp [ha])) t ht
      · rfl
  | array element ih =>
    intro t ht
    rcases (by simpa [tokens] using ht :
      t ∈ element.tokens ∨ t = .symbol .lBracket ∨ t = .symbol .rBracket) with ht | rfl | rfl
    · exact ih t ht
    · rfl
    · rfl
  | unresolved => simp [tokens]

/-- A resolved type begins with a name. -/
theorem tokens_eq_ident_cons {ty : TypeExpr} : ty.isResolved = true →
    ∃ name rest, ty.tokens = .ident name :: rest := by
  induction ty using args_induction with
  | named name args ih =>
    intro _
    cases args with
    | nil => exact ⟨name, [], rfl⟩
    | cons first others => exact ⟨name, _, rfl⟩
  | array element ih =>
    intro hres
    obtain ⟨name, rest, h⟩ := ih hres
    exact ⟨name, rest ++ [.symbol .lBracket, .symbol .rBracket], by rw [tokens, h]; rfl⟩
  | unresolved => intro hres; cases hres

end TypeExpr

namespace Parser

open TokenStream

/-! ### Items between commas -/

/-- The items lie between two streams one after the other, with commas between them. -/
def Separated {α : Type} (R : α → TokenStream → TokenStream → Prop) :
    List α → TokenStream → TokenStream → Prop
  | [], _, _ => False
  | a :: rest, s, t => ∃ u, R a s u ∧ ((rest = [] ∧ t = u) ∨
      (u.current.token = .symbol .comma ∧ Separated R rest u.advance t))

theorem commaSeparated_separated {α : Type} {item : Parser α}
    {R : α → TokenStream → TokenStream → Prop}
    (hitem : ∀ {s a t}, item s = .ok a t → R a s t) :
    ∀ {n : Nat} {s t : TokenStream} {as : List α},
      commaSeparated item n s = .ok as t → Separated R as s t := by
  intro n
  induction n with
  | zero =>
    intro s t as h
    obtain ⟨a, u, ha, h⟩ := bind_eq_ok_iff.mp h
    obtain ⟨rfl, rfl⟩ := pure_eq_ok_iff.mp h
    exact ⟨t, hitem ha, Or.inl ⟨rfl, rfl⟩⟩
  | succ n ih =>
    intro s t as h
    obtain ⟨a, u, ha, h⟩ := bind_eq_ok_iff.mp h
    rw [accept_bind] at h
    split at h
    · next hcomma =>
      obtain ⟨rest, v, hrest, h⟩ := bind_eq_ok_iff.mp h
      obtain ⟨rfl, rfl⟩ := pure_eq_ok_iff.mp h
      exact ⟨u, hitem ha, Or.inr ⟨hcomma, ih hrest⟩⟩
    · obtain ⟨rfl, rfl⟩ := pure_eq_ok_iff.mp h
      exact ⟨t, hitem ha, Or.inl ⟨rfl, rfl⟩⟩

/-- One item that no comma follows. -/
theorem succeeds_commaSeparated_last {α : Type} {item : Parser α} {n : Nat} {s : TokenStream}
    {Q : α → TokenStream → Prop} {R : List α → TokenStream → Prop} (hitem : Succeeds (item s) Q)
    (hlast : ∀ a t, Q a t → t.current.token ≠ .symbol .comma ∧ R [a] t) :
    Succeeds (commaSeparated item n s) R := by
  cases n with
  | zero => exact hitem.bind fun a t hq => succeeds_pure (hlast a t hq).2
  | succ n =>
    refine hitem.bind fun a t hq => ?_
    rw [accept_bind, if_neg (hlast a t hq).1]
    exact succeeds_pure (hlast a t hq).2

/-- One item, a comma, and further items. -/
theorem succeeds_commaSeparated_more {α : Type} {item : Parser α} {n : Nat} {s : TokenStream}
    {Q : α → TokenStream → Prop} {R : List α → TokenStream → Prop} (hitem : Succeeds (item s) Q)
    (hmore : ∀ a t, Q a t → t.current.token = .symbol .comma ∧
      Succeeds (commaSeparated item n t.advance) fun as u => R (a :: as) u) :
    Succeeds (commaSeparated item (n + 1) s) R := by
  refine hitem.bind fun a t hq => ?_
  rw [accept_bind, if_pos (hmore a t hq).1]
  exact (hmore a t hq).2.bind fun as u hr => succeeds_pure hr

/-! ### A type that was read lies on its tokens -/

/-- The type lies on its tokens, and every part of it is known. -/
def TypeBetween (ty : TypeExpr) (s t : TokenStream) : Prop :=
  s.Takes ty.tokens t ∧ ty.isResolved = true

theorem arraySuffixes_takes : ∀ {n : Nat} {ty ty' : TypeExpr} {s₀ s t : TokenStream},
    TypeBetween ty s₀ s → arraySuffixes n ty s = .ok ty' t → TypeBetween ty' s₀ t := by
  intro n
  induction n with
  | zero =>
    intro ty ty' s₀ s t hty h
    obtain ⟨rfl, rfl⟩ := pure_eq_ok_iff.mp h
    exact hty
  | succ n ih =>
    intro ty ty' s₀ s t hty h
    simp only [arraySuffixes, token_bind, get_bind] at h
    split at h
    · next hb =>
      simp only [skip_bind] at h
      have h₁ := Takes.advance hb.1 (by simp)
      have h₂ : s.advance.Takes [.symbol .rBracket] s.advance.advance := by
        refine Takes.advance ?_ (by simp)
        rw [current_token, kinds_advance, ← following_eq]
        exact hb.2
      have harray : TypeBetween (.array ty) s₀ s.advance.advance :=
        ⟨hty.1.trans (h₁.trans h₂), hty.2⟩
      exact ih harray h
    · obtain ⟨rfl, rfl⟩ := pure_eq_ok_iff.mp h
      exact hty

theorem separated_types_takes : ∀ {args : List TypeExpr} {s t : TokenStream},
    Separated TypeBetween args s t → ∃ first rest, args = first :: rest ∧
      s.Takes (first.tokens ++ TypeExpr.tokensAfterComma rest) t ∧
      TypeExpr.allResolved args = true := by
  intro args
  induction args with
  | nil => intro s t h; exact h.elim
  | cons first rest ih =>
    rintro s t ⟨u, hfirst, ⟨rfl, rfl⟩ | ⟨hcomma, hrest⟩⟩
    · refine ⟨first, [], rfl, ?_, by simp [TypeExpr.allResolved, hfirst.2]⟩
      simpa [TypeExpr.tokensAfterComma] using hfirst.1
    · obtain ⟨second, others, rfl, htakes, hres⟩ := ih hrest
      refine ⟨first, second :: others, rfl, ?_, ?_⟩
      · have := hfirst.1.trans ((Takes.advance hcomma (by simp)).trans htakes)
        simpa [TypeExpr.tokensAfterComma] using this
      · rw [TypeExpr.allResolved, hfirst.2, hres]
        rfl

theorem typeNested_takes : ∀ {n : Nat} {s t : TokenStream} {ty : TypeExpr},
    typeNested n s = .ok ty t → TypeBetween ty s t := by
  intro n
  induction n with
  | zero =>
    intro s t ty h
    exact absurd h fail_ne_ok
  | succ n ih =>
    intro s t ty h
    obtain ⟨head, s₁, hname, h⟩ := bind_eq_ok_iff.mp h
    obtain ⟨hident, rfl⟩ := name_eq_ok_iff.mp hname
    obtain ⟨args, s₂, hargs, h⟩ := bind_eq_ok_iff.mp h
    refine arraySuffixes_takes ?_ h
    rw [typeArguments, accept_bind] at hargs
    have hhead := Takes.advance hident (by simp)
    split at hargs
    · next hlt =>
      obtain ⟨args', s₃, hsep, hargs⟩ := bind_eq_ok_iff.mp hargs
      obtain ⟨_, s₄, hexpect, hargs⟩ := bind_eq_ok_iff.mp hargs
      obtain ⟨rfl, rfl⟩ := pure_eq_ok_iff.mp hargs
      obtain ⟨hgt, rfl⟩ := expect_eq_ok_iff.mp hexpect
      obtain ⟨first, rest, rfl, htakes, hres⟩ :=
        separated_types_takes (commaSeparated_separated ih hsep)
      refine ⟨?_, hres⟩
      have := hhead.trans ((Takes.advance hlt (by simp)).trans
        (htakes.trans (Takes.advance hgt (by simp))))
      simpa [TypeExpr.tokens] using this
    · obtain ⟨rfl, rfl⟩ := pure_eq_ok_iff.mp hargs
      exact ⟨hhead, rfl⟩

/-! ### The tokens of a type are read as the type

Arrays stand behind their elements, so the parser has read the element when it comes to
the brackets.  As for expressions, what is shown is that the type is reached, whatever is
done from there.
-/

theorem arraySuffixes_stop {n : Nat} {ty : TypeExpr} {s : TokenStream}
    (h : s.current.token ≠ .symbol .lBracket) : arraySuffixes n ty s = .ok ty s := by
  cases n with
  | zero => rfl
  | succ n =>
    simp only [arraySuffixes, token_bind, get_bind]
    rw [if_neg fun hb => h hb.1]
    rfl

/-- What an argument of a type was read as, before a comma or the closing bracket. -/
theorem commaSeparated_types {n : Nat} {first : TypeExpr} {args : List TypeExpr}
    {rest : List Token}
    (ih : ∀ a ∈ first :: args, ∀ {s : TokenStream} {rest' : List Token},
      s.kinds = a.tokens ++ rest' → s.kinds.length ≤ n →
      rest'.headD .eof = .symbol .comma ∨ rest'.headD .eof = .symbol .gt →
      Succeeds (typeNested n s) fun ty t => ty = a ∧ t.kinds = rest') :
    ∀ {m : Nat} {s : TokenStream},
      s.kinds = first.tokens ++ (TypeExpr.tokensAfterComma args ++ .symbol .gt :: rest) →
      s.kinds.length ≤ n → s.kinds.length ≤ m →
      Succeeds (commaSeparated (typeNested n) m s) fun as t =>
        as = first :: args ∧ t.kinds = .symbol .gt :: rest := by
  induction args generalizing first with
  | nil =>
    intro m s hs hn hm
    rw [TypeExpr.tokensAfterComma, List.nil_append] at hs
    refine succeeds_commaSeparated_last (ih first (by simp) hs hn (Or.inr rfl)) ?_
    rintro a t ⟨rfl, ht⟩
    refine ⟨?_, rfl, ht⟩
    rw [current_of_kinds ht]
    simp
  | cons second others ihargs =>
    intro m s hs hn hm
    rw [TypeExpr.tokensAfterComma, List.cons_append, List.append_assoc] at hs
    have hlen : s.kinds.length = first.tokens.length + 1 + (second.tokens
        ++ (TypeExpr.tokensAfterComma others ++ .symbol .gt :: rest)).length := by
      rw [hs, List.length_append, List.length_cons]
      omega
    obtain ⟨m, rfl⟩ : ∃ k, m = k + 1 := ⟨m - 1, by omega⟩
    refine succeeds_commaSeparated_more (ih first (by simp) hs hn (Or.inl rfl)) ?_
    rintro a t ⟨rfl, ht⟩
    refine ⟨current_of_kinds ht, ?_⟩
    have hadv := advance_of_kinds ht
    refine (ihargs (fun b hb => ih b (List.mem_cons_of_mem _ hb)) hadv ?_ ?_).imp ?_
    · rw [hadv]
      omega
    · rw [hadv]
      omega
    · rintro as u ⟨rfl, hu⟩
      exact ⟨rfl, hu⟩

/-- The bracketed arguments of a type are read if each of them is. -/
theorem typeArguments_of_tokens {n : Nat} {first : TypeExpr} {args : List TypeExpr}
    {rest : List Token}
    (ih : ∀ a ∈ first :: args, ∀ {s : TokenStream} {rest' : List Token},
      s.kinds = a.tokens ++ rest' → s.kinds.length ≤ n →
      rest'.headD .eof = .symbol .comma ∨ rest'.headD .eof = .symbol .gt →
      Succeeds (typeNested n s) fun ty t => ty = a ∧ t.kinds = rest')
    {s : TokenStream}
    (hs : s.kinds = .symbol .lt ::
      (first.tokens ++ (TypeExpr.tokensAfterComma args ++ .symbol .gt :: rest)))
    (hn : s.kinds.length ≤ n) :
    Succeeds (typeArguments (typeNested n) n s) fun as t =>
      as = first :: args ∧ t.kinds = rest := by
  have hadv := advance_of_kinds hs
  have hlen : s.advance.kinds.length ≤ n := by
    rw [hs, List.length_cons] at hn
    rw [hadv]
    omega
  rw [typeArguments, accept_bind, if_pos (current_of_kinds hs)]
  refine (commaSeparated_types ih hadv hlen hlen).bind ?_
  rintro as t ⟨rfl, ht⟩
  exact succeeds_expect_bind ht (succeeds_pure ⟨rfl, advance_of_kinds ht⟩)

/-- **The tokens of a type are read as the type, up to the arrays around it.**  What is
done after it is a continuation, since arrays are read from the inside out. -/
theorem typeNested_of_tokens {ty : TypeExpr} : ty.isResolved = true →
    ∀ {n : Nat} {s : TokenStream} {rest : List Token} {R : TypeExpr → TokenStream → Prop},
      s.kinds = ty.tokens ++ rest → s.kinds.length ≤ n → rest.headD .eof ≠ .symbol .lt →
      (∀ {k t}, t.kinds = rest → rest.length ≤ k → Succeeds (arraySuffixes k ty t) R) →
      Succeeds (typeNested n s) R := by
  induction ty using TypeExpr.args_induction with
  | named name args ih =>
    intro hres n s rest R hs hn hlt hR
    have hall := TypeExpr.allResolved_iff.mp hres
    cases args with
    | nil =>
      rw [TypeExpr.tokens, List.cons_append, List.nil_append] at hs
      obtain ⟨n, rfl⟩ : ∃ k, n = k + 1 := ⟨n - 1, by simp [hs] at hn; omega⟩
      refine succeeds_name_bind hs ?_
      have hadv := advance_of_kinds hs
      have harg : typeArguments (typeNested n) n s.advance = .ok [] s.advance := by
        rw [typeArguments, accept_bind, if_neg]
        · rfl
        · rw [current_token, hadv]
          exact hlt
      rw [bind_of_ok harg]
      exact hR hadv (by simp [hs] at hn; omega)
    | cons first others =>
      rw [TypeExpr.tokens, List.cons_append, List.cons_append, List.append_assoc,
        List.append_assoc, List.singleton_append] at hs
      obtain ⟨n, rfl⟩ : ∃ k, n = k + 1 := ⟨n - 1, by simp [hs] at hn; omega⟩
      refine succeeds_name_bind hs ?_
      have hadv := advance_of_kinds hs
      have hlen : s.advance.kinds.length ≤ n := by
        rw [hs, List.length_cons] at hn
        rw [hadv]
        omega
      refine (typeArguments_of_tokens ?_ hadv hlen).bind ?_
      · -- Each argument is read up to the comma or bracket behind it, so no array follows.
        intro a ha s' rest' hs' hn' hnext
        refine ih a ha (hall a ha) hs' hn' (by rcases hnext with h | h <;> rw [h] <;> simp) ?_
        intro k t ht _
        refine ⟨a, t, arraySuffixes_stop ?_, rfl, ht⟩
        rw [current_token, ht]
        rcases hnext with h | h <;> rw [h] <;> simp
      · rintro as t ⟨rfl, ht⟩
        refine hR ht ?_
        rw [hadv] at hlen
        simp at hlen
        omega
  | array element ih =>
    intro hres n s rest R hs hn _ hR
    rw [TypeExpr.tokens, List.append_assoc] at hs
    refine ih hres hs hn (by simp) ?_
    intro k t ht hk
    obtain ⟨k, rfl⟩ : ∃ j, k = j + 1 := ⟨k - 1, by simp at hk; omega⟩
    have hadv := advance_of_kinds ht
    simp only [arraySuffixes, token_bind, get_bind]
    rw [if_pos ⟨current_of_kinds ht, by rw [following_eq, ht]; rfl⟩]
    simp only [skip_bind]
    exact hR (advance_of_kinds hadv) (by simp at hk; omega)
  | unresolved => intro hres; cases hres

/-- The tokens of a type are read as the type where neither arguments nor an array can
follow. -/
theorem type_of_tokens {ty : TypeExpr} (hres : ty.isResolved = true) {s : TokenStream}
    {rest : List Token} (hs : s.kinds = ty.tokens ++ rest)
    (hlt : rest.headD .eof ≠ .symbol .lt) (hbracket : rest.headD .eof ≠ .symbol .lBracket) :
    Succeeds (type s) fun ty' t => ty' = ty ∧ t.kinds = rest := by
  rw [type, remaining_bind]
  refine typeNested_of_tokens hres hs (by simp) hlt ?_
  intro k t ht _
  refine ⟨ty, t, arraySuffixes_stop ?_, rfl, ht⟩
  rw [current_token, ht]
  exact hbracket

theorem type_takes {s t : TokenStream} {ty : TypeExpr} (h : type s = .ok ty t) :
    TypeBetween ty s t := by
  rw [type, remaining_bind] at h
  exact typeNested_takes h

/-! ### Declarations

A type and a name are not enough: only a token that may follow a declared name makes them
a declaration.  The attempt gives back its tokens unless all three are there, and it never
fails.
-/

/-- The stream begins with a type, a name it declares, and a token that may follow. -/
def Declares (ty : TypeExpr) (declared : String) (s t : TokenStream) : Prop :=
  ∃ u, TypeBetween ty s u ∧ u.current.token = .ident declared ∧ t = u.advance ∧
    followsDeclared t.current.token = true

theorem following_eq_current_advance (s : TokenStream) :
    s.following = s.advance.current.token := by
  rw [following_eq, current_token, kinds_advance]

theorem declarator_some {s t : TokenStream} {ty : TypeExpr} {declared : String}
    (h : declarator s = .ok (some (ty, declared)) t) : Declares ty declared s t := by
  unfold declarator attempt at h
  split at h
  · next a next hp =>
    obtain ⟨ty', u, hty, hp⟩ := bind_eq_ok_iff.mp hp
    rw [token_bind] at hp
    cases htoken : u.current.token with
    | ident name =>
      rw [htoken] at hp
      simp only [get_bind] at hp
      split at hp
      · next hfollows =>
        rw [following_eq_current_advance] at hfollows
        cases hp
        cases h
        exact ⟨u, type_takes hty, htoken, rfl, hfollows⟩
      · cases hp
    | _ =>
      rw [htoken] at hp
      cases hp
  · cases h
  · cases h

/-- The attempt to read a declaration never fails. -/
theorem declarator_ok (s : TokenStream) :
    (∃ ty declared t, declarator s = .ok (some (ty, declared)) t) ∨
      declarator s = .ok none s := by
  unfold declarator attempt
  split
  · next a next _ => exact Or.inl ⟨a.1, a.2, next, rfl⟩
  · exact Or.inr rfl
  · exact Or.inr rfl

theorem Declares.kinds {ty : TypeExpr} {declared : String} {s t : TokenStream}
    (h : Declares ty declared s t) : s.kinds = ty.tokens ++ .ident declared :: t.kinds := by
  obtain ⟨u, hty, hname, rfl, -⟩ := h
  rw [hty.1.kinds, kinds_of_current hname (by simp)]

/-- The tokens of a type, a name and a token that may follow are read as a declaration. -/
theorem declarator_of_tokens {ty : TypeExpr} (hres : ty.isResolved = true) {declared : String}
    {s : TokenStream} {rest : List Token} (hs : s.kinds = ty.tokens ++ .ident declared :: rest)
    (hrest : followsDeclared (rest.headD .eof) = true) :
    Succeeds (declarator s) fun d t => d = some (ty, declared) ∧ t.kinds = rest := by
  obtain ⟨ty', u, hty, rfl, hu⟩ := type_of_tokens hres hs (by simp) (by simp)
  have hfollows : followsDeclared u.following = true := by
    rw [following_eq, hu]
    exact hrest
  refine ⟨some (ty', declared), u.advance, ?_, rfl, advance_of_kinds hu⟩
  unfold declarator attempt
  rw [bind_of_ok hty, token_bind, current_of_kinds hu]
  simp only [get_bind]
  rw [if_pos hfollows]
  rfl

theorem declarator_of_declares {ty : TypeExpr} {declared : String} {s t : TokenStream}
    (h : Declares ty declared s t) :
    Succeeds (declarator s) fun d u => d = some (ty, declared) ∧ u.kinds = t.kinds := by
  have hkinds := h.kinds
  obtain ⟨u, hty, -, -, hfollows⟩ := h
  rw [current_token] at hfollows
  exact declarator_of_tokens hty.2 hkinds hfollows

/-- Tokens that begin no declaration are left as they are. -/
theorem declarator_of_not_declares {s : TokenStream}
    (h : ∀ ty declared t, ¬ Declares ty declared s t) : declarator s = .ok none s := by
  rcases declarator_ok s with ⟨ty, declared, t, hd⟩ | hnone
  · exact absurd (declarator_some hd) (h ty declared t)
  · exact hnone

end Parser

end ListSugar
