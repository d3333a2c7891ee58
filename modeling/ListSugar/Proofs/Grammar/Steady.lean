/-
Parsers look at tokens only.

Two things hold of every parser of the library, whether it succeeds or fails.  It only
moves forward: what it leaves is a stream with some tokens used up and some numbers given
out, and nothing else about it changes.  And it asks neither for places nor for numbers
when it decides what to do: if the stream is relabelled beforehand, the outcome is the same
one, relabelled.  `Steady` says both of a parser, and it passes from parts to the whole
through every way in which parsers are put together, so each parser needs one line for each
of its steps.

A parser for a part of a tree may be given places or trees that were read before.  It is
then compared with the same parser at the relabelled ones.
-/
import ListSugar.Program.Parser
import ListSugar.Proofs.Grammar.Steps
import ListSugar.Proofs.Relabeled

namespace ListSugar

/-- The token at its new place. -/
def Located.relabel (r : Relabel) (t : Located) : Located := ⟨t.token, r.pos t.pos⟩

/-- The error at its new place. -/
def ParseError.relabel (r : Relabel) (e : ParseError) : ParseError := ⟨e.fault, r.pos e.pos⟩

namespace TokenStream

/-! ### Streams -/

/-- The stream with its tokens at their new places and its numbers changed. -/
def relabel (r : Relabel) (s : TokenStream) : TokenStream :=
  ⟨s.unread.map (Located.relabel r), r.pos s.stop, r.id s.nextId⟩

section

variable (r : Relabel) (s : TokenStream)

theorem current_relabel : (s.relabel r).current = s.current.relabel r := by
  unfold current relabel
  cases s.unread <;> rfl

@[simp] theorem following_relabel : (s.relabel r).following = s.following := by
  unfold following relabel
  cases s.unread with
  | nil => rfl
  | cons first rest => cases rest <;> rfl

theorem advance_relabel : (s.relabel r).advance = s.advance.relabel r := by
  simp [advance, relabel]

theorem kinds_relabel : (s.relabel r).kinds = s.kinds := by
  simp [kinds, relabel, Located.relabel]

end

/-- The stream `t` is what is left of `s` when some tokens are used up and some numbers
given out. -/
def Moves (s t : TokenStream) : Prop := ∃ i k, t = ⟨s.unread.drop i, s.stop, s.nextId + k⟩

theorem Moves.refl (s : TokenStream) : s.Moves s := ⟨0, 0, rfl⟩

theorem Moves.trans {s t u : TokenStream} (h : s.Moves t) (h' : t.Moves u) : s.Moves u := by
  obtain ⟨i, k, rfl⟩ := h
  obtain ⟨i', k', rfl⟩ := h'
  refine ⟨i + i', k + k', ?_⟩
  rw [List.drop_drop, Nat.add_assoc]

theorem Moves.nextId_le {s t : TokenStream} (h : s.Moves t) : s.nextId ≤ t.nextId := by
  obtain ⟨i, k, rfl⟩ := h
  exact Nat.le_add_right _ _

end TokenStream

namespace Parser

variable {α β : Type}

/-- The stream that an outcome leaves. -/
def reached : EStateM.Result ParseError TokenStream α → TokenStream
  | .ok _ t => t
  | .error _ t => t

/-- The outcome with its result changed by `f` and everything else relabelled. -/
def outcome (r : Relabel) (f : α → α) :
    EStateM.Result ParseError TokenStream α → EStateM.Result ParseError TokenStream α
  | .ok a t => .ok (f a) (t.relabel r)
  | .error e t => .error (e.relabel r) (t.relabel r)

/-- The parser `p` only moves forward, and `q` does on a relabelled stream what `p` does on
the stream, up to relabelling; `f` is what relabelling makes of the results. -/
structure Steady (r : Relabel) (f : α → α) (p q : Parser α) : Prop where
  moves : ∀ s : TokenStream, s.Moves (reached (p s))
  same : ∀ s : TokenStream, q (s.relabel r) = outcome r f (p s)

/-! ### Putting parsers together -/

section

variable {r : Relabel} {f : α → α} {g : β → β}

theorem Steady.pure (a : α) : Steady r f (pure a) (pure (f a)) :=
  ⟨fun s => .refl s, fun _ => rfl⟩

theorem Steady.bind {p q : Parser α} {k k' : α → Parser β} (hp : Steady r f p q)
    (hk : ∀ a, Steady r g (k a) (k' (f a))) : Steady r g (p >>= k) (q >>= k') := by
  refine ⟨fun s => ?_, fun s => ?_⟩
  · have hmoves := hp.moves s
    show s.Moves (reached (EStateM.bind p k s))
    unfold EStateM.bind
    cases hrun : p s with
    | ok a t =>
      rw [hrun] at hmoves
      exact hmoves.trans ((hk a).moves t)
    | error e t =>
      rw [hrun] at hmoves
      exact hmoves
  · have hsame := hp.same s
    show EStateM.bind q k' (s.relabel r) = outcome r g (EStateM.bind p k s)
    unfold EStateM.bind
    cases hrun : p s with
    | ok a t =>
      rw [hrun] at hsame
      rw [hsame]
      exact (hk a).same t
    | error e t =>
      rw [hrun] at hsame
      rw [hsame]
      rfl

theorem Steady.ite {c : Prop} [Decidable c] {p q p' q' : Parser α} (h : Steady r f p q)
    (h' : Steady r f p' q') : Steady r f (if c then p else p') (if c then q else q') := by
  split
  · exact h
  · exact h'

/-! ### Single steps -/

theorem steady_token : Steady r id token token := by
  refine ⟨fun s => .refl s, fun s => ?_⟩
  show EStateM.Result.ok (s.relabel r).current.token _ = _
  rw [TokenStream.current_relabel]
  rfl

theorem steady_place : Steady r r.pos place place := by
  refine ⟨fun s => .refl s, fun s => ?_⟩
  show EStateM.Result.ok (s.relabel r).current.pos _ = _
  rw [TokenStream.current_relabel]
  rfl

theorem steady_remaining : Steady r id remaining remaining := by
  refine ⟨fun s => .refl s, fun s => ?_⟩
  show EStateM.Result.ok (s.unread.map (Located.relabel r)).length _ = _
  rw [List.length_map]
  rfl

theorem steady_get : Steady r (TokenStream.relabel r) (get : Parser TokenStream) get :=
  ⟨fun s => .refl s, fun _ => rfl⟩

theorem steady_skip : Steady r id skip skip := by
  refine ⟨fun s => ⟨1, 0, rfl⟩, fun s => ?_⟩
  show EStateM.Result.ok () (s.relabel r).advance = _
  rw [TokenStream.advance_relabel]
  rfl

theorem steady_fail (fault : ParseFault) : Steady r f (fail fault) (fail fault) :=
  steady_place.bind fun _ => ⟨fun s => .refl s, fun _ => rfl⟩

theorem steady_accept (sign : Symbol) : Steady r id (accept sign) (accept sign) :=
  steady_token.bind fun _ => .ite (steady_skip.bind fun _ => .pure true) (.pure false)

theorem steady_expect (wanted : Token) : Steady r id (expect wanted) (expect wanted) :=
  steady_token.bind fun _ => .ite steady_skip (steady_fail _)

theorem steady_name (role : NameRole) : Steady r id (name role) (name role) := by
  refine steady_token.bind fun found => ?_
  cases found with
  | ident text => exact steady_skip.bind fun _ => .pure text
  | _ => exact steady_fail _

/-- The numbers have to grow one by one where `r` sends them, as they do in the stream. -/
theorem steady_markAt (hid : ∀ n, r.id (n + 1) = r.id n + 1) (pos : Pos) :
    Steady r r.mark (markAt pos) (markAt (r.pos pos)) := by
  refine ⟨fun s => ⟨0, 1, rfl⟩, fun s => ?_⟩
  show EStateM.Result.ok (⟨r.id s.nextId, r.pos pos⟩ : Mark)
    (⟨s.unread.map (Located.relabel r), r.pos s.stop, r.id s.nextId + 1⟩ : TokenStream) = _
  rw [← hid]
  rfl

theorem Steady.attempt {p q : Parser (Option α)} (h : Steady r (Option.map f) p q) :
    Steady r (Option.map f) (attempt p) (attempt q) := by
  refine ⟨fun s => ?_, fun s => ?_⟩
  · have hmoves := h.moves s
    unfold Parser.attempt
    split
    · next hrun =>
      rw [hrun] at hmoves
      exact hmoves
    · exact .refl s
    · exact .refl s
  · unfold Parser.attempt
    rw [h.same s]
    cases p s with
    | ok found t => cases found <;> rfl
    | error e t => rfl

theorem Steady.commaSeparated {p q : Parser α} (h : Steady r f p q) :
    ∀ n, Steady r (List.map f) (commaSeparated p n) (commaSeparated q n) := by
  intro n
  induction n with
  | zero => exact h.bind fun first => .pure [first]
  | succ n ih =>
    refine h.bind fun first => (steady_accept .comma).bind fun more => .ite ?_ (.pure [first])
    exact ih.bind fun rest => .pure (first :: rest)

end

/-! ### Types -/

section

variable {r : Relabel}

theorem steady_arraySuffixes : ∀ (n : Nat) (ty : TypeExpr),
    Steady r id (arraySuffixes n ty) (arraySuffixes n ty) := by
  intro n
  induction n with
  | zero => exact fun ty => .pure ty
  | succ n ih =>
    intro ty
    refine steady_token.bind fun found => steady_get.bind fun s => ?_
    rw [TokenStream.following_relabel]
    exact .ite (steady_skip.bind fun _ => steady_skip.bind fun _ => ih (.array ty)) (.pure ty)

theorem steady_typeNested : ∀ n, Steady r id (typeNested n) (typeNested n) := by
  intro n
  induction n with
  | zero => exact steady_token.bind fun found => steady_fail _
  | succ n ih =>
    refine (steady_name .type).bind fun head => ?_
    refine Steady.bind (f := id) ?_ fun args => steady_arraySuffixes n _
    refine (steady_accept .lt).bind fun opened => .ite ?_ (.pure [])
    have hargs := ih.commaSeparated n
    rw [List.map_id_fun] at hargs
    exact hargs.bind fun args => (steady_expect _).bind fun _ => .pure args

theorem steady_type : Steady r id type type :=
  steady_remaining.bind fun n => steady_typeNested n

theorem steady_declarator : Steady r id declarator declarator := by
  rw [← Option.map_id_fun]
  refine Steady.attempt (steady_type.bind fun ty => steady_token.bind fun found => ?_)
  cases found with
  | ident declared =>
    refine steady_get.bind fun s => ?_
    rw [TokenStream.following_relabel]
    exact .ite (steady_skip.bind fun _ => .pure (some (ty, declared))) (.pure none)
  | _ => exact .pure none

end

/-! ### Expressions -/

section

variable {r : Relabel} (hid : ∀ n, r.id (n + 1) = r.id n + 1)

include hid

theorem steady_operatorsAfter {level : Level} {operand : Parser Expr}
    (h : Steady r (Expr.relabel r) operand operand) : ∀ (n : Nat) (left : Expr),
    Steady r (Expr.relabel r) (operatorsAfter level operand n left)
      (operatorsAfter level operand n (left.relabel r)) := by
  intro n
  induction n with
  | zero => exact fun left => .pure left
  | succ n ih =>
    intro left
    refine steady_token.bind fun found => ?_
    dsimp only [id]
    cases level found with
    | none => exact .pure left
    | some op =>
      refine steady_skip.bind fun _ => h.bind fun right => ?_
      rw [Expr.pos_relabel]
      exact (steady_markAt hid left.pos).bind fun m => ih (.binary m op left right)

theorem steady_operators {operand : Parser Expr}
    (h : Steady r (Expr.relabel r) operand operand) (n : Nat) : ∀ levels : List Level,
    Steady r (Expr.relabel r) (operators operand n levels) (operators operand n levels) := by
  intro levels
  induction levels with
  | nil => exact h
  | cons level tighter ih => exact ih.bind fun first => steady_operatorsAfter hid ih n first

theorem steady_signed {operand : Parser Expr}
    (h : Steady r (Expr.relabel r) operand operand) : ∀ n : Nat,
    Steady r (Expr.relabel r) (signed operand n) (signed operand n) := by
  intro n
  induction n with
  | zero => exact h
  | succ n ih =>
    refine steady_token.bind fun found => ?_
    dsimp only [id]
    cases found.unaryOp? with
    | none => exact h
    | some op =>
      refine steady_place.bind fun pos => steady_skip.bind fun _ => ih.bind fun inner => ?_
      exact (steady_markAt hid pos).bind fun m => .pure (Expr.unary m op inner)

omit hid in
theorem steady_arguments {inner : Parser Expr} (h : Steady r (Expr.relabel r) inner inner)
    (n : Nat) (close : Symbol) : Steady r (List.map (Expr.relabel r)) (arguments inner n close)
      (arguments inner n close) := by
  refine (steady_accept close).bind fun closed => .ite (.pure []) ?_
  exact (h.commaSeparated n).bind fun args => (steady_expect _).bind fun _ => .pure args

theorem steady_suffixes {inner : Parser Expr} (h : Steady r (Expr.relabel r) inner inner) :
    ∀ (n : Nat) (head : Expr), Steady r (Expr.relabel r) (suffixes inner n head)
      (suffixes inner n (head.relabel r)) := by
  intro n
  induction n with
  | zero => exact fun head => .pure head
  | succ n ih =>
    intro head
    have hargs := steady_arguments h n
    have hmark : Steady r r.mark (markAt head.pos) (markAt (head.relabel r).pos) := by
      rw [Expr.pos_relabel]
      exact steady_markAt hid head.pos
    refine steady_token.bind fun found => ?_
    cases found with
    | symbol sign =>
      cases sign with
      | dot =>
        exact steady_skip.bind fun _ => (steady_name .member).bind fun name =>
          hmark.bind fun m => ih (.member m head name)
      | lParen =>
        refine steady_skip.bind fun _ => (hargs .rParen).bind fun args => hmark.bind fun m => ?_
        rw [← Expr.mapMarksAll_eq]
        exact ih (.call m head args)
      | lBracket =>
        refine steady_skip.bind fun _ => (hargs .rBracket).bind fun args => hmark.bind fun m => ?_
        rw [← Expr.mapMarksAll_eq]
        exact ih (.index m head args)
      | _ => exact .pure head
    | _ => exact .pure head

omit hid in
theorem steady_elements {inner : Parser Expr} (h : Steady r (Expr.relabel r) inner inner) :
    ∀ n : Nat, Steady r (List.map (Expr.relabel r)) (elements inner n) (elements inner n) := by
  intro n
  induction n with
  | zero => exact .pure []
  | succ n ih =>
    have hfirst : Steady r (List.map (Expr.relabel r))
        (do
          let first ← inner
          if ← accept .comma then
            return first :: (← elements inner n)
          else return [first])
        (do
          let first ← inner
          if ← accept .comma then
            return first :: (← elements inner n)
          else return [first]) := by
      refine h.bind fun first => (steady_accept .comma).bind fun more => .ite ?_ (.pure [first])
      exact ih.bind fun rest => .pure (first :: rest)
    refine steady_token.bind fun found => ?_
    cases found with
    | symbol sign =>
      cases sign with
      | rBrace => exact .pure []
      | _ => exact hfirst
    | eof => exact .pure []
    | _ => exact hfirst

theorem steady_construction {inner : Parser Expr}
    (h : Steady r (Expr.relabel r) inner inner) (n : Nat) (pos : Pos) :
    Steady r (Expr.relabel r) (construction inner n pos) (construction inner n (r.pos pos)) := by
  have hargs : Steady r (Option.map (List.map (Expr.relabel r)))
      (constructionArguments inner n) (constructionArguments inner n) := by
    refine (steady_accept .lParen).bind fun opened => .ite ?_ (.pure none)
    exact (steady_arguments h n .rParen).bind fun args => .pure (some args)
  have hinit : Steady r (Option.map (List.map (Expr.relabel r)))
      (constructionInitializer inner n) (constructionInitializer inner n) := by
    refine (steady_accept .lBrace).bind fun opened => .ite ?_ (.pure none)
    exact (steady_elements h n).bind fun items => (steady_expect _).bind fun _ =>
      .pure (some items)
  rw [funext (construction_apply inner n pos), funext (construction_apply inner n (r.pos pos))]
  refine steady_type.bind fun ty => hargs.bind fun args => hinit.bind fun init => ?_
  rw [Option.isNone_map, Option.isNone_map]
  refine .ite (steady_token.bind fun found => steady_fail _) ?_
  refine (steady_markAt hid pos).bind fun m => ?_
  rw [← Expr.mapMarksPart_eq, ← Expr.mapMarksPart_eq]
  exact .pure (Expr.new m ty args init)

theorem steady_primary {inner : Parser Expr} (h : Steady r (Expr.relabel r) inner inner)
    (n : Nat) : Steady r (Expr.relabel r) (primary inner n) (primary inner n) := by
  refine steady_place.bind fun pos => steady_token.bind fun first => ?_
  have hmark := steady_markAt hid pos
  have hliteral : ∀ value, Steady r (Expr.relabel r)
      (do skip; return Expr.literal (← markAt pos) value)
      (do skip; return Expr.literal (← markAt (r.pos pos)) value) := fun value =>
    steady_skip.bind fun _ => hmark.bind fun m => .pure (Expr.literal m value)
  have hmissing : ∀ found : Token, Steady r (Expr.relabel r)
      (if found.endsOperand then return Expr.missing (← markAt pos) else fail (.unexpected found))
      (if found.endsOperand then return Expr.missing (← markAt (r.pos pos))
        else fail (.unexpected found)) := fun found =>
    .ite (hmark.bind fun m => .pure (Expr.missing m)) (steady_fail _)
  cases first with
  | int value => exact hliteral (.int value)
  | double value => exact hliteral (.double value)
  | str value => exact hliteral (.str value)
  | char value => exact hliteral (.char value)
  | bool value => exact hliteral (.bool value)
  | null => exact hliteral .null
  | ident name => exact steady_skip.bind fun _ => hmark.bind fun m => .pure (Expr.ident m name)
  | keyword word =>
    cases word with
    | new => exact steady_skip.bind fun _ => steady_construction hid h n pos
    | _ => exact hmissing _
  | symbol sign =>
    cases sign with
    | lParen =>
      exact steady_skip.bind fun _ => h.bind fun body => (steady_expect _).bind fun _ =>
        hmark.bind fun m => .pure (Expr.paren m body)
    | lBracket =>
      refine hmark.bind fun receiver => steady_skip.bind fun _ =>
        (steady_arguments h n .rBracket).bind fun args => hmark.bind fun m => ?_
      rw [← Expr.mapMarksAll_eq]
      exact .pure (Expr.index m (.missing receiver) args)
    | _ => exact hmissing _
  | eof => exact hmissing _

theorem steady_exprNested : ∀ n : Nat,
    Steady r (Expr.relabel r) (exprNested n) (exprNested n) := by
  intro n
  induction n with
  | zero => exact steady_token.bind fun found => steady_fail _
  | succ n ih =>
    refine steady_operators hid (steady_signed hid ?_ (n + 1)) (n + 1) Level.all
    exact (steady_primary hid ih n).bind fun head => steady_suffixes hid ih (n + 1) head

/-- **Reading an expression looks at tokens only.** -/
theorem steady_expr : Steady r (Expr.relabel r) expr expr :=
  steady_remaining.bind fun n => steady_exprNested hid n

/-! ### Statements -/

theorem steady_simpleStmt : Steady r (Stmt.relabel r) simpleStmt simpleStmt := by
  have hexpr := steady_expr hid
  refine hexpr.bind fun head => (steady_accept .assign).bind fun assigned => .ite ?_ ?_
  · exact hexpr.bind fun value => (steady_expect _).bind fun _ => .pure (Stmt.assign head value)
  · exact (steady_expect _).bind fun _ => .pure (Stmt.expr head)

theorem steady_varStmt (line : Nat) :
    Steady r (Stmt.relabel r) (varStmt line) (varStmt (r.line line)) := by
  refine (steady_name .variable).bind fun declared => (steady_accept .assign).bind fun given => ?_
  have hrest : Steady r (Stmt.relabel r)
      (do
        let init ← expr
        expect (.symbol .semi)
        return Stmt.declare none declared (some init) line)
      (do
        let init ← expr
        expect (.symbol .semi)
        return Stmt.declare none declared (some init) (r.line line)) :=
    (steady_expr hid).bind fun init => (steady_expect _).bind fun _ =>
      .pure (Stmt.declare none declared (some init) line)
  exact .ite hrest ((steady_fail (f := id) _).bind fun _ => hrest)

theorem steady_typedStmt (ty : TypeExpr) (declared : String) (line : Nat) :
    Steady r (Stmt.relabel r) (typedStmt ty declared line)
      (typedStmt ty declared (r.line line)) := by
  have hinit : ∀ init : Option Expr, Steady r (Stmt.relabel r)
      (do
        expect (.symbol .semi)
        return Stmt.declare (some ty) declared init line)
      (do
        expect (.symbol .semi)
        return Stmt.declare (some ty) declared (init.map (Expr.relabel r)) (r.line line)) :=
    fun init => (steady_expect _).bind fun _ => .pure (Stmt.declare (some ty) declared init line)
  refine (steady_accept .assign).bind fun given => ?_
  cases given with
  | true =>
    refine Steady.bind (f := Option.map (Expr.relabel r)) ?_ hinit
    rw [map_eq_pure_bind]
    exact (steady_expr hid).bind fun init => .pure (some init)
  | false => exact Steady.bind (f := Option.map (Expr.relabel r)) (.pure none) hinit

omit hid in
theorem steady_blockItems {stmt : Parser Stmt} (h : Steady r (Stmt.relabel r) stmt stmt) :
    ∀ n : Nat, Steady r (List.map (Stmt.relabel r)) (blockItems stmt n) (blockItems stmt n) := by
  intro n
  induction n with
  | zero => exact steady_fail _
  | succ n ih =>
    have hitems : Steady r (List.map (Stmt.relabel r))
        (do return (← stmt) :: (← blockItems stmt n))
        (do return (← stmt) :: (← blockItems stmt n)) :=
      h.bind fun first => ih.bind fun rest => .pure (first :: rest)
    refine (steady_accept .rBrace).bind fun closed => .ite (.pure []) ?_
    refine steady_token.bind fun found => ?_
    exact .ite ((steady_fail (f := id) _).bind fun _ => hitems) hitems

theorem steady_branchStmt {stmt : Parser Stmt} (h : Steady r (Stmt.relabel r) stmt stmt) :
    Steady r (Stmt.relabel r) (branchStmt stmt) (branchStmt stmt) := by
  refine (steady_expect _).bind fun _ => (steady_expr hid).bind fun cond =>
    (steady_expect _).bind fun _ => h.bind fun thenBranch => steady_token.bind fun found => ?_
  refine .ite (steady_skip.bind fun _ => h.bind fun other => ?_) ?_
  · exact .pure (Stmt.branch cond thenBranch (some other))
  · exact .pure (Stmt.branch cond thenBranch none)

omit hid in
theorem steady_loopVariable : Steady r id loopVariable loopVariable := by
  refine steady_token.bind fun found => .ite ?_ ?_
  · exact steady_skip.bind fun _ => (steady_name .loopVariable).bind fun name => .pure (none, name)
  · refine steady_declarator.bind fun found => ?_
    cases found with
    | none => exact steady_fail _
    | some declared => exact .pure (some declared.1, declared.2)

theorem steady_foreachStmt {stmt : Parser Stmt} (h : Steady r (Stmt.relabel r) stmt stmt) :
    Steady r (Stmt.relabel r) (foreachStmt stmt) (foreachStmt stmt) := by
  refine (steady_expect _).bind fun _ => steady_loopVariable.bind fun declared =>
    (steady_expect _).bind fun _ => (steady_expr hid).bind fun iter =>
    (steady_expect _).bind fun _ => h.bind fun body => ?_
  exact .pure (Stmt.foreach declared.1 declared.2 iter body)

theorem steady_stmtNested : ∀ n : Nat,
    Steady r (Stmt.relabel r) (stmtNested n) (stmtNested n) := by
  intro n
  induction n with
  | zero => exact steady_simpleStmt hid
  | succ n ih =>
    refine steady_place.bind fun pos => ?_
    rw [r.line_pos]
    refine steady_token.bind fun found => ?_
    have hsimple := steady_simpleStmt hid
    cases found with
    | symbol sign =>
      cases sign with
      | lBrace =>
        refine steady_skip.bind fun _ => (steady_blockItems ih n).bind fun stmts => ?_
        rw [← Stmt.relabel_block]
        exact .pure (Stmt.block stmts)
      | _ => exact hsimple
    | keyword word =>
      cases word with
      | if_ => exact steady_skip.bind fun _ => steady_branchStmt hid ih
      | foreach => exact steady_skip.bind fun _ => steady_foreachStmt hid ih
      | var => exact steady_skip.bind fun _ => steady_varStmt hid pos.line
      | _ => exact hsimple
    | ident name =>
      refine steady_declarator.bind fun found => ?_
      cases found with
      | none => exact hsimple
      | some declared => exact steady_typedStmt hid declared.1 declared.2 pos.line
    | _ => exact hsimple

/-- **Reading a statement looks at tokens only.** -/
theorem steady_stmt : Steady r (Stmt.relabel r) stmt stmt :=
  steady_remaining.bind fun n => steady_stmtNested hid n

theorem steady_stmtsToEnd : ∀ n : Nat,
    Steady r (List.map (Stmt.relabel r)) (stmtsToEnd n) (stmtsToEnd n) := by
  intro n
  induction n with
  | zero => exact .pure []
  | succ n ih =>
    refine steady_token.bind fun found => .ite (.pure []) ?_
    exact (steady_stmt hid).bind fun first => ih.bind fun rest => .pure (first :: rest)

/-- **Reading a program looks at tokens only.** -/
theorem steady_program : Steady r (Program.relabel r) program program := by
  refine steady_remaining.bind fun n => (steady_stmtsToEnd hid n).bind fun stmts => ?_
  exact steady_get.bind fun s => .pure (⟨stmts, s.nextId⟩ : Program)

end

end Parser

end ListSugar
