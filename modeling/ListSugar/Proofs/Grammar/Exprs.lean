/-
The grammar of expressions, apart from the parser.

Three things are said about a tree.  `Spans` says how it lies on a stream of tokens:
which tokens stand between its parts, which number and place each node has, and where
the stream is afterwards.  It is the full record of one successful reading, and
whatever is known of trees that were read follows from it.  `Spells` forgets numbers
and places and keeps the tokens: a tree is spelled by one list of tokens, except that
an initializer may end with a comma, and has to when its last element is missing.
`WellFormed` forgets the tokens too: it is what makes a tree one that can be read at
all, since nothing is put in parentheses when it is written.

A missing operand has no tokens.  It is read only in front of a token that can end an
operand, so a tree that ends in one (`endsMissing`) restricts what may follow it.
-/
import ListSugar.Proofs.Grammar.Types
import ListSugar.Proofs.Trees

namespace ListSugar

/-! ### Operators and literals as tokens -/

/-- The sign of an operator. -/
def UnaryOp.sign : UnaryOp → Symbol
  | .neg => .minus
  | .not => .bang

namespace BinaryOp

/-- The sign of an operator. -/
def sign : BinaryOp → Symbol
  | .add => .plus
  | .sub => .minus
  | .mul => .star
  | .div => .slash
  | .rem => .percent
  | .eq => .eq
  | .neq => .neq
  | .lt => .lt
  | .gt => .gt
  | .lte => .lte
  | .gte => .gte
  | .and => .andAnd
  | .or => .orOr

/-- How tightly an operator binds: the place of its level among all levels. -/
def rank : BinaryOp → Nat
  | .or => 0
  | .and => 1
  | .eq => 2
  | .neq => 2
  | .lt => 3
  | .gt => 3
  | .lte => 3
  | .gte => 3
  | .add => 4
  | .sub => 4
  | .mul => 5
  | .div => 5
  | .rem => 5

theorem rank_lt (op : BinaryOp) : op.rank < 6 := by
  cases op <;> decide

end BinaryOp

/-- The token that writes a literal. -/
def Literal.token : Literal → Token
  | .int value => .int value
  | .double value => .double value
  | .str value => .str value
  | .char value => .char value
  | .bool value => .bool value
  | .null => .null

theorem Token.literal?_eq_some_iff {t : Token} {value : Literal} :
    t.literal? = some value ↔ t = value.token := by
  constructor
  · intro h
    unfold Token.literal? at h
    split at h <;> cases h <;> rfl
  · rintro rfl
    cases value <;> rfl

theorem Token.unaryOp?_eq_some_iff {t : Token} {op : UnaryOp} :
    t.unaryOp? = some op ↔ t = .symbol op.sign := by
  constructor
  · intro h
    unfold Token.unaryOp? at h
    split at h <;> cases h <;> rfl
  · rintro rfl
    cases op <;> rfl

/-- A level holds exactly the operators whose rank is its place. -/
theorem Level.eq_some_iff {i : Nat} {level : Level} (hi : Level.all[i]? = some level)
    {t : Token} {op : BinaryOp} : level t = some op ↔ t = .symbol op.sign ∧ op.rank = i := by
  have hlt : i < 6 := by
    have := (List.getElem?_eq_some_iff.mp hi).1
    simpa [Level.all] using this
  constructor
  · intro h
    obtain rfl | rfl | rfl | rfl | rfl | rfl :
      i = 0 ∨ i = 1 ∨ i = 2 ∨ i = 3 ∨ i = 4 ∨ i = 5 := by omega
    all_goals cases hi
    · unfold Level.disjunction at h
      split at h <;> cases h
      exact ⟨rfl, rfl⟩
    · unfold Level.conjunction at h
      split at h <;> cases h
      exact ⟨rfl, rfl⟩
    · unfold Level.equality at h
      split at h <;> cases h <;> exact ⟨rfl, rfl⟩
    · unfold Level.comparison at h
      split at h <;> cases h <;> exact ⟨rfl, rfl⟩
    · unfold Level.sum at h
      split at h <;> cases h <;> exact ⟨rfl, rfl⟩
    · unfold Level.product at h
      split at h <;> cases h <;> exact ⟨rfl, rfl⟩
  · rintro ⟨rfl, rfl⟩
    cases op <;> cases hi <;> rfl

/-- The levels from place `i` on begin with the level at that place. -/
theorem Level.drop_eq_cons {i : Nat} {level : Level} {tighter : List Level}
    (h : Level.all.drop i = level :: tighter) :
    i < 6 ∧ Level.all[i]? = some level ∧ Level.all.drop (i + 1) = tighter := by
  refine ⟨?_, ?_, ?_⟩
  · have := congrArg List.length h
    simp [Level.all] at this
    omega
  · rw [← List.head?_drop, h]
    rfl
  · rw [← List.tail_drop, h]
    rfl

namespace Expr

/-! ### Trees that can be read

Nothing is put in parentheses when a tree is written, so an operator has to find its
operands by how tightly they bind.  An operand that is missing has no tokens, so the
tokens around it have to show that something is missing.  `Formed` asks for both at one
node.
-/

/-- How tightly the root of a tree binds: the rank of a binary operator, six for an
operator before its operand, seven for everything that suffixes can follow. -/
def rank : Expr → Nat
  | .binary _ op _ _ => op.rank
  | .unary _ _ _ => 6
  | _ => 7

/-- Whether the last operand of the tree is missing. -/
def endsMissing : Expr → Bool
  | .missing _ => true
  | .unary _ _ operand => operand.endsMissing
  | .binary _ _ _ right => right.endsMissing
  | _ => false

/-- Whether the trees are a single missing one, which would be written as no tree. -/
def loneMissing : List Expr → Bool
  | [e] => e.isMissing
  | _ => false

/-- What makes one node readable, given that its parts are. -/
def Formed : Expr → Prop
  | .unary _ _ operand => 6 ≤ operand.rank
  | .binary _ op left right => op.rank ≤ left.rank ∧ op.rank < right.rank ∧
      (left.endsMissing = true → (Token.symbol op.sign).endsOperand = true)
  | .member _ receiver _ => receiver.rank = 7 ∧ receiver.isMissing = false
  | .call _ callee args =>
      callee.rank = 7 ∧ callee.isMissing = false ∧ loneMissing args = false
  | .index _ receiver args => receiver.rank = 7 ∧ loneMissing args = false
  | .new _ _ args init => (args.isSome ∨ init.isSome) ∧ loneMissing (args.getD []) = false
  | _ => True

/-- Every node of the tree can be read back from its tokens. -/
def WellFormed (e : Expr) : Prop := ∀ n ∈ e.nodes, n.Formed

theorem wellFormed_iff {e : Expr} :
    e.WellFormed ↔ e.Formed ∧ ∀ c ∈ e.children, c.WellFormed :=
  forall_nodes_iff

theorem WellFormed.formed {e : Expr} (h : e.WellFormed) : e.Formed := (wellFormed_iff.mp h).1

theorem WellFormed.child {e c : Expr} (h : e.WellFormed) (hc : c ∈ e.children) :
    c.WellFormed := (wellFormed_iff.mp h).2 c hc

/-- The type of a construction is known in every part. -/
def ResolvedNode : Expr → Prop
  | .new _ ty _ _ => ty.isResolved = true
  | _ => True

/-- The types of all constructions in the tree are known in every part. -/
def Resolved (e : Expr) : Prop := ∀ n ∈ e.nodes, n.ResolvedNode

theorem resolved_iff {e : Expr} :
    e.Resolved ↔ e.ResolvedNode ∧ ∀ c ∈ e.children, c.Resolved :=
  forall_nodes_iff

/-! ### Trimmed trees -/

@[simp] theorem rank_trimmed (e : Expr) : e.trimmed.rank = e.rank := by
  cases e <;> rfl

@[simp] theorem endsMissing_trimmed (e : Expr) : e.trimmed.endsMissing = e.endsMissing := by
  induction e using children_induction with
  | step e ih =>
    cases e with
    | unary m op operand => exact ih operand (by simp [children])
    | binary m op left right => exact ih right (by simp [children])
    | _ => rfl

theorem loneMissing_trimmedAll (es : List Expr) :
    loneMissing (trimmedAll es) = loneMissing es := by
  match es with
  | [] => rfl
  | [e] => exact isMissing_trimmed e
  | _ :: _ :: _ => rfl

theorem Formed.trimmed {e : Expr} (h : e.Formed) : e.trimmed.Formed := by
  cases e with
  | unary m op operand => simpa [Expr.trimmed, Formed] using h
  | binary m op left right => simpa [Expr.trimmed, Formed] using h
  | member m receiver name => simpa [Expr.trimmed, Formed] using h
  | call m callee args => simpa [Expr.trimmed, Formed, loneMissing_trimmedAll] using h
  | index m receiver args => simpa [Expr.trimmed, Formed, loneMissing_trimmedAll] using h
  | new m ty args init =>
    obtain ⟨hpart, hlone⟩ := h
    refine ⟨?_, ?_⟩
    · cases args <;> cases init <;> simp_all [trimmedPart]
    · cases args with
      | none => rfl
      | some es => exact (loneMissing_trimmedAll es).trans hlone
  | _ => exact trivial

theorem mem_of_mem_dropLastMissing {es : List Expr} {e : Expr} (h : e ∈ dropLastMissing es) :
    e ∈ es := by
  unfold dropLastMissing at h
  split at h
  · cases h
  · split at h
    · exact List.dropLast_subset es h
    · exact h

/-- The parts of a trimmed tree are trimmed parts of the tree. -/
theorem exists_of_mem_children_trimmed {e c : Expr} (h : c ∈ e.trimmed.children) :
    ∃ c' ∈ e.children, c = c'.trimmed := by
  cases e with
  | missing m => cases h
  | literal m value => cases h
  | ident m name => cases h
  | paren m inner => simpa [Expr.trimmed, children] using h
  | unary m op operand => simpa [Expr.trimmed, children] using h
  | binary m op left right => simpa [Expr.trimmed, children] using h
  | member m receiver name => simpa [Expr.trimmed, children] using h
  | call m callee args =>
    rcases (by simpa [Expr.trimmed, children, trimmedAll_eq] using h :
      c = callee.trimmed ∨ ∃ a ∈ args, a.trimmed = c) with rfl | ⟨a, ha, rfl⟩
    · exact ⟨callee, by simp [children], rfl⟩
    · exact ⟨a, by simp [children, ha], rfl⟩
  | index m receiver args =>
    rcases (by simpa [Expr.trimmed, children, trimmedAll_eq] using h :
      c = receiver.trimmed ∨ ∃ a ∈ args, a.trimmed = c) with rfl | ⟨a, ha, rfl⟩
    · exact ⟨receiver, by simp [children], rfl⟩
    · exact ⟨a, by simp [children, ha], rfl⟩
  | new m ty args init =>
    rcases List.mem_append.mp h with h | h
    · cases args with
      | none => cases h
      | some es =>
        obtain ⟨a, ha, rfl⟩ : ∃ a ∈ es, a.trimmed = c := by
          simpa [trimmedPart, trimmedAll_eq] using h
        exact ⟨a, by simp [children, ha], rfl⟩
    · cases init with
      | none => cases h
      | some es =>
        obtain ⟨a, ha, rfl⟩ : ∃ a ∈ es, a.trimmed = c := by
          have := mem_of_mem_dropLastMissing h
          simpa [trimmedAll_eq] using this
        exact ⟨a, by simp [children, ha], rfl⟩

/-- What passes from every node to its trimmed form passes to all nodes of a trimmed tree. -/
theorem forall_nodes_trimmed {P : Expr → Prop} (hP : ∀ n, P n → P n.trimmed) {e : Expr} :
    (∀ n ∈ e.nodes, P n) → ∀ n ∈ e.trimmed.nodes, P n := by
  induction e using children_induction with
  | step e ih =>
    intro h
    obtain ⟨hroot, hparts⟩ := forall_nodes_iff.mp h
    refine forall_nodes_iff.mpr ⟨hP e hroot, fun c hc => ?_⟩
    obtain ⟨c', hc', rfl⟩ := exists_of_mem_children_trimmed hc
    exact ih c' hc' (hparts c' hc')

theorem WellFormed.trimmed {e : Expr} (h : e.WellFormed) : e.trimmed.WellFormed :=
  forall_nodes_trimmed (fun _ hn => hn.trimmed) h

theorem Resolved.trimmed {e : Expr} (h : e.Resolved) : e.trimmed.Resolved := by
  refine forall_nodes_trimmed (fun n hn => ?_) h
  cases n with
  | new m ty args init => exact hn
  | _ => exact trivial

/-! ### The tokens of a tree -/

mutual

/-- The tokens `ts` write the tree. -/
def Spells : Expr → List Token → Prop
  | .missing _, ts => ts = []
  | .literal _ value, ts => ts = [value.token]
  | .ident _ name, ts => ts = [.ident name]
  | .paren _ inner, ts =>
    ∃ us, inner.Spells us ∧ ts = .symbol .lParen :: (us ++ [.symbol .rParen])
  | .unary _ op operand, ts => ∃ us, operand.Spells us ∧ ts = .symbol op.sign :: us
  | .binary _ op left right, ts =>
    ∃ us vs, left.Spells us ∧ right.Spells vs ∧ ts = us ++ .symbol op.sign :: vs
  | .member _ receiver name, ts =>
    ∃ us, receiver.Spells us ∧ ts = us ++ [.symbol .dot, .ident name]
  | .call _ callee args, ts => ∃ us vs, callee.Spells us ∧ SpellsAll args vs ∧
      ts = us ++ .symbol .lParen :: (vs ++ [.symbol .rParen])
  | .index _ receiver args, ts => ∃ us vs, receiver.Spells us ∧ SpellsAll args vs ∧
      ts = us ++ .symbol .lBracket :: (vs ++ [.symbol .rBracket])
  | .new _ ty args init, ts => ∃ us vs, SpellsArguments args us ∧ SpellsInitializer init vs ∧
      ts = .keyword .new :: (ty.tokens ++ (us ++ vs))

/-- The tokens write the trees with commas between them. -/
def SpellsAll : List Expr → List Token → Prop
  | [], ts => ts = []
  | e :: rest, ts => ∃ us vs, e.Spells us ∧ SpellsRest rest vs ∧ ts = us ++ vs

/-- The tokens write the trees, each after a comma. -/
def SpellsRest : List Expr → List Token → Prop
  | [], ts => ts = []
  | e :: rest, ts => ∃ us vs, e.Spells us ∧ SpellsRest rest vs ∧ ts = .symbol .comma :: (us ++ vs)

/-- The tokens write the arguments of a construction. -/
def SpellsArguments : Option (List Expr) → List Token → Prop
  | none, ts => ts = []
  | some es, ts =>
    ∃ us, SpellsAll es us ∧ ts = .symbol .lParen :: (us ++ [.symbol .rParen])

/-- The tokens write the initializer of a construction.  A comma may stand at its end; it
has to when the last element is missing. -/
def SpellsInitializer : Option (List Expr) → List Token → Prop
  | none, ts => ts = []
  | some es, ts => ∃ us, SpellsAll es us ∧
      ((ts = .symbol .lBrace :: (us ++ [.symbol .rBrace]) ∧
          ∀ last ∈ es.getLast?, last.isMissing = false) ∨
        (ts = .symbol .lBrace :: (us ++ [.symbol .comma, .symbol .rBrace]) ∧ es ≠ []))

end

/-! ### A tree between two streams

A node takes its number when it is complete, so the number comes from the stream behind
its parts, and its place from the stream in front of them.  With both streams in the
relation, one reading is recorded whole, and nothing has to be remembered outside of it.
-/

/-- The trees stand between two streams up to and with a closing sign: none of them in
front of the sign itself, and otherwise as `between` says. -/
def Enclosed (close : Symbol) (es : List Expr) (between : TokenStream → TokenStream → Prop)
    (s t : TokenStream) : Prop :=
  (es = [] ∧ s.current.token = .symbol close ∧ t = s.advance) ∨
    (s.current.token ≠ .symbol close ∧
      ∃ u, between s u ∧ u.current.token = .symbol close ∧ t = u.advance)

mutual

/-- The tree was read between the streams `s` and `t`. -/
def Spans : Expr → TokenStream → TokenStream → Prop
  | .missing m, s, t =>
    s.current.token.endsOperand = true ∧ m = ⟨s.nextId, s.current.pos⟩ ∧ t = s.numbered
  | .literal m value, s, t =>
    s.current.token = value.token ∧ m = ⟨s.nextId, s.current.pos⟩ ∧ t = s.advance.numbered
  | .ident m name, s, t =>
    s.current.token = .ident name ∧ m = ⟨s.nextId, s.current.pos⟩ ∧ t = s.advance.numbered
  | .paren m inner, s, t => s.current.token = .symbol .lParen ∧ ∃ u, inner.Spans s.advance u ∧
      u.current.token = .symbol .rParen ∧ m = ⟨u.nextId, s.current.pos⟩ ∧ t = u.advance.numbered
  | .unary m op operand, s, t => s.current.token = .symbol op.sign ∧ 6 ≤ operand.rank ∧
      ∃ u, operand.Spans s.advance u ∧ m = ⟨u.nextId, s.current.pos⟩ ∧ t = u.numbered
  | .binary m op left right, s, t => op.rank ≤ left.rank ∧ op.rank < right.rank ∧
      ∃ u v, left.Spans s u ∧ u.current.token = .symbol op.sign ∧ right.Spans u.advance v ∧
        m = ⟨v.nextId, left.pos⟩ ∧ t = v.numbered
  | .member m receiver name, s, t => receiver.rank = 7 ∧ ∃ u, receiver.Spans s u ∧
      u.current.token = .symbol .dot ∧ u.advance.current.token = .ident name ∧
        m = ⟨u.nextId, receiver.pos⟩ ∧ t = u.advance.advance.numbered
  | .call m callee args, s, t => callee.rank = 7 ∧ ∃ u v, callee.Spans s u ∧
      u.current.token = .symbol .lParen ∧
        Enclosed .rParen args (fun s t => SpansAll args s t) u.advance v ∧
        m = ⟨v.nextId, callee.pos⟩ ∧ t = v.numbered
  | .index m receiver args, s, t => receiver.rank = 7 ∧ ∃ u v, (receiver.Spans s u ∨
      (receiver = .missing ⟨s.nextId, s.current.pos⟩ ∧ u = s.numbered)) ∧
      u.current.token = .symbol .lBracket ∧
        Enclosed .rBracket args (fun s t => SpansAll args s t) u.advance v ∧
        m = ⟨v.nextId, receiver.pos⟩ ∧ t = v.numbered
  | .new m ty args init, s, t => s.current.token = .keyword .new ∧
      (args.isSome ∨ init.isSome) ∧ ∃ u v w, Parser.TypeBetween ty s.advance u ∧
        SpansArguments args u v ∧ SpansInitializer init v w ∧
        m = ⟨w.nextId, s.current.pos⟩ ∧ t = w.numbered

/-- The trees were read one after the other, with commas between them. -/
def SpansAll : List Expr → TokenStream → TokenStream → Prop
  | [], _, _ => False
  | e :: rest, s, t => ∃ u, e.Spans s u ∧ ((rest = [] ∧ t = u) ∨
      (u.current.token = .symbol .comma ∧ SpansAll rest u.advance t))

/-- The arguments of a construction were read. -/
def SpansArguments : Option (List Expr) → TokenStream → TokenStream → Prop
  | none, s, t => s.current.token ≠ .symbol .lParen ∧ t = s
  | some es, s, t => s.current.token = .symbol .lParen ∧
      Enclosed .rParen es (fun s t => SpansAll es s t) s.advance t

/-- The initializer of a construction was read. -/
def SpansInitializer : Option (List Expr) → TokenStream → TokenStream → Prop
  | none, s, t => s.current.token ≠ .symbol .lBrace ∧ t = s
  | some es, s, t => s.current.token = .symbol .lBrace ∧ ∃ u, SpansElements es s.advance u ∧
      u.current.token = .symbol .rBrace ∧ t = u.advance

/-- The elements of an initializer were read, with the comma at their end if there is
one. -/
def SpansElements : List Expr → TokenStream → TokenStream → Prop
  | [], s, t => t = s
  | e :: rest, s, t => s.current.token ≠ .symbol .rBrace ∧ ∃ u, e.Spans s u ∧
      ((rest = [] ∧ t = u) ∨
        (u.current.token = .symbol .comma ∧ SpansElements rest u.advance t))

end

theorem spansAll_iff {es : List Expr} {s t : TokenStream} :
    SpansAll es s t ↔ Parser.Separated Spans es s t := by
  induction es generalizing s with
  | nil => simp [SpansAll, Parser.Separated]
  | cons e rest ih => simp only [SpansAll, Parser.Separated, ih]

end Expr

end ListSugar
