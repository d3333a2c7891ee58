/-
Many readings from one stream.

A stream can be asked again and again for an expression, a statement or a program, also
after a reading that failed.  Numbers are never taken back: a reading that succeeds has
exactly the numbers that were given out for it, without a gap, and one that fails may lose
some, which nobody gets later.  So the trees that come out of one stream never share a
number, whatever was asked for and whatever failed in between.
-/
import ListSugar.Proofs.Grammar.Numbering
import ListSugar.Proofs.Grammar.Programs
import ListSugar.Proofs.Grammar.Steady

namespace ListSugar

/-- What can be asked of a stream. -/
inductive Call where
  | expr
  | stmt
  | program
deriving DecidableEq, Repr

/-- What a successful call gives. -/
inductive Reading where
  | expr (e : Expr)
  | stmt (st : Stmt)
  | program (p : Program)

namespace Reading

/-- The expressions that were read, in the order in which they are written. -/
def roots : Reading → List Expr
  | .expr e => [e]
  | .stmt st => st.roots
  | .program p => p.roots

/-- The numbers of all nodes that were read, those of the parts of a node before its own. -/
def ids (x : Reading) : List Nat := Expr.idsOf x.roots

end Reading

namespace Call

open ListSugar.Parser TokenStream

/-- The parser that answers a call. -/
def run : Call → Parser Reading
  | .expr => Reading.expr <$> Parser.expr
  | .stmt => Reading.stmt <$> Parser.stmt
  | .program => Reading.program <$> Parser.program

/-- What several calls give, one after the other; a call that fails leaves the stream where
it stopped, and the next one goes on from there. -/
def readings : List Call → TokenStream → List Reading
  | [], _ => []
  | c :: rest, s =>
    match c.run s with
    | .ok x t => x :: readings rest t
    | .error _ t => readings rest t

/-! ### One call -/

theorem map_eq_ok_iff {α β : Type} {f : α → β} {p : Parser α} {s t : TokenStream} {b : β} :
    (f <$> p) s = .ok b t ↔ ∃ a, p s = .ok a t ∧ b = f a := by
  rw [map_eq_pure_bind, bind_eq_ok_iff]
  constructor
  · rintro ⟨a, u, hp, h⟩
    obtain ⟨rfl, rfl⟩ := pure_eq_ok_iff.mp h
    exact ⟨a, hp, rfl⟩
  · rintro ⟨a, hp, rfl⟩
    exact ⟨a, t, hp, rfl⟩

theorem reached_map {α β : Type} (f : α → β) (p : Parser α) (s : TokenStream) :
    reached ((f <$> p) s) = reached (p s) := by
  show reached (EStateM.map f p s) = _
  unfold EStateM.map
  cases p s <;> rfl

/-- A call leaves a stream that has only moved forward, also when it fails. -/
theorem moves (c : Call) (s : TokenStream) : s.Moves (reached (c.run s)) := by
  have hid : ∀ n, Relabel.stay.id (n + 1) = Relabel.stay.id n + 1 := fun _ => rfl
  cases c with
  | expr =>
    rw [run, reached_map]
    exact (steady_expr hid).moves s
  | stmt =>
    rw [run, reached_map]
    exact (steady_stmt hid).moves s
  | program =>
    rw [run, reached_map]
    exact (steady_program hid).moves s

/-- The numbers of what a call gives are those given out while it was read. -/
theorem numbers_of_ok {c : Call} {s t : TokenStream} {x : Reading} (h : c.run s = .ok x t) :
    Expr.Numbers x.ids s t := by
  cases c with
  | expr =>
    obtain ⟨e, he, rfl⟩ := map_eq_ok_iff.mp h
    have hnumbers := (expr_spans he).numbers
    rwa [Expr.NumberedBetween, ← Expr.idsOf_singleton] at hnumbers
  | stmt =>
    obtain ⟨st, hst, rfl⟩ := map_eq_ok_iff.mp h
    rw [Parser.stmt, remaining_bind] at hst
    exact (stmtNested_spans (by simp) hst).numbers
  | program =>
    obtain ⟨p, hp, rfl⟩ := map_eq_ok_iff.mp h
    exact Stmt.spansAll_numbers (program_spans hp).1 fun _ _ => Stmt.Spans.numbers

theorem nextId_of_program {c : Call} {s t : TokenStream} {p : Program}
    (h : c.run s = .ok (.program p) t) : p.nextId = t.nextId := by
  cases c with
  | expr =>
    obtain ⟨e, -, he⟩ := map_eq_ok_iff.mp h
    cases he
  | stmt =>
    obtain ⟨st, -, hst⟩ := map_eq_ok_iff.mp h
    cases hst
  | program =>
    obtain ⟨q, hq, heq⟩ := map_eq_ok_iff.mp h
    cases heq
    exact (program_spans hq).2

/-! ### Many calls

What a call gives has the numbers from the counter before it to the counter after it, and
no call lowers the counter.  So the numbers grow from one result to the next, and those
that a failure took lie in between.
-/

/-- The numbers grow from one reading to the next, and none of them was given out before. -/
theorem ids_readings (calls : List Call) : ∀ s : TokenStream,
    ((readings calls s).flatMap Reading.ids).Pairwise (· < ·) ∧
      ∀ i ∈ (readings calls s).flatMap Reading.ids, s.nextId ≤ i := by
  induction calls with
  | nil =>
    intro s
    simp [readings]
  | cons c rest ih =>
    intro s
    rw [readings]
    split
    · next x t h =>
      obtain ⟨k, hk, hids⟩ := numbers_of_ok h
      obtain ⟨hpair, hbound⟩ := ih t
      rw [List.flatMap_cons, hids]
      refine ⟨List.pairwise_append.mpr ⟨List.pairwise_lt_range', hpair, ?_⟩, ?_⟩
      · intro i hi j hj
        have hle := hbound j hj
        rw [List.mem_range'_1] at hi
        omega
      · intro i hi
        rcases List.mem_append.mp hi with hi | hi
        · rw [List.mem_range'_1] at hi
          exact hi.1
        · have hle := hbound i hi
          omega
    · next e t h =>
      obtain ⟨hpair, hbound⟩ := ih t
      have hmoves := moves c s
      rw [h] at hmoves
      exact ⟨hpair, fun i hi => Nat.le_trans hmoves.nextId_le (hbound i hi)⟩

/-- **Nodes are numbered densely, parts first, and no number is given out twice.**  A call
that succeeds between the counters `k` and `k'` gives nodes with the numbers `k`, `k + 1`,
.., `k' - 1`; one that fails does not turn the counter back; and whatever is asked of one
stream, the nodes of all that it gives have different numbers. -/
theorem ids_dense (s : TokenStream) :
    (∀ c x t, run c s = .ok x t → s.nextId ≤ t.nextId ∧
      x.ids = List.range' s.nextId (t.nextId - s.nextId) ∧
      ∀ p, x = .program p → p.nextId = t.nextId) ∧
    (∀ c e t, run c s = .error e t → s.nextId ≤ t.nextId) ∧
    ∀ calls, ((readings calls s).flatMap Reading.ids).Nodup := by
  refine ⟨fun c x t h => ?_, fun c e t h => ?_, fun calls => ?_⟩
  · obtain ⟨k, hk, hids⟩ := numbers_of_ok h
    refine ⟨by omega, ?_, ?_⟩
    · rw [hids, hk, Nat.add_sub_cancel_left]
    · rintro p rfl
      exact nextId_of_program h
  · have hmoves := moves c s
    rw [h] at hmoves
    exact hmoves.nextId_le
  · exact (ids_readings calls s).1.imp Nat.ne_of_lt

/-- On `( b ; c ;` a call for an expression fails and loses the number zero; a statement
and a program get the next ones. -/
theorem ids_dense_after_failure :
    let s : TokenStream := ⟨[⟨.symbol .lParen, ⟨1, 1⟩⟩, ⟨.ident "b", ⟨1, 3⟩⟩,
      ⟨.symbol .semi, ⟨1, 5⟩⟩, ⟨.ident "c", ⟨1, 7⟩⟩, ⟨.symbol .semi, ⟨1, 8⟩⟩], ⟨1, 9⟩, 0⟩
    let t : TokenStream := ⟨s.unread.drop 2, ⟨1, 9⟩, 1⟩
    let u : TokenStream := ⟨s.unread.drop 3, ⟨1, 9⟩, 2⟩
    ∃ e x y v, run .expr s = .error e t ∧ run .stmt t = .ok x u ∧ run .program u = .ok y v ∧
      s.nextId ≤ t.nextId ∧ x.ids = [1] ∧ y.ids = [2] ∧
      ((readings [.expr, .stmt, .program] s).flatMap Reading.ids).Nodup := by
  intro s t u
  have hfail := (ids_dense s).2.1 .expr _ t rfl
  have hstmt := (ids_dense t).1 .stmt _ u rfl
  have hprogram := (ids_dense u).1 .program _ _ rfl
  exact ⟨_, _, _, _, rfl, rfl, rfl, hfail, hstmt.2.1, hprogram.2.1, (ids_dense s).2.2 _⟩

end Call

end ListSugar
