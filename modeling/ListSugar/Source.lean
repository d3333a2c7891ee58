/-
From source text to source text.

A text is read into a program, the types of the program as read are determined, its
list literals are expanded, and the result is checked and written in the canonical
layout.  Reading can fail; nothing after it can.
-/
import ListSugar.Desugar.Pass
import ListSugar.Diagnostic
import ListSugar.Program.Parser
import ListSugar.Program.Printer
import ListSugar.Token.Cursor
import ListSugar.Typing.Model

namespace ListSugar

/-- Why a text is no program. -/
inductive SourceError where
  | lex (error : LexError)
  | parse (error : ParseError)
deriving DecidableEq, Repr

/-- The report of a text that is no program. -/
def SourceError.text : SourceError → String
  | .lex error => error.text
  | .parse error => error.text

/-- The program that tokens form. -/
def Program.ofTokens (tokens : List Located) : Except ParseError Program :=
  match Parser.program (TokenStream.ofTokens tokens) with
  | .ok p _ => .ok p
  | .error e _ => .error e

/-- The program of a text. -/
def Program.ofText (source : String) : Except SourceError Program :=
  match tokenize source with
  | .error e => .error (.lex e)
  | .ok tokens => (Program.ofTokens tokens).mapError .parse

/-- What desugaring a text gives. -/
structure Desugared where
  /-- The program with its literals expanded. -/
  program : Program
  report : Report
  diagnostics : List Diagnostic
  /-- The program in the canonical layout. -/
  output : String
  /-- How many nodes of the program as read have a type. -/
  typedNodes : Nat
  /-- What was seen at the element accesses, in order. -/
  visits : List Desugar.Visit

namespace Program

/-- Determines the types of a program and expands its list literals. -/
def desugar (p : Program) (options : Options) : Desugared :=
  let model := Model.ofProgram p
  let setting : Desugar.Setting := ⟨options, model.typeOf⟩
  let walked := setting.stmts p.stmts p.nextId
  let result : Program := ⟨walked.value, walked.nextId⟩
  { program := result
    report := ⟨Desugar.sitesOf walked.visits⟩
    diagnostics := result.diagnostics
    output := result.render
    typedNodes := model.size
    visits := walked.visits }

end Program

/-- Reads a text and desugars its program. -/
def desugar (source : String) (options : Options) : Except SourceError Desugared :=
  (Program.ofText source).map (·.desugar options)

theorem desugar_eq_ok_iff {source : String} {options : Options} {d : Desugared} :
    desugar source options = .ok d ↔
      ∃ p, Program.ofText source = .ok p ∧ p.desugar options = d :=
  map_eq_ok_iff

theorem desugar_of_ofText {source : String} {p : Program} (h : Program.ofText source = .ok p)
    (options : Options) : desugar source options = .ok (p.desugar options) :=
  desugar_eq_ok_iff.mpr ⟨p, h, rfl⟩

/-- Desugars a text, then the output of that, and so on, for at most `rounds` rounds and
up to the first failure. -/
def desugarRounds (options : Options) : Nat → String → List (Except SourceError Desugared)
  | 0, _ => []
  | rounds + 1, source =>
    match desugar source options with
    | .error e => [.error e]
    | .ok d => .ok d :: desugarRounds options rounds d.output

end ListSugar
