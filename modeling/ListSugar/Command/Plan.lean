/-
What a command prints, writes and returns.

Once the file of a command has been read, the command is settled: it prints, and at
most writes one file first.  `plan` says so as a value, which is then carried out on
a tree of files here and on those of the system by the program.

A text that cannot be read or is no program gives its reason and changes nothing.
Otherwise the result is written or listed, and its defects make the command fail
after that.
-/
import ListSugar.Command.Args
import ListSugar.Command.FileTree
import ListSugar.Command.Paint
import ListSugar.Source

namespace ListSugar.Command

/-- What a command prints, and its exit code. -/
structure Reply where
  stdout : String
  stderr : String
  code : Nat
deriving DecidableEq, Repr

namespace Reply

/-- The reply of a command that fails with one red line. -/
def failure (style : Style) (message : String) : Reply :=
  ⟨"", style.paint .red message ++ "\n", 1⟩

end Reply

/-- What is left to do once the file of a command has been read. -/
inductive Plan where
  /-- Print. -/
  | reply (r : Reply)
  /-- Write a text to a file, then print. -/
  | write (path text : String) (after : Reply)

/-- The lines of several texts, one each. -/
def lines (texts : List String) : String :=
  texts.foldr (fun text rest => text ++ "\n" ++ rest) ""

/-- The exit code for a program with the given defects. -/
def exitCode (diagnostics : List Diagnostic) : Nat := if diagnostics.isEmpty then 0 else 1

/-- The message of a file that cannot be read. -/
def cannotOpen (file : String) (e : FileError) : String :=
  "Cannot open file '" ++ file ++ "': " ++ e.text

/-- The message of a file that cannot be written. -/
def cannotWrite (file : String) (e : FileError) : String :=
  "Cannot write file '" ++ file ++ "': " ++ e.text

/-! ### Listing the literals -/

/-- What a literal is made of. -/
def siteContent (container : String) (s : Site) : String :=
  if s.count = 0 then "empty " ++ container ++ "<" ++ s.ty.text ++ ">"
  else toString s.count ++ " element(s) of " ++ s.ty.text

/-- What became of a literal. -/
def outcomeText (style : Style) : Outcome → String
  | .expanded => style.paint .green "rewritten"
  | .abstained => style.paint .yellow "abstained"

/-- The line of one literal. -/
def siteLine (style : Style) (container : String) (s : Site) : String :=
  "  " ++ s.pos.text ++ " " ++ outcomeText style s.outcome ++ ": " ++ siteContent container s

/-- The list of the literals of a file, their numbers, and the defects. -/
def checkReply (style : Style) (request : Request) (d : Desugared) : Reply where
  stdout := lines (
    ["Check: " ++ style.paint .cyan request.file]
    ++ d.report.sites.map (siteLine style request.options.container)
    ++ ["  " ++ toString d.report.expanded ++ " rewritten, " ++ toString d.report.abstained
      ++ " abstained"]
    ++ d.diagnostics.map fun defect => "  " ++ style.paint .red defect.text)
  stderr := ""
  code := exitCode d.diagnostics

/-! ### The result as a text -/

/-- The reply that prints `stdout` and the defects of a file. -/
def emitReply (style : Style) (file stdout : String) (d : Desugared) : Reply where
  stdout := stdout
  stderr := lines (d.diagnostics.map fun defect =>
    style.paint .red (file ++ ": " ++ defect.text))
  code := exitCode d.diagnostics

/-! ### The whole command -/

/-- What a command does with the outcome of reading its file. -/
def plan (style : Style) (request : Request) (source : Except FileError String) : Plan :=
  match source with
  | .error e => .reply (.failure style (cannotOpen request.file e))
  | .ok text =>
    match desugar text request.options with
    | .error e => .reply (.failure style (request.file ++ ": " ++ e.text))
    | .ok d =>
      match request.task with
      | .check => .reply (checkReply style request d)
      | .emit none => .reply (emitReply style request.file d.output d)
      | .emit (some path) => .write path d.output (emitReply style request.file "" d)

/-- Carries a plan out on a tree of files. -/
def Plan.run (style : Style) (t : FileTree) : Plan → Reply × FileTree
  | .reply r => (r, t)
  | .write path text after =>
    match t.write path text with
    | .ok changed => (after, changed)
    | .error e => (.failure style (cannotWrite path e), t)

/-- Carries a command out on a tree of files. -/
def Request.run (style : Style) (t : FileTree) (request : Request) : Reply × FileTree :=
  (plan style request (t.read request.file)).run style t

/-- The exit code for words that are no command. -/
def usageCode : Nat := 2

/-- Carries out the command that words form, if they form one. -/
def run (style : Style) (t : FileTree) (words : List String) : Option (Reply × FileTree) :=
  (Request.ofWords? words).map (·.run style t)

end ListSugar.Command
