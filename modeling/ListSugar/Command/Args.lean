/-
The words of a command.

A command is a word for its task and a file, with options before or after the file.
An option takes its value from the same word (`--container=C`, `-oOUT`, `-o=OUT`) or
from the next one, which then must not look like an option.  The word `--` makes all
that follow it plain.  An unknown option, an option given twice, a value that is not
allowed, and any number of files but one make the words no command at all.
-/
import ListSugar.Desugar.Report

namespace ListSugar.Command

/-- What a command does with the desugared text. -/
inductive Task where
  /-- Writes it to a file, or prints it. -/
  | emit (output : Option String)
  /-- Lists the literals only. -/
  | check
deriving DecidableEq, Repr

/-- A command. -/
structure Request where
  task : Task
  /-- The file to be read. -/
  file : String
  options : Options
deriving DecidableEq, Repr

/-- The options of the commands. -/
inductive Key where
  | output
  | container
  | onUnresolved
deriving DecidableEq, Repr

/-- One word of a command. -/
inductive Word where
  /-- A file or a value. -/
  | plain (text : String)
  /-- An option, with its value if the word holds it. -/
  | option (key : Key) (value : Option String)
  /-- The mark after which every word is plain. -/
  | separator
  /-- Something that looks like an option and is none. -/
  | unknown
deriving DecidableEq, Repr

namespace Word

/-- The option with a long name. -/
def longKey? (name : String) : Option Key :=
  match name with
  | "output" => some .output
  | "container" => some .container
  | "on-unresolved" => some .onUnresolved
  | _ => none

/-- A word after two dashes: a name, and a value if an equals sign follows it. -/
def ofLong (cs : List Char) : Word :=
  match longKey? (String.ofList (cs.takeWhile (· != '='))) with
  | none => .unknown
  | some key =>
    match cs.dropWhile (· != '=') with
    | [] => .option key none
    | _ :: value => .option key (some (String.ofList value))

/-- A word after one dash: the letter `o`, and a value if anything follows it. -/
def ofShort : List Char → Word
  | ['o'] => .option .output none
  | 'o' :: '=' :: value => .option .output (some (String.ofList value))
  | 'o' :: value => .option .output (some (String.ofList value))
  | _ => .unknown

/-- What a word is.  A lone dash is plain. -/
def ofText (text : String) : Word :=
  match text.toList with
  | ['-', '-'] => .separator
  | '-' :: '-' :: name => ofLong name
  | ['-'] => .plain text
  | '-' :: letters => ofShort letters
  | _ => .plain text

end Word

/-- The words of a command so far. -/
structure Gathered where
  output : Option String := none
  container : Option String := none
  onUnresolved : Option Policy := none
  files : List String := []

namespace Gathered

/-- The policy with the given name. -/
def policy? (name : String) : Option Policy :=
  match name with
  | "abstain" => some .abstain
  | "proceed" => some .proceed
  | _ => none

/-- Gives an option its value, unless it has one or does not allow this one. -/
def set? (g : Gathered) (key : Key) (value : String) : Option Gathered :=
  match key with
  | .output => if g.output.isSome then none else some { g with output := some value }
  | .container => if g.container.isSome then none else some { g with container := some value }
  | .onUnresolved =>
    match g.onUnresolved, policy? value with
    | none, some policy => some { g with onUnresolved := some policy }
    | _, _ => none

/-- Adds one more file. -/
def addFile (g : Gathered) (file : String) : Gathered := { g with files := g.files ++ [file] }

/-- Adds the words of a command that allows the options `allowed`. -/
def add (allowed : Key → Bool) : List String → Gathered → Option Gathered
  | [], g => some g
  | word :: rest, g =>
    match Word.ofText word with
    | .plain text => add allowed rest (g.addFile text)
    | .separator => some (rest.foldl addFile g)
    | .unknown => none
    | .option key (some value) =>
      if allowed key then (g.set? key value).bind (add allowed rest) else none
    | .option key none =>
      match rest with
      | [] => none
      | next :: rest =>
        match Word.ofText next with
        | .plain value =>
          if allowed key then (g.set? key value).bind (add allowed rest) else none
        | _ => none

/-- The choices made, with the defaults for those not made. -/
def options (g : Gathered) : Options where
  container := g.container.getD "List"
  onUnresolved := g.onUnresolved.getD .abstain

/-- The command for the one file given. -/
def request? (g : Gathered) (task : Task) : Option Request :=
  match g.files with
  | [file] => some ⟨task, file, g.options⟩
  | _ => none

end Gathered

namespace Request

/-- The command that words form. -/
def ofWords? : List String → Option Request
  | "rewrite" :: rest =>
    (Gathered.add (fun _ => true) rest {}).bind fun g => g.request? (.emit g.output)
  | "check" :: rest =>
    (Gathered.add (fun key => key != .output) rest {}).bind fun g => g.request? .check
  | _ => none

end Request

end ListSugar.Command
