/-
The program on the files of the system.

It reads the words of its command, the environment and one file, and carries out the
plan made of them.
-/
import ListSugar.Command.Plan

namespace ListSugar.Command

/-- The reason behind an error number, which some calls of the system give negated. -/
def FileError.ofNumber (number : UInt32) (unusual : FileError) : FileError :=
  if number = 20 ∨ -number = 20 then .notDirectory
  else if number = 21 ∨ -number = 21 then .isDirectory
  else if number = 36 ∨ -number = 36 then .nameTooLong
  else unusual

/-- The reason that the system gives for a failure. -/
def FileError.ofSystem (e : IO.Error) : FileError :=
  match e with
  | .noFileOrDirectory _ _ _ => .notFound
  | .inappropriateType _ number _ => .ofNumber number (.other (toString e))
  | .invalidArgument _ number _ => .ofNumber number (.other (toString e))
  | _ => .other (toString e)

/-- The text of a file of the system. -/
def readSystem (path : String) : IO (Except FileError String) := do
  try
    return FileTree.decode (← IO.FS.readBinFile path)
  catch e => return .error (.ofSystem e)

/-- Writes a file of the system. -/
def writeSystem (path text : String) : IO (Except FileError Unit) := do
  try
    IO.FS.writeFile path text
    return .ok ()
  catch e => return .error (.ofSystem e)

/-- Prints a reply and gives its exit code. -/
def Reply.print (r : Reply) : IO UInt32 := do
  IO.print r.stdout
  IO.eprint r.stderr
  return UInt32.ofNat r.code

/-- Carries a plan out on the files of the system. -/
def Plan.perform (style : Style) : Plan → IO UInt32
  | .reply r => r.print
  | .write path text after => do
    match ← writeSystem path text with
    | .ok () => after.print
    | .error e => (Reply.failure style (cannotWrite path e)).print

/-- The style that the environment of the program asks for. -/
def systemStyle : IO Style := do
  return .ofEnvironment (← IO.getEnv "CLICOLOR_FORCE") (← IO.getEnv "NO_COLOR")
    (← IO.getEnv "CLICOLOR") (← (← IO.getStdout).isTty)

/-- How the program is called. -/
def usage : String :=
  "Usage: list-sugar rewrite FILE [-o OUT] [--container C] [--on-unresolved abstain|proceed]\n"
    ++ "       list-sugar check FILE [--container C] [--on-unresolved abstain|proceed]"

end ListSugar.Command

/-- Runs the command that the arguments form. -/
def main (args : List String) : IO UInt32 := do
  match ListSugar.Command.Request.ofWords? args with
  | none =>
    IO.eprintln ListSugar.Command.usage
    return UInt32.ofNat ListSugar.Command.usageCode
  | some request =>
    let style ← ListSugar.Command.systemStyle
    (ListSugar.Command.plan style request
      (← ListSugar.Command.readSystem request.file)).perform style
