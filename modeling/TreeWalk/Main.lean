import TreeWalk.CommandLine

/-!
# The program

The outer layer of the command line: it reads input, hands it to `TreeWalk.CommandLine` and
`TreeWalk.Repl`, and writes what they answer.
-/

namespace TreeWalk

namespace Main

/-- Writes what a process leaves behind and yields its exit status. -/
def finish (exit : CommandLine.Exit) : IO UInt32 := do
  IO.print exit.stdout
  IO.eprint exit.stderr
  return exit.status

/-- The bytes of the next line, with the line feed that ends it. -/
partial def readLine (input : IO.FS.Stream) (line : ByteArray) : IO ByteArray := do
  let bytes ← input.read 1
  if bytes.isEmpty then return line
  else if bytes.toList = [10] then return line ++ bytes
  else readLine input (line ++ bytes)

/-- Prompts, reads a line and answers it, until the input ends or a line cannot be answered.  All of
it goes to standard output. -/
partial def loop (input : IO.FS.Stream) (session : Session) : IO Repl.Ending := do
  IO.print Repl.prompt
  (← IO.getStdout).flush
  let line ← readLine input .empty
  if line.isEmpty then return .normal
  else
    match String.fromUTF8? line with
    | none => return .notText
    | some text =>
      let answer := Repl.reply session text
      IO.print (Repl.output answer.writes)
      match answer.ending with
      | .normal => loop input answer.session
      | ending => return ending

/-- Reads a file and evaluates it. -/
def runFile (path : String) : IO UInt32 := do
  match ← (IO.FS.readBinFile path).toBaseIO with
  | .ok contents => finish (CommandLine.fileBytes contents)
  | .error (.noFileOrDirectory ..) => finish (CommandLine.InputFailure.missing.exit "")
  | .error _ => finish (CommandLine.InputFailure.directory.exit "")

/-- Greets the user and starts the interactive loop. -/
def runLoop : IO UInt32 := do
  IO.print CommandLine.greeting
  let ending ← loop (← IO.getStdin) .fresh
  finish (CommandLine.loopExit ending "")

end Main

end TreeWalk

/-- Evaluates the file named by the argument, or starts the interactive loop without one. -/
def main : List String → IO UInt32
  | [] => TreeWalk.Main.runLoop
  | path :: _ => TreeWalk.Main.runFile path
