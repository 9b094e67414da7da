import Marginalia.CommandLine

/-
  This file is the program: it reads frames from its input,
  hands them to the server, and writes what the server sends.

  Files are read when the server first needs them.  A step of
  the server that needs files not read so far is taken again
  with their contents.

  Key definitions include:
    * `Program.readFile?`
    * `Program.perform`
    * `Program.converse`
    * `main`
-/

namespace Marginalia

namespace Program

------------------------------------------------------------
-- Reading
------------------------------------------------------------

/- Some bytes as an array. -/
def pack (s : Bytes) : ByteArray :=
  ⟨s.toArray⟩

/-
  All that an open file holds.  What cannot be read, such as a
  directory, is empty.
-/
def readAll (handle : IO.FS.Handle) : IO Bytes := do
  try
    let content ← handle.readBinToEnd
    return content.data.toList
  catch _ => return []

/- The content of a file, if it can be opened. -/
def readFile? (path : Bytes) : IO (Option Bytes) := do
  match String.fromUTF8? (pack path) with
  | none => return none
  | some name =>
      try
        let handle ← IO.FS.Handle.mk name .read
        return some (← readAll handle)
      catch _ => return none

/- Read the header of a frame, given what was read of it in reverse. -/
partial def readHead (input : IO.FS.Stream) (before : Bytes) : IO Bytes := do
  match (← input.read 1).data.toList with
  | [] => return before.reverse
  | b :: _ =>
      let all := b :: before
      if b == Ascii.lf && Frame.isHeadComplete all.reverse then
        return all.reverse
      else readHead input all

/- Read `n` bytes, or as many as there are. -/
partial def readBytes
    (input : IO.FS.Stream)
    (n : Nat)
    (before : ByteArray) : IO Bytes := do
  if before.size < n then
    let more ← input.read (n - before.size).toUSize
    if more.isEmpty then return before.data.toList
    else readBytes input n (before ++ more)
  else return before.data.toList

/- Read a frame. -/
def readFrame (input : IO.FS.Stream) : IO Bytes := do
  let head ← readHead input []
  let body ← readBytes input (Frame.awaited head) ByteArray.empty
  return head ++ body

------------------------------------------------------------
-- Writing
------------------------------------------------------------

/- Write a line for the user. -/
def writeLine (line : Bytes) : IO Unit := do
  let stream ← IO.getStderr
  stream.write (pack (line ++ [Ascii.lf]))
  stream.flush

/- Write what an event shows. -/
def writeEvent (environment : Environment) : Event → IO Unit
| .handled _ => pure ()
| .answered _ => pure ()
| .sent frame => do
    let stream ← IO.getStdout
    stream.write (pack (Frame.encode frame.compact))
    stream.flush
| .remarked remark =>
    (CommandLine.remarkLines environment [remark]).forM writeLine

/- Write what the events of a turn show, and forget them. -/
def writeEvents (environment : Environment) (turn : Turn) : IO Turn := do
  turn.events.reverse.forM (writeEvent environment)
  return { turn with events := [] }

------------------------------------------------------------
-- Serving
------------------------------------------------------------

/- The files that a turn needed, other than those already read. -/
def missing
    (contents : List (Bytes × Option Bytes))
    (turn : Turn) : List Bytes :=
  (turn.events.filterMap Event.remark?).filterMap (fun remark =>
    match remark with
    | .loading _ path =>
        let name := Path.fileName path
        if contents.any (fun c => c.1 == name) then none else some name
    | _ => none)

/- Take a step with the contents of all files that it needs. -/
partial def perform
    (step : Files → Turn)
    (contents : List (Bytes × Option Bytes)) : IO Turn := do
  let turn := step (fun path =>
    ((contents.find? (fun c => c.1 == path)).map Prod.snd).join)
  match missing contents turn with
  | [] => return turn
  | path :: _ => perform step ((path, ← readFile? path) :: contents)

/- Take a step, and write what it shows. -/
def take
    (environment : Environment)
    (step : Files → Turn) : IO Turn := do
  writeEvents environment (← perform step [])

/- Answer one frame after the other, up to the end of the input. -/
partial def converse
    (environment : Environment)
    (input : IO.FS.Stream)
    (turn : Turn) : IO Turn := do
  let frame ← readFrame input
  let turn ← (Incoming.ofStream frame).foldlM
    (fun turn incoming =>
      take environment (fun files => turn.receive files incoming))
    turn
  if turn.server.isOver || !(Frame.decode frame).1.goesOn then
    take environment (fun files => turn.finish files)
  else converse environment input turn

/- Serve with the grammars of a directory. -/
def serve (environment : Environment) (directory : Bytes) : IO Nat := do
  let content? ←
    readFile? (Path.fileName (CommandLine.descriptorFile directory))
  match CommandLine.start? (fun _ => content?) directory with
  | none => return CommandLine.crashCode
  | some (server, remarks) => do
      (CommandLine.remarkLines environment remarks).forM writeLine
      let turn ← converse environment (← IO.getStdin) ⟨server, []⟩
      return CommandLine.exitCode turn.server

/- The directory of the grammars unless told otherwise. -/
def defaultDirectory : Bytes :=
  utf8 "grammars"

/- The surroundings of the process. -/
def environment : IO Environment := do
  let directory? ← IO.getEnv Environment.directoryVariable
  let remarks? ← IO.getEnv Environment.remarksVariable
  return Environment.ofVariables (fun name =>
    if name = Environment.directoryVariable then directory?.map utf8
    else if name = Environment.remarksVariable then remarks?.map utf8
    else none)

/- Do what the arguments ask for. -/
def run (args : List Bytes) : IO Nat := do
  match Invocation.ofArguments args with
  | .serve chosen => do
      let environment ← environment
      serve environment
        (CommandLine.grammarDirectory environment defaultDirectory chosen)
  | .help => do
      writeLine CommandLine.usage
      return CommandLine.helpCode
  | .misuse => do
      writeLine CommandLine.usage
      return CommandLine.misuseCode

end Program

end Marginalia

/- Run the server, and return its exit code. -/
def main (args : List String) : IO UInt32 := do
  return (← Marginalia.Program.run (args.map Marginalia.utf8)).toUInt32
