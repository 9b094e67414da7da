import Marginalia.Server.Session

/-
  This file defines the command line of the server: its options,
  where the grammars are looked for, and what a whole run leaves
  behind.

  Key definitions include:
    * `Invocation`, `Invocation.ofArguments`
    * `Environment`, `Environment.ofVariables`
    * `CommandLine.grammarDirectory`
    * `CommandLine.usage`
    * `RunResult`
    * `CommandLine.start?`, `CommandLine.run`
-/

namespace Marginalia

------------------------------------------------------------
-- Options
------------------------------------------------------------

/-
  What the arguments ask for: to serve with the grammars of a
  directory, which is empty if none was given, or to be told
  the usage, on request or because an argument is not known.
-/
inductive Invocation where
| serve (directory : Bytes)
| help
| misuse
deriving DecidableEq, Repr

namespace Invocation

/- The option that names a directory, joined to its value. -/
def joinedOption : Bytes :=
  utf8 "--grammars="

/- Read arguments after those that chose a directory. -/
def ofArgumentsAfter (chosen : Bytes) : List Bytes → Invocation
| [] => .serve chosen
| arg :: rest =>
    if arg = utf8 "--stdio" then ofArgumentsAfter chosen rest
    else if arg = utf8 "--grammars" then
      match rest with
      | [] => .misuse
      | directory :: rest => ofArgumentsAfter directory rest
    else if joinedOption.isPrefixOf arg then
      ofArgumentsAfter (arg.drop joinedOption.length) rest
    else if arg = utf8 "--help" ∨ arg = utf8 "-h" then .help
    else .misuse

/-
  Read arguments from the first to the last.  Of several
  directories the last one counts.
-/
def ofArguments (args : List Bytes) : Invocation :=
  ofArgumentsAfter [] args

end Invocation

------------------------------------------------------------
-- Surroundings
------------------------------------------------------------

/-
  What the surroundings say: the directory of the grammars, and
  whether remarks are shown.
-/
structure Environment where
  directory? : Option Bytes
  showsRemarks : Bool
deriving DecidableEq, Repr

namespace Environment

/- The variable that names the directory of the grammars. -/
def directoryVariable : String :=
  "HONYAKU_GRAMMAR_DIR"

/- The variable that, if it is set to anything, has remarks shown. -/
def remarksVariable : String :=
  "HONYAKU_DEBUG"

/- The surroundings in which variables have these values. -/
def ofVariables (value? : String → Option Bytes) : Environment :=
  { directory? := value? directoryVariable
    showsRemarks := (value? remarksVariable).isSome }

end Environment

namespace CommandLine

/-
  The directory of the grammars: that of the arguments, or else
  that of the surroundings, or else a default.
-/
def grammarDirectory
    (environment : Environment)
    (fallback chosen : Bytes) : Bytes :=
  if !chosen.isEmpty then chosen
  else
    match environment.directory?.filter (fun d => !d.isEmpty) with
    | some directory => directory
    | none => fallback

/- The file in a directory that lists its grammars. -/
def descriptorFile (directory : Bytes) : Bytes :=
  Path.join directory (utf8 "grammars.json")

/- How the options are to be used. -/
def usage : Bytes :=
  utf8 "usage: honyaku-lsp [--stdio] [--grammars <dir>]"

/- The lines by which remarks are shown, if they are. -/
def remarkLines
    (environment : Environment)
    (remarks : List Diagnostic) : List Bytes :=
  if environment.showsRemarks then remarks.map Diagnostic.line else []

------------------------------------------------------------
-- Runs
------------------------------------------------------------

/- The exit code after a request for the usage. -/
def helpCode : Nat :=
  0

/- The exit code after arguments that are not known. -/
def misuseCode : Nat :=
  2

/- The exit code after a crash. -/
def crashCode : Nat :=
  134

/- The exit code of a server that has stopped. -/
def exitCode (server : Server) : Nat :=
  if server.crashed then crashCode else server.exitCode

/-
  The server with the standard engine and the grammars of a
  directory, and the remarks on them, unless the list of grammars
  has no result.
-/
def start?
    (files : Files)
    (directory : Bytes) : Option (Server × List Diagnostic) :=
  (Descriptor.load? files (descriptorFile directory)).map (fun found =>
    (Server.create .standard found.1, found.2))

end CommandLine

/- What a run leaves behind: a code, frames, and lines for the user. -/
structure RunResult where
  exit : Nat
  frames : List Json
  lines : List Bytes
deriving Repr

namespace CommandLine

/- Serve a client whose input is known in full. -/
def serve
    (files : Files)
    (environment : Environment)
    (directory : Bytes)
    (input : Bytes) : RunResult :=
  match start? files directory with
  | none => ⟨crashCode, [], []⟩
  | some (server, remarks) =>
      let turn := Session.run files server (Incoming.ofStream input)
      { exit := exitCode turn.server
        frames := Session.frames turn
        lines :=
          remarkLines environment (remarks ++ Session.remarks turn) }

/- A whole run on arguments and input. -/
def run
    (files : Files)
    (environment : Environment)
    (fallback : Bytes)
    (args : List Bytes)
    (input : Bytes) : RunResult :=
  match Invocation.ofArguments args with
  | .serve chosen =>
      serve files environment
        (grammarDirectory environment fallback chosen) input
  | .help => ⟨helpCode, [], [usage]⟩
  | .misuse => ⟨misuseCode, [], [usage]⟩

end CommandLine

end Marginalia
