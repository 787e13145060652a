import Entailment.Command.Run

/-! # The command

Reads the files that the arguments name, runs the request, and writes what it shows: the output, a
message for every skipped line and for a failure, and the learned index. -/

open Entailment Entailment.Command

/-- The files that a request reads. -/
def inputNames : Request → List String
  | .help => []
  | .version => []
  | .pair text hypothesis _ shared => [text, hypothesis] ++ sharedNames shared
  | .batch pairs _ readIndex shared => [pairs] ++ readIndex.toList ++ sharedNames shared
where
  /-- The files that both subcommands may name. -/
  sharedNames (shared : SharedFiles) : List String :=
    shared.alignments.toList ++ shared.manual.toList ++ shared.config.toList

/-- The contents of the files that can be read, by name. -/
def readAll (names : List String) : IO (List (String × String)) :=
  names.filterMapM fun (name : String) => do
    try return some (name, ← IO.FS.readFile name) catch _ => return none

/-- The message for a skipped line. -/
def skipMessage : Nat × Option String → String
  | (line, none) => "skipping unreadable pair, line " ++ toString line
  | (line, some reason) => "skipping pair, line " ++ toString line ++ ": " ++ reason

/-- The message for a failure: its own text, and its causes below it. -/
def failureMessage (e : Failure) : String :=
  match e.chain with
  | [] => "Error"
  | [message] => "Error: " ++ message
  | message :: causes =>
    "Error: " ++ message ++ "\n\nCaused by:\n    " ++ Text.joinWith "\n    " causes

/-- The same outcome after its file was written, or could not be. -/
def writeFile (outcome : Outcome) : IO Outcome :=
  match outcome.written with
  | none => return outcome
  | some (path, content) => do
    try
      IO.FS.writeFile path content
      return outcome
    catch _ => return outcome.unwritten

/-- Runs the command. -/
def main (args : List String) : IO UInt32 := do
  let names := ((Request.parse args).map inputNames).getD []
  let files ← readAll names
  let outcome := run (fun name => files.lookup name) args
  outcome.skipped.forM fun s => IO.eprintln (skipMessage s)
  IO.print outcome.stdout
  let outcome ← writeFile outcome
  outcome.failure.toList.forM fun e => IO.eprintln (failureMessage e)
  return UInt32.ofNat outcome.exit
