import WhitespaceAsm.Check.Run

/-!
# The command line

The only module that touches files and streams: it hands the arguments to `Check.run` and writes the
report.
-/

namespace WhitespaceAsm.Main

/-- The name under which the program speaks of itself. -/
def programName : Bytes := ascii "wsa_check"

/-- The bytes of an open file. What cannot be read, such as a directory, has none. -/
def readAll (handle : IO.FS.Handle) : IO Bytes :=
  try
    return (← handle.readBinToEnd).toList
  catch _ =>
    return []

/-- The bytes of a file, if it can be opened. -/
def readFile (path : Bytes) : IO (Option Bytes) := do
  match String.fromUTF8? ⟨path.toArray⟩ with
  | none => return none
  | some name =>
    try
      return some (← readAll (← IO.FS.Handle.mk name .read))
    catch _ =>
      return none

/-- Runs the checker and writes its report. -/
def runArgs (args : List Bytes) : IO UInt32 := do
  let report ← Check.run readFile programName args
  (← IO.getStdout).write ⟨report.out.toArray⟩
  (← IO.getStderr).write ⟨report.err.toArray⟩
  return UInt32.ofNat report.exitCode

end WhitespaceAsm.Main

/-- Checks the program that the arguments name. -/
def main (args : List String) : IO UInt32 :=
  WhitespaceAsm.Main.runArgs (args.map fun arg => arg.toUTF8.toList)
