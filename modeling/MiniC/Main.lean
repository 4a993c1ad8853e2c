import MiniC.CommandLine.Report

/-!
# The program

Reads the file that the arguments ask for, and prints the report of the run.
-/

namespace MiniC.CommandLine

def programName : String := "retc"

/-- The number that the system gives an attempt to read a directory like a file. -/
def directoryErrorCode : UInt32 := 21

def readEntry (path : String) : IO FileEntry := do
  try
    return .file (← IO.FS.readBinFile path)
  catch
    | .inappropriateType _ code _ =>
      return if code = directoryErrorCode then .directory else .missing
    | .permissionDenied .. => return .denied
    | _ => return .missing

def Report.print (report : Report) : IO UInt32 := do
  (← IO.getStderr).putStr report.stderr
  (← IO.getStdout).putStr report.stdout
  return report.exit.toUInt32

def execute (arguments : List String) : IO UInt32 := do
  match plan programName arguments with
  | .error report => report.print
  | .ok (file, settings) => (process file settings (← readEntry file)).print

end MiniC.CommandLine

def main (arguments : List String) : IO UInt32 := MiniC.CommandLine.execute arguments
