import StraightLine.Command

/-! The program: reads the file its arguments name and prints what the run says. -/
namespace StraightLine.Command

def readError : IO.Error → FileError
  | .noFileOrDirectory .. => .missing
  | .inappropriateType .. => .directory
  | e => .other (toString e)

def readPath (path : String) : IO (Except FileError ByteArray) := do
  try
    return .ok (← IO.FS.readBinFile path)
  catch e =>
    return .error (readError e)

def printLine : Line → IO Unit
  | .out text => IO.println text
  | .err text => IO.eprintln text

end StraightLine.Command

open StraightLine.Command in
def main (args : List String) : IO UInt32 := do
  let setting := LogLevel.ofSetting (← IO.getEnv "MINICALC_LOG")
  let contents ←
    match Config.ofArgs args with
    | .ok config => readPath config.path
    | .error _ => pure (.error .missing)
  let outcome := run "minicalc" args setting fun _ => contents
  outcome.lines.forM printLine
  return outcome.exit.toUInt32
