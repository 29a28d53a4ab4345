import StraightLine.Command.Config
import StraightLine.Command.LogLevel

/-! The command line: which file to compile, how much to log, and what is printed. All of it is a
function of the arguments, the log setting and the files; only printing is left to do. -/
namespace StraightLine.Command

inductive FileError where
  | missing
  | directory
  | notText
  | other (reason : String)
  deriving DecidableEq

def FileError.message : FileError → String
  | .missing => "No such file or directory (os error 2)"
  | .directory => "Is a directory (os error 21)"
  | .notText => "stream did not contain valid UTF-8"
  | .other reason => reason

/-- The text of a file, which has to be valid UTF-8. -/
def textOf (bytes : ByteArray) : Except FileError String :=
  match String.fromUTF8? bytes with
  | some text => .ok text
  | none => .error .notText

inductive Line where
  | out (text : String)
  | err (text : String)
  deriving DecidableEq

/-- What a run prints, in order, and the status it ends with. -/
structure Outcome where
  lines : List Line
  exit : UInt8

namespace Outcome

def stdout (o : Outcome) : List String :=
  o.lines.filterMap fun
    | .out text => some text
    | .err _ => none

def stderr (o : Outcome) : List String :=
  o.lines.filterMap fun
    | .err text => some text
    | .out _ => none

end Outcome

def logLine (setting level : LogLevel) (text : String) : List Line :=
  if level.rank ≤ setting.rank then [.err (level.label ++ " " ++ text)] else []

def logEvents (setting : LogLevel) (events : Array Event) : List Line :=
  events.toList.flatMap fun e => logLine setting (LogLevel.ofEvent e) e.text

def errorLine (message : String) : Line := .err ("Error: " ++ message)

def usage (program : String) : String := "Usage: " ++ program ++ " [--tokens] <input_file>"

def tokenLines (ts : List Token) : List Line :=
  (ts.filter fun t => !t.isEof).map fun t => .out t.text

def compiledLines (c : Compiled) : List Line :=
  .out "Intermediate Code:" :: c.listing.map .out ++ [.out "", .out "Symbol Table:"] ++
    c.symbols.toList.map fun s => .out (s.name ++ ": " ++ s.text)

/-- Compiles a text and prints the result. -/
def compileSource (setting : LogLevel) (source : String) : Outcome :=
  match Report.ofSource source with
  | (.error e, log) => ⟨logEvents setting log ++ [errorLine e.message], 1⟩
  | (.ok c, log) => ⟨logEvents setting log ++ compiledLines c, 0⟩

/-- The same, after a list of the tokens if that is asked for. -/
def processSource (setting : LogLevel) (config : Config) (source : String) : Outcome :=
  if config.dumpTokens then
    match tokenize source with
    | .error e => ⟨[.out "Tokens:", errorLine e.message], 1⟩
    | .ok ts =>
      let o := compileSource setting source
      ⟨.out "Tokens:" :: tokenLines ts ++ [.out "--- End of tokens ---", .out ""] ++ o.lines,
        o.exit⟩
  else compileSource setting source

/-- A run of the command called `program`; `files` is what reading a path gives. -/
def run (program : String) (args : List String) (setting : LogLevel)
    (files : String → Except FileError ByteArray) : Outcome :=
  match Config.ofArgs args with
  | .error e => ⟨[errorLine e.message, .err "", .err (usage program)], 2⟩
  | .ok config =>
    match files config.path >>= textOf with
    | .error e => ⟨[errorLine (config.path ++ ": " ++ e.message)], 1⟩
    | .ok source =>
      let o := processSource setting config source
      ⟨logLine setting .info ("compiling path=" ++ config.path ++ " bytes=" ++
        source.utf8ByteSize.repr) ++ o.lines, o.exit⟩

end StraightLine.Command
