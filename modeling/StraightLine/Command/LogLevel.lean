import StraightLine.Compile

/-! How much of a run is logged. -/
namespace StraightLine.Command

inductive LogLevel where
  | error | warn | info | debug | trace
  deriving DecidableEq

namespace LogLevel

def name : LogLevel → String
  | .error => "ERROR"
  | .warn => "WARN"
  | .info => "INFO"
  | .debug => "DEBUG"
  | .trace => "TRACE"

/-- The name, set flush right in five columns. -/
def label : LogLevel → String
  | .warn => " WARN"
  | .info => " INFO"
  | level => level.name

def rank : LogLevel → Nat
  | .error => 0
  | .warn => 1
  | .info => 2
  | .debug => 3
  | .trace => 4

/-- The level a setting asks for. Blanks around it and the case of its letters do not count;
warnings are logged when there is no setting, or none that is known. -/
def ofSetting : Option String → LogLevel
  | none => .warn
  | some value =>
    match String.ofList ((Text.trim value.toList).map Char.toLower) with
    | "error" => .error
    | "info" => .info
    | "debug" => .debug
    | "trace" => .trace
    | _ => .warn

def ofEvent : Event → LogLevel
  | .declared _ | .emitted _ => .trace
  | _ => .debug

end LogLevel

end StraightLine.Command
