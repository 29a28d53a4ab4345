/-! What the arguments of the command ask for. -/
namespace StraightLine.Command

inductive UsageError where
  | missingPath
  | extraArgument (argument : String)
  | unknownFlag (argument : String)
  deriving DecidableEq

def UsageError.message : UsageError → String
  | .missingPath => "No input file provided"
  | .extraArgument a => "Unexpected argument '" ++ a ++ "'"
  | .unknownFlag a => "Unknown option '" ++ a ++ "'"

structure Config where
  path : String
  dumpTokens : Bool
  deriving DecidableEq

namespace Config

def isFlag (argument : String) : Bool :=
  match argument.toList with
  | '-' :: '-' :: _ => true
  | _ => false

/-- Takes the arguments in order, behind the path and the flag found so far. -/
def ofArgsAfter (path? : Option String) (dumpTokens : Bool) :
    List String → Except UsageError Config
  | [] =>
    match path? with
    | some path => .ok ⟨path, dumpTokens⟩
    | none => .error .missingPath
  | a :: rest =>
    if a = "--tokens" then ofArgsAfter path? true rest
    else if isFlag a then .error (.unknownFlag a)
    else
      match path? with
      | some _ => .error (.extraArgument a)
      | none => ofArgsAfter (some a) dumpTokens rest

/-- One path, and `--tokens` anywhere; the first argument that does not fit is at fault. -/
def ofArgs (args : List String) : Except UsageError Config := ofArgsAfter none false args

end Config

end StraightLine.Command
