import StraightLine.Code.Emitter
import StraightLine.Scope
import StraightLine.Source

/-! From text to code. The four stages run one after the other over the whole text: tokens, program,
names, code. The first stage that fails is the last one to run. -/
namespace StraightLine

inductive CompileError where
  | source (error : SourceError)
  | naming (error : NamingError)
  deriving DecidableEq

namespace CompileError

/-- The stage that failed. -/
def kind : CompileError → String
  | .source (.lexical _) => "LexError"
  | .source (.grammar _) => "ParseError"
  | .naming _ => "SemanticError"

def location : CompileError → Location
  | .source e => e.location
  | .naming e => e.location

def message : CompileError → String
  | .source e => e.message
  | .naming e => e.message

end CompileError

structure Compiled where
  code : List Instruction
  symbols : SymbolTable

def Compiled.listing (c : Compiled) : List String := c.code.map Instruction.text

/-- What a compilation reports while it runs. -/
inductive Event where
  | lexed (tokens : Nat)
  | parsed (statements operators : Nat)
  | declared (symbol : Symbol)
  | checked (symbols : Nat)
  | emitted (instruction : Instruction)
  | generated (instructions temporaries : Nat)
  | failed (error : CompileError)
  deriving DecidableEq

def Event.text : Event → String
  | .lexed n => "lexed source tokens=" ++ n.repr
  | .parsed n k => "parsed program statements=" ++ n.repr ++ " operators=" ++ k.repr
  | .declared s => "declared symbol name=\"" ++ s.name ++ "\" symbol_type=" ++ s.type.text
  | .checked n => "semantic analysis complete symbols=" ++ n.repr
  | .emitted i => "emit instruction=" ++ i.text
  | .generated n k =>
    "generated intermediate code instructions=" ++ n.repr ++ " temporaries=" ++ k.repr
  | .failed e => "compilation failed kind=\"" ++ e.kind ++ "\" error=" ++ e.message

/-- What a stage works on, and the events told so far. -/
structure Logged (σ : Type) where
  state : σ
  log : Array Event

namespace Logged

def tell {σ : Type} : Logged σ → Event → Logged σ
  | ⟨state, log⟩, e => ⟨state, log.push e⟩

/-- Declares a name at `l`, if it is new, and tells of it. -/
def declare : Logged SymbolTable → String → Location →
    Except NamingError Symbol × Logged SymbolTable
  | ⟨t, log⟩, x, l =>
    match t.declare x l with
    | (.ok s, t) => (.ok s, tell ⟨t, log⟩ (.declared s))
    | (.error e, t) => (.error e, ⟨t, log⟩)

/-- The symbol of a statement's name, which a declaration makes. -/
def enter (j : Logged SymbolTable) (s : Target) : Except NamingError Symbol × Logged SymbolTable :=
  match s.form with
  | .declaration => j.declare s.name s.location
  | .assignment => (j.state.require s.name s.location, j)

def checkStatement (j : Logged SymbolTable) (s : Statement) :
    Except NamingError Unit × Logged SymbolTable :=
  match j.enter s.toTarget with
  | (.ok _, j) => (j.state.checkExpr s.value, j)
  | (.error e, j) => (.error e, j)

/-- Checks the statements in turn; the end is told only if it is reached. -/
def check (j : Logged SymbolTable) : Program → Except NamingError Unit × Logged SymbolTable
  | [] => (.ok (), j.tell (.checked j.state.size))
  | s :: rest =>
    match j.checkStatement s with
    | (.ok _, j) => j.check rest
    | (.error e, j) => (.error e, j)

/-- Writes an instruction and tells of it. -/
def write : Logged Emitter → Instruction → Logged Emitter
  | ⟨m, log⟩, i => tell ⟨m.write i, log⟩ (.emitted i)

def apply : Logged Emitter → Operand → Operator → Operand → Operand × Logged Emitter
  | ⟨⟨code, temps⟩, log⟩, x, op, y =>
    (.temp (temps + 1), write ⟨⟨code, temps + 1⟩, log⟩ (.binary (temps + 1) x op y))

/-- Telling changes nothing in what is written. -/
theorem apply_state (j : Logged Emitter) (x : Operand) (op : Operator) (y : Operand) :
    j.state.apply x op y = (j.apply x op y).map id state := rfl

theorem map_run_lower (j : Logged Emitter) (e : Expr) :
    (Emitter.Task.run apply j [.lower e] []).map (Prod.map id state) = some (j.state.lower e) := by
  rw [Emitter.Task.run_map apply_state]
  exact j.state.run_eq_lower e

def emit (j : Logged Emitter) (e : Expr) : Operand × Logged Emitter :=
  (Emitter.Task.run apply j [.lower e] []).get
    (by rw [← Option.isSome_map, map_run_lower]; rfl)

def emitStatement (j : Logged Emitter) (s : Statement) : Logged Emitter :=
  let (x, j) := j.emit s.value
  j.write (.copy s.name x)

def emitProgram (j : Logged Emitter) (p : Program) : Logged Emitter :=
  let j := p.foldl emitStatement j
  j.tell (.generated j.state.code.size j.state.temps)

end Logged

/-- A result with the events that led to it. -/
abbrev Report := Except CompileError Compiled × Array Event

namespace Report

/-- Checks the names of a program and generates its code. -/
def ofProgram (log : Array Event) (p : Program) : Report :=
  match Logged.check ⟨.empty, log⟩ p with
  | (.error e, j) => (.error (.naming e), j.log)
  | (.ok _, j) =>
    let m := Logged.emitProgram ⟨.empty, j.log⟩ p
    (.ok ⟨m.state.code.toList, j.state⟩, m.log)

def ofTokens (log : Array Event) (ts : List Token) : Report :=
  match Program.ofTokens ts with
  | .error e => (.error (.source (.grammar e)), log)
  | .ok p => ofProgram (log.push (.parsed p.length p.operatorCount)) p

/-- The four stages. -/
def ofStages (source : String) : Report :=
  match tokenize source with
  | .error e => (.error (.source (.lexical e)), #[])
  | .ok ts => ofTokens #[.lexed ts.length] ts

/-- A failure, whatever its stage, is told last. -/
def ofSource (source : String) : Report :=
  match ofStages source with
  | (.error e, log) => (.error e, log.push (.failed e))
  | (.ok c, log) => (.ok c, log)

end Report

def compile (source : String) : Except CompileError Compiled := (Report.ofSource source).1

end StraightLine
