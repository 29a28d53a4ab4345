/-! Places in a text, counted in lines and in characters of a line, both from one. -/
namespace StraightLine

structure Location where
  line : Nat
  column : Nat
  deriving DecidableEq

namespace Location

def start : Location := ⟨1, 1⟩

/-- The place after a character. Only a line feed ends a line; every other character, blank or
not, takes one column. -/
def advance (l : Location) (c : Char) : Location :=
  if c = '\n' then ⟨l.line + 1, 1⟩ else ⟨l.line, l.column + 1⟩

def advanceAll (l : Location) (cs : List Char) : Location := cs.foldl advance l

@[simp] theorem advanceAll_nil (l : Location) : l.advanceAll [] = l := rfl

@[simp] theorem advanceAll_cons (l : Location) (c : Char) (cs : List Char) :
    l.advanceAll (c :: cs) = (l.advance c).advanceAll cs := rfl

theorem advanceAll_append (l : Location) (cs ds : List Char) :
    l.advanceAll (cs ++ ds) = (l.advanceAll cs).advanceAll ds := by
  simp [advanceAll, List.foldl_append]

def text (l : Location) : String := "line " ++ l.line.repr ++ ", column " ++ l.column.repr

end Location

end StraightLine
