/-!
Templates of built-in functions. A template is fixed text with places for the texts of the
arguments, so what it needs of its arguments can be read off its pieces.
-/
namespace FieldFormula

/-- Fixed text, the argument number `index`, or all arguments from number `first` on. -/
inductive Piece where
  | text (s : String)
  | arg (index : Nat)
  | args (first : Nat) (separator : String)
  deriving DecidableEq, Repr

instance : Coe String Piece := ⟨.text⟩
instance (n : Nat) : OfNat Piece n := ⟨.arg n⟩

def Piece.fill (args : List String) : Piece → String
  | text s => s
  | arg index => args.getD index ""
  | .args first separator => separator.intercalate (args.drop first)

/-- A template is the same for all calls, or depends on whether argument number `index` is given. -/
inductive Template where
  | plain (pieces : List Piece)
  | optional (index : Nat) (absent present : List Piece)
  deriving DecidableEq, Repr

namespace Template

def parts (parts : List (List Piece)) : Template := plain parts.flatten

def pieces : Template → Nat → List Piece
  | plain pieces, _ => pieces
  | optional index absent present, count => if index < count then present else absent

def fill (t : Template) (args : List String) : String :=
  String.join ((t.pieces args.length).map (Piece.fill args))

def call (name : String) : List Piece := [name, "(", .args 0 ", ", ")"]

def chain (operator : String) : List Piece := ["(", .args 0 (" " ++ operator ++ " "), ")"]

end Template
end FieldFormula
