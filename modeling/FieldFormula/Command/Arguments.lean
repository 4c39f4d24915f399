/-!
Reading the words of a command line. Options may stand anywhere before the word `--`; a value
follows its option in the same word or in the next, which then may not look like an option itself.
Each option is given at most once, and the first word that is wrong decides.
-/
namespace FieldFormula.Command

inductive Stop where
  | misuse | help | version
  deriving DecidableEq, Repr

inductive Switch where
  | verbose | help | version | fields | maxDepth
  deriving DecidableEq, Repr

inductive Scope where
  | program | formula | manual
  deriving DecidableEq, Repr

namespace Scope

def switches : Scope → List Switch
  | program => [.verbose, .help, .version]
  | formula => [.verbose, .help, .fields, .maxDepth]
  | manual => [.verbose, .help]

def places : Scope → Nat
  | program => 0
  | formula => 1
  | manual => 1

end Scope

namespace Switch

def long : Switch → String
  | verbose => "verbose"
  | help => "help"
  | version => "version"
  | fields => "fields"
  | maxDepth => "max-depth"

def short? : Switch → Option Char
  | verbose => some 'v'
  | help => some 'h'
  | version => some 'V'
  | fields => some 'f'
  | maxDepth => none

def takesValue : Switch → Bool
  | fields | maxDepth => true
  | _ => false

def ofLong? (scope : Scope) (name : String) : Option Switch :=
  scope.switches.find? (·.long == name)

def ofShort? (scope : Scope) (c : Char) : Option Switch :=
  scope.switches.find? (·.short? == some c)

end Switch

inductive Word where
  | separator
  | long (name : String) (value : Option String)
  | short (letters : List Char)
  | plain (text : String)
  deriving DecidableEq, Repr

namespace Word

def ofLong (cs : List Char) : Word :=
  let value := match cs.dropWhile (· != '=') with
    | [] => none
    | _ :: value => some (String.ofList value)
  long (String.ofList (cs.takeWhile (· != '='))) value

def ofText (s : String) : Word :=
  match s.toList with
  | ['-'] => plain s
  | ['-', '-'] => separator
  | '-' :: '-' :: cs => ofLong cs
  | '-' :: cs => short cs
  | _ => plain s

end Word

/-- A number of at most 64 bits, possibly with a plus sign. -/
def readCount? (s : String) : Option Nat :=
  let digits := match s.toList with
    | '+' :: cs => cs
    | cs => cs
  let n := Nat.ofDigitChars 10 digits 0
  if !digits.isEmpty && digits.all Char.isDigit && decide (n < Nat.pow 2 64) then some n else none

structure Arguments where
  verbose : Bool := false
  fields : Option String := none
  limit : Option Nat := none
  plain : List String := []
  deriving DecidableEq, Repr

namespace Arguments

def set (a : Arguments) (switch : Switch) (value : String) : Except Stop Arguments :=
  match switch, a.fields, a.limit, readCount? value with
  | .fields, none, _, _ => .ok { a with fields := some value }
  | .maxDepth, _, none, some n => .ok { a with limit := some n }
  | _, _, _, _ => .error .misuse

def raise (a : Arguments) : Switch → Except Stop Arguments
  | .verbose => if a.verbose then .error .misuse else .ok { a with verbose := true }
  | .help => .error .help
  | .version => .error .version
  | _ => .error .misuse

def add (scope : Scope) (a : Arguments) (text : String) : Except Stop Arguments :=
  if a.plain.length < scope.places then .ok { a with plain := a.plain ++ [text] }
  else .error .misuse

/-- Letters behind one dash. The rest behind an option that takes a value is its value; with no
rest the option waits for the next word. -/
def readLetters (scope : Scope) : Arguments → List Char → Except Stop (Arguments × Option Switch)
  | a, [] => .ok (a, none)
  | a, c :: cs =>
    match Switch.ofShort? scope c with
    | none => .error .misuse
    | some switch =>
      if switch.takesValue then
        match cs with
        | [] => .ok (a, some switch)
        | '=' :: value => (a.set switch (String.ofList value)).map (·, none)
        | value => (a.set switch (String.ofList value)).map (·, none)
      else do
        let a ← a.raise switch
        readLetters scope a cs

def readWord (scope : Scope) (a : Arguments) : Word → Except Stop (Arguments × Option Switch)
  | .separator => .error .misuse
  | .plain text => (a.add scope text).map (·, none)
  | .short letters => readLetters scope a letters
  | .long name value =>
    match Switch.ofLong? scope name, value with
    | none, _ => .error .misuse
    | some switch, none =>
      if switch.takesValue then .ok (a, some switch) else (a.raise switch).map (·, none)
    | some switch, some value =>
      if switch.takesValue then (a.set switch value).map (·, none) else .error .misuse

def readWords (scope : Scope) : Arguments → Option Switch → List String → Except Stop Arguments
  | a, none, [] => .ok a
  | _, some _, [] => .error .misuse
  | a, none, word :: words =>
    match Word.ofText word with
    | .separator => words.foldlM (add scope) a
    | w => do
      let (a, waiting) ← readWord scope a w
      readWords scope a waiting words
  | a, some switch, word :: words =>
    match Word.ofText word with
    | .plain value => do
      let a ← a.set switch value
      readWords scope a none words
    | _ => .error .misuse

end Arguments
end FieldFormula.Command
