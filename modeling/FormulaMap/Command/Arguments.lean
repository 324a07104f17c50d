/-
Arguments of a command line.

An argument that starts with a dash is an option, unless it is a single dash, a
negative number, or holds a space.  Long options may be cut short as long as one
name alone begins that way, and a value may be attached with an equals sign.
After `--` every argument is taken as it is; the separator itself has to stand
next to a word.
-/
import FormulaMap.Text.Digit

namespace FormulaMap

/-- An option and how many values follow it. -/
structure OptionSpec where
  name : String
  values : Nat
  deriving DecidableEq, Repr

/-- Why a command is not run. -/
inductive UsageError where
  | help
  | ambiguous (argument : String)
  | unknown (argument : String)
  | badValues (option : String)
  | positionals (count : Nat)
  | missing (option : String)
  deriving DecidableEq, Repr

namespace UsageError

/-- The status a program ends with; asking for help is no failure. -/
def exitCode : UsageError → Nat
  | help => 0
  | _ => 2

end UsageError

/-- What one argument is. -/
inductive Argument where
  | word (s : String)
  | option (spec : OptionSpec) (attached : Option String)
  /-- All arguments after this one are words. -/
  | endOfOptions
  deriving DecidableEq, Repr

namespace Argument

def separator : String := "--"
def helpOption : OptionSpec := ⟨"--help", 0⟩
def shortHelp : String := "-h"

/-- A minus sign, digits of any script, and perhaps a point among them.  A line
feed at the end is not looked at. -/
def isNegativeNumber (cs : List Char) : Bool :=
  let core := if cs.getLast? = some '\n' then cs.dropLast else cs
  match core with
  | '-' :: ds =>
    match ds.dropWhile Text.isDecimal with
    | [] => !ds.isEmpty
    | '.' :: fraction => !fraction.isEmpty && fraction.all Text.isDecimal
    | _ => false
  | _ => false

/-- The parts before and after the first equals sign, if there is one. -/
def splitValue (s : String) : String × Option String :=
  match s.toList.dropWhile (· ≠ '=') with
  | '=' :: v => (String.ofList (s.toList.takeWhile (· ≠ '=')), some (String.ofList v))
  | _ => (s, none)

def startsWith (whole start : String) : Bool := start.toList.isPrefixOf whole.toList

/-- An option given by its whole name. -/
def fullName? (specs : List OptionSpec) (s : String) : Option OptionSpec :=
  if s == shortHelp then some helpOption else specs.find? (·.name == s)

/-- An argument that starts with a dash and names no option. -/
def dashed (s : String) : Except UsageError Argument :=
  if isNegativeNumber s.toList || s.toList.contains ' ' then .ok (.word s)
  else .error (.unknown s)

/-- An option whose name may be cut short. -/
def shortened (specs : List OptionSpec) (s : String) : Except UsageError Argument :=
  let (name, attached) := splitValue s
  match specs.filter fun o => startsWith o.name name with
  | [o] => .ok (.option o attached)
  | [] => dashed s
  | _ => .error (.ambiguous s)

/-- What an argument is when the options may still come. -/
def classify (specs : List OptionSpec) (s : String) : Except UsageError Argument :=
  if !startsWith s "-" || s == "-" then .ok (.word s)
  else
    match fullName? specs s with
    | some o => .ok (.option o none)
    | none =>
      match splitValue s with
      | (name, some v) =>
        match fullName? specs name with
        | some o => .ok (.option o (some v))
        | none => if startsWith s "--" then shortened specs s else dashed s
      | (_, none) =>
        if startsWith s "--" then shortened specs s
        else if startsWith s shortHelp then .ok (.option helpOption (some s))
        else dashed s

def classifyAll (specs : List OptionSpec) : List String → Except UsageError (List Argument)
  | [] => .ok []
  | s :: rest =>
    if s == separator then .ok (.endOfOptions :: rest.map .word)
    else do return (← classify specs s) :: (← classifyAll specs rest)

end Argument

/-- The words of a command line, and its options with their values in order. -/
structure Arguments where
  words : List String
  options : List (String × List String)
  deriving DecidableEq, Repr

namespace Arguments

/-- The words at the start of a list, as many as are asked for. -/
def leadingWords : Nat → List Argument → Option (List String)
  | 0, _ => some []
  | n + 1, .word s :: rest => (leadingWords n rest).map (s :: ·)
  | _ + 1, _ => none

def addWord (s : String) (a : Arguments) : Arguments := { a with words := s :: a.words }

def addOption (name : String) (values : List String) (a : Arguments) : Arguments :=
  { a with options := (name, values) :: a.options }

def collect : List Argument → Except UsageError Arguments
  | [] => .ok ⟨[], []⟩
  | .word s :: .endOfOptions :: rest => (collect rest).map (addWord s)
  | .word s :: rest => (collect rest).map (addWord s)
  | [.endOfOptions] => .error (.unknown Argument.separator)
  | .endOfOptions :: rest => collect rest
  | .option o (some v) :: rest =>
    if o.values = 1 then (collect rest).map (addOption o.name [v]) else .error (.badValues o.name)
  | .option o none :: rest =>
    if o = Argument.helpOption then .error .help
    else
      match leadingWords o.values rest with
      | some vs => (collect (rest.drop o.values)).map (addOption o.name vs)
      | none => .error (.badValues o.name)
  termination_by args => args.length
  decreasing_by all_goals (simp only [List.length_cons, List.length_drop]; omega)

def parse (specs : List OptionSpec) (args : List String) : Except UsageError Arguments := do
  collect (← Argument.classifyAll (Argument.helpOption :: specs) args)

/-- The values of an option; what is given last counts. -/
def last? (a : Arguments) (name : String) : Option (List String) :=
  ((a.options.filter fun o => o.1 == name).getLast?).map (·.2)

/-- The value of an option that has one. -/
def value? (a : Arguments) (name : String) : Option String := (a.last? name).bind List.head?

def has (a : Arguments) (name : String) : Bool := (a.last? name).isSome

/-- The only word. -/
def onlyWord (a : Arguments) : Except UsageError String :=
  match a.words with
  | [s] => .ok s
  | ws => .error (.positionals ws.length)

end Arguments

/-! ## What a command leaves behind -/

inductive Ending where
  /-- The command ran and returned a status. -/
  | returned (status : Nat)
  /-- The command line was refused. -/
  | refused (e : UsageError)
  deriving DecidableEq, Repr

namespace Ending

def status : Ending → Nat
  | returned n => n
  | refused e => e.exitCode

end Ending

structure CommandResult where
  output : String
  ending : Ending
  deriving DecidableEq, Repr

namespace CommandResult

def refused (e : UsageError) : CommandResult := ⟨"", .refused e⟩

/-- Lines of output, each with its end. -/
def lines (ls : List String) : String := String.join (ls.map fun l => l ++ "\n")

end CommandResult
end FormulaMap
