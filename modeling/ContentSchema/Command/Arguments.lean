import ContentSchema.Decimal
import ContentSchema.Mode
/-!
Arguments of the command line. Options stand before or behind the document, each at most once, and
two hyphens end them. Arguments are read from the first to the last, and what is wrong with one is
noticed before the next.
-/
namespace ContentSchema.Command

/-- The document to read, and how. -/
structure Source where
  input : String
  /-- Wins over the mode of the configuration. -/
  mode : Option Mode := none
  config : Option String := none
deriving DecidableEq

/-- What to do with the document. -/
inductive Action where
  | check
  | parse (out : Option String)
  | format (out : Option String) (inPlace : Bool)
  | stats (maxChains : Option Nat)
deriving DecidableEq

inductive Request where
  | help
  | version
  | run (source : Source) (action : Action)
deriving DecidableEq

/-- The verbs of the command line. -/
inductive Verb where
  | check | parse | format | stats
deriving DecidableEq

def Verb.ofName? : String → Option Verb
  | "check" => some check
  | "parse" => some parse
  | "fmt" => some format
  | "stats" => some stats
  | _ => none

/-- The options that take a value. -/
inductive ValueOption where
  | mode | config | out | maxChains
deriving DecidableEq

def ValueOption.ofName? : String → Option ValueOption
  | "mode" => some mode
  | "config" => some config
  | "out" => some out
  | "max-chains" => some maxChains
  | _ => none

def Verb.accepts : Verb → ValueOption → Bool
  | _, .mode => true
  | _, .config => true
  | parse, .out => true
  | format, .out => true
  | stats, .maxChains => true
  | _, _ => false

/-- What the arguments have given so far. -/
structure Given where
  input : Option String := none
  mode : Option Mode := none
  config : Option String := none
  out : Option String := none
  maxChains : Option Nat := none
  inPlace : Bool := false

namespace Given

/-- A path has at least one character. -/
def path? (text : String) : Option String := if text = "" then none else some text

/-- Fills an empty place; a second value is refused, and so is one that the place cannot hold. -/
def fill {α : Type} (place value : Option α) : Option (Option α) :=
  if place.isSome || value.isNone then none else some value

def setInput (text : String) (given : Given) : Option Given := do
  return { given with input := ← fill given.input (path? text) }

/-- A limit has at most 64 bits. -/
def limit? (text : String) : Option Nat :=
  (Decimal.readSigned? text.toList).filter (· < UInt64.size)

def set (text : String) (given : Given) : ValueOption → Option Given
  | .mode => do return { given with mode := ← fill given.mode (Mode.ofName? text) }
  | .config => do return { given with config := ← fill given.config (path? text) }
  | .out => do return { given with out := ← fill given.out (path? text) }
  | .maxChains => do return { given with maxChains := ← fill given.maxChains (limit? text) }

def setInPlace (given : Given) : Option Given :=
  if given.inPlace then none else some { given with inPlace := true }

def toRequest (given : Given) (verb : Verb) : Option Request := do
  let source : Source := { input := ← given.input, mode := given.mode, config := given.config }
  return .run source <| match verb with
    | .check => .check
    | .parse => .parse given.out
    | .format => .format given.out given.inPlace
    | .stats => .stats given.maxChains

end Given

/-- What an argument leads to. -/
inductive Step where
  | next (given : Given)
  /-- The next argument is the value of the option. -/
  | await (option : ValueOption) (given : Given)
  | help
  | version

/-- An argument that begins with a hyphen is no value; the hyphen alone is one. -/
def isOption (arg : String) : Bool :=
  match arg.toList with
  | '-' :: _ :: _ => true
  | _ => false

/-- A name, and the value behind an equals sign if there is one. -/
def splitLong (text : List Char) : String × Option String :=
  let name := String.ofList (text.takeWhile (· != '='))
  match text.dropWhile (· != '=') with
  | [] => (name, none)
  | _ :: value => (name, some (.ofList value))

/-- An argument of two hyphens and a name. Verbosity leaves no trace in what is printed. -/
def stepLong (verb : Verb) (given : Given) (text : List Char) : Option Step :=
  match splitLong text with
  | ("verbose", none) => some (.next given)
  | ("help", none) => some .help
  | ("write", none) => if verb = .format then .next <$> given.setInPlace else none
  | (name, value) => do
    let option ← ValueOption.ofName? name
    guard (verb.accepts option)
    match value with
    | some text => .next <$> given.set text option
    | none => return .await option given

/-- An argument of one hyphen and letters. The rest of the letters is the value of the first that
takes one. -/
def stepShort (verb : Verb) (given : Given) : List Char → Option Step
  | [] => some (.next given)
  | 'v' :: cs => stepShort verb given cs
  | 'h' :: _ => some .help
  | 'o' :: cs =>
    if !verb.accepts .out then none
    else match cs with
      | [] => some (.await .out given)
      | '=' :: value => .next <$> given.set (.ofList value) .out
      | value => .next <$> given.set (.ofList value) .out
  | _ => none

/-- Reads the arguments behind the verb. Behind two hyphens all of them are documents. -/
def readArguments (verb : Verb) (onlyInputs : Bool) (awaited : Option ValueOption) (given : Given) :
    List String → Option Request
  | [] => if awaited.isSome then none else given.toRequest verb
  | arg :: args =>
    match awaited with
    | some option => do
      guard (!isOption arg)
      readArguments verb false none (← given.set arg option) args
    | none =>
      if onlyInputs then do readArguments verb true none (← given.setInput arg) args
      else if arg = "--" then readArguments verb true none given args
      else if !isOption arg then do readArguments verb false none (← given.setInput arg) args
      else do
        let step ← match arg.toList.drop 1 with
          | '-' :: text => stepLong verb given text
          | text => stepShort verb given text
        match step with
        | .next given => readArguments verb false none given args
        | .await option given => readArguments verb false (some option) given args
        | .help => return .help
        | .version => return .version

/-- An argument of one hyphen and letters before the verb. -/
def stepTop : List Char → Option Step
  | [] => some (.next {})
  | 'v' :: cs => stepTop cs
  | 'h' :: _ => some .help
  | 'V' :: _ => some .version
  | _ => none

/-- Reads all arguments: none stands for a wrong usage. -/
def readAll : List String → Option Request
  | [] => none
  | arg :: args =>
    if arg = "--verbose" then readAll args
    else if arg = "--help" then some .help
    else if arg = "--version" then some .version
    else if isOption arg then
      match stepTop (arg.toList.drop 1) with
      | some .help => some .help
      | some .version => some .version
      | some _ => readAll args
      | none => none
    else if arg = "help" then
      match args with
      | [] => some .help
      | [name] => if (Verb.ofName? name).isSome || name = "help" then some .help else none
      | _ => none
    else do readArguments (← Verb.ofName? arg) false none {} args

end ContentSchema.Command
