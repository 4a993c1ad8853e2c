import MiniC.Parse.Settings

/-!
# Command line arguments

The arguments are cut into items from left to right. `--max-depth` takes the next argument as
its number, whatever that argument looks like, so the two are one item; every other argument is
an item of its own. The items are then folded into options, until one of them stops the run.

* **`Item.ofArguments`** cuts the arguments.
* **`Options.add`** is the effect of one item; a later item of a sort overrides an earlier one.
* **`Options.scan`** puts the two together.
-/

namespace MiniC.CommandLine

/-! ## Numbers -/

/-- The greatest limit that can be asked for, the largest number of 64 bits. -/
def greatestLimit : Nat := 18446744073709551615

def decimalValue (digits : List Char) : Nat :=
  digits.foldl (fun value digit => 10 * value + (digit.toNat - '0'.toNat)) 0

/-- A limit is written as decimal digits, with or without a plus sign before them. -/
def limit? (text : String) : Option Nat :=
  let digits :=
    match text.toList with
    | '+' :: digits => digits
    | digits => digits
  if digits ≠ [] ∧ digits.all Char.isDigit ∧ decimalValue digits ≤ greatestLimit then
    some (decimalValue digits)
  else none

/-! ## Items -/

/-- One or two arguments that belong together. -/
inductive Item where
  | legacy
  | strict
  | noDepthLimit
  /-- A cap on nesting; no value means that the number is missing or is none. -/
  | maxDepth (limit : Option Nat)
  | help
  | unknownOption (argument : String)
  | file (name : String)
  deriving DecidableEq, Repr

/-- The item of an argument that takes no value. What starts with two hyphens is an option,
and everything else but `-h` is a file name. -/
def Item.ofArgument (argument : String) : Item :=
  if argument = "--legacy" then .legacy
  else if argument = "--strict" then .strict
  else if argument = "--no-depth-limit" then .noDepthLimit
  else if argument = "-h" ∨ argument = "--help" then .help
  else if ['-', '-'].isPrefixOf argument.toList then .unknownOption argument
  else .file argument

def Item.ofArguments : List String → List Item
  | [] => []
  | [argument] =>
    [if argument = "--max-depth" then .maxDepth none else .ofArgument argument]
  | argument :: next :: rest =>
    if argument = "--max-depth" then .maxDepth (limit? next) :: ofArguments rest
    else .ofArgument argument :: ofArguments (next :: rest)

/-! ## Options -/

/-- Why the arguments end a run before any file is looked at. -/
inductive Stop where
  | help
  | unknownOption (argument : String)
  | missingNumber
  deriving DecidableEq, Repr

structure Options where
  settings : Settings := {}
  file : Option String := none
  deriving DecidableEq, Repr

namespace Options

def add (options : Options) : Item → Except Stop Options
  | .legacy => .ok { options with settings := options.settings.withDialect .legacy }
  | .strict => .ok { options with settings := options.settings.withTrailingTokensRefused }
  | .noDepthLimit => .ok { options with settings := options.settings.withMaxDepth none }
  | .maxDepth (some limit) =>
    .ok { options with settings := options.settings.withMaxDepth (some limit) }
  | .maxDepth none => .error .missingNumber
  | .help => .error .help
  | .unknownOption argument => .error (.unknownOption argument)
  | .file name => .ok { options with file := some name }

def scan (arguments : List String) : Except Stop Options :=
  (Item.ofArguments arguments).foldlM add {}

end Options

end MiniC.CommandLine
