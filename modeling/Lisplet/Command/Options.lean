import Lisplet.Log
import Lisplet.Number.Integer

/-!
# Command line options

Options may stand anywhere before `--`, each at most once; `--name value` and
`--name=value` mean the same. What is not an option is the source file.
-/

namespace Lisplet

structure Options where
  file : Option String := none
  test : Bool := false
  dumpTree : Bool := false
  logLevel : Option Level := none
  maxDepth : Option Nat := none

/-- Why a command line asks for no run: it is wrong, or it asks for a text. -/
inductive Refusal
  | unexpected (argument : String)
  | repeated (option : String)
  | missingValue (option : String)
  | invalidValue (option value : String)
  | help
  | version

namespace Options

def largestDepth : Nat := Nat.pow 2 64 - 1

def readDepth (value : String) : Option Nat :=
  let digits := match value.toList with
    | '+' :: cs => cs
    | cs => cs
  (Number.numeral 10 digits).filter (· ≤ largestDepth)

def addFile (o : Options) (name : String) : Except Refusal Options :=
  if o.file.isSome then .error (.unexpected name)
  else if name.isEmpty then .error (.missingValue "[FILE]")
  else .ok { o with file := some name }

def addFlag (o : Options) (name : String) : Except Refusal Options :=
  if name = "--help" then .error .help
  else if name = "--version" then .error .version
  else if name = "--test" then
    if o.test then .error (.repeated name) else .ok { o with test := true }
  else if name = "--dump-tree" then
    if o.dumpTree then .error (.repeated name) else .ok { o with dumpTree := true }
  else .error (.unexpected name)

def takesValue (name : String) : Bool := name = "--log-level" ∨ name = "--max-depth"

def addValue (o : Options) (name value : String) : Except Refusal Options :=
  if name = "--log-level" then
    if o.logLevel.isSome then .error (.repeated name)
    else match Level.ofName? value with
      | some level => .ok { o with logLevel := some level }
      | none => .error (.invalidValue name value)
  else if name = "--max-depth" then
    if o.maxDepth.isSome then .error (.repeated name)
    else match readDepth value with
      | some n => .ok { o with maxDepth := some n }
      | none => .error (.invalidValue name value)
  else .error (.unexpected name)

/-- Takes an argument of one dash: only its first letter counts. -/
def addShort (argument : String) : List Char → Except Refusal Options
  | 'h' :: _ => .error .help
  | 'V' :: _ => .error .version
  | _ => .error (.unexpected argument)

def isOptionLike (argument : String) : Bool :=
  match argument.toList with
  | '-' :: _ :: _ => true
  | _ => false

def addFiles (o : Options) : List String → Except Refusal Options
  | [] => .ok o
  | name :: rest => do (← o.addFile name).addFiles rest

def addAll (o : Options) : List String → Except Refusal Options
  | [] => .ok o
  | argument :: rest =>
    match argument.toList with
    | ['-', '-'] => o.addFiles rest
    | '-' :: '-' :: cs =>
      match cs.dropWhile (· ≠ '=') with
      | _ :: value => do
        let name := "--" ++ String.ofList (cs.takeWhile (· ≠ '='))
        (← o.addValue name (String.ofList value)).addAll rest
      | [] =>
        if takesValue argument then
          match rest with
          | value :: rest => do
            if isOptionLike value then .error (.missingValue argument)
            else (← o.addValue argument value).addAll rest
          | [] => .error (.missingValue argument)
        else do (← o.addFlag argument).addAll rest
    | '-' :: c :: cs => addShort argument (c :: cs)
    | _ => do (← o.addFile argument).addAll rest

def ofArguments (arguments : List String) : Except Refusal Options :=
  ({} : Options).addAll arguments

end Options

end Lisplet
