import SceneScript.Draw
import SceneScript.Value

/-! Arguments of native functions. Each helper takes the argument at an index as one kind of thing,
or says what is wrong with it in the name of the function that asked. -/

namespace SceneScript.Argument

variable {ν : Type}

/-- The argument at an index. An index before the first argument or behind the last one is a
missing argument. -/
def get (args : List (Value ν)) (i : Int) (native : String) (what : ArgumentKind) :
    Except RuntimeCause (Value ν) :=
  if i < 0 then .error (.missingArgument native what i)
  else match args[i.toNat]? with
    | some v => .ok v
    | none => .error (.missingArgument native what i)

/-- A number without its fraction. -/
def integer (args : List (Value ν)) (i : Int) (native : String) : Except RuntimeCause Number := do
  match ← get args i native .integer with
  | .int x => return x
  | .float x => return x.truncate
  | v => .error (.wrongArgument native .integer i v.kind)

/-- A number. -/
def number (args : List (Value ν)) (i : Int) (native : String) : Except RuntimeCause Number := do
  match ← get args i native .number with
  | .int x => return x
  | .float x => return x
  | v => .error (.wrongArgument native .number i v.kind)

/-- A text. -/
def string (args : List (Value ν)) (i : Int) (native : String) : Except RuntimeCause String := do
  match ← get args i native .string with
  | .str s => return s
  | v => .error (.wrongArgument native .string i v.kind)

/-- A truth value. -/
def bool (args : List (Value ν)) (i : Int) (native : String) : Except RuntimeCause Bool := do
  match ← get args i native .bool with
  | .bool b => return b
  | v => .error (.wrongArgument native .bool i v.kind)

/-- A colour by its name. -/
def color (args : List (Value ν)) (i : Int) (native : String) : Except RuntimeCause Color := do
  match ← get args i native .color with
  | .str name =>
    match Color.named? name with
    | some c => return c
    | none => .error (.unknownColor native name)
  | v => .error (.wrongArgument native .color i v.kind)

/-- A key by its name or its code. -/
def key (args : List (Value ν)) (i : Int) (native : String) : Except RuntimeCause Number := do
  match ← get args i native .key with
  | .int code => return code
  | .str name =>
    match Key.code? name with
    | some code => return code
    | none => .error (.unknownKey native name)
  | v => .error (.wrongArgument native .key i v.kind)

/-- Asks for at least `count` arguments. -/
def atLeast (count : Nat) (args : List (Value ν)) (native signature : String) :
    Except RuntimeCause Unit :=
  if args.length < count then .error (.tooFewArguments native count signature) else .ok ()

end SceneScript.Argument
