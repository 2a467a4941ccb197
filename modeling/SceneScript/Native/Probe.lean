import SceneScript.Native.Binding
import SceneScript.Run.Call

/-! Probes: native functions for exercising a script from within. They look at and change the
variables of their caller, call back into the script, fail on purpose, and hand their arguments
through each of the argument helpers. -/

namespace SceneScript

/-- The probes. -/
inductive Probe where
  | record
  | first
  | argc
  | double
  | peek
  | poke
  | define
  | has
  | depth
  | fire
  | tryFire
  | callback
  | fail
  | explode
  | asInt
  | asFloat
  | asString
  | asBool
  | asColor
  | asKey
deriving DecidableEq, Repr

namespace Probe

variable {ν : Type}

/-- Every probe with its word. -/
def all : List (String × Probe) :=
  [("record", .record), ("first", .first), ("argc", .argc), ("double", .double), ("peek", .peek),
    ("poke", .poke), ("define", .define), ("has", .has), ("depth", .depth), ("fire", .fire),
    ("tryFire", .tryFire), ("callback", .callback), ("fail", .fail), ("explode", .explode),
    ("asInt", .asInt), ("asFloat", .asFloat), ("asString", .asString), ("asBool", .asBool),
    ("asColor", .asColor), ("asKey", .asKey)]

/-- The argument at an index, or nothing. -/
def argument (args : List (Value ν)) (i : Nat) : Value ν := args[i]?.getD .nil

/-- What a probe registered under the name `fn` does. -/
def request (p : Probe) (fn : String) (args : List (Value ν)) : Request ν (Value ν) :=
  match p with
  | .record => .emit (.record args) (.done .nil)
  | .first => .done (argument args 0)
  | .argc => .done (.whole (.ofNat args.length))
  | .double => do
    let x ← .ofExcept (Argument.number args 0 fn)
    return .float (x * .ofNat 2)
  | .peek => do
    let name ← .ofExcept (Argument.string args 0 fn)
    .lookup name fun
      | some v => .done v
      | none => .fail ⟨.undefined name, none⟩
  | .poke => do
    let name ← .ofExcept (Argument.string args 0 fn)
    .assign name (argument args 1) (.done .nil)
  | .define => do
    let name ← .ofExcept (Argument.string args 0 fn)
    .define name (argument args 1) (.done .nil)
  | .has => do
    let name ← .ofExcept (Argument.string args 0 fn)
    .lookup name fun v => .done (.bool v.isSome)
  | .depth => .depth fun n => .done (.whole (.ofNat n))
  | .fire => do
    let event ← .ofExcept (Argument.string args 0 fn)
    .trigger event fun r => do
      .ofOutcome r
      return .nil
  | .tryFire => do
    let event ← .ofExcept (Argument.string args 0 fn)
    .trigger event fun r => .done (.bool r.isOk)
  | .callback => do
    let name ← .ofExcept (Argument.string args 0 fn)
    .call name args.tail .ofOutcome
  | .fail => .fail ⟨.raised (Value.texts args), none⟩
  | .explode => .crash ⟨"boom"⟩
  | .asInt => do return .whole (← .ofExcept (Argument.integer args 0 fn))
  | .asFloat => do return .float (← .ofExcept (Argument.number args 0 fn))
  | .asString => do return .str (← .ofExcept (Argument.string args 0 fn))
  | .asBool => do return .bool (← .ofExcept (Argument.bool args 0 fn))
  | .asColor => do return .str (← .ofExcept (Argument.color args 0 fn)).name
  | .asKey => do return .whole (← .ofExcept (Argument.key args 0 fn))

end Probe

/-- The native functions of a host together with the probes. -/
inductive Bench where
  | binding (b : Binding)
  | probe (p : Probe)
deriving DecidableEq, Repr

/-- What each of them does. -/
def Bench.natives : Natives Bench
  | .binding b, _, args => b.request args
  | .probe p, name, args => p.request name args

end SceneScript
