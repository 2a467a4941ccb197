import SceneScript.Run.State

/-! Running expressions and statements. What a call does is a parameter, so both are functions on
the tree alone. The other one is how deep an expression may nest: there is only so much room for
operators and calls inside each other. Statements inside each other take none of it. -/

namespace SceneScript

/-- What a call of a callable with some arguments does. -/
abbrev Invoke (ν : Type) := Callable ν → List (Value ν) → Run ν (Value ν)

/-- How a statement ends: the next one follows, or a procedure returns. -/
inductive Flow (ν : Type) where
  | next
  | returned (v : Value ν)

namespace Run

variable {ν α : Type}

/-- Goes one level deeper, if there is room. -/
def deeper : Nat → (Nat → Run ν α) → Run ν α
  | 0, _ => refuse
  | room + 1, x => x room

mutual

/-- The value of an expression whose operators and calls nest at most `room` deep. -/
def eval (invoke : Invoke ν) : Nat → Expr → Run ν (Value ν)
  | _, .int _ x => return .whole x
  | _, .float _ x => return .float x
  | _, .str _ s => return .str s
  | _, .bool _ b => return .bool b
  | _, .ident pos name => fetch name (some pos)
  | room, .unary _ .not e => deeper room fun room => do
    let v ← eval invoke room e
    return .bool !v.truthy
  | room, .unary pos .neg e => deeper room fun room => do
    let v ← eval invoke room e
    let x ← located pos v.number
    return .float (-x)
  | room, .binary _ (.logic .and) l r => deeper room fun room => do
    let v ← eval invoke room l
    if v.truthy then
      let w ← eval invoke room r
      return .bool w.truthy
    else return .bool false
  | room, .binary _ (.logic .or) l r => deeper room fun room => do
    let v ← eval invoke room l
    if v.truthy then return .bool true
    else
      let w ← eval invoke room r
      return .bool w.truthy
  | room, .binary _ (.compare op) l r => deeper room fun room => do
    let v ← eval invoke room l
    let x ← located l.pos v.number
    let w ← eval invoke room r
    let y ← located r.pos w.number
    return .bool (op.compute x y)
  | room, .binary _ (.arith op) l r => deeper room fun room => do
    let v ← eval invoke room l
    let x ← located l.pos v.number
    let w ← eval invoke room r
    let y ← located r.pos w.number
    return .float (op.compute x y)
  | room, .call pos name args => deeper room fun room => do
    let f ← callee name (some pos)
    let vs ← evalAll invoke room args
    invoke f vs

/-- The values of some expressions, from left to right. -/
def evalAll (invoke : Invoke ν) : Nat → List Expr → Run ν (List (Value ν))
  | _, [] => return []
  | room, e :: es => do
    let v ← eval invoke room e
    let vs ← evalAll invoke room es
    return v :: vs

end

/-- As many steps as there are numbers. A counter that takes more has come to some number twice, and
so goes round for ever. -/
def countLimit : Nat := Number.power 2 64

/-- Runs the body of a loop with its variable at `i` and each number after it below `stop`. -/
def iterate (name : String) (body : Run ν (Flow ν)) (stop : Number) :
    Nat → Number → Run ν (Flow ν)
  | 0, _ => throw .endless
  | n + 1, i =>
    if i.less stop then do
      assign name (.whole i)
      match ← body with
      | .next => iterate name body stop n (i + .one)
      | .returned v => return .returned v
    else return .next

mutual

/-- Runs a statement. -/
def exec (invoke : Invoke ν) (room : Nat) : Stmt → Run ν (Flow ν)
  | .expr _ e => do
    let _ ← eval invoke room e
    return .next
  | .var _ name init => do
    define name (← eval invoke room init)
    return .next
  | .let _ name init => do
    define name (← eval invoke room init)
    return .next
  | .assign _ name value => do
    assign name (← eval invoke room value)
    return .next
  | .cond _ test body rest => do
    let v ← eval invoke room test
    if v.truthy then execAll invoke room body else execAlternative invoke room rest
  | .loop _ name start stop body => do
    let v ← eval invoke room start
    let first ← located start.pos v.integer
    let w ← eval invoke room stop
    let last ← located stop.pos w.integer
    iterate name (execAll invoke room body) last countLimit first
  | .proc _ name params body => do
    define name (.fn (.proc ⟨name, params.map (·.name), body⟩))
    return .next
  | .ret _ value => do
    let v ← eval invoke room value
    return .returned v
  | .block _ body => execAll invoke room body

/-- Runs the branches after the first one of a conditional. -/
def execAlternative (invoke : Invoke ν) (room : Nat) : Alternative → Run ν (Flow ν)
  | .none => return .next
  | .otherwise body => execAll invoke room body
  | .elif test body rest => do
    let v ← eval invoke room test
    if v.truthy then execAll invoke room body else execAlternative invoke room rest

/-- Runs statements in order until one returns. -/
def execAll (invoke : Invoke ν) (room : Nat) : List Stmt → Run ν (Flow ν)
  | [] => return .next
  | s :: rest => do
    match ← exec invoke room s with
    | .next => execAll invoke room rest
    | .returned v => return .returned v

end

end Run

end SceneScript
