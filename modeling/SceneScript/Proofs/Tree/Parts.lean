import SceneScript.Value

/-! The parts of a tree: its expressions, the bounds of its loops and the procedures it declares,
however deep they stand. What can go wrong in a run goes wrong at a part, and at which one tells
what. The height of a tree is the room that its expressions take. -/

namespace SceneScript

/-- A part of a tree. The bound of a loop is a part besides being an expression. -/
inductive Part where
  | expr (e : Expr)
  | bound (e : Expr)
  | proc (p : Procedure)

mutual

def Expr.parts : Expr → List Part
  | .int pos x => [.expr (.int pos x)]
  | .float pos x => [.expr (.float pos x)]
  | .str pos s => [.expr (.str pos s)]
  | .bool pos b => [.expr (.bool pos b)]
  | .ident pos name => [.expr (.ident pos name)]
  | .unary pos op e => .expr (.unary pos op e) :: e.parts
  | .binary pos op l r => .expr (.binary pos op l r) :: (l.parts ++ r.parts)
  | .call pos name args => .expr (.call pos name args) :: Expr.partsAll args

def Expr.partsAll : List Expr → List Part
  | [] => []
  | e :: es => e.parts ++ Expr.partsAll es

end

mutual

def Stmt.parts : Stmt → List Part
  | .expr _ e | .var _ _ e | .let _ _ e | .assign _ _ e | .ret _ e => e.parts
  | .cond _ e body rest => e.parts ++ Stmt.partsAll body ++ rest.parts
  | .loop _ _ start stop body =>
    [.bound start, .bound stop] ++ start.parts ++ stop.parts ++ Stmt.partsAll body
  | .proc _ name params body => .proc ⟨name, params.map (·.name), body⟩ :: Stmt.partsAll body
  | .block _ body => Stmt.partsAll body

def Alternative.parts : Alternative → List Part
  | .none => []
  | .otherwise body => Stmt.partsAll body
  | .elif e body rest => e.parts ++ Stmt.partsAll body ++ rest.parts

def Stmt.partsAll : List Stmt → List Part
  | [] => []
  | s :: ss => s.parts ++ Stmt.partsAll ss

end

mutual

/-- How deep the operators and calls of an expression nest. -/
def Expr.height : Expr → Nat
  | .int .. | .float .. | .str .. | .bool .. | .ident .. => 0
  | .unary _ _ e => e.height + 1
  | .binary _ _ l r => max l.height r.height + 1
  | .call _ _ args => Expr.heightAll args + 1

def Expr.heightAll : List Expr → Nat
  | [] => 0
  | e :: es => max e.height (Expr.heightAll es)

end

/-- A sum of ones with `n` signs, as high as it has signs. -/
def Expr.ones : Nat → Expr
  | 0 => .int ⟨1, 1⟩ .one
  | n + 1 => .binary ⟨1, 2 * n + 2⟩ (.arith .add) (.ones n) (.int ⟨1, 2 * n + 3⟩ .one)

mutual

/-- The greatest height of an expression that a run of the statement itself comes to. What stands
in the body of a procedure runs in calls of it. -/
def Stmt.height : Stmt → Nat
  | .expr _ e | .var _ _ e | .let _ _ e | .assign _ _ e | .ret _ e => e.height
  | .cond _ e body rest => max e.height (max (Stmt.heightAll body) rest.height)
  | .loop _ _ start stop body => max (max start.height stop.height) (Stmt.heightAll body)
  | .proc .. => 0
  | .block _ body => Stmt.heightAll body

def Alternative.height : Alternative → Nat
  | .none => 0
  | .otherwise body => Stmt.heightAll body
  | .elif e body rest => max e.height (max (Stmt.heightAll body) rest.height)

def Stmt.heightAll : List Stmt → Nat
  | [] => 0
  | s :: ss => max s.height (Stmt.heightAll ss)

end

/-- What can go wrong at a part itself, and the place that is told for it. -/
inductive Fault : Part → RuntimeError → Prop
  | name {pos : Pos} {name : String} : Fault (.expr (.ident pos name)) ⟨.undefined name, some pos⟩
  | callee {pos : Pos} {name : String} {args : List Expr} :
      Fault (.expr (.call pos name args)) ⟨.undefined name, some pos⟩
  | notCallable {pos : Pos} {name : String} {args : List Expr} :
      Fault (.expr (.call pos name args)) ⟨.notCallable name, some pos⟩
  | negated {pos : Pos} {e : Expr} {kind : ValueKind} :
      Fault (.expr (.unary pos .neg e)) ⟨.notNumeric kind, some pos⟩
  /-- The operators that are no words, which compare or compute, take numbers. -/
  | left {pos : Pos} {op : BinaryOp} {l r : Expr} {kind : ValueKind} : op.isWord = false →
      Fault (.expr (.binary pos op l r)) ⟨.notNumeric kind, some l.pos⟩
  | right {pos : Pos} {op : BinaryOp} {l r : Expr} {kind : ValueKind} : op.isWord = false →
      Fault (.expr (.binary pos op l r)) ⟨.notNumeric kind, some r.pos⟩
  | bound {e : Expr} {kind : ValueKind} : Fault (.bound e) ⟨.notNumeric kind, some e.pos⟩

/-- The parts inside a part. -/
def Part.inside : Part → List Part
  | .expr e | .bound e => e.parts
  | .proc p => Stmt.partsAll p.body

/-- What is inside one of the parts is one of them. -/
def Part.Closed (ps : List Part) : Prop := ∀ part ∈ ps, part.inside ⊆ ps

namespace Part.Closed

variable {ps qs : List Part}

theorem nil : Closed [] := fun _ h => by cases h

theorem append (hp : Closed ps) (hq : Closed qs) : Closed (ps ++ qs) := by
  intro part h
  obtain h | h := List.mem_append.mp h
  · exact List.subset_append_of_subset_left _ (hp part h)
  · exact List.subset_append_of_subset_right _ (hq part h)

theorem cons {part : Part} (hpart : part.inside ⊆ part :: ps) (hp : Closed ps) :
    Closed (part :: ps) := by
  intro part' h
  obtain rfl | h := List.mem_cons.mp h
  · exact hpart
  · exact List.subset_cons_of_subset _ (hp part' h)

end Part.Closed

mutual

theorem Expr.parts_closed : (e : Expr) → Part.Closed e.parts
  | .int .. | .float .. | .str .. | .bool .. | .ident .. => .cons (List.Subset.refl _) .nil
  | .unary _ _ e => .cons (List.Subset.refl _) e.parts_closed
  | .binary _ _ l r => .cons (List.Subset.refl _) (l.parts_closed.append r.parts_closed)
  | .call _ _ args => .cons (List.Subset.refl _) (Expr.partsAll_closed args)

theorem Expr.partsAll_closed : (es : List Expr) → Part.Closed (Expr.partsAll es)
  | [] => .nil
  | e :: es => e.parts_closed.append (Expr.partsAll_closed es)

end

mutual

theorem Stmt.parts_closed : (s : Stmt) → Part.Closed s.parts
  | .expr _ e | .var _ _ e | .let _ _ e | .assign _ _ e | .ret _ e => e.parts_closed
  | .cond _ e body rest =>
    (e.parts_closed.append (Stmt.partsAll_closed body)).append rest.parts_closed
  | .loop _ _ start stop body => by
    have hparts := (start.parts_closed.append stop.parts_closed).append (Stmt.partsAll_closed body)
    refine .cons (fun part hstart => ?_) (.cons (fun part hstop => ?_) hparts)
    · rw [Part.inside] at hstart
      simp [hstart]
    · rw [Part.inside] at hstop
      simp [hstop]
  | .proc _ _ _ body => .cons (List.subset_cons_self _ _) (Stmt.partsAll_closed body)
  | .block _ body => Stmt.partsAll_closed body

theorem Alternative.parts_closed : (a : Alternative) → Part.Closed a.parts
  | .none => .nil
  | .otherwise body => Stmt.partsAll_closed body
  | .elif e body rest =>
    (e.parts_closed.append (Stmt.partsAll_closed body)).append rest.parts_closed

theorem Stmt.partsAll_closed : (ss : List Stmt) → Part.Closed (Stmt.partsAll ss)
  | [] => .nil
  | s :: ss => s.parts_closed.append (Stmt.partsAll_closed ss)

end

theorem Expr.mem_parts_self (e : Expr) : .expr e ∈ e.parts := by
  cases e <;> simp [Expr.parts]

/-- The place of what goes wrong at a part is that of an expression inside it. -/
theorem Fault.exists_expr {part : Part} {e : RuntimeError} (h : Fault part e) :
    ∃ node, .expr node ∈ part.inside ∧ e.pos = some node.pos := by
  cases h with
  | name | callee | notCallable | negated => exact ⟨_, Expr.mem_parts_self _, rfl⟩
  | left => exact ⟨_, by simp [Part.inside, Expr.parts, Expr.mem_parts_self], rfl⟩
  | right => exact ⟨_, by simp [Part.inside, Expr.parts, Expr.mem_parts_self], rfl⟩
  | bound => exact ⟨_, Expr.mem_parts_self _, rfl⟩

end SceneScript
