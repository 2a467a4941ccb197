import SceneScript.Tree
import SceneScript.Token

/-! Trees and tokens with their places moved. Two trees differ only in their places when moving all
places to one makes them equal. -/

namespace SceneScript

/-- One place in the place of all. -/
def Pos.forget (_ : Pos) : Pos := ⟨0, 0⟩

/-- A token at another place. -/
def Token.mapPos (move : Pos → Pos) (t : Token) : Token := { t with pos := move t.pos }

@[simp] theorem Token.mapPos_kind (move : Pos → Pos) (t : Token) :
    (t.mapPos move).kind = t.kind := rfl

@[simp] theorem Token.mapPos_lexeme (move : Pos → Pos) (t : Token) :
    (t.mapPos move).lexeme = t.lexeme := rfl

@[simp] theorem Token.mapPos_pos (move : Pos → Pos) (t : Token) :
    (t.mapPos move).pos = move t.pos := rfl

@[simp] theorem Token.mapPos_isWord (move : Pos → Pos) (w : String) (t : Token) :
    (t.mapPos move).isWord w = t.isWord w := rfl

@[simp] theorem Token.mapPos_isOp (move : Pos → Pos) (w : String) (t : Token) :
    (t.mapPos move).isOp w = t.isOp w := rfl

mutual

/-- An expression with all its places moved. -/
def Expr.mapPos (move : Pos → Pos) : Expr → Expr
  | .int p v => .int (move p) v
  | .float p v => .float (move p) v
  | .str p s => .str (move p) s
  | .bool p b => .bool (move p) b
  | .ident p n => .ident (move p) n
  | .unary p op e => .unary (move p) op (e.mapPos move)
  | .binary p op l r => .binary (move p) op (l.mapPos move) (r.mapPos move)
  | .call p n args => .call (move p) n (Expr.mapPosAll move args)

/-- Expressions with all their places moved. -/
def Expr.mapPosAll (move : Pos → Pos) : List Expr → List Expr
  | [] => []
  | e :: es => e.mapPos move :: Expr.mapPosAll move es

end

mutual

/-- A statement with all its places moved. -/
def Stmt.mapPos (move : Pos → Pos) : Stmt → Stmt
  | .expr p e => .expr (move p) (e.mapPos move)
  | .var p n e => .var (move p) n (e.mapPos move)
  | .let p n e => .let (move p) n (e.mapPos move)
  | .assign p n e => .assign (move p) n (e.mapPos move)
  | .cond p e body rest =>
    .cond (move p) (e.mapPos move) (Stmt.mapPosAll move body) (rest.mapPos move)
  | .loop p n start stop body =>
    .loop (move p) n (start.mapPos move) (stop.mapPos move) (Stmt.mapPosAll move body)
  | .proc p n params body => .proc (move p) n params (Stmt.mapPosAll move body)
  | .ret p e => .ret (move p) (e.mapPos move)
  | .block p body => .block (move p) (Stmt.mapPosAll move body)

/-- The branches of a conditional with all their places moved. -/
def Alternative.mapPos (move : Pos → Pos) : Alternative → Alternative
  | .none => .none
  | .otherwise body => .otherwise (Stmt.mapPosAll move body)
  | .elif e body rest => .elif (e.mapPos move) (Stmt.mapPosAll move body) (rest.mapPos move)

/-- Statements with all their places moved. -/
def Stmt.mapPosAll (move : Pos → Pos) : List Stmt → List Stmt
  | [] => []
  | s :: ss => s.mapPos move :: Stmt.mapPosAll move ss

end

@[simp] theorem Stmt.mapPos_endsInBlock (move : Pos → Pos) (s : Stmt) :
    (s.mapPos move).endsInBlock = s.endsInBlock := by
  cases s <;> rfl

/-- A program with all its places moved. -/
def Program.mapPos (move : Pos → Pos) (p : Program) : Program := Stmt.mapPosAll move p

end SceneScript
