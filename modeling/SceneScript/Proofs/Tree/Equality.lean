import SceneScript.Tree

/-! Whether two trees are the same can be computed, so what a text is read as can be compared with
the tree that is expected. -/

namespace SceneScript

mutual

/-- Whether two expressions are the same. -/
def Expr.same : Expr → Expr → Bool
  | .int p v, .int q w => p == q && v == w
  | .float p v, .float q w => p == q && v == w
  | .str p s, .str q t => p == q && s == t
  | .bool p b, .bool q c => p == q && b == c
  | .ident p n, .ident q m => p == q && n == m
  | .unary p op e, .unary q op' e' => p == q && op == op' && e.same e'
  | .binary p op l r, .binary q op' l' r' => p == q && op == op' && l.same l' && r.same r'
  | .call p n es, .call q m es' => p == q && n == m && Expr.sameAll es es'
  | _, _ => false

def Expr.sameAll : List Expr → List Expr → Bool
  | [], [] => true
  | e :: es, e' :: es' => e.same e' && Expr.sameAll es es'
  | _, _ => false

end

mutual

theorem Expr.same_iff (e e' : Expr) : e.same e' = true ↔ e = e' := by
  cases e with
  | unary p op e =>
    have ih := Expr.same_iff e
    cases e' <;> simp [Expr.same, ih, and_assoc]
  | binary p op l r =>
    have ihLeft := Expr.same_iff l
    have ihRight := Expr.same_iff r
    cases e' <;> simp [Expr.same, ihLeft, ihRight, and_assoc]
  | call p n es =>
    have ih := Expr.sameAll_iff es
    cases e' <;> simp [Expr.same, ih, and_assoc]
  | _ => cases e' <;> simp [Expr.same]

theorem Expr.sameAll_iff (es es' : List Expr) : Expr.sameAll es es' = true ↔ es = es' := by
  match es, es' with
  | [], [] => simp [Expr.sameAll]
  | [], _ :: _ | _ :: _, [] => simp [Expr.sameAll]
  | e :: es, e' :: es' => simp [Expr.sameAll, Expr.same_iff e e', Expr.sameAll_iff es es']

end

instance : DecidableEq Expr := fun e e' => decidable_of_iff _ (Expr.same_iff e e')

mutual

/-- Whether two statements are the same. -/
def Stmt.same : Stmt → Stmt → Bool
  | .expr p e, .expr q e' => p == q && e == e'
  | .var p n e, .var q m e' => p == q && n == m && e == e'
  | .let p n e, .let q m e' => p == q && n == m && e == e'
  | .assign p n e, .assign q m e' => p == q && n == m && e == e'
  | .cond p e body a, .cond q e' body' a' =>
    p == q && e == e' && Stmt.sameAll body body' && a.same a'
  | .loop p n e f body, .loop q m e' f' body' =>
    p == q && n == m && e == e' && f == f' && Stmt.sameAll body body'
  | .proc p n params body, .proc q m params' body' =>
    p == q && n == m && params == params' && Stmt.sameAll body body'
  | .ret p e, .ret q e' => p == q && e == e'
  | .block p body, .block q body' => p == q && Stmt.sameAll body body'
  | _, _ => false

def Alternative.same : Alternative → Alternative → Bool
  | .none, .none => true
  | .otherwise body, .otherwise body' => Stmt.sameAll body body'
  | .elif e body a, .elif e' body' a' => e == e' && Stmt.sameAll body body' && a.same a'
  | _, _ => false

def Stmt.sameAll : List Stmt → List Stmt → Bool
  | [], [] => true
  | s :: ss, s' :: ss' => s.same s' && Stmt.sameAll ss ss'
  | _, _ => false

end

mutual

theorem Stmt.same_iff (s s' : Stmt) : s.same s' = true ↔ s = s' := by
  cases s with
  | cond p e body a =>
    have ihBody := Stmt.sameAll_iff body
    have ihRest := Alternative.same_iff a
    cases s' <;> simp [Stmt.same, ihBody, ihRest, and_assoc]
  | loop p n e f body | proc p n params body | block p body =>
    have ih := Stmt.sameAll_iff body
    cases s' <;> simp [Stmt.same, ih, and_assoc]
  | _ => cases s' <;> simp [Stmt.same, and_assoc]

theorem Alternative.same_iff (a a' : Alternative) : a.same a' = true ↔ a = a' := by
  cases a with
  | none => cases a' <;> simp [Alternative.same]
  | otherwise body =>
    have ih := Stmt.sameAll_iff body
    cases a' <;> simp [Alternative.same, ih]
  | elif e body a =>
    have ihBody := Stmt.sameAll_iff body
    have ihRest := Alternative.same_iff a
    cases a' <;> simp [Alternative.same, ihBody, ihRest, and_assoc]

theorem Stmt.sameAll_iff (ss ss' : List Stmt) : Stmt.sameAll ss ss' = true ↔ ss = ss' := by
  match ss, ss' with
  | [], [] => simp [Stmt.sameAll]
  | [], _ :: _ | _ :: _, [] => simp [Stmt.sameAll]
  | s :: ss, s' :: ss' => simp [Stmt.sameAll, Stmt.same_iff s s', Stmt.sameAll_iff ss ss']

end

instance : DecidableEq Stmt := fun s s' => decidable_of_iff _ (Stmt.same_iff s s')

end SceneScript
