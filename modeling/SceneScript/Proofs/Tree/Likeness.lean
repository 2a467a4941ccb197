import SceneScript.Error
import SceneScript.Tree

/-! Programs that are alike. A likeness says which errors of two runs count as the same and what
else may differ; two programs are alike when they differ in nothing but that, and when whatever the
one can fail with at one of its places counts as what the other fails with there. -/

namespace SceneScript

/-- What two runs may differ in. -/
structure Likeness where
  /-- The errors of a script that count as the same. -/
  error : RuntimeError → RuntimeError → Prop
  /-- Names that the globals bind, so that looking for them never fails. -/
  bound : String → Prop
  /-- Events that native functions may run. -/
  fires : String → Prop
  /-- Whether like programs are the same also in what no run looks at. -/
  exact : Prop
  /-- Whether the first run may refuse calls that the second one makes. Once it has done so, nothing
  more is asked of it. -/
  cut : Prop
  refl_of_cut : cut → ∀ e, error e e
  /-- Whether the statements of a block may stand in its place and a condition in the else branch of
  another one in place of a further branch. -/
  unfolds : Prop := False

namespace Likeness

variable (L : Likeness)

/-- Looking for a name at the one place and at the other finds it or fails alike. -/
def Finds (name : String) (p q : Option Pos) : Prop :=
  L.bound name ∨ L.error ⟨.undefined name, p⟩ ⟨.undefined name, q⟩

/-- Calling what is no function fails alike. -/
def Calls (name : String) (p q : Option Pos) : Prop :=
  L.error ⟨.notCallable name, p⟩ ⟨.notCallable name, q⟩

/-- Asking for a number where there is none fails alike. -/
def Counts (p q : Pos) : Prop :=
  ∀ kind, L.error ⟨.notNumeric kind, some p⟩ ⟨.notNumeric kind, some q⟩

/-- Every error counts as itself, except perhaps that a name is not bound. -/
def Steady : Prop := ∀ e, (∀ name, e.cause ≠ .undefined name) → L.error e e

variable {L}

theorem Steady.calls (hL : L.Steady) (name : String) (p : Option Pos) : L.Calls name p p :=
  hL _ (by simp)

theorem Steady.counts (hL : L.Steady) (p : Pos) : L.Counts p p :=
  fun _ => hL _ (by simp)

end Likeness

mutual

/-- Expressions that differ only in places, as far as the likeness allows it. -/
inductive Expr.Alike (L : Likeness) : Expr → Expr → Prop
  | int {p q : Pos} {x : Number} : (L.exact → p = q) → Expr.Alike L (.int p x) (.int q x)
  | float {p q : Pos} {x : Number} : (L.exact → p = q) → Expr.Alike L (.float p x) (.float q x)
  | str {p q : Pos} {s : String} : (L.exact → p = q) → Expr.Alike L (.str p s) (.str q s)
  | bool {p q : Pos} {b : Bool} : (L.exact → p = q) → Expr.Alike L (.bool p b) (.bool q b)
  | ident {p q : Pos} {name : String} : (L.exact → p = q) → L.Finds name (some p) (some q) →
      Expr.Alike L (.ident p name) (.ident q name)
  | not {p q : Pos} {e f : Expr} : (L.exact → p = q) → Expr.Alike L e f →
      Expr.Alike L (.unary p .not e) (.unary q .not f)
  | neg {p q : Pos} {e f : Expr} : (L.exact → p = q) → L.Counts p q → Expr.Alike L e f →
      Expr.Alike L (.unary p .neg e) (.unary q .neg f)
  | logic {p q : Pos} {op : LogicOp} {l r l' r' : Expr} : (L.exact → p = q) →
      Expr.Alike L l l' → Expr.Alike L r r' →
      Expr.Alike L (.binary p (.logic op) l r) (.binary q (.logic op) l' r')
  | compare {p q : Pos} {op : CompareOp} {l r l' r' : Expr} : (L.exact → p = q) →
      L.Counts l.pos l'.pos → L.Counts r.pos r'.pos → Expr.Alike L l l' → Expr.Alike L r r' →
      Expr.Alike L (.binary p (.compare op) l r) (.binary q (.compare op) l' r')
  | arith {p q : Pos} {op : ArithOp} {l r l' r' : Expr} : (L.exact → p = q) →
      L.Counts l.pos l'.pos → L.Counts r.pos r'.pos → Expr.Alike L l l' → Expr.Alike L r r' →
      Expr.Alike L (.binary p (.arith op) l r) (.binary q (.arith op) l' r')
  | call {p q : Pos} {name : String} {args args' : List Expr} : (L.exact → p = q) →
      L.Finds name (some p) (some q) → L.Calls name (some p) (some q) →
      Expr.AlikeAll L args args' →
      Expr.Alike L (.call p name args) (.call q name args')

inductive Expr.AlikeAll (L : Likeness) : List Expr → List Expr → Prop
  | nil : Expr.AlikeAll L [] []
  | cons {e f : Expr} {es fs : List Expr} : Expr.Alike L e f → Expr.AlikeAll L es fs →
      Expr.AlikeAll L (e :: es) (f :: fs)

end

mutual

/-- Statements that differ only in places, in the types of parameters, in the words of declarations
and in how they are nested, as far as the likeness allows it. -/
inductive Stmt.Alike (L : Likeness) : Stmt → Stmt → Prop
  | expr {p q : Pos} {e f : Expr} : (L.exact → p = q) → Expr.Alike L e f →
      Stmt.Alike L (.expr p e) (.expr q f)
  | var {p q : Pos} {name : String} {e f : Expr} : (L.exact → p = q) → Expr.Alike L e f →
      Stmt.Alike L (.var p name e) (.var q name f)
  | let {p q : Pos} {name : String} {e f : Expr} : (L.exact → p = q) → Expr.Alike L e f →
      Stmt.Alike L (.let p name e) (.let q name f)
  | varLet {p q : Pos} {name : String} {e f : Expr} : ¬ L.exact → Expr.Alike L e f →
      Stmt.Alike L (.var p name e) (.let q name f)
  | letVar {p q : Pos} {name : String} {e f : Expr} : ¬ L.exact → Expr.Alike L e f →
      Stmt.Alike L (.let p name e) (.var q name f)
  | assign {p q : Pos} {name : String} {e f : Expr} : (L.exact → p = q) → Expr.Alike L e f →
      Stmt.Alike L (.assign p name e) (.assign q name f)
  | cond {p q : Pos} {e f : Expr} {body body' : List Stmt} {rest rest' : Alternative} :
      (L.exact → p = q) → Expr.Alike L e f → Stmt.AlikeAll L body body' →
      Alternative.Alike L rest rest' → Stmt.Alike L (.cond p e body rest) (.cond q f body' rest')
  | loop {p q : Pos} {name : String} {e f e' f' : Expr} {body body' : List Stmt} :
      (L.exact → p = q) → L.Counts e.pos f.pos → L.Counts e'.pos f'.pos → Expr.Alike L e f →
      Expr.Alike L e' f' → Stmt.AlikeAll L body body' →
      Stmt.Alike L (.loop p name e e' body) (.loop q name f f' body')
  | proc {p q : Pos} {name : String} {params params' : List Param} {body body' : List Stmt} :
      (L.exact → p = q) → params.map (·.name) = params'.map (·.name) →
      (L.exact → params = params') → Stmt.AlikeAll L body body' →
      Stmt.Alike L (.proc p name params body) (.proc q name params' body')
  | ret {p q : Pos} {e f : Expr} : (L.exact → p = q) → Expr.Alike L e f →
      Stmt.Alike L (.ret p e) (.ret q f)
  | block {p q : Pos} {body body' : List Stmt} : (L.exact → p = q) → Stmt.AlikeAll L body body' →
      Stmt.Alike L (.block p body) (.block q body')

inductive Alternative.Alike (L : Likeness) : Alternative → Alternative → Prop
  | none : Alternative.Alike L .none .none
  | otherwise {body body' : List Stmt} : Stmt.AlikeAll L body body' →
      Alternative.Alike L (.otherwise body) (.otherwise body')
  | elif {e f : Expr} {body body' : List Stmt} {rest rest' : Alternative} : Expr.Alike L e f →
      Stmt.AlikeAll L body body' → Alternative.Alike L rest rest' →
      Alternative.Alike L (.elif e body rest) (.elif f body' rest')
  | nest {p : Pos} {e f : Expr} {body body' : List Stmt} {rest rest' : Alternative} : L.unfolds →
      Expr.Alike L e f → Stmt.AlikeAll L body body' → Alternative.Alike L rest rest' →
      Alternative.Alike L (.elif e body rest) (.otherwise [.cond p f body' rest'])

inductive Stmt.AlikeAll (L : Likeness) : List Stmt → List Stmt → Prop
  | nil : Stmt.AlikeAll L [] []
  | cons {s t : Stmt} {ss ts : List Stmt} : Stmt.Alike L s t → Stmt.AlikeAll L ss ts →
      Stmt.AlikeAll L (s :: ss) (t :: ts)
  | unfold {p : Pos} {body body' ss ts : List Stmt} : L.unfolds → Stmt.AlikeAll L body body' →
      Stmt.AlikeAll L ss ts → Stmt.AlikeAll L (.block p body :: ss) (body' ++ ts)

end

mutual

/-- The names that an expression looks for: variables and what it calls. -/
def Expr.names : Expr → List String
  | .int .. | .float .. | .str .. | .bool .. => []
  | .ident _ name => [name]
  | .unary _ _ e => e.names
  | .binary _ _ l r => l.names ++ r.names
  | .call _ name args => name :: Expr.namesAll args

def Expr.namesAll : List Expr → List String
  | [] => []
  | e :: es => e.names ++ Expr.namesAll es

end

mutual

/-- The names that a statement looks for, those in the bodies of its procedures included. -/
def Stmt.names : Stmt → List String
  | .expr _ e | .var _ _ e | .let _ _ e | .assign _ _ e | .ret _ e => e.names
  | .cond _ e body rest => e.names ++ Stmt.namesAll body ++ rest.names
  | .loop _ _ start stop body => start.names ++ stop.names ++ Stmt.namesAll body
  | .proc _ _ _ body | .block _ body => Stmt.namesAll body

def Alternative.names : Alternative → List String
  | .none => []
  | .otherwise body => Stmt.namesAll body
  | .elif e body rest => e.names ++ Stmt.namesAll body ++ rest.names

def Stmt.namesAll : List Stmt → List String
  | [] => []
  | s :: ss => s.names ++ Stmt.namesAll ss

end

/-! A program is like itself when every name that it looks for is found or fails alike. -/

mutual

theorem Expr.alike_self {L : Likeness} (hL : L.Steady) :
    (e : Expr) → (∀ name ∈ e.names, ∀ p, L.Finds name p p) → Expr.Alike L e e
  | .int .., _ => .int fun _ => rfl
  | .float .., _ => .float fun _ => rfl
  | .str .., _ => .str fun _ => rfl
  | .bool .., _ => .bool fun _ => rfl
  | .ident p name, h => .ident (fun _ => rfl) (h name (List.mem_singleton_self name) p)
  | .unary _ .not e, h => .not (fun _ => rfl) (Expr.alike_self hL e h)
  | .unary p .neg e, h => .neg (fun _ => rfl) (hL.counts p) (Expr.alike_self hL e h)
  | .binary _ op l r, h => by
    simp only [Expr.names, List.forall_mem_append] at h
    have hl := Expr.alike_self hL l h.1
    have hr := Expr.alike_self hL r h.2
    cases op with
    | logic op => exact .logic (fun _ => rfl) hl hr
    | compare op => exact .compare (fun _ => rfl) (hL.counts _) (hL.counts _) hl hr
    | arith op => exact .arith (fun _ => rfl) (hL.counts _) (hL.counts _) hl hr
  | .call p name args, h => by
    rw [Expr.names, List.forall_mem_cons] at h
    exact .call (fun _ => rfl) (h.1 p) (hL.calls name p) (Expr.alikeAll_self hL args h.2)

theorem Expr.alikeAll_self {L : Likeness} (hL : L.Steady) :
    (es : List Expr) → (∀ name ∈ Expr.namesAll es, ∀ p, L.Finds name p p) → Expr.AlikeAll L es es
  | [], _ => .nil
  | e :: es, h => by
    rw [Expr.namesAll, List.forall_mem_append] at h
    exact .cons (Expr.alike_self hL e h.1) (Expr.alikeAll_self hL es h.2)

end

mutual

theorem Stmt.alike_self {L : Likeness} (hL : L.Steady) :
    (s : Stmt) → (∀ name ∈ s.names, ∀ p, L.Finds name p p) → Stmt.Alike L s s
  | .expr _ e, h => .expr (fun _ => rfl) (Expr.alike_self hL e h)
  | .var _ _ e, h => .var (fun _ => rfl) (Expr.alike_self hL e h)
  | .let _ _ e, h => .let (fun _ => rfl) (Expr.alike_self hL e h)
  | .assign _ _ e, h => .assign (fun _ => rfl) (Expr.alike_self hL e h)
  | .ret _ e, h => .ret (fun _ => rfl) (Expr.alike_self hL e h)
  | .cond _ e body rest, h => by
    simp only [Stmt.names, List.forall_mem_append] at h
    exact .cond (fun _ => rfl) (Expr.alike_self hL e h.1.1) (Stmt.alikeAll_self hL body h.1.2)
      (Alternative.alike_self hL rest h.2)
  | .loop _ _ start stop body, h => by
    simp only [Stmt.names, List.forall_mem_append] at h
    exact .loop (fun _ => rfl) (hL.counts _) (hL.counts _)
      (Expr.alike_self hL start h.1.1) (Expr.alike_self hL stop h.1.2)
      (Stmt.alikeAll_self hL body h.2)
  | .proc _ _ _ body, h => .proc (fun _ => rfl) rfl (fun _ => rfl) (Stmt.alikeAll_self hL body h)
  | .block _ body, h => .block (fun _ => rfl) (Stmt.alikeAll_self hL body h)

theorem Alternative.alike_self {L : Likeness} (hL : L.Steady) :
    (a : Alternative) → (∀ name ∈ a.names, ∀ p, L.Finds name p p) → Alternative.Alike L a a
  | .none, _ => .none
  | .otherwise body, h => .otherwise (Stmt.alikeAll_self hL body h)
  | .elif e body rest, h => by
    simp only [Alternative.names, List.forall_mem_append] at h
    exact .elif (Expr.alike_self hL e h.1.1) (Stmt.alikeAll_self hL body h.1.2)
      (Alternative.alike_self hL rest h.2)

theorem Stmt.alikeAll_self {L : Likeness} (hL : L.Steady) :
    (ss : List Stmt) → (∀ name ∈ Stmt.namesAll ss, ∀ p, L.Finds name p p) → Stmt.AlikeAll L ss ss
  | [], _ => .nil
  | s :: ss, h => by
    rw [Stmt.namesAll, List.forall_mem_append] at h
    exact .cons (Stmt.alike_self hL s h.1) (Stmt.alikeAll_self hL ss h.2)

end

/-! Where nothing may differ, programs are alike only if they are the same. -/

mutual

theorem Expr.Alike.eq {L : Likeness} (hL : L.exact) : ∀ {e f : Expr}, Expr.Alike L e f → e = f
  | _, _, .int hp | _, _, .float hp | _, _, .str hp | _, _, .bool hp | _, _, .ident hp _ => by
    rw [hp hL]
  | _, _, .not hp h | _, _, .neg hp _ h => by rw [hp hL, h.eq hL]
  | _, _, .logic hp hl hr | _, _, .compare hp _ _ hl hr | _, _, .arith hp _ _ hl hr => by
    rw [hp hL, hl.eq hL, hr.eq hL]
  | _, _, .call hp _ _ h => by rw [hp hL, h.eq hL]

theorem Expr.AlikeAll.eq {L : Likeness} (hL : L.exact) :
    ∀ {es fs : List Expr}, Expr.AlikeAll L es fs → es = fs
  | _, _, .nil => rfl
  | _, _, .cons h hs => by rw [h.eq hL, hs.eq hL]

end

mutual

theorem Stmt.Alike.eq {L : Likeness} (hL : L.exact) (hform : ¬ L.unfolds) :
    ∀ {s t : Stmt}, Stmt.Alike L s t → s = t
  | _, _, .expr hp h | _, _, .var hp h | _, _, .let hp h | _, _, .assign hp h
  | _, _, .ret hp h => by
    rw [hp hL, h.eq hL]
  | _, _, .varLet hn _ | _, _, .letVar hn _ => absurd hL hn
  | _, _, .cond hp h hb hr => by rw [hp hL, h.eq hL, hb.eq hL hform, hr.eq hL hform]
  | _, _, .loop hp _ _ h h' hb => by rw [hp hL, h.eq hL, h'.eq hL, hb.eq hL hform]
  | _, _, .proc hp _ hs hb => by rw [hp hL, hs hL, hb.eq hL hform]
  | _, _, .block hp hb => by rw [hp hL, hb.eq hL hform]

theorem Alternative.Alike.eq {L : Likeness} (hL : L.exact) (hform : ¬ L.unfolds) :
    ∀ {a b : Alternative}, Alternative.Alike L a b → a = b
  | _, _, .none => rfl
  | _, _, .otherwise hb => by rw [hb.eq hL hform]
  | _, _, .elif h hb hr => by rw [h.eq hL, hb.eq hL hform, hr.eq hL hform]
  | _, _, .nest hu _ _ _ => absurd hu hform

theorem Stmt.AlikeAll.eq {L : Likeness} (hL : L.exact) (hform : ¬ L.unfolds) :
    ∀ {ss ts : List Stmt}, Stmt.AlikeAll L ss ts → ss = ts
  | _, _, .nil => rfl
  | _, _, .cons h hs => by rw [h.eq hL hform, hs.eq hL hform]
  | _, _, .unfold hu _ _ => absurd hu hform

end

end SceneScript
