import SceneScript.Proofs.Run.Alike
import SceneScript.Session

/-! What is put out is never looked at. A machine that keeps some of it to itself comes to the same
end with every script, and to the same state but for that; so no script can tell whether something
it puts out leaves a trace. -/

namespace SceneScript

variable {ν α β : Type}

/-- The requests of a native function, except those to put out what `keep` refuses. -/
def Request.hush (keep : Output ν → Bool) : Request ν α → Request ν α
  | .done a => .done a
  | .fail e => .fail e
  | .crash e => .crash e
  | .lookup name next => .lookup name fun v => (next v).hush keep
  | .assign name v next => .assign name v (next.hush keep)
  | .define name v next => .define name v (next.hush keep)
  | .depth next => .depth fun n => (next n).hush keep
  | .trigger event next => .trigger event fun r => (next r).hush keep
  | .call name args next => .call name args fun r => (next r).hush keep
  | .emit o next => if keep o then .emit o (next.hush keep) else next.hush keep
  | .keyDown key next => .keyDown key fun b => (next b).hush keep
  | .keyPressed key next => .keyPressed key fun b => (next b).hush keep

/-- Native functions that put out nothing that `keep` refuses. -/
def Natives.hush (keep : Output ν → Bool) (natives : Natives ν) : Natives ν :=
  fun key name args => (natives key name args).hush keep

def Machine.hush (keep : Output ν → Bool) (m : Machine ν) : Machine ν :=
  ⟨m.natives.hush keep, m.depth, m.room⟩

/-- The state as if nothing that `keep` refuses had been put out. -/
def State.hush (keep : Output ν → Bool) (s : State ν) : State ν :=
  { s with outputs := s.outputs.filter keep }

theorem State.hush_eq_self {keep : Output ν → Bool} {s : State ν} (h : s.outputs = #[]) :
    s.hush keep = s := by
  unfold State.hush
  rw [h, Array.filter_empty, ← h]

theorem State.setGlobal_hush (keep : Output ν → Bool) (s : State ν) (name : String) (v : Value ν) :
    (s.hush keep).setGlobal name v = (s.setGlobal name v).hush keep := rfl

namespace Run

variable {keep : Output ν → Bool}

/-- `y` does what `x` does, but for putting out what `keep` refuses. -/
def Hushes (keep : Output ν → Bool) (x y : Run ν α) : Prop :=
  ∀ s, y.run (s.hush keep) = ((x.run s).1, (x.run s).2.hush keep)

namespace Hushes

theorem pure (a : α) : Hushes keep (Pure.pure a) (Pure.pure a) := fun _ => rfl

theorem throw (f : Failure) :
    Hushes keep (MonadExcept.throw f : Run ν α) (MonadExcept.throw f) := fun _ => rfl

theorem bind {x y : Run ν α} {f g : α → Run ν β} (hx : Hushes keep x y)
    (hf : ∀ a, Hushes keep (f a) (g a)) : Hushes keep (x >>= f) (y >>= g) := by
  intro s
  rw [run_bind, run_bind, hx s]
  generalize x.run s = r
  obtain ⟨e | a, s'⟩ := r
  · rfl
  · exact hf a s'

/-- What is read of the state is there without what was put out. -/
theorem get {k : State ν → β} (hk : ∀ s, k (s.hush keep) = k s) {f g : β → Run ν α}
    (hf : ∀ c, Hushes keep (f c) (g c)) :
    Hushes keep (MonadState.get >>= fun s => f (k s)) (MonadState.get >>= fun s => g (k s)) := by
  intro s
  show (g (k (s.hush keep))).run (s.hush keep) = _
  rw [hk s]
  exact hf (k s) s

theorem onScopes (f : Scopes (Value ν) → Scopes (Value ν)) :
    Hushes keep (Run.onScopes f) (Run.onScopes f) := fun _ => rfl

theorem lookup (name : String) :
    Hushes (ν := ν) keep (Run.lookup name) (Run.lookup name) := fun _ => rfl

theorem fetch (name : String) (pos : Option Pos) :
    Hushes (ν := ν) keep (Run.fetch name pos) (Run.fetch name pos) := by
  refine bind (lookup name) fun o => ?_
  cases o with
  | none => exact throw _
  | some v => exact pure v

theorem callee (name : String) (pos : Option Pos) :
    Hushes (ν := ν) keep (Run.callee name pos) (Run.callee name pos) := by
  refine bind (fetch name pos) fun v => ?_
  cases v with
  | fn f => exact pure f
  | _ => exact throw _

theorem located (pos : Pos) (r : Except RuntimeCause α) :
    Hushes (ν := ν) keep (Run.located pos r) (Run.located pos r) := by
  cases r with
  | ok a => exact pure a
  | error cause => exact throw _

theorem emit_kept {o : Output ν} (h : keep o = true) :
    Hushes keep (Run.emit o) (Run.emit o) := by
  intro s
  show (Except.ok (), { s with outputs := (s.outputs.filter keep).push o }) =
    (Except.ok (), { s with outputs := (s.outputs.push o).filter keep })
  rw [Array.filter_push_of_pos h (Array.size_push o)]

theorem emit_refused {o : Output ν} (h : ¬ keep o = true) {x y : Run ν α}
    (hxy : Hushes keep x y) : Hushes keep (Run.emit o >>= fun _ => x) y := by
  intro s
  have hstate : ({ s with outputs := s.outputs.push o } : State ν).hush keep = s.hush keep := by
    unfold State.hush
    rw [Array.filter_push_of_neg h (Array.size_push o)]
  rw [← hstate]
  exact hxy { s with outputs := s.outputs.push o }

theorem inScope (f : Bindings (Value ν)) {x y : Run ν α} (h : Hushes keep x y) :
    Hushes keep (Run.inScope f x) (Run.inScope f y) := by
  intro s
  exact congrArg (fun r => (r.1, { r.2 with scopes := r.2.scopes.pop }))
    (h { s with scopes := s.scopes.push f })

theorem onGlobals {x y : Run ν α} (h : Hushes keep x y) :
    Hushes keep (Run.onGlobals x) (Run.onGlobals y) := by
  intro s
  exact congrArg (fun r => (r.1, { r.2 with scopes := r.2.scopes.leave }))
    (h { s with scopes := s.scopes.enter })

theorem attempt {x y : Run ν α} (h : Hushes keep x y) :
    Hushes keep (Run.attempt x) (Run.attempt y) := by
  intro s
  rw [run_attempt, run_attempt, h s]

theorem refuse : Hushes (ν := ν) (α := α) keep Run.refuse Run.refuse := fun _ => rfl

theorem deeper (room : Nat) {x y : Nat → Run ν α} (h : ∀ room, Hushes keep (x room) (y room)) :
    Hushes keep (Run.deeper room x) (Run.deeper room y) := by
  cases room with
  | zero => exact refuse
  | succ room => exact h room

theorem overflow (name : String) :
    Hushes (ν := ν) (α := α) keep (Run.overflow name) (Run.overflow name) := fun _ => rfl

theorem refusing (name : String) {x y : Run ν α} (h : Hushes keep x y) :
    Hushes keep (Run.refusing name x) (Run.refusing name y) := by
  intro s
  rw [run_refusing, run_refusing, h s]
  generalize x.run s = r
  obtain ⟨(_ | _ | _ | _) | a, s'⟩ := r <;> rfl

theorem iterate (name : String) {body body' : Run ν (Flow ν)} (h : Hushes keep body body')
    (stop : Number) (n : Nat) (i : Number) :
    Hushes keep (Run.iterate name body stop n i) (Run.iterate name body' stop n i) := by
  induction n generalizing i with
  | zero => exact throw .endless
  | succ n ih =>
    unfold Run.iterate
    split
    · refine bind (onScopes _) fun _ => bind h fun r => ?_
      cases r with
      | next => exact ih _
      | returned v => exact pure _
    · exact pure _

end Hushes

end Run

/-- Calls of which the second ones do not put out what `keep` refuses. -/
def Invoke.Hushes (keep : Output ν → Bool) (inv inv' : Invoke ν) : Prop :=
  ∀ f args, Run.Hushes keep (inv f args) (inv' f args)

namespace Run

variable {keep : Output ν → Bool} {inv inv' : Invoke ν}

mutual

theorem eval_hushes (hinv : Invoke.Hushes keep inv inv') :
    (room : Nat) → (e : Expr) → Hushes keep (eval inv room e) (eval inv' room e)
  | _, .int _ x => .pure _
  | _, .float _ x => .pure _
  | _, .str _ s => .pure _
  | _, .bool _ b => .pure _
  | _, .ident pos name => .fetch name (some pos)
  | room, .unary _ .not e =>
    .deeper room fun room => .bind (eval_hushes hinv room e) fun _ => .pure _
  | room, .unary pos .neg e =>
    .deeper room fun room => .bind (eval_hushes hinv room e) fun v =>
      .bind (.located pos v.number) fun _ => .pure _
  | room, .binary _ (.logic .and) l r => by
    refine .deeper room fun room => .bind (eval_hushes hinv room l) fun v => ?_
    split
    · exact .bind (eval_hushes hinv room r) fun _ => .pure _
    · exact .pure _
  | room, .binary _ (.logic .or) l r => by
    refine .deeper room fun room => .bind (eval_hushes hinv room l) fun v => ?_
    split
    · exact .pure _
    · exact .bind (eval_hushes hinv room r) fun _ => .pure _
  | room, .binary _ (.compare op) l r =>
    .deeper room fun room =>
      .bind (eval_hushes hinv room l) fun v => .bind (.located l.pos v.number) fun _ =>
        .bind (eval_hushes hinv room r) fun w => .bind (.located r.pos w.number) fun _ => .pure _
  | room, .binary _ (.arith op) l r =>
    .deeper room fun room =>
      .bind (eval_hushes hinv room l) fun v => .bind (.located l.pos v.number) fun _ =>
        .bind (eval_hushes hinv room r) fun w => .bind (.located r.pos w.number) fun _ => .pure _
  | room, .call pos name args =>
    .deeper room fun room => .bind (.callee name (some pos)) fun f =>
      .bind (evalAll_hushes hinv room args) fun vs => hinv f vs

theorem evalAll_hushes (hinv : Invoke.Hushes keep inv inv') :
    (room : Nat) → (es : List Expr) → Hushes keep (evalAll inv room es) (evalAll inv' room es)
  | _, [] => .pure []
  | room, e :: es =>
    .bind (eval_hushes hinv room e) fun _ => .bind (evalAll_hushes hinv room es) fun _ => .pure _

end

mutual

theorem exec_hushes (hinv : Invoke.Hushes keep inv inv') (room : Nat) :
    (s : Stmt) → Hushes keep (exec inv room s) (exec inv' room s)
  | .expr _ e => .bind (eval_hushes hinv room e) fun _ => .pure _
  | .var _ name e | .let _ name e | .assign _ name e =>
    .bind (eval_hushes hinv room e) fun _ => .bind (.onScopes _) fun _ => .pure _
  | .cond _ test body rest => by
    refine .bind (eval_hushes hinv room test) fun v => ?_
    split
    · exact execAll_hushes hinv room body
    · exact execAlternative_hushes hinv room rest
  | .loop _ name start stop body =>
    .bind (eval_hushes hinv room start) fun v => .bind (.located start.pos v.integer) fun _ =>
      .bind (eval_hushes hinv room stop) fun w => .bind (.located stop.pos w.integer) fun _ =>
        .iterate name (execAll_hushes hinv room body) _ _ _
  | .proc _ name _ _ => .bind (.onScopes _) fun _ => .pure _
  | .ret _ e => .bind (eval_hushes hinv room e) fun _ => .pure _
  | .block _ body => execAll_hushes hinv room body

theorem execAlternative_hushes (hinv : Invoke.Hushes keep inv inv') (room : Nat) :
    (a : Alternative) → Hushes keep (execAlternative inv room a) (execAlternative inv' room a)
  | .none => .pure _
  | .otherwise body => execAll_hushes hinv room body
  | .elif test body rest => by
    refine .bind (eval_hushes hinv room test) fun v => ?_
    split
    · exact execAll_hushes hinv room body
    · exact execAlternative_hushes hinv room rest

theorem execAll_hushes (hinv : Invoke.Hushes keep inv inv') (room : Nat) :
    (ss : List Stmt) → Hushes keep (execAll inv room ss) (execAll inv' room ss)
  | [] => .pure _
  | s :: ss => by
    refine .bind (exec_hushes hinv room s) fun r => ?_
    cases r with
    | next => exact execAll_hushes hinv room ss
    | returned v => exact .pure _

end

theorem program_hushes (hinv : Invoke.Hushes keep inv inv') (room : Nat) (p : Program) :
    Hushes keep (program inv room p) (program inv' room p) :=
  .onGlobals (.bind (execAll_hushes hinv room p) fun _ => .pure ())

theorem trigger_hushes (hinv : Invoke.Hushes keep inv inv') (room : Nat) (event : String) :
    Hushes keep (trigger inv room event) (trigger inv' room event) := by
  rw [trigger_eq_elim, trigger_eq_elim]
  refine .attempt (.get (k := (·.events.get? event))
    (f := fun o => o.elim (pure ()) (program inv room))
    (g := fun o => o.elim (pure ()) (program inv' room)) (fun _ => rfl) fun o => ?_)
  cases o with
  | none => exact .pure ()
  | some p => exact program_hushes hinv room p

theorem call_hushes (hinv : Invoke.Hushes keep inv inv') (name : String) (args : List (Value ν)) :
    Hushes keep (call inv name args) (call inv' name args) :=
  .attempt (.onGlobals (.bind (.callee name none) fun f => hinv f args))

theorem perform_hushes {e e' : Entry ν}
    (htrigger : ∀ event, Hushes keep (e.trigger event) (e'.trigger event))
    (hcall : ∀ name args, Hushes keep (e.call name args) (e'.call name args)) (r : Request ν α) :
    Hushes keep (perform e r) (perform e' (r.hush keep)) := by
  induction r with
  | done a => exact .pure a
  | fail error => exact .throw _
  | crash error => exact .throw _
  | lookup name next ih => exact .bind (.lookup name) ih
  | assign name v next ih => exact .bind (.onScopes _) fun _ => ih
  | define name v next ih => exact .bind (.onScopes _) fun _ => ih
  | depth next ih => exact .get (fun _ => rfl) ih
  | trigger event next ih => exact .bind (htrigger event) ih
  | call name args next ih => exact .bind (hcall name args) ih
  | emit o next ih =>
    unfold Request.hush
    split
    case isTrue h => exact .bind (.emit_kept h) fun _ => ih
    case isFalse h => exact .emit_refused h ih
  | keyDown key next ih => exact .get (fun _ => rfl) ih
  | keyPressed key next ih => exact .get (fun _ => rfl) ih

theorem invoke_hushes (natives : Natives ν) (room depth : Nat) :
    Invoke.Hushes keep (invoke natives room depth) (invoke (natives.hush keep) room depth) := by
  induction depth with
  | zero =>
    intro f args
    cases f with
    | native name key =>
      exact perform_hushes (fun _ => .refuse) (fun _ _ => .refuse) (natives key name args)
    | proc p => exact .overflow p.name
  | succ depth ih =>
    intro f args
    cases f with
    | native name key =>
      exact perform_hushes (trigger_hushes ih room) (call_hushes ih) (natives key name args)
    | proc p =>
      refine .refusing p.name (.inScope _ (.bind (execAll_hushes ih room p.body) fun r => ?_))
      cases r with
      | next => exact .pure _
      | returned v => exact .pure v

end Run

namespace Machine

theorem run_hushes (keep : Output ν → Bool) (m : Machine ν) (p : Program) :
    Run.Hushes keep (m.run p) ((m.hush keep).run p) :=
  Run.program_hushes (Run.invoke_hushes m.natives m.room m.depth) m.room p

theorem eval_hushes (keep : Output ν → Bool) (m : Machine ν) (e : Expr) :
    Run.Hushes keep (m.eval e) ((m.hush keep).eval e) :=
  .onGlobals (Run.eval_hushes (Run.invoke_hushes m.natives m.room m.depth) m.room e)

theorem trigger_hushes (keep : Output ν → Bool) (m : Machine ν) (event : String) :
    Run.Hushes keep (m.trigger event) ((m.hush keep).trigger event) :=
  Run.trigger_hushes (Run.invoke_hushes m.natives m.room m.depth) m.room event

end Machine

end SceneScript
