import SceneScript.Proofs.Run.Agreement

/-! Like programs agree. -/

namespace SceneScript

variable {ν α : Type} {L : Likeness}

/-- Native functions that go on alike from like answers. -/
inductive Request.Alike (R : L.On α) : Request ν α → Request ν α → Prop
  | done {a b : α} : R.rel a b → Request.Alike R (.done a) (.done b)
  | fail {e f : RuntimeError} : L.error e f → Request.Alike R (.fail e) (.fail f)
  | crash {e : HostError} : Request.Alike R (.crash e) (.crash e)
  | lookup {name : String} {next next' : Option (Value ν) → Request ν α} :
      (∀ v w, Option.Rel (Value.Alike L) v w → Request.Alike R (next v) (next' w)) →
      Request.Alike R (.lookup name next) (.lookup name next')
  | assign {name : String} {v w : Value ν} {next next' : Request ν α} : Value.Alike L v w →
      Request.Alike R next next' → Request.Alike R (.assign name v next) (.assign name w next')
  | define {name : String} {v w : Value ν} {next next' : Request ν α} : Value.Alike L v w →
      Request.Alike R next next' → Request.Alike R (.define name v next) (.define name w next')
  | depth {next next' : Nat → Request ν α} : (∀ n, Request.Alike R (next n) (next' n)) →
      Request.Alike R (.depth next) (.depth next')
  | trigger {event : String} {next next' : Except RuntimeError Unit → Request ν α} :
      L.fires event →
      (∀ r q, EndsAlike L.error Eq r q → Request.Alike R (next r) (next' q)) →
      Request.Alike R (.trigger event next) (.trigger event next')
  | call {name : String} {args args' : List (Value ν)}
      {next next' : Except RuntimeError (Value ν) → Request ν α} :
      L.Finds name none none → L.Calls name none none → List.Forall₂ (Value.Alike L) args args' →
      (∀ r q, EndsAlike L.error (Value.Alike L) r q → Request.Alike R (next r) (next' q)) →
      Request.Alike R (.call name args next) (.call name args' next')
  | emit {o o' : Output ν} {next next' : Request ν α} : Output.Alike L o o' →
      Request.Alike R next next' → Request.Alike R (.emit o next) (.emit o' next')
  | keyDown {key : Number} {next next' : Bool → Request ν α} :
      (∀ b, Request.Alike R (next b) (next' b)) →
      Request.Alike R (.keyDown key next) (.keyDown key next')
  | keyPressed {key : Number} {next next' : Bool → Request ν α} :
      (∀ b, Request.Alike R (next b) (next' b)) →
      Request.Alike R (.keyPressed key next) (.keyPressed key next')

/-- Native functions that do not look into procedures: from like arguments and like answers they
ask for like things. -/
def Natives.Alike (L : Likeness) (natives : Natives ν) : Prop :=
  ∀ key name args args', List.Forall₂ (Value.Alike L) args args' →
    Request.Alike L.value (natives key name args) (natives key name args')

def Invoke.Alike (L : Likeness) (inv inv' : Invoke ν) : Prop :=
  ∀ f g args args', Callable.Alike L f g → List.Forall₂ (Value.Alike L) args args' →
    Run.Agree L.value (inv f args) (inv' g args')

structure Entry.Alike (L : Likeness) (e e' : Entry ν) : Prop where
  trigger : ∀ event, L.fires event →
    Run.Agree (L.same Unit).ends (e.trigger event) (e'.trigger event)
  call : ∀ name, L.Finds name none none → L.Calls name none none → ∀ args args',
    List.Forall₂ (Value.Alike L) args args' →
      Run.Agree L.value.ends (e.call name args) (e'.call name args')

namespace Run

variable {inv inv' : Invoke ν} {room room' : Nat}

/-! Expressions -/

mutual

theorem eval_agree (hinv : Invoke.Alike L inv inv') :
    ∀ {e f : Expr}, Expr.Alike L e f → ∀ {room room' : Nat}, L.Fits room room' →
      Agree L.value (eval inv room e) (eval inv' room' f)
  | _, _, .int _, _, _, _ => .pure .int
  | _, _, .float _, _, _, _ => .pure .float
  | _, _, .str _, _, _, _ => .pure .str
  | _, _, .bool _, _, _, _ => .pure .bool
  | _, _, .ident _ hfind, _, _, _ => .fetch hfind
  | _, _, .not _ h, _, _, hroom => by
    refine .deeper hroom fun _ _ hroom => ?_
    refine .bind (eval_agree hinv h hroom) fun v w hv => ?_
    rw [hv.truthy]
    exact .pure .bool
  | _, _, .neg _ hcount h, _, _, hroom => by
    refine .deeper hroom fun _ _ hroom => ?_
    refine .bind (eval_agree hinv h hroom) fun v w hv => .bind (.number hcount hv) fun x _ hx => ?_
    cases hx
    exact .pure .float
  | .binary _ (.logic .and) _ _, _, .logic _ hl hr, _, _, hroom => by
    refine .deeper hroom fun _ _ hroom => ?_
    refine .bind (eval_agree hinv hl hroom) fun v w hv => ?_
    rw [hv.truthy]
    split
    · refine .bind (eval_agree hinv hr hroom) fun v w hv => ?_
      rw [hv.truthy]
      exact .pure .bool
    · exact .pure .bool
  | .binary _ (.logic .or) _ _, _, .logic _ hl hr, _, _, hroom => by
    refine .deeper hroom fun _ _ hroom => ?_
    refine .bind (eval_agree hinv hl hroom) fun v w hv => ?_
    rw [hv.truthy]
    split
    · exact .pure .bool
    · refine .bind (eval_agree hinv hr hroom) fun v w hv => ?_
      rw [hv.truthy]
      exact .pure .bool
  | _, _, .compare _ hcl hcr hl hr, _, _, hroom => by
    refine .deeper hroom fun _ _ hroom => ?_
    refine .bind (eval_agree hinv hl hroom) fun v w hv => .bind (.number hcl hv) fun x _ hx => ?_
    refine .bind (eval_agree hinv hr hroom) fun v w hv => .bind (.number hcr hv) fun y _ hy => ?_
    cases hx
    cases hy
    exact .pure .bool
  | _, _, .arith _ hcl hcr hl hr, _, _, hroom => by
    refine .deeper hroom fun _ _ hroom => ?_
    refine .bind (eval_agree hinv hl hroom) fun v w hv => .bind (.number hcl hv) fun x _ hx => ?_
    refine .bind (eval_agree hinv hr hroom) fun v w hv => .bind (.number hcr hv) fun y _ hy => ?_
    cases hx
    cases hy
    exact .pure .float
  | _, _, .call _ hfind hcall hargs, _, _, hroom =>
    .deeper hroom fun _ _ hroom => .bind (.callee hfind hcall) fun _ _ hf =>
      .bind (evalAll_agree hinv hargs hroom) fun _ _ hvs => hinv _ _ _ _ hf hvs

theorem evalAll_agree (hinv : Invoke.Alike L inv inv') :
    ∀ {es fs : List Expr}, Expr.AlikeAll L es fs → ∀ {room room' : Nat}, L.Fits room room' →
      Agree L.value.list (evalAll inv room es) (evalAll inv' room' fs)
  | _, _, .nil, _, _, _ => .pure .nil
  | _, _, .cons h hs, _, _, hroom =>
    .bind (eval_agree hinv h hroom) fun _ _ hv => .bind (evalAll_agree hinv hs hroom) fun _ _ hvs =>
      .pure (.cons hv hvs)

end

/-! Statements -/

mutual

theorem exec_agree (hinv : Invoke.Alike L inv inv') (hroom : L.Fits room room') :
    ∀ {s t : Stmt}, Stmt.Alike L s t → Agree L.flow (exec inv room s) (exec inv' room' t)
  | _, _, .expr _ h => .bind (eval_agree hinv h hroom) fun _ _ _ => .pure .next
  | _, _, .var _ h | _, _, .let _ h | _, _, .varLet _ h | _, _, .letVar _ h =>
    .bind (eval_agree hinv h hroom) fun _ _ hv => .bind (.define _ hv) fun _ _ _ => .pure .next
  | _, _, .assign _ h =>
    .bind (eval_agree hinv h hroom) fun _ _ hv => .bind (.assign _ hv) fun _ _ _ => .pure .next
  | _, _, .cond _ h hbody hrest =>
    .branch (eval_agree hinv h hroom) (execAll_agree hinv hroom hbody)
      (execAlternative_agree hinv hroom hrest)
  | _, _, .loop _ hc hc' h h' hbody => by
    refine .bind (eval_agree hinv h hroom) fun v w hv => .bind (.integer hc hv) fun x _ hx => ?_
    refine .bind (eval_agree hinv h' hroom) fun v w hv => .bind (.integer hc' hv) fun y _ hy => ?_
    cases hx
    cases hy
    exact .iterate _ (execAll_agree hinv hroom hbody) _ _ _
  | _, _, .proc _ hparams _ hbody => by
    refine .bind (.define _ ?_) fun _ _ _ => .pure .next
    rw [hparams]
    exact .fn (.proc hbody)
  | _, _, .ret _ h => .bind (eval_agree hinv h hroom) fun _ _ hv => .pure (.returned hv)
  | _, _, .block _ hbody => execAll_agree hinv hroom hbody

theorem execAlternative_agree (hinv : Invoke.Alike L inv inv') (hroom : L.Fits room room') :
    ∀ {a b : Alternative}, Alternative.Alike L a b →
      Agree L.flow (execAlternative inv room a) (execAlternative inv' room' b)
  | _, _, .none => .pure .next
  | _, _, .otherwise hbody => execAll_agree hinv hroom hbody
  | _, _, .elif h hbody hrest =>
    .branch (eval_agree hinv h hroom) (execAll_agree hinv hroom hbody)
      (execAlternative_agree hinv hroom hrest)
  | _, _, .nest _ h hbody hrest => by
    -- The else branch holds the one condition, which does what the further branch does.
    rw [execAlternative, execAlternative, execAll_singleton]
    exact .branch (eval_agree hinv h hroom) (execAll_agree hinv hroom hbody)
      (execAlternative_agree hinv hroom hrest)

theorem execAll_agree (hinv : Invoke.Alike L inv inv') (hroom : L.Fits room room') :
    ∀ {ss ts : List Stmt}, Stmt.AlikeAll L ss ts →
      Agree L.flow (execAll inv room ss) (execAll inv' room' ts)
  | _, _, .nil => .pure .next
  | _, _, .cons h hs => .andThen (exec_agree hinv hroom h) (execAll_agree hinv hroom hs)
  | _, _, .unfold _ hbody hs => by
    rw [execAll_append]
    exact .andThen (execAll_agree hinv hroom hbody) (execAll_agree hinv hroom hs)

end

/-! Native functions -/

theorem perform_agree {R : L.On α} {e e' : Entry ν} (he : Entry.Alike L e e')
    {r r' : Request ν α} (h : Request.Alike R r r') : Agree R (perform e r) (perform e' r') := by
  induction h with
  | done hab => exact .pure hab
  | fail herror => exact .throw (.script herror)
  | crash => exact .throw .host
  | @lookup name _ _ _ ih => exact .bind (.lookup name) ih
  | @assign name _ _ _ _ hv _ ih => exact .bind (.assign name hv) fun _ _ _ => ih
  | @define name _ _ _ _ hv _ ih => exact .bind (.define name hv) fun _ _ _ => ih
  | @depth next next' _ ih =>
    refine .get (K := L.same Nat) (f := fun n => perform e (next n))
      (g := fun n => perform e' (next' n)) (·.scopes.depth) ?_ ?_
    · exact fun s t hst => hst.locals.length_eq
    · rintro n _ rfl
      exact ih n
  | @trigger event _ _ hfires _ ih => exact .bind (he.trigger event hfires) ih
  | @call name args args' _ _ hfind hcall hargs _ ih =>
    exact .bind (he.call name hfind hcall args args' hargs) ih
  | emit ho _ ih => exact .bind (.emit ho) fun _ _ _ => ih
  | @keyDown key next next' _ ih =>
    refine .get (K := L.same Bool) (f := fun b => perform e (next b))
      (g := fun b => perform e' (next' b)) (·.keyboard.down.contains (key.writtenIn .signed)) ?_ ?_
    · exact fun s t hst => congrArg (fun k : Keyboard => k.down.contains _) hst.keyboard
    · rintro b _ rfl
      exact ih b
  | @keyPressed key next next' _ ih =>
    refine .get (K := L.same Bool) (f := fun b => perform e (next b))
      (g := fun b => perform e' (next' b))
      (·.keyboard.pressed.contains (key.writtenIn .signed)) ?_ ?_
    · exact fun s t hst => congrArg (fun k : Keyboard => k.pressed.contains _) hst.keyboard
    · rintro b _ rfl
      exact ih b

/-! Entries from outside -/

theorem program_apart (hinv : Invoke.Alike L inv inv') (hroom : L.Fits room room')
    {p q : Program} (h : Stmt.AlikeAll L p q) :
    Apart (L.same Unit) (program inv room p) (program inv' room' q) :=
  .onGlobals (.bind (execAll_agree hinv hroom h) fun _ _ _ => .pure rfl)

theorem trigger_eq_elim (inv : Invoke ν) (room : Nat) (event : String) :
    trigger inv room event = attempt (get >>= fun s =>
      (s.events.get? event).elim (pure ()) (program inv room)) := by
  unfold trigger
  congr 2
  funext s
  cases s.events.get? event with
  | none => rfl
  | some p => rfl

theorem trigger_apart (hinv : Invoke.Alike L inv inv') (hroom : L.Fits room room')
    {event : String} (hfires : L.fires event) :
    Apart (L.same Unit).ends (trigger inv room event) (trigger inv' room' event) := by
  rw [trigger_eq_elim, trigger_eq_elim]
  refine .attempt (.get (K := L.program.option)
    (f := fun o => o.elim (pure ()) (program inv room))
    (g := fun o => o.elim (pure ()) (program inv' room')) (·.events.get? event) ?_ ?_)
  · exact fun s t hst => hst.events event hfires
  · intro c d hcd
    cases hcd with
    | none => exact .pure rfl
    | some h => exact program_apart hinv hroom h

theorem call_apart (hinv : Invoke.Alike L inv inv') {name : String}
    (hfind : L.Finds name none none) (hcall : L.Calls name none none)
    {args args' : List (Value ν)} (hargs : List.Forall₂ (Value.Alike L) args args') :
    Apart L.value.ends (call inv name args) (call inv' name args') :=
  .attempt (.onGlobals (.bind (.callee hfind hcall) fun _ _ hf => hinv _ _ _ _ hf hargs))

theorem entry_alike (hinv : Invoke.Alike L inv inv') (hroom : L.Fits room room') :
    Entry.Alike L (entry inv room) (entry inv' room') where
  trigger _ hfires := (trigger_apart hinv hroom hfires).agree
  call _ hfind hcall _ _ hargs := (call_apart hinv hfind hcall hargs).agree

/-! Calls -/

theorem scope_alike {params : List String} {args args' : List (Value ν)} {name : String}
    {body body' : List Stmt} (h : List.Forall₂ (Value.Alike L) args args') :
    Bindings.Alike (Value.Alike L) (Procedure.scope ⟨name, params, body⟩ args)
      (Procedure.scope ⟨name, params, body'⟩ args') := by
  suffices hbind : ∀ b c : Bindings (Value ν), Bindings.Alike (Value.Alike L) b c →
      Bindings.Alike (Value.Alike L) (Procedure.scope.bind b params args)
        (Procedure.scope.bind c params args') from hbind _ _ .empty
  induction params generalizing args args' with
  | nil => exact fun b c hbc => hbc
  | cons p params ih =>
    intro b c hbc
    cases h with
    | nil => exact ih .nil _ _ (hbc.put p .nil)
    | cons hv hvs => exact ih hvs _ _ (hbc.put p hv)

/-- The body of a procedure. -/
theorem body_agree (hinv : Invoke.Alike L inv inv') (hroom : L.Fits room room')
    {body body' : List Stmt} (h : Stmt.AlikeAll L body body') :
    Agree L.value
      (execAll inv room body >>= fun | .returned v => pure v | .next => pure .nil)
      (execAll inv' room' body' >>= fun | .returned v => pure v | .next => pure .nil) := by
  refine .bind (execAll_agree hinv hroom h) fun r q hrq => ?_
  cases hrq with
  | next => exact .pure .nil
  | returned hv => exact .pure hv

theorem entry_alike_closed (hcut : L.cut) (e : Entry ν) : Entry.Alike L .closed e where
  trigger _ _ := .of_cut hcut fun _ => rfl
  call _ _ _ _ _ _ := .of_cut hcut fun _ => rfl

theorem closed_alike : Entry.Alike L (.closed : Entry ν) .closed where
  trigger _ _ := .refuse
  call _ _ _ _ _ _ := .refuse

/-- Calls agree that have the same limits, and those of a run that may be cut short agree with calls
that have wider ones. -/
theorem invoke_alike {natives : Natives ν} (hnatives : natives.Alike L)
    (hover : ∀ name, L.error ⟨.stackOverflow name, none⟩ ⟨.stackOverflow name, none⟩)
    (hroom : L.Fits room room') {d D : Nat} (hd : L.Fits d D) :
    Invoke.Alike L (invoke natives room d) (invoke natives room' D) := by
  induction d generalizing D with
  | zero =>
    -- Where only the second may still call, the first refuses and is lost.
    intro f g args args' hf hargs
    cases hf with
    | @native name key =>
      have hrequest := hnatives key name args args' hargs
      cases D with
      | zero => exact perform_agree closed_alike hrequest
      | succ D => exact perform_agree (entry_alike_closed hd.cut_of_zero _) hrequest
    | proc hbody =>
      cases D with
      | zero => exact .overflow (hover _)
      | succ D => exact .of_cut hd.cut_of_zero fun _ => rfl
  | succ d ih =>
    obtain ⟨D, rfl, hfits⟩ := hd.pred
    have hinv := ih hfits
    intro f g args args' hf hargs
    cases hf with
    | @native name key =>
      exact perform_agree (entry_alike hinv hroom) (hnatives key name args args' hargs)
    | proc hbody =>
      exact .refusing (hover _) (.inScope (scope_alike hargs) (body_agree hinv hroom hbody))

end Run

end SceneScript
