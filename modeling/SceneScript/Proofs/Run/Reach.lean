import SceneScript.Proofs.Run.Agreement
import SceneScript.Proofs.Scope.Frames
import SceneScript.Proofs.Tree.Parts

/-! What a run can reach. A run comes across callables, in its variables and as results, and it may
end in a failure; a reach says which. Code whose parts keep to a reach stays in it, however deep
calls nest, as long as native functions do. On the way no call changes which names the scopes of its
caller bind. -/

namespace SceneScript

variable {ν α β : Type}

/-- The callables that a run may come across and the failures that it may end in. -/
structure Reach (ν : Type) where
  callable : Callable ν → Prop
  failure : Failure → Prop

namespace Reach

variable (R : Reach ν)

def value : Value ν → Prop
  | .fn f => R.callable f
  | _ => True

def flow : Flow ν → Prop
  | .next => True
  | .returned v => R.value v

/-- A result as `P` says, or a failure in reach. -/
def Ends (P : α → Prop) : Except Failure α → Prop
  | .ok a => P a
  | .error f => R.failure f

/-- Whatever goes wrong at the part is in reach, and so is a procedure that it declares. -/
structure Holds (part : Part) : Prop where
  fault : ∀ e, Fault part e → R.failure (.script e)
  proc : ∀ p, part = .proc p → R.callable (.proc p)

/-- The room is enough for expressions of this height, unless to run out of it is in reach. -/
def Suffices (room height : Nat) : Prop := height ≤ room ∨ R.failure .exhausted

/-- The reach of code for which it does not matter that it runs out of room. -/
def loosened : Reach ν := ⟨R.callable, fun f => f = .exhausted ∨ R.failure f⟩

variable {R}

theorem Suffices.left {room h k : Nat} (hroom : R.Suffices room (max h k)) : R.Suffices room h :=
  hroom.imp_left (Nat.le_trans (Nat.le_max_left h k))

theorem Suffices.right {room h k : Nat} (hroom : R.Suffices room (max h k)) : R.Suffices room k :=
  hroom.imp_left (Nat.le_trans (Nat.le_max_right h k))

theorem loosened_suffices (room height : Nat) : R.loosened.Suffices room height := .inr (.inl rfl)

theorem Holds.loosened {part : Part} (h : R.Holds part) : R.loosened.Holds part :=
  ⟨fun e he => .inr (h.fault e he), h.proc⟩

end Reach

open Scopes

variable {R : Reach ν}

theorem Procedure.scope_all (p : Procedure) {args : List (Value ν)} (h : ∀ v ∈ args, R.value v) :
    (p.scope args).All R.value := by
  unfold Procedure.scope
  suffices hbind : ∀ (names : List String) (b : Bindings (Value ν)) (args : List (Value ν)),
      b.All R.value → (∀ v ∈ args, R.value v) →
        (Procedure.scope.bind b names args).All R.value by
    refine hbind p.params _ _ (fun name v hv => ?_) h
    rw [Bindings.get?_empty] at hv
    cases hv
  intro names
  induction names with
  | nil => exact fun _ _ hb _ => hb
  | cons name names ih =>
    intro b args hb hargs
    cases args with
    | nil => exact ih _ _ (hb.put name trivial) hargs
    | cons v vs =>
      obtain ⟨hv, hvs⟩ := List.forall_mem_cons.mp hargs
      exact ih _ _ (hb.put name hv) hvs

theorem Procedure.binds_scope {p : Procedure} {x : String} (h : x ∈ p.params)
    (args : List (Value ν)) : (p.scope args).binds x = true := by
  unfold Procedure.scope
  suffices hbind : ∀ (names : List String) (b : Bindings (Value ν)) (args : List (Value ν)),
      x ∈ names ∨ b.binds x = true → (Procedure.scope.bind b names args).binds x = true from
    hbind p.params _ args (.inl h)
  intro names
  induction names with
  | nil => simp [Procedure.scope.bind]
  | cons name names ih =>
    intro b args hx
    have hput : ∀ v, x ∈ names ∨ (b.put name v).binds x = true := by
      intro v
      rw [Bindings.binds_put, Bool.or_eq_true, decide_eq_true_eq]
      rw [List.mem_cons] at hx
      tauto
    cases args with
    | nil => exact ih _ _ (hput .nil)
    | cons v vs => exact ih _ _ (hput v)

namespace Run

/-- Where a run from `s` comes to: the scopes in sight changed as `E` has it, the variables in reach
and so the end. -/
structure Comes (R : Reach ν) (E : Scopes (Value ν) → Scopes (Value ν) → Prop) (P : α → Prop)
    (s : State ν) (r : Except Failure α × State ν) : Prop where
  effect : E s.scopes r.2.scopes
  scopes : r.2.scopes.All R.value
  ends : R.Ends P r.1

/-- From variables in reach the run stays in reach. -/
def Stays (R : Reach ν) (E : Scopes (Value ν) → Scopes (Value ν) → Prop) (P : α → Prop)
    (x : Run ν α) : Prop :=
  ∀ s, s.scopes.All R.value → Comes R E P s (x.run s)

namespace Stays

variable {E : Scopes (Value ν) → Scopes (Value ν) → Prop} {P : α → Prop} {Q : β → Prop}

theorem opened {x : Run ν α} (h : Stays R Kept P x) : Stays R Opened P x :=
  fun s hs => ⟨(h s hs).effect.opened, (h s hs).scopes, (h s hs).ends⟩

theorem define (name : String) {v : Value ν} (hv : R.value v) :
    Stays R Opened (fun _ => True) (Run.define name v) :=
  fun s hs => ⟨s.scopes.opened_define name v, hs.define name hv, trivial⟩

theorem assign (name : String) {v : Value ν} (hv : R.value v) :
    Stays R Opened (fun _ => True) (Run.assign name v) :=
  fun s hs => ⟨s.scopes.opened_assign name v, hs.assign name hv, trivial⟩

/-- What a run adds to a scope of its own goes with that scope, and what that scope binds has not
changed behind it. -/
theorem inScope_shields {f : Bindings (Value ν)} (hf : f.All R.value) {x : Run ν α}
    (h : Stays R Opened P x) {s : State ν} (hs : s.scopes.All R.value) :
    Comes R Kept P s ((Run.inScope f x).run s) ∧
      Shields f s.scopes.chain ((Run.inScope f x).run s).2.scopes.chain := by
  obtain ⟨heffect, hscopes, hends⟩ := h { s with scopes := s.scopes.push f } (hs.push hf)
  exact ⟨⟨heffect.pop.1, hscopes.pop, hends⟩, heffect.pop.2⟩

theorem get {f : State ν → Run ν α} (h : ∀ t, Stays R E P (f t)) :
    Stays R E P (MonadState.get >>= f) :=
  fun s hs => h s s hs

theorem loosened {x : Run ν α} (h : Stays R E P x) : Stays R.loosened E P x := by
  intro s hs
  obtain ⟨heffect, hscopes, hends⟩ := h s hs
  refine ⟨heffect, hscopes, ?_⟩
  generalize (x.run s).1 = r at hends
  cases r with
  | ok a => exact hends
  | error f => exact .inr hends

/-- The procedure is to blame where its body runs out of room. -/
theorem refusing {name : String} (hname : R.failure (.script ⟨.stackOverflow name, none⟩))
    {x : Run ν α} (h : Stays R.loosened E P x) : Stays R E P (Run.refusing name x) := by
  intro s hs
  obtain ⟨heffect, hscopes, hends⟩ := h s hs
  rw [run_refusing]
  generalize x.run s = r at heffect hscopes hends
  obtain ⟨(_ | _ | _ | _) | a, s'⟩ := r
  case error.exhausted => exact ⟨heffect, hscopes, hname⟩
  case ok => exact ⟨heffect, hscopes, hends⟩
  all_goals exact ⟨heffect, hscopes, hends.resolve_left Failure.noConfusion⟩

variable [IsPreorder _ E]

theorem of_still {x : Run ν α} (hx : ∀ s, (x.run s).2.scopes = s.scopes)
    (h : ∀ s, s.scopes.All R.value → R.Ends P (x.run s).1) : Stays R E P x := by
  intro s hs
  refine ⟨?_, ?_, h s hs⟩
  · rw [hx]
    exact refl s.scopes
  · rw [hx]
    exact hs

theorem pure {a : α} (h : P a) : Stays R E P (Pure.pure a) :=
  of_still (fun _ => rfl) fun _ _ => h

theorem throw {f : Failure} (h : R.failure f) : Stays R E P (MonadExcept.throw f) :=
  of_still (fun _ => rfl) fun _ _ => h

theorem bind {x : Run ν α} {f : α → Run ν β} (hx : Stays R E P x)
    (hf : ∀ a, P a → Stays R E Q (f a)) : Stays R E Q (x >>= f) := by
  intro s hs
  have hx := hx s hs
  rw [run_bind]
  generalize x.run s = r at hx
  obtain ⟨heffect, hscopes, hends⟩ := hx
  obtain ⟨e | a, s'⟩ := r
  · exact ⟨heffect, hscopes, hends⟩
  · obtain ⟨heffect', hscopes', hends'⟩ := hf a hends s' hscopes
    exact ⟨IsTrans.trans _ _ _ heffect heffect', hscopes', hends'⟩

theorem lookup (name : String) : Stays R E (fun o => ∀ v ∈ o, R.value v) (Run.lookup name) :=
  of_still (fun _ => rfl) fun _ hs => hs.lookup name

theorem emit (o : Output ν) : Stays R E (fun _ => True) (Run.emit o) :=
  of_still (fun _ => rfl) fun _ _ => trivial

theorem fetch {name : String} {pos : Option Pos}
    (hname : R.failure (.script ⟨.undefined name, pos⟩)) :
    Stays R E R.value (Run.fetch name pos) := by
  refine bind (lookup name) fun o ho => ?_
  cases o with
  | none => exact throw hname
  | some v => exact pure (ho v rfl)

theorem callee {name : String} {pos : Option Pos}
    (hname : R.failure (.script ⟨.undefined name, pos⟩))
    (hcall : R.failure (.script ⟨.notCallable name, pos⟩)) :
    Stays R E R.callable (Run.callee name pos) := by
  refine bind (fetch hname) fun v hv => ?_
  cases v with
  | fn f => exact pure hv
  | _ => exact throw hcall

theorem number {pos : Pos} (h : ∀ kind, R.failure (.script ⟨.notNumeric kind, some pos⟩))
    (v : Value ν) : Stays R E (fun _ => True) (Run.located pos v.number) := by
  cases v with
  | int | float => exact pure trivial
  | _ => exact throw (h _)

theorem integer {pos : Pos} (h : ∀ kind, R.failure (.script ⟨.notNumeric kind, some pos⟩))
    (v : Value ν) : Stays R E (fun _ => True) (Run.located pos v.integer) := by
  cases v with
  | int | float => exact pure trivial
  | _ => exact throw (h _)

theorem overflow {name : String} (hname : R.failure (.script ⟨.stackOverflow name, none⟩)) :
    Stays R E P (Run.overflow name) :=
  of_still (fun _ => rfl) fun _ _ => hname

theorem deeper {room height : Nat} (hroom : R.Suffices room (height + 1)) {x : Nat → Run ν α}
    (h : ∀ room, R.Suffices room height → Stays R E P (x room)) :
    Stays R E P (Run.deeper room x) := by
  cases room with
  | zero =>
    exact of_still (fun _ => rfl) fun _ _ => hroom.resolve_left (Nat.not_succ_le_zero height)
  | succ room => exact h room (hroom.imp_left Nat.le_of_succ_le_succ)

theorem iterate (hendless : R.failure .endless) (name : String) {body : Run ν (Flow ν)}
    (h : Stays R Opened R.flow body) (stop : Number) (n : Nat) (i : Number) :
    Stays R Opened R.flow (Run.iterate name body stop n i) := by
  induction n generalizing i with
  | zero => exact throw hendless
  | succ n ih =>
    unfold Run.iterate
    split
    · refine bind (assign name trivial) fun _ _ => bind h fun r hr => ?_
      cases r with
      | next => exact ih _
      | returned v => exact pure hr
    · exact pure trivial

end Stays

end Run

/-- Calls of what is in reach stay in reach and leave the scopes of their caller with the names they
had. -/
def Invoke.Stays (R : Reach ν) (invoke : Invoke ν) : Prop :=
  ∀ f args, R.callable f → (∀ v ∈ args, R.value v) → Run.Stays R Kept R.value (invoke f args)

namespace Run

section

variable {invoke : Invoke ν}

mutual

theorem eval_stays (hinv : invoke.Stays R) :
    (room : Nat) → (e : Expr) → R.Suffices room e.height → (∀ part ∈ e.parts, R.Holds part) →
      Stays R Kept R.value (eval invoke room e)
  | _, .int .., _, _ | _, .float .., _, _ | _, .str .., _, _ | _, .bool .., _, _ => .pure trivial
  | _, .ident .., _, h => .fetch ((h _ (List.mem_singleton_self _)).fault _ .name)
  | _, .unary _ .not e, hroom, h => by
    rw [Expr.parts, List.forall_mem_cons] at h
    refine .deeper hroom fun room hroom => ?_
    exact .bind (eval_stays hinv room e hroom h.2) fun _ _ => .pure trivial
  | _, .unary _ .neg e, hroom, h => by
    rw [Expr.parts, List.forall_mem_cons] at h
    refine .deeper hroom fun room hroom => ?_
    exact .bind (eval_stays hinv room e hroom h.2) fun v _ =>
      .bind (.number (fun _ => h.1.fault _ .negated) v) fun _ _ => .pure trivial
  | _, .binary _ op l r, hroom, h => by
    rw [Expr.parts, List.forall_mem_cons, List.forall_mem_append] at h
    obtain ⟨hself, hl, hr⟩ := h
    have hleft room hroom := eval_stays hinv room l hroom hl
    have hright room hroom := eval_stays hinv room r hroom hr
    cases op with
    | logic op =>
      cases op with
      | and =>
        refine .deeper hroom fun room hroom => .bind (hleft room hroom.left) fun v _ => ?_
        split
        · exact .bind (hright room hroom.right) fun _ _ => .pure trivial
        · exact .pure trivial
      | or =>
        refine .deeper hroom fun room hroom => .bind (hleft room hroom.left) fun v _ => ?_
        split
        · exact .pure trivial
        · exact .bind (hright room hroom.right) fun _ _ => .pure trivial
    | compare op | arith op =>
      refine .deeper hroom fun room hroom => .bind (hleft room hroom.left) fun v _ =>
        .bind (.number (fun _ => hself.fault _ (.left rfl)) v) fun _ _ => ?_
      refine .bind (hright room hroom.right) fun w _ =>
        .bind (.number (fun _ => hself.fault _ (.right rfl)) w) fun _ _ => ?_
      exact .pure trivial
  | _, .call _ _ args, hroom, h => by
    rw [Expr.parts, List.forall_mem_cons] at h
    refine .deeper hroom fun room hroom => ?_
    exact .bind (.callee (h.1.fault _ .callee) (h.1.fault _ .notCallable)) fun f hf =>
      .bind (evalAll_stays hinv room args hroom h.2) fun vs hvs => hinv f vs hf hvs

theorem evalAll_stays (hinv : invoke.Stays R) :
    (room : Nat) → (es : List Expr) → R.Suffices room (Expr.heightAll es) →
      (∀ part ∈ Expr.partsAll es, R.Holds part) →
      Stays R Kept (fun vs => ∀ v ∈ vs, R.value v) (evalAll invoke room es)
  | _, [], _, _ => .pure (List.forall_mem_nil _)
  | room, e :: es, hroom, h => by
    rw [Expr.partsAll, List.forall_mem_append] at h
    exact .bind (eval_stays hinv room e hroom.left h.1) fun _ hv =>
      .bind (evalAll_stays hinv room es hroom.right h.2) fun _ hvs =>
        .pure (List.forall_mem_cons.mpr ⟨hv, hvs⟩)

end

variable {room : Nat}

mutual

theorem exec_stays (hinv : invoke.Stays R) (hendless : R.failure .endless) :
    (s : Stmt) → R.Suffices room s.height → (∀ part ∈ s.parts, R.Holds part) →
      Stays R Opened R.flow (exec invoke room s)
  | .expr _ e, hroom, h =>
    .bind (eval_stays hinv room e hroom h).opened fun _ _ => .pure trivial
  | .var _ name e, hroom, h | .let _ name e, hroom, h =>
    .bind (eval_stays hinv room e hroom h).opened fun _ hv =>
      .bind (.define name hv) fun _ _ => .pure trivial
  | .assign _ name e, hroom, h =>
    .bind (eval_stays hinv room e hroom h).opened fun _ hv =>
      .bind (.assign name hv) fun _ _ => .pure trivial
  | .cond _ test body rest, hroom, h => by
    rw [Stmt.parts, List.forall_mem_append, List.forall_mem_append] at h
    refine .bind (eval_stays hinv room test hroom.left h.1.1).opened fun v _ => ?_
    split
    · exact execAll_stays hinv hendless body hroom.right.left h.1.2
    · exact execAlternative_stays hinv hendless rest hroom.right.right h.2
  | .loop _ name start stop body, hroom, h => by
    simp only [Stmt.parts, List.forall_mem_append, List.forall_mem_cons] at h
    obtain ⟨⟨⟨⟨hfirst, hlast, -⟩, hstart⟩, hstop⟩, hbody⟩ := h
    refine .bind (eval_stays hinv room start hroom.left.left hstart).opened fun v _ =>
      .bind (.integer (fun _ => hfirst.fault _ .bound) v) fun _ _ => ?_
    refine .bind (eval_stays hinv room stop hroom.left.right hstop).opened fun w _ =>
      .bind (.integer (fun _ => hlast.fault _ .bound) w) fun _ _ => ?_
    exact .iterate hendless name (execAll_stays hinv hendless body hroom.right hbody) _ _ _
  | .proc _ name _ _, _, h => by
    rw [Stmt.parts, List.forall_mem_cons] at h
    exact .bind (.define name (h.1.proc _ rfl)) fun _ _ => .pure trivial
  | .ret _ e, hroom, h => .bind (eval_stays hinv room e hroom h).opened fun _ hv => .pure hv
  | .block _ body, hroom, h => execAll_stays hinv hendless body hroom h

theorem execAlternative_stays (hinv : invoke.Stays R) (hendless : R.failure .endless) :
    (a : Alternative) → R.Suffices room a.height → (∀ part ∈ a.parts, R.Holds part) →
      Stays R Opened R.flow (execAlternative invoke room a)
  | .none, _, _ => .pure trivial
  | .otherwise body, hroom, h => execAll_stays hinv hendless body hroom h
  | .elif test body rest, hroom, h => by
    rw [Alternative.parts, List.forall_mem_append, List.forall_mem_append] at h
    refine .bind (eval_stays hinv room test hroom.left h.1.1).opened fun v _ => ?_
    split
    · exact execAll_stays hinv hendless body hroom.right.left h.1.2
    · exact execAlternative_stays hinv hendless rest hroom.right.right h.2

theorem execAll_stays (hinv : invoke.Stays R) (hendless : R.failure .endless) :
    (ss : List Stmt) → R.Suffices room (Stmt.heightAll ss) →
      (∀ part ∈ Stmt.partsAll ss, R.Holds part) → Stays R Opened R.flow (execAll invoke room ss)
  | [], _, _ => .pure trivial
  | s :: ss, hroom, h => by
    rw [Stmt.partsAll, List.forall_mem_append] at h
    refine .bind (exec_stays hinv hendless s hroom.left h.1) fun r hr => ?_
    cases r with
    | next => exact execAll_stays hinv hendless ss hroom.right h.2
    | returned v => exact .pure hr

end

end

end Run

/-- What native functions and the bodies of procedures in reach do is in reach. -/
structure Reach.Closed (R : Reach ν) (natives : Natives ν) : Prop where
  native : ∀ name key args, R.callable (.native name key) → (∀ v ∈ args, R.value v) →
    ∀ entry, Run.Stays R Kept R.value (Run.perform entry (natives key name args))
  body : ∀ p, R.callable (.proc p) → ∀ part ∈ Stmt.partsAll p.body, R.Holds part
  overflow : ∀ p, R.callable (.proc p) → R.failure (.script ⟨.stackOverflow p.name, none⟩)
  endless : R.failure .endless

namespace Run

variable {natives : Natives ν}

theorem invoke_stays_loosened {invoke : Invoke ν} (h : invoke.Stays R) :
    invoke.Stays R.loosened :=
  fun f args hf hargs => (h f args hf hargs).loosened

/-- The body of a procedure in reach, which may run out of room. -/
theorem body_stays (hR : R.Closed natives) {invoke : Invoke ν} (hinv : invoke.Stays R) (room : Nat)
    {p : Procedure} (hp : R.callable (.proc p)) :
    Stays R.loosened Opened R.value
      (execAll invoke room p.body >>= fun | .returned v => pure v | .next => pure .nil) := by
  have hbody : ∀ part ∈ Stmt.partsAll p.body, R.loosened.Holds part :=
    fun part hpart => (hR.body p hp part hpart).loosened
  refine .bind (execAll_stays (invoke_stays_loosened hinv) (.inr hR.endless) p.body
    (Reach.loosened_suffices room _) hbody) fun r hr => ?_
  cases r with
  | next => exact .pure trivial
  | returned v => exact .pure hr

theorem invoke_stays (hR : R.Closed natives) (room depth : Nat) :
    (invoke natives room depth).Stays R := by
  induction depth with
  | zero =>
    intro f args hf hargs
    cases f with
    | native name key => exact hR.native name key args hf hargs _
    | proc p => exact .overflow (hR.overflow p hf)
  | succ depth ih =>
    intro f args hf hargs
    cases f with
    | native name key => exact hR.native name key args hf hargs _
    | proc p =>
      have hscope := p.scope_all (R := R.loosened) hargs
      exact .refusing (hR.overflow p hf) fun s hs =>
        (Stays.inScope_shields hscope (body_stays hR ih room hf) hs).1

/-- A call of a procedure changes nothing that its parameters are bound to in the scopes of its
caller. -/
theorem invoke_shields (hR : R.Closed natives) (room depth : Nat) {p : Procedure}
    (hp : R.callable (.proc p)) {args : List (Value ν)} (hargs : ∀ v ∈ args, R.value v)
    {s : State ν} (hs : s.scopes.All R.value) :
    Shields (p.scope args) s.scopes.chain
      ((invoke natives room depth (.proc p) args).run s).2.scopes.chain := by
  cases depth with
  | zero => exact fun _ _ => rfl
  | succ depth =>
    have hbody := body_stays hR (invoke_stays hR room depth) room hp
    have hshields := (Stays.inScope_shields (p.scope_all (R := R.loosened) hargs) hbody hs).2
    have hscopes : ∀ (x : Run ν (Value ν)), ((refusing p.name x).run s).2.scopes =
        (x.run s).2.scopes := by
      intro x
      rw [run_refusing]
      obtain ⟨(_ | _ | _ | _) | a, s'⟩ := x.run s <;> rfl
    unfold invoke
    rw [hscopes]
    exact hshields

/-- A program in reach, run against globals in reach and with room for its expressions, ends in
reach. -/
theorem program_ends (hR : R.Closed natives) {room : Nat} (depth : Nat) {p : Program}
    (hroom : R.Suffices room (Stmt.heightAll p)) (hp : ∀ part ∈ Stmt.partsAll p, R.Holds part)
    {s : State ν} (hs : s.scopes.globals.All R.value) :
    R.Ends (fun _ => True) ((program (invoke natives room depth) room p).run s).1 := by
  have hbody : Stays R Opened (fun _ => True)
      (execAll (invoke natives room depth) room p >>= fun _ => pure ()) :=
    .bind (execAll_stays (invoke_stays hR room depth) hR.endless p hroom hp) fun _ _ =>
      .pure trivial
  have henter : s.scopes.enter.All R.value := by
    intro f hf
    cases List.mem_singleton.mp hf
    exact hs
  exact (hbody { s with scopes := s.scopes.enter } henter).ends

end Run

end SceneScript
