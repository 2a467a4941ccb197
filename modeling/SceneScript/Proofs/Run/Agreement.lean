import SceneScript.Proofs.Run.Likeness

/-! Runs that agree. Two runs agree when from like states they come to like ends. The steps that
runs are made of agree, and agreement passes through sequences, loops and calls, so like programs
agree. A fact about one run is the agreement of the run with itself. -/

namespace SceneScript

variable {ν α β : Type} {L : Likeness}

/-- A relation between the results of two runs. Where the first may be cut short, it has to relate
everything to itself. -/
structure Likeness.On (L : Likeness) (α : Type) where
  rel : α → α → Prop
  refl : L.cut → ∀ a, rel a a

namespace Likeness

theorem steady_of_cut (h : L.cut) : L.Steady := fun e _ => L.refl_of_cut h e

theorem finds_of_cut (h : L.cut) (name : String) (p : Option Pos) : L.Finds name p p :=
  .inr (L.refl_of_cut h _)

/-- The same result. -/
def same (L : Likeness) (α : Type) : L.On α := ⟨Eq, fun _ _ => rfl⟩

def program (L : Likeness) : L.On Program :=
  ⟨Stmt.AlikeAll L, fun h p => Stmt.alikeAll_self (steady_of_cut h) p fun _ _ => finds_of_cut h _⟩

def value (L : Likeness) : L.On (Value ν) :=
  ⟨Value.Alike L, fun h _ => Value.alike_self (steady_of_cut h) fun _ _ _ _ => finds_of_cut h _⟩

def callable (L : Likeness) : L.On (Callable ν) :=
  ⟨Callable.Alike L, fun h f => by
    cases f with
    | native => exact .native
    | proc p => exact .proc (L.program.refl h p.body)⟩

def flow (L : Likeness) : L.On (Flow ν) :=
  ⟨Flow.Alike L, fun h r => by
    cases r with
    | next => exact .next
    | returned v => exact .returned (L.value.refl h v)⟩

/-- The first run has run out of room, and nothing more is asked of it. -/
def Lost (L : Likeness) (s : State ν) : Prop := L.cut ∧ s.overflowed = true

/-- A limit of the first run and one of the second: the same, unless the first may be cut short. -/
def Fits (L : Likeness) (n n' : Nat) : Prop := n = n' ∨ L.cut ∧ n ≤ n'

theorem Fits.refl (L : Likeness) (n : Nat) : L.Fits n n := .inl rfl

theorem Fits.pred {n n' : Nat} (h : L.Fits (n + 1) n') : ∃ k, n' = k + 1 ∧ L.Fits n k := by
  obtain rfl | ⟨hcut, hle⟩ := h
  · exact ⟨n, rfl, .inl rfl⟩
  · cases n' with
    | zero => exact absurd hle (Nat.not_succ_le_zero n)
    | succ k => exact ⟨k, rfl, .inr ⟨hcut, Nat.le_of_succ_le_succ hle⟩⟩

theorem Fits.cut_of_zero {n : Nat} (h : L.Fits 0 (n + 1)) : L.cut :=
  h.elim (fun h => Nat.noConfusion h) And.left

end Likeness

namespace Likeness.On

variable (R : L.On α)

def option : L.On (Option α) :=
  ⟨Option.Rel R.rel, fun h o => by
    cases o with
    | none => exact .none
    | some a => exact .some (R.refl h a)⟩

def list : L.On (List α) :=
  ⟨List.Forall₂ R.rel, fun h _ => List.forall₂_same.mpr fun a _ => R.refl h a⟩

def ends : L.On (Except RuntimeError α) :=
  ⟨EndsAlike L.error R.rel, fun h r => by
    cases r with
    | ok a => exact .ok (R.refl h a)
    | error e => exact .error (L.refl_of_cut h e)⟩

end Likeness.On

namespace Run

/-! How the steps of a run begin and end. -/

theorem run_bind (x : Run ν α) (f : α → Run ν β) (s : State ν) :
    (x >>= f).run s = ExceptT.bindCont f (x.run s).1 (x.run s).2 := rfl

theorem run_fetch (name : String) (pos : Option Pos) (s : State ν) :
    (fetch name pos).run s = match s.scopes.lookup name with
      | some v => (.ok v, s)
      | none => (.error (.script ⟨.undefined name, pos⟩), s) := by
  show (match s.scopes.lookup name with
    | some v => (pure v : Run ν (Value ν))
    | none => fail (.undefined name) pos).run s = _
  cases s.scopes.lookup name with
  | none => rfl
  | some v => rfl

/-- An end with an error of the script told as a result. -/
def caught : Except Failure α → Except Failure (Except RuntimeError α)
  | .ok a => .ok (.ok a)
  | .error (.script e) => .ok (.error e)
  | .error f => .error f

theorem run_onGlobals (x : Run ν α) (s : State ν) :
    (onGlobals x).run s =
      ((x.run { s with scopes := s.scopes.enter }).1,
        let t := (x.run { s with scopes := s.scopes.enter }).2
        { t with scopes := t.scopes.leave }) := rfl

theorem run_attempt (x : Run ν α) (s : State ν) :
    (attempt x).run s = (caught (x.run s).1, (x.run s).2) := by
  unfold attempt
  rw [ExceptT.run_mk]
  obtain ⟨(_ | _ | _ | _) | a, s'⟩ := x.run s <;> rfl

theorem run_refusing (name : String) (x : Run ν α) (s : State ν) :
    (refusing name x).run s = match x.run s with
      | (.error .exhausted, s') => (overflow name : Run ν α).run s'
      | r => r := rfl

/-! Statements one after another. -/

/-- Goes on unless a procedure returns. -/
def andThen (x y : Run ν (Flow ν)) : Run ν (Flow ν) := do
  match ← x with
  | .next => y
  | .returned v => return .returned v

theorem andThen_assoc (x y z : Run ν (Flow ν)) :
    andThen (andThen x y) z = andThen x (andThen y z) := by
  unfold andThen
  rw [bind_assoc]
  refine congrArg _ (funext fun r => ?_)
  cases r with
  | next => rfl
  | returned v => rfl

theorem andThen_next (x : Run ν (Flow ν)) : andThen x (pure .next) = x := by
  refine Eq.trans (congrArg (x >>= ·) (funext fun r => ?_)) (bind_pure x)
  cases r with
  | next => rfl
  | returned v => rfl

theorem execAll_cons (invoke : Invoke ν) (room : Nat) (s : Stmt) (ss : List Stmt) :
    execAll invoke room (s :: ss) = andThen (exec invoke room s) (execAll invoke room ss) := rfl

theorem execAll_singleton (invoke : Invoke ν) (room : Nat) (s : Stmt) :
    execAll invoke room [s] = exec invoke room s :=
  andThen_next (exec invoke room s)

theorem execAll_append (invoke : Invoke ν) (room : Nat) (ss ts : List Stmt) :
    execAll invoke room (ss ++ ts) =
      andThen (execAll invoke room ss) (execAll invoke room ts) := by
  induction ss with
  | nil => rfl
  | cons s ss ih => rw [List.cons_append, execAll_cons, execAll_cons, ih, andThen_assoc]

/-! Two runs. -/

/-- The two runs come to like ends, and to states that are alike for an entry from outside. -/
structure Meets (R : L.On α) (s t : State ν) (x y : Except Failure α × State ν) : Prop where
  ends : EndsAlike (Failure.Alike L) R.rel x.1 y.1
  outside : State.Outside L x.2 y.2
  onward : State.Onward L s t x.2 y.2

/-- From like states the two runs come to like ends and like states, unless the first is lost. -/
structure Agree (R : L.On α) (x y : Run ν α) : Prop where
  lost : ∀ s, L.Lost s → L.Lost (x.run s).2
  alike : ∀ s t, State.Alike L s t → L.Lost (x.run s).2 ∨
    Meets R s t (x.run s) (y.run t) ∧ State.Alike L (x.run s).2 (y.run t).2

/-- The two runs agree whatever calls are going on, and leave the local scopes of those as they
are. -/
structure Apart (R : L.On α) (x y : Run ν α) : Prop where
  lost : ∀ s, L.Lost s → L.Lost (x.run s).2
  alike : ∀ s t, State.Outside L s t → L.Lost (x.run s).2 ∨
    Meets R s t (x.run s) (y.run t) ∧
      (x.run s).2.scopes.locals = s.scopes.locals ∧ (y.run t).2.scopes.locals = t.scopes.locals

theorem Apart.agree {R : L.On α} {x y : Run ν α} (h : Apart R x y) : Agree R x y := by
  refine ⟨h.lost, fun s t hst => ?_⟩
  refine (h.alike s t hst.toOutside).imp id ?_
  rintro ⟨hmeets, hs, ht⟩
  refine ⟨hmeets, hmeets.outside, ?_⟩
  rw [hs, ht]
  exact hst.locals

namespace Agree

variable {R : L.On α} {Q : L.On β}

/-- Runs that change nothing agree when their ends are alike. -/
theorem of_still {x y : Run ν α} (hx : ∀ s, (x.run s).2 = s) (hy : ∀ t, (y.run t).2 = t)
    (h : ∀ s t, State.Alike L s t →
      EndsAlike (Failure.Alike L) R.rel (x.run s).1 (y.run t).1) : Agree R x y := by
  refine ⟨fun s hs => ?_, fun s t hst => .inr ?_⟩
  · rw [hx]
    exact hs
  · refine ⟨⟨h s t hst, ?_, ?_⟩, ?_⟩
    all_goals rw [hx, hy]
    · exact hst.toOutside
    · exact State.Onward.refl L s t
    · exact hst

theorem pure {a b : α} (h : R.rel a b) : Agree R (Pure.pure a : Run ν α) (Pure.pure b) :=
  of_still (fun _ => rfl) (fun _ => rfl) fun _ _ _ => .ok h

theorem throw {e f : Failure} (h : Failure.Alike L e f) :
    Agree R (MonadExcept.throw e : Run ν α) (MonadExcept.throw f) :=
  of_still (fun _ => rfl) (fun _ => rfl) fun _ _ _ => .error h

theorem bind {x y : Run ν α} {f g : α → Run ν β} (hx : Agree R x y)
    (hf : ∀ a b, R.rel a b → Agree Q (f a) (g b)) : Agree Q (x >>= f) (y >>= g) := by
  -- A lost run goes on from a result that the other never had, which is why results have to be
  -- related to themselves there.
  have hlost : ∀ s, L.Lost (x.run s).2 → L.Lost ((x >>= f).run s).2 := by
    intro s hs
    rw [run_bind]
    generalize x.run s = r at hs
    obtain ⟨_ | a, s'⟩ := r
    · exact hs
    · exact (hf a a (R.refl hs.1 a)).lost s' hs
  refine ⟨fun s hs => hlost s (hx.lost s hs), fun s t hst => ?_⟩
  obtain hs | ⟨hmeets, hst'⟩ := hx.alike s t hst
  · exact .inl (hlost s hs)
  rw [run_bind, run_bind]
  generalize x.run s = r at hmeets hst'
  generalize y.run t = q at hmeets hst'
  obtain ⟨r, s'⟩ := r
  obtain ⟨q, t'⟩ := q
  obtain ⟨hends, hout, honward⟩ := hmeets
  cases hends with
  | error he => exact .inr ⟨⟨.error he, hout, honward⟩, hst'⟩
  | @ok a b hab =>
    refine ((hf a b hab).alike s' t' hst').imp id ?_
    rintro ⟨hmeets, hst''⟩
    exact ⟨⟨hmeets.ends, hmeets.outside, honward.trans hmeets.onward⟩, hst''⟩

theorem andThen {x x' y y' : Run ν (Flow ν)} (hx : Agree L.flow x x') (hy : Agree L.flow y y') :
    Agree L.flow (Run.andThen x y) (Run.andThen x' y') := by
  refine bind hx fun r q hrq => ?_
  cases hrq with
  | next => exact hy
  | returned hv => exact pure (.returned hv)

/-- Conditions that agree, before branches that agree. -/
theorem branch {x x' : Run ν (Value ν)} {y y' z z' : Run ν α} (hx : Agree L.value x x')
    (hy : Agree R y y') (hz : Agree R z z') :
    Agree R (x >>= fun v => if v.truthy then y else z)
      (x' >>= fun v => if v.truthy then y' else z') := by
  refine bind hx fun v w hv => ?_
  rw [hv.truthy]
  split
  · exact hy
  · exact hz

theorem get {K : L.On β} (k : State ν → β) (hk : ∀ s t, State.Alike L s t → K.rel (k s) (k t))
    {f g : β → Run ν α} (h : ∀ c d, K.rel c d → Agree R (f c) (g d)) :
    Agree R (MonadState.get >>= fun s => f (k s)) (MonadState.get >>= fun s => g (k s)) :=
  ⟨fun s hs => (h _ _ (K.refl hs.1 (k s))).lost s hs,
    fun s t hst => (h _ _ (hk s t hst)).alike s t hst⟩

/-- Changes of the scopes that take like to like, unbind no global and keep what waits. -/
theorem onScopes {f g : Scopes (Value ν) → Scopes (Value ν)}
    (hfg : ∀ s t, Scopes.Alike (Value.Alike L) s t → Scopes.Alike (Value.Alike L) (f s) (g t))
    (hbinds : ∀ s name, s.globals.binds name = true → (f s).globals.binds name = true)
    (hf : ∀ s, (f s).waiting = s.waiting) (hg : ∀ s, (g s).waiting = s.waiting) :
    Agree (L.same Unit) (Run.onScopes f) (Run.onScopes g) := by
  refine ⟨fun s hs => hs, fun s t hst => .inr ?_⟩
  have hscopes := hfg _ _ hst.scopes
  have hout : State.Outside L { s with scopes := f s.scopes } { t with scopes := g t.scopes } :=
    ⟨hscopes.globals, fun name h => hbinds _ name (hst.bound name h), hst.events, hst.keyboard⟩
  exact ⟨⟨.ok rfl, hout, ⟨hf _, hg _⟩, (State.Onward.refl L s t).outputs⟩, hout, hscopes.locals⟩

theorem define (name : String) {v w : Value ν} (hv : Value.Alike L v w) :
    Agree (L.same Unit) (Run.define name v) (Run.define name w) :=
  onScopes (fun _ _ h => h.define name hv) (fun _ _ h => Scopes.binds_define h name v)
    (fun s => s.define_waiting name v) (fun s => s.define_waiting name w)

theorem assign (name : String) {v w : Value ν} (hv : Value.Alike L v w) :
    Agree (L.same Unit) (Run.assign name v) (Run.assign name w) :=
  onScopes (fun _ _ h => h.assign name hv) (fun _ _ h => Scopes.binds_assign h name v)
    (fun s => s.assign_waiting name v) (fun s => s.assign_waiting name w)

theorem lookup (name : String) :
    Agree (ν := ν) L.value.option (Run.lookup name) (Run.lookup name) :=
  of_still (fun _ => rfl) (fun _ => rfl) fun _ _ hst => .ok (hst.scopes.lookup name)

theorem emit {o o' : Output ν} (h : Output.Alike L o o') :
    Agree (L.same Unit) (Run.emit o) (Run.emit o') := by
  refine ⟨fun s hs => hs, fun s t hst => .inr ?_⟩
  have hout : State.Outside L { s with outputs := s.outputs.push o }
      { t with outputs := t.outputs.push o' } :=
    ⟨hst.globals, hst.bound, hst.events, hst.keyboard⟩
  refine ⟨⟨.ok rfl, hout, ⟨rfl, rfl⟩, [o], [o'], ?_, ?_, .cons h .nil⟩, hout, hst.locals⟩
  · exact Array.toList_push
  · exact Array.toList_push

theorem fetch {name : String} {p q : Option Pos} (h : L.Finds name p q) :
    Agree (ν := ν) L.value (Run.fetch name p) (Run.fetch name q) := by
  have hstill : ∀ (pos : Option Pos) (s : State ν), ((Run.fetch name pos).run s).2 = s := by
    intro pos s
    rw [run_fetch]
    split <;> rfl
  refine of_still (hstill p) (hstill q) fun s t hst => ?_
  rw [run_fetch, run_fetch]
  obtain ⟨hs, ht⟩ | ⟨v, w, hs, ht, hv⟩ := option_rel_cases (hst.scopes.lookup name)
  · obtain hbound | herror := h
    · exact absurd hs (Scopes.lookup_ne_none (hst.bound name hbound))
    · rw [hs, ht]
      exact .error (.script herror)
  · rw [hs, ht]
    exact .ok hv

theorem callee {name : String} {p q : Option Pos} (hfind : L.Finds name p q)
    (hcall : L.Calls name p q) :
    Agree (ν := ν) L.callable (Run.callee name p) (Run.callee name q) := by
  refine bind (fetch hfind) fun v w hv => ?_
  cases hv with
  | fn hf => exact pure hf
  | _ => exact throw (.script hcall)

theorem number {p q : Pos} (h : L.Counts p q) {v w : Value ν} (hv : Value.Alike L v w) :
    Agree (ν := ν) (L.same Number) (located p v.number) (located q w.number) := by
  cases hv with
  | int => exact pure rfl
  | float => exact pure rfl
  | _ => exact throw (.script (h _))

theorem integer {p q : Pos} (h : L.Counts p q) {v w : Value ν} (hv : Value.Alike L v w) :
    Agree (ν := ν) (L.same Number) (located p v.integer) (located q w.integer) := by
  cases hv with
  | int => exact pure rfl
  | float => exact pure rfl
  | _ => exact throw (.script (h _))

theorem inScope {f g : Bindings (Value ν)} (hfg : Bindings.Alike (Value.Alike L) f g)
    {x y : Run ν α} (h : Agree R x y) : Agree R (Run.inScope f x) (Run.inScope g y) := by
  refine ⟨fun s hs => h.lost _ hs, fun s t hst => ?_⟩
  have hpush : State.Alike L { s with scopes := s.scopes.push f }
      { t with scopes := t.scopes.push g } :=
    ⟨hst.withScopes rfl rfl, .cons hfg hst.locals⟩
  refine (h.alike _ _ hpush).imp id ?_
  rintro ⟨⟨hends, hout, honward⟩, hst'⟩
  have hpop := hout.withScopes (a := Scopes.pop _) (b := Scopes.pop _) rfl rfl
  have htail := List.forall₂_drop 1 hst'.locals
  rw [List.drop_one, List.drop_one] at htail
  exact ⟨⟨hends, hpop, honward.waiting, honward.outputs⟩, hpop, htail⟩

/-- Runs that run out of room agree when they fail alike. -/
theorem of_overflowed {e f : Failure} (h : Failure.Alike L e f) {x y : Run ν α}
    (hx : ∀ s, x.run s = (.error e, { s with overflowed := true }))
    (hy : ∀ t, y.run t = (.error f, { t with overflowed := true })) : Agree R x y := by
  refine ⟨fun s hs => ?_, fun s t hst => .inr ?_⟩
  · rw [hx]
    exact ⟨hs.1, rfl⟩
  · have hout : State.Outside L { s with overflowed := true } { t with overflowed := true } :=
      ⟨hst.globals, hst.bound, hst.events, hst.keyboard⟩
    rw [hx, hy]
    exact ⟨⟨.error h, hout, ⟨rfl, rfl⟩, (State.Onward.refl L s t).outputs⟩, hout, hst.locals⟩

theorem overflow {name : String}
    (h : L.error ⟨.stackOverflow name, none⟩ ⟨.stackOverflow name, none⟩) :
    Agree (ν := ν) R (Run.overflow name) (Run.overflow name) :=
  of_overflowed (.script h) (fun _ => rfl) fun _ => rfl

theorem refuse : Agree (ν := ν) R Run.refuse Run.refuse :=
  of_overflowed .exhausted (fun _ => rfl) fun _ => rfl

/-- A run that always runs out of room agrees with any other where it may be cut short. -/
theorem of_cut (hcut : L.cut) {x y : Run ν α} (hx : ∀ s, (x.run s).2.overflowed = true) :
    Agree R x y :=
  ⟨fun s _ => ⟨hcut, hx s⟩, fun s _ _ => .inl ⟨hcut, hx s⟩⟩

theorem deeper {room room' : Nat} (hroom : L.Fits room room') {x y : Nat → Run ν α}
    (h : ∀ r r', L.Fits r r' → Agree R (x r) (y r')) :
    Agree R (Run.deeper room x) (Run.deeper room' y) := by
  cases room with
  | zero =>
    cases room' with
    | zero => exact refuse
    | succ room' => exact of_cut hroom.cut_of_zero fun _ => rfl
  | succ room =>
    obtain ⟨room', rfl, hfits⟩ := hroom.pred
    exact h room room' hfits

theorem refusing {name : String}
    (h : L.error ⟨.stackOverflow name, none⟩ ⟨.stackOverflow name, none⟩) {x y : Run ν α}
    (hxy : Agree R x y) : Agree R (Run.refusing name x) (Run.refusing name y) := by
  have hlost : ∀ s, L.Lost (x.run s).2 → L.Lost ((Run.refusing name x).run s).2 := by
    intro s hs
    rw [run_refusing]
    generalize x.run s = r at hs
    obtain ⟨(_ | _ | _ | _) | a, s'⟩ := r
    case error.exhausted => exact ⟨hs.1, rfl⟩
    all_goals exact hs
  refine ⟨fun s hs => hlost s (hxy.lost s hs), fun s t hst => ?_⟩
  obtain hs | ⟨⟨hends, hout, honward⟩, hst'⟩ := hxy.alike s t hst
  · exact .inl (hlost s hs)
  rw [run_refusing, run_refusing]
  generalize x.run s = r at hends hout honward hst'
  generalize y.run t = q at hends hout honward hst'
  obtain ⟨r, s'⟩ := r
  obtain ⟨q, t'⟩ := q
  cases hends with
  | ok hab => exact .inr ⟨⟨.ok hab, hout, honward⟩, hst'⟩
  | error he =>
    cases he with
    | exhausted =>
      refine ((overflow (R := R) h).alike s' t' hst').imp id ?_
      rintro ⟨hmeets, hst''⟩
      exact ⟨⟨hmeets.ends, hmeets.outside, honward.trans hmeets.onward⟩, hst''⟩
    | script he => exact .inr ⟨⟨.error (.script he), hout, honward⟩, hst'⟩
    | host => exact .inr ⟨⟨.error .host, hout, honward⟩, hst'⟩
    | endless => exact .inr ⟨⟨.error .endless, hout, honward⟩, hst'⟩

/-- Loops whose bodies agree agree from every counter on. -/
theorem iterate (name : String) {body body' : Run ν (Flow ν)} (h : Agree L.flow body body')
    (stop : Number) (n : Nat) (i : Number) :
    Agree L.flow (Run.iterate name body stop n i) (Run.iterate name body' stop n i) := by
  induction n generalizing i with
  | zero => exact throw .endless
  | succ n ih =>
    unfold Run.iterate
    split
    · exact bind (assign name .int) fun _ _ _ => andThen h (ih _)
    · exact pure .next

end Agree

namespace Apart

variable {R : L.On α}

theorem meets (hcut : ¬ L.cut) {x y : Run ν α} (h : Apart R x y) {s t : State ν}
    (hst : State.Outside L s t) : Meets R s t (x.run s) (y.run t) :=
  (h.alike s t hst).elim (fun hlost => absurd hlost.1 hcut) And.left

theorem pure {a b : α} (h : R.rel a b) : Apart R (Pure.pure a : Run ν α) (Pure.pure b) :=
  ⟨fun _ hs => hs, fun s t hst =>
    .inr ⟨⟨.ok h, hst, State.Onward.refl L s t⟩, rfl, rfl⟩⟩

theorem get {K : L.On β} (k : State ν → β) (hk : ∀ s t, State.Outside L s t → K.rel (k s) (k t))
    {f g : β → Run ν α} (h : ∀ c d, K.rel c d → Apart R (f c) (g d)) :
    Apart R (MonadState.get >>= fun s => f (k s)) (MonadState.get >>= fun s => g (k s)) :=
  ⟨fun s hs => (h _ _ (K.refl hs.1 (k s))).lost s hs,
    fun s t hst => (h _ _ (hk s t hst)).alike s t hst⟩

/-- What runs on the globals alone neither sees nor changes a local scope. -/
theorem onGlobals {x y : Run ν α} (h : Agree R x y) :
    Apart R (Run.onGlobals x) (Run.onGlobals y) := by
  refine ⟨fun s hs => h.lost _ hs, fun s t hst => ?_⟩
  have henter : State.Alike L { s with scopes := s.scopes.enter }
      { t with scopes := t.scopes.enter } := ⟨hst.withScopes rfl rfl, .nil⟩
  refine (h.alike _ _ henter).imp id ?_
  rintro ⟨⟨hends, hout, ⟨hs, ht⟩, houtputs⟩, -⟩
  have hleave := hout.withScopes (a := Scopes.leave _) (b := Scopes.leave _) rfl rfl
  -- The scopes that were set aside are still the first of those that wait.
  refine ⟨⟨hends, hleave, ⟨congrArg List.tail hs, congrArg List.tail ht⟩, houtputs⟩, ?_, ?_⟩
  · exact congrArg (List.headD · []) hs
  · exact congrArg (List.headD · []) ht

theorem attempt {x y : Run ν α} (h : Apart R x y) :
    Apart R.ends (Run.attempt x) (Run.attempt y) := by
  refine ⟨fun s hs => ?_, fun s t hst => ?_⟩
  · rw [run_attempt]
    exact h.lost s hs
  rw [run_attempt, run_attempt]
  refine (h.alike s t hst).imp id ?_
  rintro ⟨⟨hends, hout, honward⟩, hlocals⟩
  refine ⟨⟨?_, hout, honward⟩, hlocals⟩
  generalize (x.run s).1 = r at hends
  generalize (y.run t).1 = q at hends
  cases hends with
  | ok hab => exact .ok (.ok hab)
  | error he =>
    cases he with
    | script he => exact .ok (.error he)
    | host => exact .error .host
    | exhausted => exact .error .exhausted
    | endless => exact .error .endless

end Apart

end Run

end SceneScript
