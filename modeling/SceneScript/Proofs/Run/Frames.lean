import SceneScript.Native.Probe
import SceneScript.Proofs.Run.Reach

/-! What a run does to the scopes in sight while the native functions within reach leave them alone:
an expression, and so a call, neither creates nor removes a variable of a scope, whether it comes to
a value or fails; and a call of a procedure changes no variable of its caller that has the name of
one of its parameters. -/

namespace SceneScript

variable {ν α : Type} {K : String → ν → Prop}

/-- A procedure, or one of the native functions `K`. -/
def Callable.Within (K : String → ν → Prop) : Callable ν → Prop
  | .proc _ => True
  | .native name key => K name key

def Value.Within (K : String → ν → Prop) : Value ν → Prop
  | .fn f => f.Within K
  | _ => True

def Bindings.Within (K : String → ν → Prop) (f : Bindings (Value ν)) : Prop :=
  ∀ name v, f.get? name = some v → v.Within K

/-- The variables in sight hold no native function but those of `K`. -/
def Scopes.Within (K : String → ν → Prop) (s : Scopes (Value ν)) : Prop :=
  ∀ f ∈ s.chain, f.Within K

/-- Requests that change no variable and do not call back. While the variables in sight hold no
native function but those of `K`, what they end in is as `P` says. -/
inductive Request.Quiet (K : String → ν → Prop) (P : α → Prop) : Request ν α → Prop
  | done {a : α} : P a → Request.Quiet K P (.done a)
  | fail {e : RuntimeError} : Request.Quiet K P (.fail e)
  | crash {e : HostError} : Request.Quiet K P (.crash e)
  | lookup {name : String} {next : Option (Value ν) → Request ν α} :
      (∀ o, (∀ v ∈ o, v.Within K) → Request.Quiet K P (next o)) →
      Request.Quiet K P (.lookup name next)
  | depth {next : Nat → Request ν α} :
      (∀ n, Request.Quiet K P (next n)) → Request.Quiet K P (.depth next)
  | emit {o : Output ν} {next : Request ν α} :
      Request.Quiet K P next → Request.Quiet K P (.emit o next)
  | keyDown {key : Number} {next : Bool → Request ν α} :
      (∀ b, Request.Quiet K P (next b)) → Request.Quiet K P (.keyDown key next)
  | keyPressed {key : Number} {next : Bool → Request ν α} :
      (∀ b, Request.Quiet K P (next b)) → Request.Quiet K P (.keyPressed key next)

/-- The native functions of `K` change no variable and do not call back, and when they are handed
none but those of `K` they hand back no other. -/
def Natives.Quiet (natives : Natives ν) (K : String → ν → Prop) : Prop :=
  ∀ name key args, K name key → (∀ v ∈ args, v.Within K) →
    Request.Quiet K (Value.Within K) (natives key name args)

open Scopes

/-- Calls of native functions of `K` and of procedures, which may fail in any way. -/
def Reach.within (K : String → ν → Prop) : Reach ν := ⟨Callable.Within K, fun _ => True⟩

theorem Reach.within_value (K : String → ν → Prop) : (Reach.within K).value = Value.Within K := by
  funext v
  cases v <;> rfl

namespace Run

/-- From scopes within `K` the run comes to scopes within `K`, changed in sight as `E` has it, and
what it results in is as `P` says. -/
def Confined (K : String → ν → Prop) (E : Scopes (Value ν) → Scopes (Value ν) → Prop)
    (P : α → Prop) (x : Run ν α) : Prop :=
  ∀ s, s.scopes.Within K → E s.scopes (x.run s).2.scopes ∧ (x.run s).2.scopes.Within K ∧
    ∀ a, (x.run s).1 = .ok a → P a

theorem confined_iff_stays {E : Scopes (Value ν) → Scopes (Value ν) → Prop} {P : α → Prop}
    {x : Run ν α} : Confined K E P x ↔ Stays (.within K) E P x := by
  have hall : Scopes.All (Reach.within K).value = Scopes.Within K := by
    rw [Reach.within_value]
    rfl
  refine forall_congr' fun s => ?_
  rw [hall]
  refine imp_congr_right fun _ => ⟨fun ⟨heffect, hscopes, hresult⟩ => ⟨heffect, ?_, ?_⟩,
    fun ⟨heffect, hscopes, hends⟩ => ⟨heffect, ?_, fun a ha => ?_⟩⟩
  · rw [hall]
    exact hscopes
  · cases hr : (x.run s).1 with
    | error f => trivial
    | ok a => exact hresult a hr
  · rw [hall] at hscopes
    exact hscopes
  · rw [ha] at hends
    exact hends

end Run

/-- Calls of what is within `K` leave the scopes of their caller with the names they had. -/
def Invoke.Confined (K : String → ν → Prop) (invoke : Invoke ν) : Prop :=
  ∀ f args, f.Within K → (∀ v ∈ args, v.Within K) →
    Run.Confined K Kept (Value.Within K) (invoke f args)

theorem Invoke.confined_iff_stays {invoke : Invoke ν} :
    invoke.Confined K ↔ invoke.Stays (.within K) := by
  unfold Invoke.Confined Invoke.Stays
  rw [Reach.within_value]
  exact forall₂_congr fun f args => imp_congr_right fun _ => imp_congr_right fun _ =>
    Run.confined_iff_stays

namespace Run

theorem perform_stays (entry : Entry ν) {P : α → Prop} {r : Request ν α}
    (h : Request.Quiet K P r) : Stays (.within K) Kept P (perform entry r) := by
  induction h with
  | done ha => exact .pure ha
  | fail => exact .throw trivial
  | crash => exact .throw trivial
  | lookup _ ih =>
    refine .bind (.lookup _) fun o ho => ih o ?_
    rw [Reach.within_value] at ho
    exact ho
  | depth _ ih => exact .get fun _ => ih _
  | emit _ ih => exact .bind (.emit _) fun _ _ => ih
  | keyDown _ ih => exact .get fun _ => ih _
  | keyPressed _ ih => exact .get fun _ => ih _

end Run

theorem Reach.within_holds (part : Part) : (Reach.within K).Holds part :=
  ⟨fun _ _ => trivial, fun _ _ => trivial⟩

theorem Natives.Quiet.closed {natives : Natives ν} (h : natives.Quiet K) :
    (Reach.within K).Closed natives where
  native name key args hkey hargs entry := by
    rw [Reach.within_value] at hargs ⊢
    exact Run.perform_stays entry (h name key args hkey hargs)
  body _ _ part _ := Reach.within_holds part
  overflow _ _ := trivial
  endless := trivial

namespace Run

theorem invoke_confined {natives : Natives ν} (hnatives : natives.Quiet K) (room depth : Nat) :
    (invoke natives room depth).Confined K :=
  Invoke.confined_iff_stays.mpr (invoke_stays hnatives.closed room depth)

theorem eval_confined {invoke : Invoke ν} (hinv : invoke.Confined K) (room : Nat) (e : Expr) :
    Confined K Kept (Value.Within K) (eval invoke room e) := by
  have hstays := eval_stays (Invoke.confined_iff_stays.mp hinv) room e (.inr trivial) fun part _ =>
    Reach.within_holds part
  rw [Reach.within_value] at hstays
  exact confined_iff_stays.mpr hstays

/-- While no native function within reach changes a variable or calls back, an expression leaves
each scope in sight with exactly the names it had, and so does a call of any procedure, whether they
come to a value or fail. -/
theorem eval_names {natives : Natives ν} (hnatives : natives.Quiet K) (room depth : Nat)
    {s : State ν} (hs : s.scopes.Within K) :
    (∀ e, ((eval (invoke natives room depth) room e).run s).2.scopes.chain.map (·.names) =
      s.scopes.chain.map (·.names)) ∧
    ∀ f args, f.Within K → (∀ v ∈ args, v.Within K) →
      ((invoke natives room depth f args).run s).2.scopes.chain.map (·.names) =
        s.scopes.chain.map (·.names) := by
  have hinv := invoke_confined hnatives room depth
  refine ⟨fun e => ?_, fun f args hf hargs => ?_⟩
  · exact (eval_confined hinv room e s hs).1.names
  · exact (hinv f args hf hargs s hs).1.names

/-- A procedure that rebinds a variable of its caller, binds two names of its own, the second to a
procedure that rebinds the first and a global, and fails in that one. -/
theorem eval_names_failing :
    let pos : Pos := ⟨1, 1⟩
    let f : Procedure := ⟨"f", ["a"], [.assign pos "x" (.ident pos "a"),
      .assign pos "own" (.call pos "record" [.ident pos "x"]),
      .proc pos "inner" [] [.assign pos "own" (.bool pos true), .assign pos "g" (.ident pos "own"),
        .ret pos (.ident pos "missing")],
      .ret pos (.call pos "inner" [])]⟩
    let globals : Bindings (Value Bench) := ⟨[("f", .fn (.proc f)), ("g", .nil),
      ("record", .fn (.native "record" (.probe .record)))]⟩
    let s : State Bench := { State.empty with scopes := ⟨[⟨[("x", .nil)]⟩], globals, []⟩ }
    let r := (eval (invoke Bench.natives 1 2) 1 (.call pos "f" [.bool pos false])).run s
    r.1 = .error (.script ⟨.undefined "missing", some pos⟩) ∧
      r.2.scopes.locals = [⟨[("x", .bool false)]⟩] ∧
      r.2.scopes.chain.map (·.names) = s.scopes.chain.map (·.names) := by
  intro pos f globals s r
  -- The one native function within reach.
  let K : String → Bench → Prop := fun _ key => key = .probe .record
  have hnatives : Bench.natives.Quiet K := by
    rintro name _ args rfl -
    exact .emit (.done trivial)
  have hs : s.scopes.Within K := by
    intro g hg name v hv
    obtain ⟨before, after, hentries, -⟩ := List.lookup_eq_some_iff.mp hv
    have hmem : (name, v) ∈ g.entries := by simp [hentries]
    simp only [s, globals, chain, List.cons_append, List.nil_append, List.mem_cons,
      List.not_mem_nil, or_false] at hg
    obtain rfl | rfl := hg
    all_goals
      simp only [List.mem_cons, Prod.mk.injEq, List.not_mem_nil, or_false] at hmem
    · obtain ⟨-, rfl⟩ := hmem
      trivial
    · obtain ⟨-, rfl⟩ | ⟨-, rfl⟩ | ⟨-, rfl⟩ := hmem
      · trivial
      · trivial
      · rfl
  refine ⟨?_, ?_, ?_⟩
  · rfl
  · rfl
  · exact (eval_names hnatives 1 2 hs).1 (.call pos "f" [.bool pos false])

/-- While no native function within reach changes a variable or calls back, a call of a procedure
leaves what each of its parameters is bound to, or that it is not bound, as it was in every scope of
its caller, whether the call returns or fails and with how many arguments it is made. -/
theorem invoke_keeps_parameter {natives : Natives ν} (hnatives : natives.Quiet K) (room depth : Nat)
    {s : State ν} (hs : s.scopes.Within K) (p : Procedure) {x : String} (hx : x ∈ p.params)
    {args : List (Value ν)} (hargs : ∀ v ∈ args, v.Within K) :
    ((invoke natives room depth (.proc p) args).run s).2.scopes.chain.map (·.get? x) =
      s.scopes.chain.map (·.get? x) := by
  have hall : s.scopes.All (Reach.within K).value := by
    rw [Reach.within_value]
    exact hs
  rw [← Reach.within_value] at hargs
  have hshields := invoke_shields hnatives.closed room depth (p := p) trivial hargs hall
  exact hshields x (Procedure.binds_scope hx args)

/-- A procedure called without its argument, which rebinds its parameter and calls another that
rebinds it too, prints it, declares it anew and fails. -/
theorem invoke_keeps_parameter_failing :
    let pos : Pos := ⟨1, 1⟩
    let g : Procedure := ⟨"g", [], [.assign pos "x" (.str pos "inner"),
      .expr pos (.call pos "print" [.ident pos "x"]), .var pos "x" (.bool pos false),
      .ret pos (.ident pos "missing")]⟩
    let f : Procedure := ⟨"f", ["x"], [.assign pos "x" (.ident pos "print"),
      .assign pos "y" (.call pos "g" [])]⟩
    let globals : Bindings (Value Binding) := ⟨[("x", .bool true), ("g", .fn (.proc g)),
      ("print", .fn (.native "print" .print))]⟩
    let s : State Binding := { State.empty with
      scopes := ⟨[⟨[("x", .str "outer")]⟩, ⟨[("y", .nil)]⟩], globals, []⟩ }
    let r := (invoke (fun b _ args => b.request args) 1 2 (.proc f) []).run s
    r.1 = .error (.script ⟨.undefined "missing", some pos⟩) ∧
      r.2.outputs = #[.print "inner"] ∧
      r.2.scopes.chain.map (·.get? "x") = [some (.str "outer"), none, some (.bool true)] := by
  intro pos g f globals s r
  let K : String → Binding → Prop := fun _ key => key = .print
  have hnatives : Natives.Quiet (fun b _ args => b.request args) K := by
    rintro name _ args rfl -
    exact .emit (.done trivial)
  have hs : s.scopes.Within K := by
    intro b hb
    refine Bindings.all_of_entries fun e he => ?_
    simp only [s, globals, chain, List.cons_append, List.nil_append, List.mem_cons,
      List.not_mem_nil, or_false] at hb
    obtain rfl | rfl | rfl := hb
    all_goals
      simp only [List.mem_cons, List.not_mem_nil, or_false] at he
    · subst he
      trivial
    · subst he
      trivial
    · obtain rfl | rfl | rfl := he
      · trivial
      · trivial
      · rfl
  refine ⟨rfl, rfl, ?_⟩
  exact invoke_keeps_parameter hnatives 1 2 hs f (List.mem_singleton_self "x")
    (List.forall_mem_nil _)

end Run

end SceneScript
