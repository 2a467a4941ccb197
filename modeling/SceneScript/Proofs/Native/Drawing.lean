import SceneScript.Console
import SceneScript.Proofs.Number.Naturals
import SceneScript.Proofs.Run.Isolation

/-! The drawing functions of a host draw one command or nothing. Each has a list of parameters, one
kind of argument for each; a call with arguments that fit them draws the command they describe, and
any other call fails with an error about the first fault, having drawn nothing. -/

namespace SceneScript

variable {ν : Type}

/-- The kinds of values that can be an argument of the kind. -/
def ArgumentKind.values : ArgumentKind → List ValueKind
  | .integer | .number => [.int, .float]
  | .string | .color => [.str]
  | .bool => [.bool]
  | .key => [.int, .str]

/-- The error for a value that is no argument of the kind, at index `i` of a call of `fn`: the value
is of a wrong kind, or it is a text that names no colour. -/
inductive ArgumentKind.Fault (fn : String) (i : Nat) :
    ArgumentKind → Value ν → RuntimeCause → Prop
  | kind {kind : ArgumentKind} {v : Value ν} :
      v.kind ∉ kind.values → Fault fn i kind v (.wrongArgument fn kind i v.kind)
  | color {name : String} : (∀ c ∈ Color.all, c.name ≠ Text.lower name) →
      Fault fn i .color (.str name) (.unknownColor fn name)

/-- The value can be an argument of the kind. A text that is to be a colour has to name one. -/
def ArgumentKind.Accepts (kind : ArgumentKind) (v : Value ν) : Prop :=
  v.kind ∈ kind.values ∧
    (kind = .color → ∀ name, v = .str name → ∃ c ∈ Color.all, c.name = Text.lower name)

/-- The value as the number of an integer argument: one without its fraction. -/
inductive Value.IsWhole : Value ν → Number → Prop
  | int {x : Number} : IsWhole (.int x) x
  | float {x : Number} : IsWhole (.float x) x.truncate

inductive Value.IsNumber : Value ν → Number → Prop
  | int {x : Number} : IsNumber (.int x) x
  | float {x : Number} : IsNumber (.float x) x

inductive Value.IsColor : Value ν → Color → Prop
  | str {name : String} {c : Color} : c ∈ Color.all → c.name = Text.lower name →
      IsColor (.str name) c

namespace Binding

/-- The functions that draw. -/
def drawings : List Binding := [.drawText, .drawRect, .drawRectLines, .drawCircle, .clear]

/-- The names of the parameters of a drawing function and the kinds of their arguments. -/
def parameters : Binding → List (String × ArgumentKind)
  | .drawText =>
    [("text", .string), ("x", .integer), ("y", .integer), ("size", .integer), ("color", .color)]
  | .drawRect | .drawRectLines =>
    [("x", .integer), ("y", .integer), ("w", .integer), ("h", .integer), ("color", .color)]
  | .drawCircle => [("x", .integer), ("y", .integer), ("radius", .number), ("color", .color)]
  | .clear => [("color", .color)]
  | .print | .isKeyDown | .isKeyPressed => []

def kinds (b : Binding) : List ArgumentKind := b.parameters.map (·.2)

/-- The text that names the parameters of a drawing function. -/
def signature (b : Binding) : String := ", ".intercalate (b.parameters.map (·.1))

/-- The command that the arguments of a drawing function describe. -/
inductive Draws : Binding → List (Value ν) → Draw → Prop
  | text {s : String} {vx vy vsize vcolor : Value ν} {x y size : Number} {c : Color} :
      vx.IsWhole x → vy.IsWhole y → vsize.IsWhole size → vcolor.IsColor c →
      Draws .drawText [.str s, vx, vy, vsize, vcolor] (.text s x y size c)
  | rect {vx vy vw vh vcolor : Value ν} {x y w h : Number} {c : Color} :
      vx.IsWhole x → vy.IsWhole y → vw.IsWhole w → vh.IsWhole h → vcolor.IsColor c →
      Draws .drawRect [vx, vy, vw, vh, vcolor] (.rect x y w h c)
  | rectLines {vx vy vw vh vcolor : Value ν} {x y w h : Number} {c : Color} :
      vx.IsWhole x → vy.IsWhole y → vw.IsWhole w → vh.IsWhole h → vcolor.IsColor c →
      Draws .drawRectLines [vx, vy, vw, vh, vcolor] (.rectLines x y w h c)
  | circle {vx vy vradius vcolor : Value ν} {x y radius : Number} {c : Color} :
      vx.IsWhole x → vy.IsWhole y → vradius.IsNumber radius → vcolor.IsColor c →
      Draws .drawCircle [vx, vy, vradius, vcolor] (.circle x y radius c)
  | clear {vcolor : Value ν} {c : Color} :
      vcolor.IsColor c → Draws .clear [vcolor] (.clear c)

/-- The arguments fit the parameters of a drawing function; what stands behind them is ignored. -/
def Fits (b : Binding) (args : List (Value ν)) : Prop :=
  b.kinds.length ≤ args.length ∧
    List.Forall₂ ArgumentKind.Accepts b.kinds (args.take b.kinds.length)

end Binding

/-- The error for the first of some arguments of `fn`, from index `i` on, that does not fit. -/
inductive Offends (fn : String) : Nat → List ArgumentKind → List (Value ν) → RuntimeCause → Prop
  | here {i : Nat} {kind : ArgumentKind} {kinds : List ArgumentKind} {v : Value ν}
      {vs : List (Value ν)} {cause : RuntimeCause} :
      kind.Fault fn i v cause → Offends fn i (kind :: kinds) (v :: vs) cause
  | behind {i : Nat} {kind : ArgumentKind} {kinds : List ArgumentKind} {v : Value ν}
      {vs : List (Value ν)} {cause : RuntimeCause} :
      kind.Accepts v → Offends fn (i + 1) kinds vs cause →
      Offends fn i (kind :: kinds) (v :: vs) cause

/-- The error for arguments that do not fit the parameters of a drawing function: that there are too
few of them, before anything about the arguments themselves. -/
inductive Binding.Complains (b : Binding) (args : List (Value ν)) : RuntimeCause → Prop
  | few : args.length < b.kinds.length →
      Complains b args (.tooFewArguments b.name b.kinds.length b.signature)
  | argument {cause : RuntimeCause} : b.kinds.length ≤ args.length →
      Offends b.name 0 b.kinds args cause → Complains b args cause

/-! One argument. -/

theorem ArgumentKind.Fault.not_accepts {fn : String} {i : Nat} {kind : ArgumentKind} {v : Value ν}
    {cause : RuntimeCause} (h : kind.Fault fn i v cause) : ¬ kind.Accepts v := by
  intro haccepts
  cases h with
  | kind hkind => exact hkind haccepts.1
  | color hname =>
    obtain ⟨c, hc, heq⟩ := haccepts.2 rfl _ rfl
    exact hname c hc heq

/-- A helper takes the argument `v` at index `i` as `R` has it, or tells what is wrong with it. -/
def Takes {α : Type} (fn : String) (i : Nat) (kind : ArgumentKind) (v : Value ν) (R : α → Prop)
    (x : Except RuntimeCause α) : Prop :=
  (kind.Accepts v ∧ ∃ a, R a ∧ x = .ok a) ∨ ∃ cause, kind.Fault fn i v cause ∧ x = .error cause

namespace Takes

variable {α : Type} {fn : String} {i : Nat} {kind : ArgumentKind} {v : Value ν} {R : α → Prop}

theorem ok {a : α} (hkind : v.kind ∈ kind.values) (hcolor : kind ≠ .color) (ha : R a) :
    Takes fn i kind v R (.ok a) :=
  .inl ⟨⟨hkind, fun h => absurd h hcolor⟩, a, ha, rfl⟩

theorem wrong (hkind : v.kind ∉ kind.values) :
    Takes fn i kind v R (.error (.wrongArgument fn kind i v.kind)) :=
  .inr ⟨_, .kind hkind, rfl⟩

end Takes

namespace Argument

variable {args : List (Value ν)} {i : Nat} {v : Value ν} (h : args[i]? = some v) (fn : String)
include h

theorem get_eq (what : ArgumentKind) : get args i fn what = .ok v := by
  unfold get
  rw [if_neg (by omega), Int.toNat_natCast, h]

theorem string_takes : Takes fn i .string v (v = .str ·) (string args i fn) := by
  unfold string
  rw [get_eq h]
  cases v with
  | str s => exact .ok (by simp [Value.kind, ArgumentKind.values]) (by decide) rfl
  | _ => exact .wrong (by simp [Value.kind, ArgumentKind.values])

theorem integer_takes : Takes fn i .integer v v.IsWhole (integer args i fn) := by
  unfold integer
  rw [get_eq h]
  cases v with
  | int x => exact .ok (by simp [Value.kind, ArgumentKind.values]) (by decide) .int
  | float x => exact .ok (by simp [Value.kind, ArgumentKind.values]) (by decide) .float
  | _ => exact .wrong (by simp [Value.kind, ArgumentKind.values])

theorem number_takes : Takes fn i .number v v.IsNumber (number args i fn) := by
  unfold number
  rw [get_eq h]
  cases v with
  | int x => exact .ok (by simp [Value.kind, ArgumentKind.values]) (by decide) .int
  | float x => exact .ok (by simp [Value.kind, ArgumentKind.values]) (by decide) .float
  | _ => exact .wrong (by simp [Value.kind, ArgumentKind.values])

theorem color_takes : Takes fn i .color v v.IsColor (color args i fn) := by
  unfold color
  rw [get_eq h]
  cases v with
  | str name =>
    dsimp only [bind, Except.bind]
    cases hnamed : Color.named? name with
    | some c =>
      have hc : c ∈ Color.all := List.mem_of_find?_eq_some hnamed
      have hfound := List.find?_some hnamed
      have hname : c.name = Text.lower name := beq_iff_eq.mp hfound
      refine .inl ⟨⟨by simp [Value.kind, ArgumentKind.values], ?_⟩, c, .str hc hname, rfl⟩
      rintro - name' ⟨⟩
      exact ⟨c, hc, hname⟩
    | none =>
      refine .inr ⟨_, .color fun c hc heq => ?_, rfl⟩
      exact List.find?_eq_none.mp hnamed c hc (beq_iff_eq.mpr heq)
  | _ => exact .wrong (by simp [Value.kind, ArgumentKind.values])

end Argument

/-! All arguments. -/

/-- What is read from the arguments `vs` of `fn`, from index `i` on, by parameters of some kinds: a
command as `Q` has it, or the error for the first argument that does not fit. -/
def Settles (fn : String) (i : Nat) (kinds : List ArgumentKind) (vs : List (Value ν))
    (Q : Draw → Prop) (x : Except RuntimeCause Draw) : Prop :=
  (List.Forall₂ ArgumentKind.Accepts kinds (vs.take kinds.length) ∧ ∃ d, Q d ∧ x = .ok d) ∨
    ∃ cause, Offends fn i kinds vs cause ∧ x = .error cause

theorem Offends.not_accepts {fn : String} {i : Nat} {kinds : List ArgumentKind}
    {vs : List (Value ν)} {cause : RuntimeCause} (h : Offends fn i kinds vs cause) :
    ¬ List.Forall₂ ArgumentKind.Accepts kinds (vs.take kinds.length) := by
  induction h with
  | here hfault =>
    intro hall
    cases hall with
    | cons hv _ => exact hfault.not_accepts hv
  | behind _ _ ih =>
    intro hall
    cases hall with
    | cons _ hrest => exact ih hrest

namespace Settles

variable {fn : String} {i : Nat} {vs : List (Value ν)} {Q : Draw → Prop}

theorem done {d : Draw} (h : Q d) : Settles fn i [] vs Q (.ok d) :=
  .inl ⟨.nil, d, h, rfl⟩

theorem step {α : Type} {kind : ArgumentKind} {kinds : List ArgumentKind} {v : Value ν}
    {R : α → Prop} {x : Except RuntimeCause α} {f : α → Except RuntimeCause Draw}
    (hx : Takes fn i kind v R x) (hf : ∀ a, R a → Settles fn (i + 1) kinds vs Q (f a)) :
    Settles fn i (kind :: kinds) (v :: vs) Q (x >>= f) := by
  obtain ⟨haccepts, a, ha, rfl⟩ | ⟨cause, hfault, rfl⟩ := hx
  · obtain ⟨hrest, hd⟩ | ⟨cause, hcause, heq⟩ := hf a ha
    · exact .inl ⟨.cons haccepts hrest, hd⟩
    · exact .inr ⟨cause, .behind haccepts hcause, heq⟩
  · exact .inr ⟨cause, .here hfault, rfl⟩

end Settles

namespace Argument

variable {α : Type} {args : List (Value ν)} {count : Nat} {fn signature : String}

theorem atLeast_bind (h : count ≤ args.length) (f : Unit → Except RuntimeCause α) :
    (atLeast count args fn signature >>= f) = f () := by
  unfold atLeast
  rw [if_neg (Nat.not_lt.mpr h)]
  rfl

theorem atLeast_bind_few (h : args.length < count) (f : Unit → Except RuntimeCause α) :
    (atLeast count args fn signature >>= f) = .error (.tooFewArguments fn count signature) := by
  unfold atLeast
  rw [if_pos h]
  rfl

end Argument

namespace Binding

open Argument

theorem textCommand_settles {args : List (Value ν)} (h : 5 ≤ args.length) :
    Settles Binding.drawText.name 0 Binding.drawText.kinds args (Draws .drawText (args.take 5))
      (textCommand args) := by
  match args, h with
  | v₀ :: v₁ :: v₂ :: v₃ :: v₄ :: more, h =>
    unfold textCommand
    rw [atLeast_bind h]
    refine .step (string_takes (i := 0) rfl _) fun s hs => ?_
    refine .step (integer_takes (i := 1) rfl _) fun x hx => ?_
    refine .step (integer_takes (i := 2) rfl _) fun y hy => ?_
    refine .step (integer_takes (i := 3) rfl _) fun size hsize => ?_
    refine .step (color_takes (i := 4) rfl _) fun c hc => ?_
    subst hs
    exact .done (.text hx hy hsize hc)

/-- Both rectangles are read alike. -/
theorem boxCommand_settles {args : List (Value ν)} (h : 5 ≤ args.length) (fn : String)
    {make : Number → Number → Number → Number → Color → Draw} {Q : List (Value ν) → Draw → Prop}
    (hQ : ∀ {vx vy vw vh vcolor : Value ν} {x y w h c}, vx.IsWhole x → vy.IsWhole y →
      vw.IsWhole w → vh.IsWhole h → vcolor.IsColor c →
        Q [vx, vy, vw, vh, vcolor] (make x y w h c)) :
    Settles fn 0 Binding.drawRect.kinds args (Q (args.take 5)) (boxCommand fn make args) := by
  match args, h with
  | v₀ :: v₁ :: v₂ :: v₃ :: v₄ :: more, h =>
    unfold boxCommand
    rw [atLeast_bind h]
    refine .step (integer_takes (i := 0) rfl _) fun x hx => ?_
    refine .step (integer_takes (i := 1) rfl _) fun y hy => ?_
    refine .step (integer_takes (i := 2) rfl _) fun w hw => ?_
    refine .step (integer_takes (i := 3) rfl _) fun h hh => ?_
    refine .step (color_takes (i := 4) rfl _) fun c hc => ?_
    exact .done (hQ hx hy hw hh hc)

theorem circleCommand_settles {args : List (Value ν)} (h : 4 ≤ args.length) :
    Settles Binding.drawCircle.name 0 Binding.drawCircle.kinds args
      (Draws .drawCircle (args.take 4)) (circleCommand args) := by
  match args, h with
  | v₀ :: v₁ :: v₂ :: v₃ :: more, h =>
    unfold circleCommand
    rw [atLeast_bind h]
    refine .step (integer_takes (i := 0) rfl _) fun x hx => ?_
    refine .step (integer_takes (i := 1) rfl _) fun y hy => ?_
    refine .step (number_takes (i := 2) rfl _) fun radius hradius => ?_
    refine .step (color_takes (i := 3) rfl _) fun c hc => ?_
    exact .done (.circle hx hy hradius hc)

theorem clearCommand_settles {args : List (Value ν)} (h : 1 ≤ args.length) :
    Settles Binding.clear.name 0 Binding.clear.kinds args (Draws .clear (args.take 1))
      (clearCommand args) := by
  match args, h with
  | v :: more, h =>
    unfold clearCommand
    rw [atLeast_bind h]
    exact .step (color_takes (i := 0) rfl _) fun c hc => .done (.clear hc)

/-- A drawing function draws what is read from its arguments. -/
theorem exists_command {b : Binding} (hb : b ∈ drawings) (args : List (Value ν)) :
    ∃ x, b.request args = draw x ∧
      (args.length < b.kinds.length →
        x = .error (.tooFewArguments b.name b.kinds.length b.signature)) ∧
      (b.kinds.length ≤ args.length →
        Settles b.name 0 b.kinds args (Draws b (args.take b.kinds.length)) x) := by
  simp only [drawings, List.mem_cons, List.not_mem_nil, or_false] at hb
  rcases hb with rfl | rfl | rfl | rfl | rfl
  · exact ⟨_, rfl, fun h => atLeast_bind_few h _, textCommand_settles⟩
  · exact ⟨_, rfl, fun h => atLeast_bind_few h _, fun h => boxCommand_settles h _ Draws.rect⟩
  · exact ⟨_, rfl, fun h => atLeast_bind_few h _, fun h => boxCommand_settles h _ Draws.rectLines⟩
  · exact ⟨_, rfl, fun h => atLeast_bind_few h _, circleCommand_settles⟩
  · exact ⟨_, rfl, fun h => atLeast_bind_few h _, clearCommand_settles⟩

end Binding

/-! Integer fields have no fraction. -/

/-- The fields of a command that integer arguments are for. -/
def Draw.wholes : Draw → List Number
  | .text _ x y size _ => [x, y, size]
  | .rect x y w h _ | .rectLines x y w h _ => [x, y, w, h]
  | .circle x y _ _ => [x, y]
  | .clear _ => []

/-- No whole number among the values has a fraction. -/
def Value.Sound (vs : List (Value ν)) : Prop := ∀ x, .int x ∈ vs → x.truncate = x

theorem Value.IsWhole.truncate_eq {v : Value ν} {x : Number} (h : v.IsWhole x)
    {vs : List (Value ν)} (hvs : Value.Sound vs) (hv : v ∈ vs) : x.truncate = x := by
  cases h with
  | int => exact hvs x hv
  | float => exact Number.truncate_truncate _

theorem Binding.Draws.truncate_eq {b : Binding} {vs : List (Value ν)} {d : Draw}
    (h : Draws b vs d) (hvs : Value.Sound vs) : ∀ x ∈ d.wholes, x.truncate = x := by
  cases h with
  | text hx hy hsize =>
    simp [Draw.wholes, hx.truncate_eq hvs, hy.truncate_eq hvs, hsize.truncate_eq hvs]
  | rect hx hy hw hh | rectLines hx hy hw hh =>
    simp [Draw.wholes, hx.truncate_eq hvs, hy.truncate_eq hvs, hw.truncate_eq hvs,
      hh.truncate_eq hvs]
  | circle hx hy => simp [Draw.wholes, hx.truncate_eq hvs, hy.truncate_eq hvs]
  | clear => simp [Draw.wholes]

/-! Calls. -/

theorem State.global?_setGlobal (s : State ν) (name other : String) (v : Value ν) :
    (s.setGlobal name v).global? other = if other = name then some v else s.global? other :=
  Bindings.get?_put ..

theorem Binding.global?_install (embed : Binding → ν) (s : State ν) (b : Binding) :
    (install embed s).global? b.name = some (.fn (.native b.name (embed b))) := by
  unfold install all colorNames State.setNative
  simp only [List.foldl_cons, List.foldl_nil, State.global?_setGlobal]
  cases b <;> rfl

theorem Run.perform_draw_ok (entry : Entry ν) (d : Draw) (t : State ν) :
    (perform entry (Binding.draw (.ok d))).run t =
      (.ok .nil, { t with outputs := t.outputs.push (.draw d) }) := rfl

theorem Run.perform_draw_error (entry : Entry ν) (cause : RuntimeCause) (t : State ν) :
    (perform entry (Binding.draw (.error cause))).run t = (.error (.script ⟨cause, none⟩), t) := rfl

/-- A drawing function, once it is bound, draws all or nothing, from wherever it is called. With
arguments that fit its parameters it draws the one command that the first of them describe and
returns nothing. With any others it fails, with the error for the first fault, and leaves
everything as it was. -/
theorem Binding.drawing_settles {m : Machine ν} {embed : Binding → ν}
    (hm : ∀ b fn args, m.natives (embed b) fn args = b.request args) {b : Binding}
    (hb : b ∈ drawings) (s : State ν) :
    let f : Callable ν := .native b.name (embed b)
    (install embed s).global? b.name = some (.fn f) ∧
      ∀ args t,
        (Fits b args ∧ ∃ d, Draws b (args.take b.kinds.length) d ∧
          (Value.Sound args → ∀ x ∈ d.wholes, x.truncate = x) ∧
          (m.invoke f args).run t =
            (.ok .nil, { t with outputs := t.outputs.push (.draw d) })) ∨
        (¬ Fits b args ∧ ∃ cause, Complains b args cause ∧
          (m.invoke f args).run t = (.error (.script ⟨cause, none⟩), t)) := by
  refine ⟨global?_install embed s b, fun args t => ?_⟩
  obtain ⟨x, hx, hfew, henough⟩ := exists_command hb args
  have hrun : (m.invoke (.native b.name (embed b)) args).run t =
      (Run.perform (Run.nativeEntry m.natives m.room m.depth) (draw x)).run t := by
    rw [Machine.invoke, Run.invoke_native, hm, hx]
  rw [hrun]
  rcases Nat.lt_or_ge args.length b.kinds.length with hlength | hlength
  · refine .inr ⟨fun hfits => absurd hfits.1 (Nat.not_le.mpr hlength), _, .few hlength, ?_⟩
    rw [hfew hlength, Run.perform_draw_error]
  · obtain ⟨hall, d, hd, rfl⟩ | ⟨cause, hcause, rfl⟩ := henough hlength
    · refine .inl ⟨⟨hlength, hall⟩, d, hd, fun hsound => hd.truncate_eq ?_,
        Run.perform_draw_ok _ d t⟩
      exact fun x hx => hsound x (List.mem_of_mem_take hx)
    · exact .inr ⟨fun hfits => hcause.not_accepts hfits.2, cause, .argument hlength hcause,
        Run.perform_draw_error _ cause t⟩

/-- A circle is drawn at whole coordinates, whatever stands behind its colour. Of three faults the
first is told. -/
theorem Binding.drawing_settles_circle :
    let circle := (Console.machine 0 0).invoke (.native "drawCircle" .drawCircle)
    (circle [.float (.read "2.5"), .int (.read "3"), .float (.read "0.5"), .str "RED", .nil]).run
        Console.start =
      (.ok .nil, { Console.start with outputs :=
        #[.draw (.circle (.read "2") (.read "3") (.read "0.5") (.solid "red" 230 41 55))] }) ∧
    (circle [.nil, .int (.read "3"), .nil, .str "mauve"]).run Console.start =
      (.error (.script ⟨.wrongArgument "drawCircle" .integer 0 .nil, none⟩), Console.start) := by
  have hm : ∀ (b : Binding) fn args, (Console.machine 0 0).natives b fn args = b.request args :=
    fun _ _ _ => rfl
  have h := (Binding.drawing_settles hm (b := .drawCircle) (by decide) Console.start).2
  have hred : ∀ c ∈ Color.all, c.name = Text.lower "RED" → c = .solid "red" 230 41 55 := by
    decide +kernel
  refine ⟨?_, ?_⟩
  · obtain ⟨-, d, hd, -, hrun⟩ | ⟨hfits, -⟩ := h [.float (.read "2.5"), .int (.read "3"),
      .float (.read "0.5"), .str "RED", .nil] Console.start
    · have hx : (Number.read "2.5").truncate = .read "2" := by decide +kernel
      cases hd with
      | circle hvx hvy hvradius hvc =>
        cases hvx
        cases hvy
        cases hvradius
        cases hvc with
        | str hc hname =>
          rw [hred _ hc hname, hx] at hrun
          exact hrun
    · refine absurd ⟨by decide, ?_⟩ hfits
      have hc : ∃ c ∈ Color.all, c.name = Text.lower "RED" := by decide +kernel
      refine .cons ⟨by decide, by simp⟩ (.cons ⟨by decide, by simp⟩ (.cons ⟨by decide, by simp⟩
        (.cons ⟨by decide, ?_⟩ .nil)))
      rintro - name ⟨⟩
      exact hc
  · obtain ⟨⟨-, hall⟩, -⟩ | ⟨-, cause, hcause, hrun⟩ := h [.nil, .int (.read "3"), .nil,
      .str "mauve"] Console.start
    · cases hall with
      | cons hv _ => exact absurd hv.1 (by decide)
    · refine hrun.trans ?_
      cases hcause with
      | few hfew => exact absurd hfew (by decide)
      | argument _ hcause =>
        cases hcause with
        | here hfault =>
          cases hfault
          rfl
        | behind hv _ => exact absurd hv.1 (by decide)

end SceneScript
