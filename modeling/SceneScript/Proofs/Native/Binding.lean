import SceneScript.Console
import SceneScript.Proofs.Run.Alike

/-! The native functions of a host do not look into procedures, and what they fail with is an error
about an argument, in their own name. -/

namespace SceneScript

/-- Whether an error is about the arguments of a native function. -/
def RuntimeCause.ofArgument : RuntimeCause → Bool
  | .missingArgument .. | .wrongArgument .. | .unknownColor .. | .unknownKey ..
  | .tooFewArguments .. => true
  | _ => false

variable {ν α β : Type} {L : Likeness} {args args' : List (Value ν)}

/-- Both fail with one error about an argument, or both come to what `A` relates. -/
abbrev Checked (A : α → α → Prop) (x y : Except RuntimeCause α) : Prop :=
  EndsAlike (fun c d => c = d ∧ c.ofArgument = true) A x y

theorem Checked.bind {A : α → α → Prop} {B : β → β → Prop} {x y : Except RuntimeCause α}
    {f g : α → Except RuntimeCause β} (h : Checked A x y)
    (hf : ∀ a b, A a b → Checked B (f a) (g b)) : Checked B (x >>= f) (y >>= g) := by
  cases h with
  | ok hab => exact hf _ _ hab
  | error hc => exact .error hc

/-- Steps after which both go on with the same. -/
theorem Checked.bind_eq {B : β → β → Prop} {x y : Except RuntimeCause α}
    {f g : α → Except RuntimeCause β} (h : Checked Eq x y)
    (hf : ∀ a, Checked B (f a) (g a)) : Checked B (x >>= f) (y >>= g) :=
  h.bind fun a _ hab => hab ▸ hf a

namespace Argument

variable (h : List.Forall₂ (Value.Alike L) args args') (i : Int) (fn : String)
include h

theorem get_checked (what : ArgumentKind) :
    Checked (Value.Alike L) (get args i fn what) (get args' i fn what) := by
  unfold get
  split
  · exact .error ⟨rfl, rfl⟩
  · generalize i.toNat = n
    induction h generalizing n with
    | nil => exact .error ⟨rfl, rfl⟩
    | cons hv _ ih =>
      cases n with
      | zero => exact .ok hv
      | succ n => exact ih n

theorem integer_checked : Checked Eq (integer args i fn) (integer args' i fn) := by
  refine (get_checked h i fn .integer).bind fun v w hv => ?_
  cases hv with
  | int => exact .ok rfl
  | float => exact .ok rfl
  | _ => exact .error ⟨rfl, rfl⟩

theorem number_checked : Checked Eq (number args i fn) (number args' i fn) := by
  refine (get_checked h i fn .number).bind fun v w hv => ?_
  cases hv with
  | int => exact .ok rfl
  | float => exact .ok rfl
  | _ => exact .error ⟨rfl, rfl⟩

theorem string_checked : Checked Eq (string args i fn) (string args' i fn) := by
  refine (get_checked h i fn .string).bind fun v w hv => ?_
  cases hv with
  | str => exact .ok rfl
  | _ => exact .error ⟨rfl, rfl⟩

theorem color_checked : Checked Eq (color args i fn) (color args' i fn) := by
  refine (get_checked h i fn .color).bind fun v w hv => ?_
  cases hv with
  | @str name =>
    dsimp only
    cases Color.named? name with
    | none => exact .error ⟨rfl, rfl⟩
    | some c => exact .ok rfl
  | _ => exact .error ⟨rfl, rfl⟩

theorem key_checked : Checked Eq (key args i fn) (key args' i fn) := by
  refine (get_checked h i fn .key).bind fun v w hv => ?_
  cases hv with
  | int => exact .ok rfl
  | @str name =>
    dsimp only
    cases Key.code? name with
    | none => exact .error ⟨rfl, rfl⟩
    | some code => exact .ok rfl
  | _ => exact .error ⟨rfl, rfl⟩

omit i in
theorem atLeast_checked (count : Nat) (signature : String) :
    Checked Eq (atLeast count args fn signature) (atLeast count args' fn signature) := by
  unfold atLeast
  rw [h.length_eq]
  split
  · exact .error ⟨rfl, rfl⟩
  · exact .ok rfl

end Argument

namespace Binding

open Argument

variable (h : List.Forall₂ (Value.Alike L) args args')
include h

theorem texts_eq : Value.texts args = Value.texts args' := by
  unfold Value.texts
  congr 1
  induction h with
  | nil => rfl
  | cons hv _ ih => rw [List.map_cons, List.map_cons, hv.text, ih]

theorem textCommand_checked : Checked Eq (textCommand args) (textCommand args') :=
  (atLeast_checked h _ 5 _).bind_eq fun _ => (string_checked h 0 _).bind_eq fun _ =>
    (integer_checked h 1 _).bind_eq fun _ => (integer_checked h 2 _).bind_eq fun _ =>
    (integer_checked h 3 _).bind_eq fun _ => (color_checked h 4 _).bind_eq fun _ => .ok rfl

theorem boxCommand_checked (fn : String)
    (make : Number → Number → Number → Number → Color → Draw) :
    Checked Eq (boxCommand fn make args) (boxCommand fn make args') :=
  (atLeast_checked h _ 5 _).bind_eq fun _ => (integer_checked h 0 _).bind_eq fun _ =>
    (integer_checked h 1 _).bind_eq fun _ => (integer_checked h 2 _).bind_eq fun _ =>
    (integer_checked h 3 _).bind_eq fun _ => (color_checked h 4 _).bind_eq fun _ => .ok rfl

theorem circleCommand_checked : Checked Eq (circleCommand args) (circleCommand args') :=
  (atLeast_checked h _ 4 _).bind_eq fun _ => (integer_checked h 0 _).bind_eq fun _ =>
    (integer_checked h 1 _).bind_eq fun _ => (number_checked h 2 _).bind_eq fun _ =>
    (color_checked h 3 _).bind_eq fun _ => .ok rfl

theorem clearCommand_checked : Checked Eq (clearCommand args) (clearCommand args') :=
  (atLeast_checked h _ 1 _).bind_eq fun _ => (color_checked h 0 _).bind_eq fun _ => .ok rfl

omit h

variable (hL : ∀ cause, cause.ofArgument = true → L.error ⟨cause, none⟩ ⟨cause, none⟩)
include hL

theorem ofExcept_bind_alike {x y : Except RuntimeCause α} (hxy : Checked Eq x y)
    {R : L.On β} {f : α → Request ν β} (hf : ∀ a, Request.Alike R (f a) (f a)) :
    Request.Alike R (Request.ofExcept x >>= f) (Request.ofExcept y >>= f) := by
  cases hxy with
  | @ok a b hab =>
    cases hab
    exact hf a
  | @error c d hcd =>
    obtain ⟨rfl, hc⟩ := hcd
    exact .fail (hL c hc)

theorem draw_alike {x y : Except RuntimeCause Draw} (hxy : Checked Eq x y) :
    Request.Alike (ν := ν) L.value (draw x) (draw y) :=
  ofExcept_bind_alike hL hxy fun _ => .emit .draw (.done .nil)

include h in
theorem request_alike (b : Binding) :
    Request.Alike L.value (b.request args) (b.request args') := by
  cases b with
  | print =>
    unfold request
    rw [texts_eq h]
    exact .emit .print (.done .nil)
  | drawText => exact draw_alike hL (textCommand_checked h)
  | drawRect => exact draw_alike hL (boxCommand_checked h _ _)
  | drawRectLines => exact draw_alike hL (boxCommand_checked h _ _)
  | drawCircle => exact draw_alike hL (circleCommand_checked h)
  | clear => exact draw_alike hL (clearCommand_checked h)
  | isKeyDown =>
    exact ofExcept_bind_alike hL (key_checked h 0 _) fun _ => .keyDown fun _ => .done .bool
  | isKeyPressed =>
    exact ofExcept_bind_alike hL (key_checked h 0 _) fun _ => .keyPressed fun _ => .done .bool

end Binding

/-! What native functions complain about. -/

/-- The error is about the arguments of the native function `fn`. -/
def RuntimeCause.Blames (fn : String) : RuntimeCause → Prop
  | .missingArgument native .. | .wrongArgument native .. | .unknownColor native _
  | .unknownKey native _ | .tooFewArguments native .. => native = fn
  | _ => False

/-- If it fails, then because of the arguments of `fn`. -/
def Blamed (fn : String) (x : Except RuntimeCause α) : Prop :=
  ∀ cause, x = .error cause → cause.Blames fn

namespace Blamed

variable {fn : String}

theorem ok (a : α) : Blamed fn (.ok a) := fun _ h => by cases h

theorem error {cause : RuntimeCause} (h : cause.Blames fn) :
    Blamed fn (.error cause : Except RuntimeCause α) := fun _ h' => by
  cases h'
  exact h

theorem bind {x : Except RuntimeCause α} {f : α → Except RuntimeCause β} (hx : Blamed fn x)
    (hf : ∀ a, Blamed fn (f a)) : Blamed fn (x >>= f) := by
  cases x with
  | error cause => exact error (hx cause rfl)
  | ok a => exact hf a

variable (args : List (Value ν)) (i : Int)

theorem get (what : ArgumentKind) : Blamed fn (Argument.get args i fn what) := by
  unfold Argument.get
  split
  · exact error rfl
  · split
    · exact ok _
    · exact error rfl

theorem integer : Blamed fn (Argument.integer args i fn) := by
  refine (get args i .integer).bind fun v => ?_
  cases v with
  | int _ | float _ => exact ok _
  | _ => exact error rfl

theorem number : Blamed fn (Argument.number args i fn) := by
  refine (get args i .number).bind fun v => ?_
  cases v with
  | int _ | float _ => exact ok _
  | _ => exact error rfl

theorem string : Blamed fn (Argument.string args i fn) := by
  refine (get args i .string).bind fun v => ?_
  cases v with
  | str _ => exact ok _
  | _ => exact error rfl

theorem color : Blamed fn (Argument.color args i fn) := by
  refine (get args i .color).bind fun v => ?_
  cases v with
  | str name =>
    dsimp only
    split
    · exact ok _
    · exact error rfl
  | _ => exact error rfl

theorem key : Blamed fn (Argument.key args i fn) := by
  refine (get args i .key).bind fun v => ?_
  cases v with
  | int code => exact ok _
  | str name =>
    dsimp only
    split
    · exact ok _
    · exact error rfl
  | _ => exact error rfl

theorem atLeast (count : Nat) (signature : String) :
    Blamed fn (Argument.atLeast count args fn signature) := by
  unfold Argument.atLeast
  split
  · exact error rfl
  · exact ok _

theorem textCommand : Blamed Binding.drawText.name (Binding.textCommand args) :=
  (atLeast args 5 _).bind fun _ => (string args 0).bind fun _ => (integer args 1).bind fun _ =>
    (integer args 2).bind fun _ => (integer args 3).bind fun _ => (color args 4).bind fun _ => ok _

theorem boxCommand (make : Number → Number → Number → Number → Color → Draw) :
    Blamed fn (Binding.boxCommand fn make args) :=
  (atLeast args 5 _).bind fun _ => (integer args 0).bind fun _ => (integer args 1).bind fun _ =>
    (integer args 2).bind fun _ => (integer args 3).bind fun _ => (color args 4).bind fun _ => ok _

theorem circleCommand : Blamed Binding.drawCircle.name (Binding.circleCommand args) :=
  (atLeast args 4 _).bind fun _ => (integer args 0).bind fun _ => (integer args 1).bind fun _ =>
    (number args 2).bind fun _ => (color args 3).bind fun _ => ok _

theorem clearCommand : Blamed Binding.clear.name (Binding.clearCommand args) :=
  (atLeast args 1 _).bind fun _ => (color args 0).bind fun _ => ok _

end Blamed

theorem Console.natives_alike
    (hL : ∀ cause, cause.ofArgument = true → L.error ⟨cause, none⟩ ⟨cause, none⟩) :
    Console.natives.Alike L :=
  fun b _ _ _ h => Binding.request_alike h hL b

end SceneScript
