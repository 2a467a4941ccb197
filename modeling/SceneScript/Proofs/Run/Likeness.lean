import Mathlib.Data.List.Forall2
import SceneScript.Proofs.Tree.Likeness
import SceneScript.Run.Call

/-! Values and states that are alike. Procedures hold programs, so two runs of like programs never
reach the same values, only like ones; what a run reads of a value is the same for both. Every
operation on bindings and scopes takes like to like. -/

namespace SceneScript

variable {ν α : Type}

inductive Callable.Alike (L : Likeness) : Callable ν → Callable ν → Prop
  | native {name : String} {key : ν} : Callable.Alike L (.native name key) (.native name key)
  | proc {name : String} {params : List String} {body body' : List Stmt} :
      Stmt.AlikeAll L body body' →
      Callable.Alike L (.proc ⟨name, params, body⟩) (.proc ⟨name, params, body'⟩)

/-- Values that differ only inside the bodies of procedures. -/
inductive Value.Alike (L : Likeness) : Value ν → Value ν → Prop
  | nil : Value.Alike L .nil .nil
  | int {x : Number} : Value.Alike L (.int x) (.int x)
  | float {x : Number} : Value.Alike L (.float x) (.float x)
  | bool {b : Bool} : Value.Alike L (.bool b) (.bool b)
  | str {s : String} : Value.Alike L (.str s) (.str s)
  | fn {f g : Callable ν} : Callable.Alike L f g → Value.Alike L (.fn f) (.fn g)

inductive Flow.Alike (L : Likeness) : Flow ν → Flow ν → Prop
  | next : Flow.Alike L .next .next
  | returned {v w : Value ν} : Value.Alike L v w → Flow.Alike L (.returned v) (.returned w)

inductive Output.Alike (L : Likeness) : Output ν → Output ν → Prop
  | print {line : String} : Output.Alike L (.print line) (.print line)
  | draw {command : Draw} : Output.Alike L (.draw command) (.draw command)
  | record {vs ws : List (Value ν)} : List.Forall₂ (Value.Alike L) vs ws →
      Output.Alike L (.record vs) (.record ws)

inductive Failure.Alike (L : Likeness) : Failure → Failure → Prop
  | script {e f : RuntimeError} : L.error e f → Failure.Alike L (.script e) (.script f)
  | host {e : HostError} : Failure.Alike L (.host e) (.host e)
  | exhausted : Failure.Alike L .exhausted .exhausted
  | endless : Failure.Alike L .endless .endless

/-- Both end in results that `A` relates, or both in errors that `E` relates. -/
inductive EndsAlike {ε : Type} (E : ε → ε → Prop) (A : α → α → Prop) :
    Except ε α → Except ε α → Prop
  | ok {a b : α} : A a b → EndsAlike E A (.ok a) (.ok b)
  | error {e f : ε} : E e f → EndsAlike E A (.error e) (.error f)

theorem EndsAlike.ok_self {ε : Type} {E : ε → ε → Prop} {A : α → α → Prop} {r : Except ε α}
    {a : α} (h : EndsAlike E A r r) (hr : r = .ok a) : A a a := by
  subst hr
  cases h with
  | ok ha => exact ha

theorem EndsAlike.error_self {ε : Type} {E : ε → ε → Prop} {A : α → α → Prop} {r : Except ε α}
    {e : ε} (h : EndsAlike E A r r) (hr : r = .error e) : E e e := by
  subst hr
  cases h with
  | error he => exact he

namespace Value.Alike

variable {L : Likeness} {v w : Value ν}

theorem truthy (h : Value.Alike L v w) : v.truthy = w.truthy := by cases h <;> rfl

theorem text (h : Value.Alike L v w) : v.text = w.text := by
  cases h with
  | fn hf => cases hf <;> rfl
  | _ => rfl

theorem eq (hL : L.exact) (hform : ¬ L.unfolds := by exact id) (h : Value.Alike L v w) :
    v = w := by
  cases h with
  | fn hf =>
    cases hf with
    | native => rfl
    | proc hb => rw [hb.eq hL hform]
  | _ => rfl

end Value.Alike

theorem forall₂_eq {A : α → α → Prop} (hA : ∀ a b, A a b → a = b) {as bs : List α}
    (h : List.Forall₂ A as bs) : as = bs := List.forall₂_eq_eq_eq ▸ h.imp hA

theorem option_rel_cases {A : α → α → Prop} {v w : Option α} (h : Option.Rel A v w) :
    v = none ∧ w = none ∨ ∃ a b, v = some a ∧ w = some b ∧ A a b := by
  cases h with
  | none => exact .inl ⟨rfl, rfl⟩
  | some hab => exact .inr ⟨_, _, rfl, rfl, hab⟩

theorem Output.Alike.eq {L : Likeness} (hL : L.exact) (hform : ¬ L.unfolds := by exact id)
    {o o' : Output ν} (h : Output.Alike L o o') : o = o' := by
  cases h with
  | record hs => rw [forall₂_eq (fun _ _ => Value.Alike.eq hL hform) hs]
  | _ => rfl

theorem EndsAlike.eq {ε : Type} {E : ε → ε → Prop} {A : α → α → Prop} (hE : ∀ e f, E e f → e = f)
    (hA : ∀ a b, A a b → a = b) {r q : Except ε α} (h : EndsAlike E A r q) : r = q := by
  cases h with
  | ok hab => rw [hA _ _ hab]
  | error he => rw [hE _ _ he]

theorem Failure.Alike.eq {L : Likeness} (hL : ∀ e f, L.error e f → e = f) {f g : Failure}
    (h : Failure.Alike L f g) : f = g := by
  cases h with
  | script he => rw [hL _ _ he]
  | _ => rfl

/-! What is like itself. -/

section Self

variable {L : Likeness} (hL : L.Steady)
include hL

theorem Value.alike_self {v : Value ν} (h : ∀ p, v = .fn (.proc p) →
    ∀ name ∈ Stmt.namesAll p.body, ∀ pos, L.Finds name pos pos) : Value.Alike L v v := by
  cases v with
  | nil => exact .nil
  | int => exact .int
  | float => exact .float
  | bool => exact .bool
  | str => exact .str
  | fn f =>
    cases f with
    | native => exact .fn .native
    | proc p => exact .fn (.proc (Stmt.alikeAll_self hL _ (h p rfl)))

end Self

/-! Bindings -/

namespace Bindings

/-- The same names in the same order, bound to what `A` relates. -/
def Alike (A : α → α → Prop) (b c : Bindings α) : Prop :=
  List.Forall₂ (fun x y => x.1 = y.1 ∧ A x.2 y.2) b.entries c.entries

variable {A : α → α → Prop} {b c : Bindings α}

theorem Alike.empty : Alike A (Bindings.empty : Bindings α) .empty := List.Forall₂.nil

theorem Alike.get? (h : Alike A b c) (name : String) :
    Option.Rel A (b.get? name) (c.get? name) := by
  obtain ⟨es⟩ := b
  obtain ⟨fs⟩ := c
  change List.Forall₂ _ es fs at h
  unfold Bindings.get?
  induction h with
  | nil => exact .none
  | @cons x y es fs hxy _ ih =>
    obtain ⟨n, v⟩ := x
    obtain ⟨m, w⟩ := y
    obtain ⟨rfl, hv⟩ := hxy
    simp only [List.lookup_cons]
    split
    · exact .some hv
    · exact ih

theorem Alike.binds (h : Alike A b c) (name : String) : b.binds name = c.binds name := by
  unfold Bindings.binds
  obtain ⟨hb, hc⟩ | ⟨v, w, hb, hc, -⟩ := option_rel_cases (h.get? name)
  · rw [hb, hc]
  · rw [hb, hc]
    rfl

theorem Alike.put (h : Alike A b c) (name : String) {v w : α} (hv : A v w) :
    Alike A (b.put name v) (c.put name w) := by
  obtain ⟨es⟩ := b
  obtain ⟨fs⟩ := c
  change List.Forall₂ _ es fs at h
  change List.Forall₂ _ (putEntry name v es) (putEntry name w fs)
  induction h with
  | nil => exact .cons ⟨rfl, hv⟩ .nil
  | @cons x y es fs hxy hes ih =>
    obtain ⟨n, v'⟩ := x
    obtain ⟨m, w'⟩ := y
    obtain ⟨rfl, hv'⟩ := hxy
    simp only [putEntry]
    split
    · exact .cons ⟨rfl, hv⟩ hes
    · exact .cons ⟨rfl, hv'⟩ ih

theorem Alike.eq (hA : ∀ a b, A a b → a = b) (h : Alike A b c) : b = c := by
  obtain ⟨es⟩ := b
  obtain ⟨fs⟩ := c
  exact congrArg Bindings.mk
    (forall₂_eq (fun _ _ hxy => Prod.ext hxy.1 (hA _ _ hxy.2)) h)

end Bindings

/-! Scopes -/

namespace Scopes

/-- The scopes in sight are alike one by one. -/
structure Alike (A : α → α → Prop) (s t : Scopes α) : Prop where
  locals : List.Forall₂ (Bindings.Alike A) s.locals t.locals
  globals : Bindings.Alike A s.globals t.globals

variable {A : α → α → Prop} {s t : Scopes α}

theorem findSome?_alike {fs gs : List (Bindings α)} (h : List.Forall₂ (Bindings.Alike A) fs gs)
    (name : String) :
    Option.Rel A (fs.findSome? (·.get? name)) (gs.findSome? (·.get? name)) := by
  induction h with
  | nil => exact .none
  | cons hfg _ ih =>
    simp only [List.findSome?_cons]
    obtain ⟨hf, hg⟩ | ⟨v, w, hf, hg, hv⟩ := option_rel_cases (hfg.get? name)
    · rw [hf, hg]
      exact ih
    · rw [hf, hg]
      exact .some hv

theorem Alike.lookup (h : Alike A s t) (name : String) :
    Option.Rel A (s.lookup name) (t.lookup name) := by
  unfold Scopes.lookup
  obtain ⟨hs, ht⟩ | ⟨v, w, hs, ht, hv⟩ := option_rel_cases (findSome?_alike h.locals name)
  · rw [hs, ht]
    exact h.globals.get? name
  · rw [hs, ht]
    exact .some hv

theorem Alike.define (h : Alike A s t) (name : String) {v w : α} (hv : A v w) :
    Alike A (s.define name v) (t.define name w) := by
  obtain ⟨fs, b, us⟩ := s
  obtain ⟨gs, c, us'⟩ := t
  obtain ⟨hlocals, hglobals⟩ := h
  cases hlocals with
  | nil => exact ⟨.nil, hglobals.put name hv⟩
  | cons hf hfs => exact ⟨.cons (hf.put name hv) hfs, hglobals⟩

theorem update?_alike {fs gs : List (Bindings α)} (h : List.Forall₂ (Bindings.Alike A) fs gs)
    (name : String) {v w : α} (hv : A v w) :
    Option.Rel (List.Forall₂ (Bindings.Alike A)) (update? name v fs) (update? name w gs) := by
  induction h with
  | nil => exact .none
  | cons hfg hfs ih =>
    simp only [update?, hfg.binds name]
    split
    · exact .some (.cons (hfg.put name hv) hfs)
    · obtain ⟨hf, hg⟩ | ⟨fs', gs', hf, hg, hfs'⟩ := option_rel_cases ih
      · rw [hf, hg]
        exact .none
      · rw [hf, hg]
        exact .some (.cons hfg hfs')

theorem Alike.assign (h : Alike A s t) (name : String) {v w : α} (hv : A v w) :
    Alike A (s.assign name v) (t.assign name w) := by
  unfold Scopes.assign
  obtain ⟨hs, ht⟩ | ⟨fs, gs, hs, ht, hfs⟩ := option_rel_cases (update?_alike h.locals name hv)
  · simp only [hs, ht, h.globals.binds name]
    split
    · exact ⟨h.locals, h.globals.put name hv⟩
    · exact h.define name hv
  · rw [hs, ht]
    exact ⟨hfs, h.globals⟩

theorem binds_define {name : String} (h : s.globals.binds name = true) (m : String) (v : α) :
    (s.define m v).globals.binds name = true := by
  unfold define
  split
  · simp [h]
  · exact h

theorem binds_assign {name : String} (h : s.globals.binds name = true) (m : String) (v : α) :
    (s.assign m v).globals.binds name = true := by
  unfold assign
  split
  · exact h
  · split
    · simp [h]
    · exact binds_define h m v

theorem lookup_ne_none {name : String} (h : s.globals.binds name = true) :
    s.lookup name ≠ none := by
  unfold Bindings.binds at h
  unfold lookup
  intro hnone
  rw [Option.or_eq_none_iff] at hnone
  rw [hnone.2] at h
  cases h

theorem define_waiting (s : Scopes α) (name : String) (v : α) :
    (s.define name v).waiting = s.waiting := by
  unfold define
  split <;> rfl

theorem assign_waiting (s : Scopes α) (name : String) (v : α) :
    (s.assign name v).waiting = s.waiting := by
  unfold assign
  split
  · rfl
  · split
    · rfl
    · exact s.define_waiting name v

end Scopes

/-! States -/

namespace State

/-- Alike in all that an entry from outside the calls that are going on can see. -/
structure Outside (L : Likeness) (s t : State ν) : Prop where
  globals : Bindings.Alike (Value.Alike L) s.scopes.globals t.scopes.globals
  bound : ∀ name, L.bound name → s.scopes.globals.binds name = true
  events : ∀ event, L.fires event →
    Option.Rel (Stmt.AlikeAll L) (s.events.get? event) (t.events.get? event)
  keyboard : s.keyboard = t.keyboard

/-- Alike in all that a running script can see. -/
structure Alike (L : Likeness) (s t : State ν) : Prop extends Outside L s t where
  locals : List.Forall₂ (Bindings.Alike (Value.Alike L)) s.scopes.locals t.scopes.locals

/-- What two runs from `s` and `t` to `s'` and `t'` do besides: they leave the scopes that wait as
they are and put out like things. -/
structure Onward (L : Likeness) (s t s' t' : State ν) : Prop where
  waiting : s'.scopes.waiting = s.scopes.waiting ∧ t'.scopes.waiting = t.scopes.waiting
  outputs : ∃ os os', s'.outputs.toList = s.outputs.toList ++ os ∧
    t'.outputs.toList = t.outputs.toList ++ os' ∧ List.Forall₂ (Output.Alike L) os os'

variable {L : Likeness} {s t s₁ t₁ s₂ t₂ : State ν}

theorem Alike.scopes (h : Alike L s t) : Scopes.Alike (Value.Alike L) s.scopes t.scopes :=
  ⟨h.locals, h.globals⟩

theorem Outside.withScopes (h : Outside L s t) {a b : Scopes (Value ν)}
    (ha : a.globals = s.scopes.globals) (hb : b.globals = t.scopes.globals) :
    Outside L { s with scopes := a } { t with scopes := b } := by
  refine ⟨?_, ?_, h.events, h.keyboard⟩
  · rw [ha, hb]
    exact h.globals
  · rw [ha]
    exact h.bound

theorem Onward.refl (L : Likeness) (s t : State ν) : Onward L s t s t :=
  ⟨⟨rfl, rfl⟩, [], [], by simp⟩

theorem Onward.trans (h₁ : Onward L s t s₁ t₁) (h₂ : Onward L s₁ t₁ s₂ t₂) :
    Onward L s t s₂ t₂ := by
  obtain ⟨os₁, os₁', hs₁, ht₁, hos₁⟩ := h₁.outputs
  obtain ⟨os₂, os₂', hs₂, ht₂, hos₂⟩ := h₂.outputs
  refine ⟨⟨h₂.waiting.1.trans h₁.waiting.1, h₂.waiting.2.trans h₁.waiting.2⟩,
    os₁ ++ os₂, os₁' ++ os₂', ?_, ?_, List.rel_append hos₁ hos₂⟩
  · rw [hs₂, hs₁, List.append_assoc]
  · rw [ht₂, ht₁, List.append_assoc]

end State

end SceneScript
