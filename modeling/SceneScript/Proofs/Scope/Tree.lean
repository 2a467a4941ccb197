import Mathlib.Logic.Relation
import SceneScript.Scope.Tree

/-! Trees of scopes. A name is looked for along the parents of a scope, and `Nearest` says where it
is found without the list of numbers that the search goes through. A write binds one name in one
scope: exactly the scopes whose search ends there see it, and every other search ends as before. -/

namespace SceneScript.ScopeTree

variable {α : Type}

/-- The parent of a scope. -/
def parent? (t : ScopeTree α) (e : Nat) : Option Nat := t.nodes.reverse[e]?.bind (·.parent)

/-- The nearest scope that binds a name, from a scope on towards the root. -/
inductive Nearest (t : ScopeTree α) (name : String) : Nat → Nat → Prop
  | here {e : Nat} : (t.bindings e).binds name = true → Nearest t name e e
  | up {e p w : Nat} : (t.bindings e).binds name = false → t.parent? e = some p →
      Nearest t name p w → Nearest t name e w

/-- The scope that an assignment from `e` writes to: the nearest that binds the name, and `e` itself
when there is none. -/
def Target (t : ScopeTree α) (e : Nat) (name : String) (w : Nat) : Prop :=
  t.Nearest name e w ∨ (∀ u, ¬ t.Nearest name e u) ∧ w = e

/-- In `t'` the name is bound to the value in the scope `w`, and all else is as it was in `t`. From
every scope a search that ends at that binding finds the value, and any other what it found
before. -/
structure Writes (t : ScopeTree α) (w : Nat) (name : String) (v : α) (t' : ScopeTree α) :
    Prop where
  size : t'.size = t.size
  parents : ∀ e, t'.parent? e = t.parent? e
  bound : (t'.bindings w).get? name = some v
  others : ∀ e m, ¬ (e = w ∧ m = name) → (t'.bindings e).get? m = (t.bindings e).get? m
  seen : ∀ s < t.size, t'.Nearest name s w → t'.lookup s name = some v
  unseen : ∀ s < t.size, ∀ m, ¬ (m = name ∧ t'.Nearest name s w) → t'.lookup s m = t.lookup s m

/-- Whatever is bound in a scope of `t`, or found from one, is so in `t'`. -/
structure Keeps (t t' : ScopeTree α) : Prop where
  binds : ∀ e m, (t.bindings e).binds m = true → (t'.bindings e).binds m = true
  has : ∀ s < t.size, ∀ m, t.has s m = true → t'.has s m = true

/-- The three ways to ask for a name from a scope agree with each other and with where it is
bound. -/
structure Answers (t : ScopeTree α) (s : Nat) (m : String) : Prop where
  lookup : ∀ v, t.lookup s m = some v ↔ ∃ w, t.Nearest m s w ∧ (t.bindings w).get? m = some v
  has : t.has s m = true ↔ ∃ v, t.lookup s m = some v
  get : ∀ v, t.get s m = .ok v ↔ t.lookup s m = some v
  undefined : ∀ e, t.get s m = .error e ↔ t.lookup s m = none ∧ e = .undefined m

/-- One operation on a scope of the tree. -/
inductive Step : ScopeTree α → ScopeTree α → Prop
  | child {t : ScopeTree α} {e : Nat} : e < t.size → Step t (t.child e)
  | define {t : ScopeTree α} {e : Nat} (name : String) (v : α) : e < t.size →
      Step t (t.define e name v)
  | assign {t : ScopeTree α} {e : Nat} (name : String) (v : α) : e < t.size →
      Step t (t.assign e name v)

/-- Trees that operations lead to from a root alone. -/
def Built (t : ScopeTree α) : Prop := Relation.ReflTransGen Step root t

/-- Every parent was made before its child. -/
def Rooted (t : ScopeTree α) : Prop := ∀ e p, t.parent? e = some p → p < e

/-! Scopes by their numbers. -/

theorem reverse_cons_getElem? (node : ScopeNode α) (rest : List (ScopeNode α)) (e : Nat) :
    (node :: rest).reverse[e]? = if e = rest.length then some node else rest.reverse[e]? := by
  rw [List.reverse_cons]
  obtain hlt | rfl | hgt := Nat.lt_trichotomy e rest.length
  · rw [List.getElem?_append_left (by simpa using hlt), if_neg (Nat.ne_of_lt hlt)]
  · simp
  · rw [if_neg (Nat.ne_of_gt hgt), List.getElem?_eq_none (by simp; omega),
      List.getElem?_eq_none (by simp; omega)]

theorem length_modifyIn (f : Bindings α → Bindings α) (e : Nat) (nodes : List (ScopeNode α)) :
    (modifyIn f e nodes).length = nodes.length := by
  induction nodes with
  | nil => rfl
  | cons node rest ih =>
    unfold modifyIn
    split
    · rfl
    · rw [List.length_cons, ih, List.length_cons]

theorem modifyIn_getElem? (f : Bindings α → Bindings α) (e i : Nat) (nodes : List (ScopeNode α)) :
    (modifyIn f e nodes).reverse[i]? = nodes.reverse[i]?.map fun node =>
      if i = e then { node with bindings := f node.bindings } else node := by
  induction nodes with
  | nil => rfl
  | cons node rest ih =>
    unfold modifyIn
    split
    · subst e
      rw [reverse_cons_getElem?, reverse_cons_getElem?]
      split <;> simp
    · rename_i hne
      rw [reverse_cons_getElem?, reverse_cons_getElem?, length_modifyIn, ih]
      split
      · subst i
        simp [Ne.symm hne]
      · rfl

theorem pathIn_modifyIn (f : Bindings α → Bindings α) (e s : Nat) (nodes : List (ScopeNode α)) :
    pathIn (modifyIn f e nodes) s = pathIn nodes s := by
  induction nodes generalizing s with
  | nil => rfl
  | cons node rest ih =>
    unfold modifyIn
    split
    · rfl
    · simp only [pathIn, length_modifyIn, ih]

theorem mem_pathIn_lt {nodes : List (ScopeNode α)} {e i : Nat} (h : i ∈ pathIn nodes e) :
    i < nodes.length := by
  induction nodes generalizing e with
  | nil => simp [pathIn] at h
  | cons node rest ih =>
    unfold pathIn at h
    split at h
    · obtain rfl | h := List.mem_cons.mp h
      · simp [*]
      · split at h
        · simp at h
        · exact Nat.lt_succ_of_lt (ih h)
    · exact Nat.lt_succ_of_lt (ih h)

/-- A newer scope is not on the way from an older one. -/
theorem pathIn_cons_of_lt (node : ScopeNode α) {rest : List (ScopeNode α)} {e : Nat}
    (he : e < rest.length) : pathIn (node :: rest) e = pathIn rest e := by
  rw [pathIn, if_neg (Nat.ne_of_lt he)]

/-- The way from a scope to the root is the scope and the way from its parent, if that was made
before. -/
theorem pathIn_eq {nodes : List (ScopeNode α)} {e : Nat} (he : e < nodes.length)
    (hparent : ∀ p, nodes.reverse[e]?.bind (·.parent) = some p → p < e) :
    pathIn nodes e = e :: (nodes.reverse[e]?.bind (·.parent)).elim [] (pathIn nodes) := by
  induction nodes with
  | nil => exact absurd he (Nat.not_lt_zero e)
  | cons node rest ih =>
    rw [reverse_cons_getElem?] at hparent ⊢
    by_cases hlast : e = rest.length
    · rw [if_pos hlast, Option.bind_some] at hparent ⊢
      rw [pathIn, if_pos hlast]
      cases hp : node.parent with
      | none => rfl
      | some p =>
        have hlt : p < rest.length := hlast ▸ hparent p hp
        exact congrArg _ (pathIn_cons_of_lt node hlt).symm
    · rw [if_neg hlast] at hparent ⊢
      have hlt : e < rest.length := by
        rw [List.length_cons] at he
        omega
      rw [pathIn_cons_of_lt node hlt, ih hlt hparent]
      cases hp : rest.reverse[e]?.bind (·.parent) with
      | none => rfl
      | some p => exact congrArg _ (pathIn_cons_of_lt node (Nat.lt_trans (hparent p hp) hlt)).symm

section Define

variable (t : ScopeTree α) (e : Nat) (name : String) (v : α)

@[simp] theorem size_define : (t.define e name v).size = t.size := length_modifyIn _ e t.nodes

@[simp] theorem path_define (s : Nat) : (t.define e name v).path s = t.path s :=
  pathIn_modifyIn _ e s t.nodes

@[simp] theorem parent?_define (s : Nat) : (t.define e name v).parent? s = t.parent? s := by
  unfold parent? define
  rw [modifyIn_getElem?]
  cases t.nodes.reverse[s]? with
  | none => rfl
  | some node =>
    simp only [Option.map_some, Option.bind_some]
    split <;> rfl

end Define

section Write

variable {t : ScopeTree α} {e : Nat} {name : String} {v : α} (he : e < t.size)
include he

theorem bindings_define (s : Nat) : (t.define e name v).bindings s =
    if s = e then (t.bindings s).put name v else t.bindings s := by
  unfold bindings define
  rw [modifyIn_getElem?]
  cases hnode : t.nodes.reverse[s]? with
  | none =>
    have hs : s ≠ e := by
      rintro rfl
      rw [List.getElem?_eq_none_iff, List.length_reverse] at hnode
      exact absurd he (Nat.not_lt.mpr hnode)
    simp [hs]
  | some node =>
    simp only [Option.map_some]
    split <;> rfl

theorem get?_define (s : Nat) (m : String) : ((t.define e name v).bindings s).get? m =
    if s = e ∧ m = name then some v else (t.bindings s).get? m := by
  rw [bindings_define he]
  by_cases hs : s = e
  · simp [hs]
  · simp [hs]

theorem binds_define (s : Nat) (m : String) : ((t.define e name v).bindings s).binds m =
    (decide (s = e ∧ m = name) || (t.bindings s).binds m) := by
  unfold Bindings.binds
  rw [get?_define he]
  split <;> simp [*]

end Write

/-! Searches. -/

/-- The search for a value ends at the scope at which the search for a binding ends. -/
theorem findSome?_eq_bind_find? (t : ScopeTree α) (name : String) (path : List Nat) :
    path.findSome? (fun i => (t.bindings i).get? name) =
      (path.find? fun i => (t.bindings i).binds name).bind fun w => (t.bindings w).get? name := by
  induction path with
  | nil => rfl
  | cons i path ih =>
    rw [List.findSome?_cons, List.find?_cons]
    cases hget : (t.bindings i).get? name with
    | none =>
      have hbinds : (t.bindings i).binds name = false := by simp [Bindings.binds, hget]
      rw [hbinds]
      exact ih
    | some v =>
      have hbinds : (t.bindings i).binds name = true := by simp [Bindings.binds, hget]
      rw [hbinds]
      exact hget.symm

theorem lookup_eq_bind_nearest? (t : ScopeTree α) (s : Nat) (name : String) :
    t.lookup s name = (t.nearest? s name).bind fun w => (t.bindings w).get? name :=
  findSome?_eq_bind_find? t name (t.path s)

theorem nearest?_lt {t : ScopeTree α} {s w : Nat} {name : String}
    (h : t.nearest? s name = some w) : w < t.size :=
  mem_pathIn_lt (List.mem_of_find?_eq_some h)

section Rooted

variable {t : ScopeTree α} (ht : t.Rooted)
include ht

theorem Rooted.path_eq {e : Nat} (he : e < t.size) :
    t.path e = e :: (t.parent? e).elim [] t.path :=
  pathIn_eq he (ht e)

theorem Rooted.nearest?_eq {e : Nat} (he : e < t.size) (name : String) :
    t.nearest? e name = if (t.bindings e).binds name then some e
      else (t.parent? e).bind (t.nearest? · name) := by
  unfold nearest?
  rw [ht.path_eq he, List.find?_cons]
  cases (t.bindings e).binds name with
  | true => rfl
  | false => cases t.parent? e <;> rfl

/-- The search for a binding finds the nearest. -/
theorem Rooted.nearest?_eq_some {e : Nat} (he : e < t.size) {name : String} {w : Nat} :
    t.nearest? e name = some w ↔ t.Nearest name e w := by
  constructor
  · intro h
    -- A parent has a smaller number than its child.
    induction e using Nat.strongRecOn with
    | ind e ih =>
      rw [ht.nearest?_eq he] at h
      cases hbinds : (t.bindings e).binds name with
      | true =>
        rw [hbinds] at h
        cases h
        exact .here hbinds
      | false =>
        rw [hbinds] at h
        obtain ⟨p, hp, hw⟩ := Option.bind_eq_some_iff.mp h
        have hlt := ht e p hp
        exact .up hbinds hp (ih p hlt (Nat.lt_trans hlt he) hw)
  · intro h
    induction h with
    | here hbinds => rw [ht.nearest?_eq he, if_pos hbinds]
    | @up e p w hbinds hp _ ih =>
      rw [ht.nearest?_eq he, if_neg (by simp [hbinds]), hp]
      exact ih (Nat.lt_trans (ht e p hp) he)

theorem Rooted.define (e : Nat) (name : String) (v : α) : (t.define e name v).Rooted := by
  intro s p hp
  rw [parent?_define] at hp
  exact ht s p hp

theorem Rooted.answers {s : Nat} (hs : s < t.size) (m : String) : t.Answers s m where
  lookup v := by
    rw [lookup_eq_bind_nearest?, Option.bind_eq_some_iff]
    simp only [ht.nearest?_eq_some hs]
  has := Option.isSome_iff_exists
  get v := by
    unfold get
    cases t.lookup s m <;> simp
  undefined e := by
    unfold get
    cases t.lookup s m <;> simp [eq_comm]

theorem Rooted.target {e : Nat} (he : e < t.size) (name : String) :
    t.Target e name ((t.nearest? e name).getD e) := by
  cases hw : t.nearest? e name with
  | some w => exact .inl ((ht.nearest?_eq_some he).mp hw)
  | none =>
    refine .inr ⟨fun u hu => ?_, rfl⟩
    rw [← ht.nearest?_eq_some he, hw] at hu
    cases hu

end Rooted

/-! Writes. -/

section Write

variable {t : ScopeTree α} {w : Nat} {name : String} {v : α} (hw : w < t.size)
include hw

/-- A search that does not end at the written binding does not notice it. -/
theorem findSome?_define {path : List Nat} {m : String}
    (h : m = name → (path.find? fun i => ((t.define w name v).bindings i).binds name) ≠ some w) :
    path.findSome? (fun i => ((t.define w name v).bindings i).get? m) =
      path.findSome? fun i => (t.bindings i).get? m := by
  induction path with
  | nil => rfl
  | cons i path ih =>
    have hnot : ¬ (i = w ∧ m = name) := by
      rintro ⟨rfl, hm⟩
      refine h hm ?_
      rw [List.find?_cons, binds_define hw]
      simp
    rw [List.findSome?_cons, List.findSome?_cons, get?_define hw, if_neg hnot]
    cases hget : (t.bindings i).get? m with
    | some u => rfl
    | none =>
      refine ih fun hm hpath => h hm ?_
      subst hm
      have hbinds : ((t.define w m v).bindings i).binds m = false := by
        rw [binds_define hw, Bindings.binds, hget]
        simpa using hnot
      rw [List.find?_cons, hbinds]
      exact hpath

theorem Rooted.writes (ht : t.Rooted) : t.Writes w name v (t.define w name v) where
  size := size_define ..
  parents := parent?_define t w name v
  bound := by rw [get?_define hw]; simp
  others e m h := by rw [get?_define hw, if_neg h]
  seen s hs hnear := by
    have ht' := ht.define w name v
    rw [← size_define t w name v] at hs
    rw [lookup_eq_bind_nearest?, (ht'.nearest?_eq_some hs).mpr hnear, Option.bind_some,
      get?_define hw]
    simp
  unseen s hs m h := by
    have ht' := ht.define w name v
    rw [← size_define t w name v] at hs
    unfold lookup
    rw [path_define]
    refine findSome?_define hw fun hm hpath => h ⟨hm, ?_⟩
    rw [← ht'.nearest?_eq_some hs, nearest?, path_define, hpath]

omit hw in
theorem Writes.keeps {t' : ScopeTree α} (h : t.Writes w name v t') : t.Keeps t' where
  binds e m hm := by
    by_cases hsame : e = w ∧ m = name
    · obtain ⟨rfl, rfl⟩ := hsame
      rw [Bindings.binds, h.bound]
      rfl
    · rw [Bindings.binds, h.others e m hsame]
      exact hm
  has s hs m hm := by
    unfold has at hm ⊢
    by_cases hsame : m = name ∧ t'.Nearest name s w
    · obtain ⟨rfl, hnear⟩ := hsame
      rw [h.seen s hs hnear]
      rfl
    · rw [h.unseen s hs m hsame]
      exact hm

end Write

/-! New scopes. -/

section Child

variable (t : ScopeTree α) (e : Nat)

theorem parent?_child (s : Nat) :
    (t.child e).parent? s = if s = t.size then some e else t.parent? s := by
  unfold parent? child size
  rw [reverse_cons_getElem?]
  split <;> rfl

theorem bindings_child (s : Nat) : (t.child e).bindings s = t.bindings s := by
  unfold bindings child
  rw [reverse_cons_getElem?]
  by_cases hs : s = t.nodes.length
  · rw [if_pos hs, List.getElem?_eq_none (by simp [hs])]
  · rw [if_neg hs]

theorem keeps_child : t.Keeps (t.child e) where
  binds s m hm := by rwa [bindings_child]
  has s hs m hm := by
    have hpath : (t.child e).path s = t.path s := pathIn_cons_of_lt _ hs
    unfold has lookup at hm ⊢
    simp only [hpath, bindings_child]
    exact hm

end Child

/-! Every tree. -/

theorem Step.rooted {t t' : ScopeTree α} (h : Step t t') (ht : t.Rooted) : t'.Rooted := by
  cases h with
  | @child e he =>
    intro s p hp
    rw [parent?_child] at hp
    split at hp
    · cases hp
      omega
    · exact ht s p hp
  | define name v he => exact ht.define _ name v
  | assign name v he => exact ht.define _ name v

theorem Built.rooted {t : ScopeTree α} (h : t.Built) : t.Rooted := by
  induction h with
  | refl =>
    intro e p hp
    cases e <;> cases hp
  | tail _ hstep ih => exact hstep.rooted ih

theorem Rooted.writes_assign {t : ScopeTree α} (ht : t.Rooted) {e : Nat} (he : e < t.size)
    (name : String) (v : α) :
    t.Writes ((t.nearest? e name).getD e) name v (t.assign e name v) := by
  refine Rooted.writes ?_ ht
  cases hw : t.nearest? e name with
  | none => exact he
  | some w => exact nearest?_lt hw

theorem Step.keeps {t t' : ScopeTree α} (h : Step t t') (ht : t.Rooted) : t.Keeps t' := by
  cases h with
  | child he => exact keeps_child t _
  | define name v he => exact (Rooted.writes he ht).keeps
  | assign name v he => exact (ht.writes_assign he name v).keeps

/-- In every tree, an assignment from a scope writes to the nearest scope that binds the name, or to
the scope itself when none does, and a definition writes to the scope. No operation unbinds a name,
and all ways to ask for one agree. -/
theorem Built.write_laws {t : ScopeTree α} (ht : t.Built) :
    (∀ e < t.size, ∀ name v, ∃ w, t.Target e name w ∧ t.Writes w name v (t.assign e name v)) ∧
    (∀ e < t.size, ∀ name v, t.Writes e name v (t.define e name v)) ∧
    (∀ t', Step t t' → t.Keeps t') ∧
    ∀ s < t.size, ∀ m, t.Answers s m := by
  have hrooted := ht.rooted
  refine ⟨fun e he name v => ?_, fun e he name v => ?_, fun t' hstep => ?_, fun s hs m => ?_⟩
  · exact ⟨_, hrooted.target he name, hrooted.writes_assign he name v⟩
  · exact hrooted.writes he
  · exact hstep.keeps hrooted
  · exact hrooted.answers hs m

/-- Two branches below a root that binds a name, which is bound again on the way to the end of one.
An assignment from that end is seen there and not in the other branch. -/
theorem Built.write_laws_branches :
    let t : ScopeTree Nat := ((((root.define 0 "x" 1).child 0).child 0).child 1).define 1 "x" 2
    let t' := t.assign 3 "x" 5
    t.Built ∧ t.Nearest "x" 3 1 ∧ (∃ w, t.Target 3 "x" w ∧ t.Writes w "x" 5 t') ∧
      t.Answers 2 "x" ∧ t'.lookup 3 "x" = some 5 ∧ t'.lookup 2 "x" = some 1 := by
  intro t t'
  have ht : t.Built := Relation.ReflTransGen.refl
    |>.tail (.define (e := 0) "x" 1 (by decide))
    |>.tail (.child (e := 0) (by decide))
    |>.tail (.child (e := 0) (by decide))
    |>.tail (.child (e := 1) (by decide))
    |>.tail (.define (e := 1) "x" 2 (by decide))
  obtain ⟨hassign, -, -, hanswers⟩ := Built.write_laws ht
  have hnear : t.Nearest "x" 3 1 := .up (by decide) rfl (.here (by decide))
  exact ⟨ht, hnear, hassign 3 (by decide) "x" 5, hanswers 2 (by decide) "x", by decide, by decide⟩

end SceneScript.ScopeTree
