import Mathlib.Order.Defs.Unbundled
import SceneScript.Scope

/-! What may happen to the scopes in sight. An expression leaves every scope with the names it had;
a statement may add names to the innermost one. Neither reaches past the nearest scope that binds a
name. What is true of every variable in sight stays true as long as it is true of every value that
is bound. -/

namespace SceneScript

variable {α : Type}

theorem Bindings.names_put {b : Bindings α} {name : String} (h : b.binds name = true) (v : α) :
    (b.put name v).names = b.names := by
  obtain ⟨es⟩ := b
  unfold Bindings.names Bindings.put
  unfold Bindings.binds Bindings.get? at h
  induction es with
  | nil => cases h
  | cons e es ih =>
    obtain ⟨m, w⟩ := e
    simp only [putEntry]
    split
    · next heq => simp [heq]
    · next hne =>
      have hne' : (name == m) = false := by simpa using Ne.symm hne
      rw [List.lookup_cons, hne'] at h
      rw [List.map_cons, List.map_cons, ih h]

theorem Bindings.binds_iff_mem_names (b : Bindings α) (name : String) :
    b.binds name = true ↔ name ∈ b.names := by
  obtain ⟨es⟩ := b
  unfold Bindings.binds Bindings.get? Bindings.names
  induction es with
  | nil => simp
  | cons e es ih =>
    obtain ⟨m, w⟩ := e
    rw [List.lookup_cons, List.map_cons, List.mem_cons]
    by_cases h : name = m
    · simp [h]
    · have h' : (name == m) = false := by simpa using h
      simp only [h', h, false_or]
      exact ih

theorem Bindings.binds_eq_of_names {b c : Bindings α} (h : c.names = b.names) (name : String) :
    c.binds name = b.binds name := by
  rw [Bool.eq_iff_iff, c.binds_iff_mem_names, b.binds_iff_mem_names, h]

/-- Every bound value is as `Q` says. -/
def Bindings.All (Q : α → Prop) (b : Bindings α) : Prop := ∀ name v, b.get? name = some v → Q v

theorem Bindings.all_of_entries {Q : α → Prop} {b : Bindings α} (h : ∀ e ∈ b.entries, Q e.2) :
    b.All Q := by
  intro name v hv
  obtain ⟨before, after, hentries, -⟩ := List.lookup_eq_some_iff.mp hv
  exact h (name, v) (by simp [hentries])

theorem Bindings.All.put {Q : α → Prop} {b : Bindings α} (h : b.All Q) (m : String) {w : α}
    (hw : Q w) : (b.put m w).All Q := by
  intro name v hv
  rw [Bindings.get?_put] at hv
  split at hv
  · cases hv
    exact hw
  · exact h name v hv

namespace Scopes

/-- The scopes in sight, innermost first and the globals last. -/
def chain (s : Scopes α) : List (Bindings α) := s.locals ++ [s.globals]

/-- Nothing that `f` binds has changed from `fs` to `gs`. -/
def Shields (f : Bindings α) (fs gs : List (Bindings α)) : Prop :=
  ∀ name, f.binds name = true → gs.map (·.get? name) = fs.map (·.get? name)

/-- Every scope has the names it had, and what it binds has not changed in the scopes behind it. -/
def KeptIn : List (Bindings α) → List (Bindings α) → Prop
  | [], [] => True
  | f :: fs, g :: gs => g.names = f.names ∧ Shields f fs gs ∧ KeptIn fs gs
  | _, _ => False

/-- The same, but for names that the innermost scope has got besides. -/
def OpenedIn : List (Bindings α) → List (Bindings α) → Prop
  | f :: fs, g :: gs =>
    (∀ name, f.binds name = true → g.binds name = true) ∧ Shields f fs gs ∧ KeptIn fs gs
  | _, _ => False

theorem KeptIn.refl (fs : List (Bindings α)) : KeptIn fs fs := by
  induction fs with
  | nil => trivial
  | cons f fs ih => exact ⟨rfl, fun _ _ => rfl, ih⟩

theorem KeptIn.trans {fs gs hs : List (Bindings α)} (hfg : KeptIn fs gs) (hgh : KeptIn gs hs) :
    KeptIn fs hs := by
  induction fs generalizing gs hs with
  | nil =>
    cases gs with
    | nil => exact hgh
    | cons g gs => exact hfg.elim
  | cons f fs ih =>
    cases gs with
    | nil => exact hfg.elim
    | cons g gs =>
      cases hs with
      | nil => exact hgh.elim
      | cons h hs =>
        refine ⟨hgh.1.trans hfg.1, fun name hf => ?_, ih hfg.2.2 hgh.2.2⟩
        have hg : g.binds name = true := (Bindings.binds_eq_of_names hfg.1 name).trans hf
        exact (hgh.2.1 name hg).trans (hfg.2.1 name hf)

theorem KeptIn.names {fs gs : List (Bindings α)} (h : KeptIn fs gs) :
    gs.map (·.names) = fs.map (·.names) := by
  induction fs generalizing gs with
  | nil =>
    cases gs with
    | nil => rfl
    | cons g gs => exact h.elim
  | cons f fs ih =>
    cases gs with
    | nil => exact h.elim
    | cons g gs => rw [List.map_cons, List.map_cons, h.1, ih h.2.2]

theorem map_get?_of_update? {name m : String} (hm : m ≠ name) {v : α} {fs gs : List (Bindings α)}
    (h : update? name v fs = some gs) : gs.map (·.get? m) = fs.map (·.get? m) := by
  induction fs generalizing gs with
  | nil => cases h
  | cons f fs ih =>
    unfold update? at h
    split at h
    · cases h
      simp [hm]
    · obtain ⟨gs', hgs', rfl⟩ := Option.map_eq_some_iff.mp h
      simp [ih hgs']

/-- A name is rebound only in the nearest scope that binds it. -/
theorem KeptIn.of_update? {name : String} {v : α} {fs gs : List (Bindings α)}
    (h : update? name v fs = some gs) : KeptIn fs gs := by
  induction fs generalizing gs with
  | nil => cases h
  | cons f fs ih =>
    unfold update? at h
    split at h
    · next hf =>
      cases h
      exact ⟨Bindings.names_put hf v, fun _ _ => rfl, KeptIn.refl fs⟩
    · next hf =>
      obtain ⟨gs', hgs', rfl⟩ := Option.map_eq_some_iff.mp h
      refine ⟨rfl, fun m hm => map_get?_of_update? ?_ hgs', ih hgs'⟩
      rintro rfl
      exact hf hm

theorem KeptIn.opened {fs gs : List (Bindings α)} (h : KeptIn fs gs) (hne : fs ≠ []) :
    OpenedIn fs gs := by
  cases fs with
  | nil => exact absurd rfl hne
  | cons f fs =>
    cases gs with
    | nil => exact h.elim
    | cons g gs =>
      exact ⟨fun name hf => (Bindings.binds_eq_of_names h.1 name).trans hf, h.2⟩

theorem OpenedIn.trans {fs gs hs : List (Bindings α)} (hfg : OpenedIn fs gs)
    (hgh : OpenedIn gs hs) : OpenedIn fs hs := by
  cases fs with
  | nil => exact hfg.elim
  | cons f fs =>
    cases gs with
    | nil => exact hfg.elim
    | cons g gs =>
      cases hs with
      | nil => exact hgh.elim
      | cons h hs =>
        refine ⟨fun name hf => hgh.1 name (hfg.1 name hf), fun name hf => ?_,
          hfg.2.2.trans hgh.2.2⟩
        exact (hgh.2.1 name (hfg.1 name hf)).trans (hfg.2.1 name hf)

/-- What an expression may do to the scopes in sight. -/
def Kept (s t : Scopes α) : Prop := KeptIn s.chain t.chain

/-- What a statement may do to the scopes in sight. -/
def Opened (s t : Scopes α) : Prop := OpenedIn s.chain t.chain

theorem chain_ne_nil (s : Scopes α) : s.chain ≠ [] := by simp [chain]

instance : IsPreorder (Scopes α) Kept where
  refl s := KeptIn.refl s.chain
  trans _ _ _ h h' := KeptIn.trans h h'

theorem Kept.opened {s t : Scopes α} (h : Kept s t) : Opened s t :=
  KeptIn.opened h s.chain_ne_nil

instance : IsPreorder (Scopes α) Opened where
  refl s := (refl s : Kept s s).opened
  trans _ _ _ h h' := OpenedIn.trans h h'

theorem opened_define (s : Scopes α) (name : String) (v : α) : Opened s (s.define name v) := by
  have hput : ∀ (f : Bindings α) fs, OpenedIn (f :: fs) (f.put name v :: fs) := fun f fs =>
    ⟨fun m hm => by simp [hm], fun _ _ => rfl, KeptIn.refl fs⟩
  obtain ⟨_ | ⟨f, fs⟩, globals, waiting⟩ := s
  · exact hput globals []
  · exact hput f (fs ++ [globals])

theorem update?_append (name : String) (v : α) (fs gs : List (Bindings α)) :
    update? name v (fs ++ gs) =
      match update? name v fs with
      | some fs' => some (fs' ++ gs)
      | none => (update? name v gs).map (fs ++ ·) := by
  induction fs with
  | nil => simp [update?]
  | cons f fs ih =>
    rw [List.cons_append, update?, update?, ih]
    split
    · rfl
    · cases update? name v fs with
      | some fs' => rfl
      | none => simp [Function.comp_def]

theorem chain_assign (s : Scopes α) (name : String) (v : α) :
    (s.assign name v).chain = (update? name v s.chain).getD (s.define name v).chain := by
  unfold assign
  rw [chain.eq_1 s, update?_append]
  cases update? name v s.locals with
  | some locals => rfl
  | none =>
    simp only [update?]
    split
    · rfl
    · rfl

theorem opened_assign (s : Scopes α) (name : String) (v : α) : Opened s (s.assign name v) := by
  unfold Opened
  rw [chain_assign]
  cases h : update? name v s.chain with
  | none => exact s.opened_define name v
  | some fs => exact (KeptIn.of_update? h).opened s.chain_ne_nil

/-- The innermost scope of a call takes its names with it. -/
theorem Opened.pop {s t : Scopes α} {f : Bindings α} (h : Opened (s.push f) t) :
    Kept s t.pop ∧ Shields f s.chain t.pop.chain := by
  obtain ⟨_ | ⟨g, gs⟩, globals, waiting⟩ := t
  · obtain ⟨-, -, h⟩ := h
    -- The scopes behind `f` are as many as before, so a local one is left to remove.
    have hlength := congrArg List.length (KeptIn.names h)
    simp at hlength
  · exact ⟨h.2.2, h.2.1⟩

/-! What is true of every variable in sight. -/

def All (Q : α → Prop) (s : Scopes α) : Prop := ∀ f ∈ s.chain, f.All Q

namespace All

variable {Q : α → Prop} {s : Scopes α}

theorem lookup (h : s.All Q) (name : String) : ∀ v ∈ s.lookup name, Q v := by
  intro v hv
  obtain hv | ⟨-, hv⟩ := Option.or_eq_some_iff.mp hv
  · obtain ⟨f, hf, hfv⟩ := List.exists_of_findSome?_eq_some hv
    exact h f (List.mem_append_left _ hf) name v hfv
  · exact h s.globals (List.mem_append_right _ (List.mem_singleton_self _)) name v hv

theorem define (h : s.All Q) (name : String) {v : α} (hv : Q v) : (s.define name v).All Q := by
  obtain ⟨_ | ⟨f, fs⟩, globals, waiting⟩ := s
  all_goals
    obtain ⟨hf, hfs⟩ := List.forall_mem_cons.mp h
    exact List.forall_mem_cons.mpr ⟨hf.put name hv, hfs⟩

theorem of_update? {name : String} {v : α} (hv : Q v) {fs gs : List (Bindings α)}
    (h : update? name v fs = some gs) (hfs : ∀ f ∈ fs, f.All Q) : ∀ g ∈ gs, g.All Q := by
  induction fs generalizing gs with
  | nil => cases h
  | cons f fs ih =>
    obtain ⟨hf, hfs⟩ := List.forall_mem_cons.mp hfs
    unfold update? at h
    split at h
    · cases h
      exact List.forall_mem_cons.mpr ⟨hf.put name hv, hfs⟩
    · obtain ⟨gs', hgs', rfl⟩ := Option.map_eq_some_iff.mp h
      exact List.forall_mem_cons.mpr ⟨hf, ih hgs' hfs⟩

theorem assign (h : s.All Q) (name : String) {v : α} (hv : Q v) : (s.assign name v).All Q := by
  unfold All
  rw [chain_assign]
  cases hupdate : update? name v s.chain with
  | none => exact h.define name hv
  | some fs => exact of_update? hv hupdate h

theorem push (h : s.All Q) {f : Bindings α} (hf : f.All Q) : (s.push f).All Q :=
  List.forall_mem_cons.mpr ⟨hf, h⟩

theorem pop (h : s.All Q) : s.pop.All Q := by
  obtain ⟨_ | ⟨f, fs⟩, globals, waiting⟩ := s
  · exact h
  · exact (List.forall_mem_cons.mp h).2

end All

end Scopes

end SceneScript
