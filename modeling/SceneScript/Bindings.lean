/-! Bindings of names in the order in which the names were first bound. -/

namespace SceneScript

/-- Names with what each is bound to. Every name is bound at most once by `put`. -/
structure Bindings (α : Type) where
  entries : List (String × α)

namespace Bindings

variable {α : Type}

/-- No bindings. -/
def empty : Bindings α := ⟨[]⟩

instance : Inhabited (Bindings α) := ⟨empty⟩

/-- What a name is bound to. -/
def get? (b : Bindings α) (name : String) : Option α := b.entries.lookup name

/-- Whether a name is bound. -/
def binds (b : Bindings α) (name : String) : Bool := (b.get? name).isSome

/-- The bound names in order. -/
def names (b : Bindings α) : List String := b.entries.map (·.1)

/-- Replaces the binding of a name where it stands, or adds it at the end. -/
def putEntry (name : String) (v : α) : List (String × α) → List (String × α)
  | [] => [(name, v)]
  | (m, w) :: rest => if m = name then (name, v) :: rest else (m, w) :: putEntry name v rest

/-- The bindings with a name bound to a value. -/
def put (b : Bindings α) (name : String) (v : α) : Bindings α := ⟨putEntry name v b.entries⟩

theorem lookup_putEntry (n m : String) (v : α) (es : List (String × α)) :
    (putEntry n v es).lookup m = if m = n then some v else es.lookup m := by
  induction es with
  | nil =>
    by_cases h : m = n
    · simp [putEntry, h]
    · have : (m == n) = false := by simpa using h
      simp [putEntry, h, List.lookup_cons, this]
  | cons e es ih =>
    obtain ⟨k, w⟩ := e
    by_cases hk : k = n
    · subst hk
      by_cases h : m = k
      · simp [putEntry, h]
      · have : (m == k) = false := by simpa using h
        simp [putEntry, h, List.lookup_cons, this]
    · simp only [putEntry, hk, if_false, List.lookup_cons]
      by_cases h : m = k
      · subst h; simp [hk]
      · have : (m == k) = false := by simpa using h
        simp only [this, ih]

@[simp] theorem get?_empty (n : String) : (empty : Bindings α).get? n = none := rfl

@[simp] theorem get?_put (b : Bindings α) (n m : String) (v : α) :
    (b.put n v).get? m = if m = n then some v else b.get? m :=
  lookup_putEntry n m v b.entries

@[simp] theorem binds_put (b : Bindings α) (n m : String) (v : α) :
    (b.put n v).binds m = (decide (m = n) || b.binds m) := by
  unfold binds
  rw [get?_put]
  by_cases h : m = n <;> simp [h]

end Bindings

end SceneScript
