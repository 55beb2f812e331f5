import TensorEquations.Coefficient.Basic

/-!
# The registry of coefficients

* `Registry` — coefficients in the order in which they were first mentioned, one for each key.
* `Registry.register` — makes sure that there is a coefficient for a key.
* `Registry.modify` — changes the coefficient of a key; its key and the other coefficients stay.
-/

namespace TensorEquations

/-- Coefficients with pairwise different keys. -/
structure Registry where
  coefficients : List Coefficient
  nodup_keys : (coefficients.map Coefficient.key).Nodup

namespace Registry

/-- The registry without coefficients. -/
def empty : Registry := ⟨[], List.nodup_nil⟩

def keys (r : Registry) : List CoefficientKey := r.coefficients.map Coefficient.key

/-- The coefficient of a key. -/
def find? (r : Registry) (k : CoefficientKey) : Option Coefficient :=
  r.coefficients.find? fun c => c.key = k

/-- The first coefficient of a name. -/
def byName? (r : Registry) (name : String) : Option Coefficient :=
  r.coefficients.find? fun c => c.name = name

/-- A new open coefficient for a key that has none. -/
def register (r : Registry) (k : CoefficientKey) : Registry :=
  if h : k ∈ r.keys then r
  else
    { coefficients := r.coefficients ++ [{ key := k }]
      nodup_keys := by
        rw [List.map_append, List.nodup_append]
        refine ⟨r.nodup_keys, by simp, ?_⟩
        intro a ha b hb hab
        simp only [List.map_cons, List.map_nil, List.mem_singleton] at hb
        subst hb
        subst hab
        exact h ha }

/-- Coefficients for all keys of a list, in its order. -/
def registerAll (r : Registry) (ks : List CoefficientKey) : Registry := ks.foldl register r

/-- The coefficient of a key changed. -/
def modify (r : Registry) (k : CoefficientKey) (f : Coefficient → Coefficient) : Registry :=
  { coefficients := r.coefficients.map fun c => if c.key = k then { f c with key := c.key } else c
    nodup_keys := by
      have h : (r.coefficients.map fun c =>
          if c.key = k then { f c with key := c.key } else c).map Coefficient.key =
            r.coefficients.map Coefficient.key := by
        rw [List.map_map]
        apply List.map_congr_left
        intro c _
        simp only [Function.comp]
        split <;> rfl
      rw [h]
      exact r.nodup_keys }

/-- A coefficient in the place of the one with its key. -/
def put (r : Registry) (c : Coefficient) : Registry := r.modify c.key fun _ => c

/-- The tensor of the coefficient of a key, if there is one. -/
def tensor? (r : Registry) (k : CoefficientKey) : Option Tensor := (r.find? k).bind Coefficient.tensor

/-- Whether the coefficient of a key is finished. -/
def isFinished (r : Registry) (k : CoefficientKey) : Bool :=
  (r.find? k).any Coefficient.isFinished

/-- Whether the lock of the coefficient of a key is held. -/
def isLocked (r : Registry) (k : CoefficientKey) : Bool := (r.find? k).any Coefficient.isLocked

end Registry

end TensorEquations
