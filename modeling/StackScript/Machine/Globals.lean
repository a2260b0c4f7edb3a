import StackScript.Value

/-!
The global variables, by name. A name keeps its place when its value changes.
-/

namespace StackScript

structure Globals where
  entries : List (String × Value) := []

namespace Globals

def get? (g : Globals) (name : String) : Option Value :=
  g.entries.lookup name

def contains (g : Globals) (name : String) : Bool :=
  (g.get? name).isSome

/-- Changes the entry for `name`, or adds one at the end. -/
def put (name : String) (v : Value) : List (String × Value) → List (String × Value)
  | [] => [(name, v)]
  | entry :: rest => if entry.1 = name then (name, v) :: rest else entry :: put name v rest

def insert (g : Globals) (name : String) (v : Value) : Globals :=
  ⟨put name v g.entries⟩

theorem lookup_put (name other : String) (v : Value) (entries : List (String × Value)) :
    (put name v entries).lookup other =
      if other = name then some v else entries.lookup other := by
  induction entries with
  | nil =>
      by_cases h : other = name
      · simp [put, h]
      · have hne : (other == name) = false := beq_eq_false_iff_ne.mpr h
        simp [put, List.lookup_cons, hne, h]
  | cons entry rest ih =>
      obtain ⟨key, value⟩ := entry
      by_cases hkey : key = name
      · subst hkey
        by_cases h : other = key
        · simp [put, h]
        · have hne : (other == key) = false := beq_eq_false_iff_ne.mpr h
          simp [put, List.lookup_cons, hne, h]
      · by_cases hother : other = key
        · subst hother
          simp [put, hkey]
        · have hne : (other == key) = false := beq_eq_false_iff_ne.mpr hother
          simp only [put, hkey, if_false, List.lookup_cons, hne, ih]

@[simp] theorem get?_insert (g : Globals) (name other : String) (v : Value) :
    (g.insert name v).get? other = if other = name then some v else g.get? other :=
  lookup_put name other v g.entries

end Globals

end StackScript
