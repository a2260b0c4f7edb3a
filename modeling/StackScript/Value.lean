import StackScript.Number

/-!
The values a program computes with. Two notions of sameness are kept apart: `equal`
is the language's `==`, where numbers compare as doubles, and `same` decides whether
two constants may share a place in the pool, where numbers compare by bits.
-/

namespace StackScript

inductive Value where
  | nil
  | bool (b : Bool)
  | number (x : Number)
  | string (s : String)

instance : Inhabited Value := ⟨.nil⟩

namespace Value

/-- Only `nil` and `false` count as false; zero and the empty string do not. -/
def isFalsey : Value → Bool
  | .nil => true
  | .bool b => !b
  | _ => false

/-- Values of different kinds are never equal. -/
def equal : Value → Value → Bool
  | .nil, .nil => true
  | .bool a, .bool b => a == b
  | .number x, .number y => x.equal y
  | .string s, .string t => s == t
  | _, _ => false

/-- Sameness as constants, which keeps apart the two zeros and NaNs of different bits. -/
def same : Value → Value → Bool
  | .number x, .number y => x.bits == y.bits
  | v, w => v.equal w

/-- The text that `print` shows. -/
def text : Value → String
  | .nil => "nil"
  | .bool true => "true"
  | .bool false => "false"
  | .number x => x.text
  | .string s => s

end Value

end StackScript
