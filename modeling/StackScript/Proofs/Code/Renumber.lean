import Mathlib.Data.List.Forall2
import StackScript.Proofs.Code.Decode

/-!
The same code with another pool. Only the operands that stand for constants are others, and
they stand for the same constants, so the code is as long, its jumps are as far, and it is
fetched as the same instructions.
-/

namespace StackScript.Tree

/-- The same instruction with two pools of constants. -/
inductive Item.Alike (first second : List Value) : Item → Item → Prop
  | plain (op : Opcode) : Alike first second (.plain op) (.plain op)
  | jump (op : Opcode) (distance : Nat) : Alike first second (.jump op distance) (.jump op distance)
  | slot {op : Opcode} (byte : UInt8) (hop : op ∈ [.getLocal, .setLocal]) :
      Alike first second (.operand op byte) (.operand op byte)
  | constant {op : Opcode} {v : Value}
      (hop : op ∈ [.constant, .getGlobal, .defineGlobal, .setGlobal])
      (hfirst : v ∈ first) (hsecond : v ∈ second) :
      Alike first second (.operand op (indexIn first v)) (.operand op (indexIn second v))

/-- The same code with two pools of constants. -/
abbrev AlikeCode (first second : List Value) : List Item → List Item → Prop :=
  List.Forall₂ (Item.Alike first second)

variable {first second : List Value}

namespace Item.Alike

theorem of_eq (op : Opcode) {distance distance' : Nat} (h : distance = distance') :
    Item.Alike first second (.jump op distance) (.jump op distance') :=
  h ▸ .jump op distance

variable {item item' : Item} (h : item.Alike first second item')
include h

theorem size : item.size = item'.size := by
  cases h <;> rfl

theorem fits : item.fits = item'.fits := by
  cases h <;> rfl

theorem jump_eq {op : Opcode} {distance : Nat} (hitem : item' = .jump op distance) :
    item = item' := by
  cases h <;> first
    | rfl
    | cases hitem

/-- With pools that one byte can address, it is fetched as the same instruction. -/
theorem instruction? (hfirst : first.length ≤ Chunk.constantsMax)
    (hsecond : second.length ≤ Chunk.constantsMax) :
    item'.instruction? second = item.instruction? first := by
  cases h with
  | plain op => cases op <;> rfl
  | jump op distance => cases op <;> rfl
  | @slot op byte hop =>
      obtain rfl | rfl : op = .getLocal ∨ op = .setLocal := by simpa using hop
      · rfl
      · rfl
  | @constant op v hop hv hv' =>
      have hget := getElem?_indexIn hv hfirst
      have hget' := getElem?_indexIn hv' hsecond
      simp only [List.mem_cons, List.not_mem_nil, or_false] at hop
      rcases hop with rfl | rfl | rfl | rfl <;> simp only [Item.instruction?, hget, hget']

end Item.Alike

namespace AlikeCode

variable {items items' others others' : List Item}

theorem append (h : AlikeCode first second items items')
    (h' : AlikeCode first second others others') :
    AlikeCode first second (items ++ others) (items' ++ others') :=
  List.rel_append h h'

theorem plain (op : Opcode) : AlikeCode first second [.plain op] [.plain op] :=
  .cons (.plain op) .nil

theorem codeSize_eq (h : AlikeCode first second items items') :
    codeSize items = codeSize items' := by
  induction h with
  | nil => rfl
  | cons hitem _ ih => rw [codeSize_cons, codeSize_cons, hitem.size, ih]

theorem fits (h : AlikeCode first second items items') :
    items.all Item.fits = items'.all Item.fits := by
  induction h with
  | nil => rfl
  | cons hitem _ ih => rw [List.all_cons, List.all_cons, hitem.fits, ih]

/-- A jump over some code, or back over it. -/
theorem jump (op : Opcode) (distance : Nat → Nat) (h : AlikeCode first second items items') :
    Item.Alike first second (.jump op (distance (codeSize items)))
      (.jump op (distance (codeSize items'))) :=
  .of_eq op (congrArg distance h.codeSize_eq)

end AlikeCode

/-- All of the constants are in both pools. -/
def Common (first second constants : List Value) : Prop :=
  ∀ v ∈ constants, v ∈ first ∧ v ∈ second

theorem common_append {constants more : List Value} : Common first second (constants ++ more) ↔
    Common first second constants ∧ Common first second more :=
  List.forall_mem_append

theorem alike_constant {op : Opcode} {v : Value}
    (hop : op ∈ [.constant, .getGlobal, .defineGlobal, .setGlobal]) (h : Common first second [v]) :
    Item.Alike first second (.operand op (indexIn first v)) (.operand op (indexIn second v)) :=
  have hv := h v (List.mem_singleton_self v)
  .constant hop hv.1 hv.2

theorem alike_access {scope : Scope} {x : String} (h : Common first second (scope.nameConstant x))
    {onLocal onGlobal : Opcode} (hlocal : onLocal ∈ [.getLocal, .setLocal])
    (hglobal : onGlobal ∈ [.constant, .getGlobal, .defineGlobal, .setGlobal]) :
    Item.Alike first second (access first scope onLocal onGlobal x)
      (access second scope onLocal onGlobal x) := by
  unfold access
  cases hslot : scope.slot? x with
  | some slot => exact .slot slot hlocal
  | none =>
      have hname : scope.nameConstant x = [.string x] := by
        have hnone := List.findIdx?_eq_none_iff.mp (Option.map_eq_none_iff.mp hslot)
        have hnot : x ∉ scope := fun hmem => by simpa using hnone x hmem
        simp [Scope.nameConstant, hnot]
      exact alike_constant hglobal (hname ▸ h)

theorem Expr.alike_code (e : Expr) {scope : Scope} (h : Common first second (e.constants scope)) :
    AlikeCode first second (e.code first scope) (e.code second scope) := by
  induction e with
  | nil => exact .plain .pushNil
  | bool b => cases b <;> exact .plain _
  | number literal => exact .cons (alike_constant (by simp) h) .nil
  | string s => exact .cons (alike_constant (by simp) h) .nil
  | name x => exact .cons (alike_access h (by simp) (by simp)) .nil
  | assign x value ih =>
      obtain ⟨hname, hvalue⟩ := common_append.mp h
      exact (ih hvalue).append (.cons (alike_access hname (by simp) (by simp)) .nil)
  | unary op operand ih => exact (ih h).append (.plain op.opcode)
  | binary op left right ihl ihr =>
      obtain ⟨hleft, hright⟩ := common_append.mp h
      have hops : AlikeCode first second (op.opcodes.map .plain) (op.opcodes.map .plain) :=
        List.forall₂_map_left_iff.mpr (List.forall₂_map_right_iff.mpr
          (List.forall₂_same.mpr fun op _ => .plain op))
      exact (ihl hleft).append ((ihr hright).append hops)
  | and left right ihl ihr =>
      obtain ⟨hleft, hright⟩ := common_append.mp h
      have hskipped := AlikeCode.append (.plain .pop) (ihr hright)
      exact (ihl hleft).append (.cons (hskipped.jump .jumpIfFalse id) hskipped)
  | or left right ihl ihr =>
      obtain ⟨hleft, hright⟩ := common_append.mp h
      have hskipped := AlikeCode.append (.plain .pop) (ihr hright)
      exact (ihl hleft).append (.cons (.jump .jumpIfFalse 3)
        (.cons (hskipped.jump .jump id) hskipped))
  | group inner ih => exact ih h

theorem alike_optional {e : Option Expr} {scope : Scope}
    (h : Common first second (optionalConstants scope e)) :
    AlikeCode first second ((e.getD .nil).code first scope) ((e.getD .nil).code second scope) := by
  cases e with
  | none => exact .plain .pushNil
  | some e => exact e.alike_code h

theorem alike_leave (outer inner : Scope) :
    AlikeCode first second (leave outer inner) (leave outer inner) :=
  List.forall₂_same.mpr fun _ hitem => (List.eq_of_mem_replicate hitem).symm ▸ .plain .pop

section Loops

variable {rest rest' body body' : List Item}

/-- A part that may be absent. -/
abbrev AlikeOption (first second : List Value) : Option (List Item) → Option (List Item) → Prop :=
  Option.Rel (AlikeCode first second)

theorem alike_map {e : Option Expr} {scope : Scope}
    (h : Common first second (optionalConstants scope e)) :
    AlikeOption first second (e.map (Expr.code first scope)) (e.map (Expr.code second scope)) := by
  cases e with
  | none => exact .none
  | some e => exact .some (e.alike_code h)

variable {part part' : Option (List Item)} (h : AlikeOption first second part part')
include h

theorem conditionSize_eq : conditionSize part = conditionSize part' := by
  cases h with
  | none => rfl
  | some hcode => exact congrArg (· + 4) hcode.codeSize_eq

theorem alike_loopCode (hrest : AlikeCode first second rest rest') :
    AlikeCode first second (loopCode part rest) (loopCode part' rest') := by
  cases h with
  | none => exact hrest
  | some hcode =>
      have hjump := hrest.jump .jumpIfFalse (1 + ·)
      exact (hcode.append (.cons hjump (.cons (.plain .pop) hrest))).append (.plain .pop)

theorem alike_stepCode (before : Nat) (hbody : AlikeCode first second body body') :
    AlikeCode first second (stepCode before part body) (stepCode before part' body') := by
  cases h with
  | none => exact hbody.append (.cons (hbody.jump .loop (before + · + 3)) .nil)
  | some hcode =>
      have hback := hcode.append (.cons (.plain .pop)
        (.cons (hcode.jump .loop (before + 3 + · + 4)) .nil))
      have hdistance := congrArg₂ (· + · + 3) hback.codeSize_eq hbody.codeSize_eq
      exact .cons (hback.jump .jump id)
        (hback.append (hbody.append (.cons (.of_eq .loop hdistance) .nil)))

end Loops

theorem Stmt.alike_code (s : Stmt) {top : Bool} {scope : Scope}
    (h : Common first second (s.constants top scope)) :
    AlikeCode first second (s.code first top scope) (s.code second top scope) := by
  induction s generalizing top scope with
  | skip => exact .nil
  | seq s rest ihs ihr =>
      obtain ⟨hs, hrest⟩ := common_append.mp h
      exact (ihs hs).append (ihr hrest)
  | var x value =>
      obtain ⟨hname, hvalue⟩ := common_append.mp h
      refine (alike_optional hvalue).append ?_
      cases top with
      | false => exact .nil
      | true => exact .cons (alike_constant (by simp) hname) .nil
  | print e => exact (e.alike_code h).append (.plain .print)
  | expression e => exact (e.alike_code h).append (.plain .pop)
  | block body ih => exact (ih h).append (alike_leave _ _)
  | branch condition yes no ihy ihn =>
      obtain ⟨hrest, hno⟩ := common_append.mp h
      obtain ⟨hcondition, hyes⟩ := common_append.mp hrest
      have hfalse := AlikeCode.append (.plain .pop) (ihn hno)
      have htrue := (AlikeCode.append (.plain .pop) (ihy hyes)).append
        (.cons (hfalse.jump .jump id) .nil)
      exact (condition.alike_code hcondition).append
        (.cons (htrue.jump .jumpIfFalse id) (htrue.append hfalse))
  | whileLoop condition body ih =>
      obtain ⟨hcondition, hbody⟩ := common_append.mp h
      have htest : AlikeOption first second (some (condition.code first scope))
          (some (condition.code second scope)) := .some (condition.alike_code hcondition)
      simp only [Stmt.code]
      rw [conditionSize_eq htest]
      exact alike_loopCode htest (alike_stepCode .none _ (ih hbody))
  | forLoop start condition increment body ihs ihb =>
      obtain ⟨hrest, hbody⟩ := common_append.mp h
      obtain ⟨hrest, hincrement⟩ := common_append.mp hrest
      obtain ⟨hstart, hcondition⟩ := common_append.mp hrest
      have htest := alike_map hcondition
      simp only [Stmt.code]
      rw [conditionSize_eq htest]
      exact ((ihs hstart).append (alike_loopCode htest (alike_stepCode (alike_map hincrement) _
        (ihb hbody)))).append (alike_leave _ _)

end StackScript.Tree
