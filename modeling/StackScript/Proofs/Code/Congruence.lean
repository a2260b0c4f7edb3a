import StackScript.Proofs.Code.Accord
import StackScript.Tree.Desugared

/-!
An expression or a statement does the same in two chunks, if all its constants are in both pools;
and so does a program when one of its statements is put instead of another one that does the same.
-/

namespace StackScript

open Tree

/-- The scope behind a program depends on a statement in it only by the scope behind that one. -/
theorem Tree.Context.scopeAfter_fill {s s' : Stmt}
    (h : ∀ top scope, s.scopeAfter top scope = s'.scopeAfter top scope) (around : Context)
    (top : Bool) (scope : Scope) :
    (around.fill s).scopeAfter top scope = (around.fill s').scopeAfter top scope := by
  induction around generalizing scope with
  | here => exact h top scope
  | seqFirst inside rest ih => exact congrArg (rest.scopeAfter top) (ih scope)
  | seqRest first inside ih => exact ih (first.scopeAfter top scope)
  | _ => rfl

namespace Chunk

variable {c d : Chunk}

section Branches

variable {condition condition' yes yes' no no' : List Item}

theorem accord_branch (hcondition : c.Accord d condition condition') (hyes : c.Accord d yes yes')
    (hno : c.Accord d no no') :
    let onFalse := .plain .pop :: no
    let onTrue := .plain .pop :: yes ++ [.jump .jump (codeSize onFalse)]
    let onFalse' := .plain .pop :: no'
    let onTrue' := .plain .pop :: yes' ++ [.jump .jump (codeSize onFalse')]
    c.Accord d (condition ++ (.jump .jumpIfFalse (codeSize onTrue) :: onTrue ++ onFalse))
      (condition' ++ (.jump .jumpIfFalse (codeSize onTrue') :: onTrue' ++ onFalse')) := by
  have hchoice := (accord_pop.append hyes).choice (accord_pop.append hno)
  have hbranch := hcondition.append hchoice
  simpa [Item.size, Nat.add_assoc] using hbranch

end Branches

section Operands

variable (hroom : c.constants.toList.length ≤ constantsMax)
  (hroom' : d.constants.toList.length ≤ constantsMax)
include hroom hroom'

theorem accord_operand {op : Opcode} {byte byte' : UInt8}
    (h : Item.Alike c.constants.toList d.constants.toList (.operand op byte) (.operand op byte')) :
    c.Accord d [.operand op byte] [.operand op byte'] := by
  have hsame := h.instruction? hroom hroom'
  have hstays : op ≠ .ret := by
    rintro rfl
    cases h <;> simp at *
  obtain ⟨i, hi⟩ : ∃ i, (Item.operand op byte).instruction? c.constants.toList = some i := by
    cases h with
    | slot _ hop =>
        obtain rfl | rfl : op = .getLocal ∨ op = .setLocal := by simpa using hop
        · exact ⟨_, rfl⟩
        · exact ⟨_, rfl⟩
    | constant hop hfirst _ =>
        have hget := getElem?_indexIn hfirst hroom
        simp only [List.mem_cons, List.not_mem_nil, or_false] at hop
        rcases hop with rfl | rfl | rfl | rfl <;> exact ⟨_, congrArg (Option.map _) hget⟩
  exact accord_straight hi (hsame.trans hi) (Item.targets_of_instruction hi hstays nofun)

theorem accord_access {scope : Scope} {x : String} {onLocal onGlobal : Opcode}
    (h : Common c.constants.toList d.constants.toList (scope.nameConstant x))
    (hlocal : onLocal ∈ [.getLocal, .setLocal])
    (hglobal : onGlobal ∈ [.constant, .getGlobal, .defineGlobal, .setGlobal]) :
    c.Accord d [access c.constants.toList scope onLocal onGlobal x]
      [access d.constants.toList scope onLocal onGlobal x] := by
  have halike := alike_access h hlocal hglobal
  unfold access at halike ⊢
  split at halike
  · exact accord_operand hroom hroom' halike
  · exact accord_operand hroom hroom' halike

theorem accord_expression (e : Expr) {scope : Scope}
    (h : Common c.constants.toList d.constants.toList (e.constants scope)) :
    c.Accord d (e.code c.constants.toList scope) (e.code d.constants.toList scope) := by
  induction e with
  | nil => exact accord_plain (fun _ => rfl) fun _ => rfl
  | bool b =>
      cases b with
      | true => exact accord_plain (fun _ => rfl) fun _ => rfl
      | false => exact accord_plain (fun _ => rfl) fun _ => rfl
  | number literal => exact accord_operand hroom hroom' (alike_constant (by simp) h)
  | string s => exact accord_operand hroom hroom' (alike_constant (by simp) h)
  | name x => exact accord_access hroom hroom' h (by simp) (by simp)
  | assign x value ih =>
      obtain ⟨hname, hvalue⟩ := common_append.mp h
      exact (ih hvalue).append (accord_access hroom hroom' hname (by simp) (by simp))
  | unary op operand ih =>
      apply (ih h).append
      cases op with
      | negate => exact accord_plain (fun _ => rfl) fun _ => rfl
      | not => exact accord_plain (fun _ => rfl) fun _ => rfl
  | binary op left right ihl ihr =>
      obtain ⟨hleft, hright⟩ := common_append.mp h
      have hoperators : c.Accord d (op.opcodes.map .plain) (op.opcodes.map .plain) := by
        cases op <;> first
          | exact accord_plain (fun _ => rfl) fun _ => rfl
          | exact (accord_plain (fun _ => rfl) fun _ => rfl).append
              (accord_plain (fun _ => rfl) fun _ => rfl)
      exact (ihl hleft).append ((ihr hright).append hoperators)
  | and left right ihl ihr =>
      obtain ⟨hleft, hright⟩ := common_append.mp h
      exact (ihl hleft).append (accord_pop.append (ihr hright)).skip
  | or left right ihl ihr =>
      obtain ⟨hleft, hright⟩ := common_append.mp h
      exact (ihl hleft).append (accord_nil.choice (accord_pop.append (ihr hright)))
  | group inner ih => exact ih h

theorem accord_optional {e : Option Expr} {scope : Scope}
    (h : Common c.constants.toList d.constants.toList (optionalConstants scope e)) :
    Option.Rel (c.Accord d) (e.map (Expr.code c.constants.toList scope))
      (e.map (Expr.code d.constants.toList scope)) := by
  cases e with
  | none => exact .none
  | some e => exact .some (accord_expression hroom hroom' e h)

theorem accord_statement (s : Stmt) {top : Bool} {scope : Scope}
    (h : Common c.constants.toList d.constants.toList (s.constants top scope)) :
    c.Accord d (s.code c.constants.toList top scope) (s.code d.constants.toList top scope) := by
  induction s generalizing top scope with
  | skip => exact accord_nil
  | seq first rest ihf ihr =>
      obtain ⟨hfirst, hrest⟩ := common_append.mp h
      exact (ihf hfirst).append (ihr hrest)
  | var x value =>
      obtain ⟨hname, hvalue⟩ := common_append.mp h
      have hcode : c.Accord d ((value.getD .nil).code c.constants.toList scope)
          ((value.getD .nil).code d.constants.toList scope) := by
        apply accord_expression hroom hroom'
        cases value with
        | none => exact nofun
        | some e => exact hvalue
      apply hcode.append
      cases top with
      | false => exact accord_nil
      | true => exact accord_operand hroom hroom' (alike_constant (by simp) hname)
  | print e =>
      exact (accord_expression hroom hroom' e h).append
        (accord_plain (fun _ => rfl) fun _ => rfl)
  | expression e => exact (accord_expression hroom hroom' e h).append accord_pop
  | block body ih => exact (ih h).append (accord_pops _)
  | branch condition yes no ihy ihn =>
      obtain ⟨hrest, hno⟩ := common_append.mp h
      obtain ⟨hcondition, hyes⟩ := common_append.mp hrest
      exact accord_branch (accord_expression hroom hroom' _ hcondition) (ihy hyes) (ihn hno)
  | whileLoop condition body ih =>
      obtain ⟨hcondition, hbody⟩ := common_append.mp h
      exact accord_rounds (.some (accord_expression hroom hroom' _ hcondition)) .none (ih hbody)
  | forLoop first condition increment body ihf ihb =>
      obtain ⟨hrest, hbody⟩ := common_append.mp h
      obtain ⟨hrest, hincrement⟩ := common_append.mp hrest
      obtain ⟨hfirst, hcondition⟩ := common_append.mp hrest
      have hloop := accord_rounds (accord_optional hroom hroom' hcondition)
        (accord_optional hroom hroom' hincrement) (ihb hbody)
      exact ((ihf hfirst).append hloop).append (accord_pops _)

variable {s s' : Stmt}

/-- Where one statement may be put instead of another one, it may be put so in any program. -/
theorem accord_fill (hscope : ∀ top scope, s.scopeAfter top scope = s'.scopeAfter top scope)
    (hcode : ∀ top scope, (∀ v ∈ s.constants top scope, v ∈ c.constants.toList) →
      (∀ v ∈ s'.constants top scope, v ∈ d.constants.toList) →
      c.Accord d (s.code c.constants.toList top scope) (s'.code d.constants.toList top scope))
    (around : Context) {top : Bool} {scope : Scope}
    (h : ∀ v ∈ (around.fill s).constants top scope, v ∈ c.constants.toList)
    (h' : ∀ v ∈ (around.fill s').constants top scope, v ∈ d.constants.toList) :
    c.Accord d ((around.fill s).code c.constants.toList top scope)
      ((around.fill s').code d.constants.toList top scope) := by
  have hboth {constants : List Value} (h : ∀ v ∈ constants, v ∈ c.constants.toList)
      (h' : ∀ v ∈ constants, v ∈ d.constants.toList) :
      Common c.constants.toList d.constants.toList constants := fun v hv => ⟨h v hv, h' v hv⟩
  induction around generalizing top scope with
  | here => exact hcode top scope h h'
  | seqFirst inside rest ih =>
      obtain ⟨hinside, hrest⟩ := List.forall_mem_append.mp h
      obtain ⟨hinside', hrest'⟩ := List.forall_mem_append.mp h'
      have hafter := inside.scopeAfter_fill hscope top scope
      rw [← hafter] at hrest'
      have haccord := (ih hinside hinside').append
        (accord_statement hroom hroom' rest (hboth hrest hrest'))
      rwa [Context.fill, Context.fill, Stmt.code, Stmt.code, ← hafter]
  | seqRest first inside ih =>
      obtain ⟨hfirst, hinside⟩ := List.forall_mem_append.mp h
      obtain ⟨hfirst', hinside'⟩ := List.forall_mem_append.mp h'
      exact (accord_statement hroom hroom' first (hboth hfirst hfirst')).append
        (ih hinside hinside')
  | block inside ih =>
      have hafter := inside.scopeAfter_fill hscope false scope
      have haccord := (ih h h').append
        (accord_pops (((inside.fill s).scopeAfter false scope).length - scope.length))
      rwa [Context.fill, Context.fill, Stmt.code, Stmt.code, ← hafter]
  | branchYes condition inside no ih =>
      obtain ⟨hrest, hno⟩ := List.forall_mem_append.mp h
      obtain ⟨hrest', hno'⟩ := List.forall_mem_append.mp h'
      obtain ⟨hcondition, hinside⟩ := List.forall_mem_append.mp hrest
      obtain ⟨hcondition', hinside'⟩ := List.forall_mem_append.mp hrest'
      exact accord_branch (accord_expression hroom hroom' _ (hboth hcondition hcondition'))
        (ih hinside hinside') (accord_statement hroom hroom' no (hboth hno hno'))
  | branchNo condition yes inside ih =>
      obtain ⟨hrest, hinside⟩ := List.forall_mem_append.mp h
      obtain ⟨hrest', hinside'⟩ := List.forall_mem_append.mp h'
      obtain ⟨hcondition, hyes⟩ := List.forall_mem_append.mp hrest
      obtain ⟨hcondition', hyes'⟩ := List.forall_mem_append.mp hrest'
      exact accord_branch (accord_expression hroom hroom' _ (hboth hcondition hcondition'))
        (accord_statement hroom hroom' yes (hboth hyes hyes')) (ih hinside hinside')
  | whileBody condition inside ih =>
      obtain ⟨hcondition, hinside⟩ := List.forall_mem_append.mp h
      obtain ⟨hcondition', hinside'⟩ := List.forall_mem_append.mp h'
      have htest := accord_expression hroom hroom' condition (hboth hcondition hcondition')
      exact accord_rounds (.some htest) .none (ih hinside hinside')
  | forBody first condition increment inside ih =>
      obtain ⟨hrest, hinside⟩ := List.forall_mem_append.mp h
      obtain ⟨hrest', hinside'⟩ := List.forall_mem_append.mp h'
      obtain ⟨hrest, hincrement⟩ := List.forall_mem_append.mp hrest
      obtain ⟨hrest', hincrement'⟩ := List.forall_mem_append.mp hrest'
      obtain ⟨hfirst, hcondition⟩ := List.forall_mem_append.mp hrest
      obtain ⟨hfirst', hcondition'⟩ := List.forall_mem_append.mp hrest'
      have hloop := accord_rounds (accord_optional hroom hroom' (hboth hcondition hcondition'))
        (accord_optional hroom hroom' (hboth hincrement hincrement')) (ih hinside hinside')
      have hstart := accord_statement hroom hroom' first (hboth hfirst hfirst')
      exact (hstart.append hloop).append (accord_pops _)

end Operands

end Chunk

end StackScript
