import StackScript.Tree.Code
import StackScript.Tree.Grammar
import StackScript.Proofs.Code.Placement

/-!
Trees without loops. They are written without the words that start loops, and there is no jump
back in their code.
-/

namespace StackScript.Tree

def Stmt.LoopFree : Stmt → Prop
  | .seq first rest => first.LoopFree ∧ rest.LoopFree
  | .block body => body.LoopFree
  | .branch _ yes no => yes.LoopFree ∧ no.LoopFree
  | .whileLoop _ _ | .forLoop _ _ _ _ => False
  | _ => True

/-- No token starts a loop. -/
def NoLoopWord (ts : List Token) : Prop :=
  ∀ t ∈ ts, t.kind ≠ .whileWord ∧ t.kind ≠ .forWord

@[simp] theorem noLoopWord_cons {t : Token} {ts : List Token} :
    NoLoopWord (t :: ts) ↔ (t.kind ≠ .whileWord ∧ t.kind ≠ .forWord) ∧ NoLoopWord ts :=
  List.forall_mem_cons

@[simp] theorem noLoopWord_append {ts us : List Token} :
    NoLoopWord (ts ++ us) ↔ NoLoopWord ts ∧ NoLoopWord us :=
  List.forall_mem_append

theorem VarTokens.loopFree {s : Stmt} {ts : List Token} (h : VarTokens s ts) : s.LoopFree := by
  cases h <;> trivial

/-- A tree that is written without those words has no loop. -/
theorem loopFree_of_tokens (s : Stmt) :
    (∀ ts, StmtTokens s ts → NoLoopWord ts → s.LoopFree) ∧
      ∀ ts, DeclTokens s ts → NoLoopWord ts → s.LoopFree := by
  induction s with
  | skip | var _ _ | print _ | expression _ => exact ⟨fun _ _ _ => trivial, fun _ _ _ => trivial⟩
  | seq first rest ihf ihr =>
      refine ⟨fun ts h => (nomatch h), fun ts h hfree => ?_⟩
      cases h with
      | var hfirst hrest =>
          obtain ⟨-, hback⟩ := noLoopWord_append.mp hfree
          exact ⟨hfirst.loopFree, ihr.2 _ hrest hback⟩
      | statement hfirst hrest =>
          obtain ⟨hfront, hback⟩ := noLoopWord_append.mp hfree
          exact ⟨ihf.1 _ hfirst hfront, ihr.2 _ hrest hback⟩
  | block body ih =>
      refine ⟨fun ts h hfree => ?_, fun ts h => nomatch h⟩
      cases h with
      | block _ hbody _ =>
          simp only [List.cons_append, noLoopWord_cons, noLoopWord_append] at hfree
          exact ih.2 _ hbody hfree.2.1
  | branch condition yes no ihy ihn =>
      refine ⟨fun ts h hfree => ?_, fun ts h => nomatch h⟩
      cases h with
      | ifOnly _ _ _ _ hyes =>
          simp only [List.cons_append, noLoopWord_cons, noLoopWord_append] at hfree
          obtain ⟨-, -, -, -, hfreeYes⟩ := hfree
          exact ⟨ihy.1 _ hyes hfreeYes, trivial⟩
      | ifElse _ _ _ _ hyes _ _ hno =>
          simp only [List.cons_append, noLoopWord_cons, noLoopWord_append] at hfree
          obtain ⟨-, -, ⟨-, -, hfreeYes⟩, -, hfreeNo⟩ := hfree
          exact ⟨ihy.1 _ hyes hfreeYes, ihn.1 _ hno hfreeNo⟩
  | whileLoop condition body ih =>
      refine ⟨fun ts h hfree => ?_, fun ts h => nomatch h⟩
      cases h with
      | whileLoop hw _ _ _ _ => exact absurd hw (noLoopWord_cons.mp hfree).1.1
  | forLoop first condition increment body _ ih =>
      refine ⟨fun ts h hfree => ?_, fun ts h => nomatch h⟩
      cases h with
      | forLoop hf _ _ _ _ _ _ _ =>
          simp only [List.cons_append, noLoopWord_cons] at hfree
          exact absurd hf hfree.1.2

theorem ProgramTokens.loopFree {tree : Stmt} {tokens : List Token} (h : ProgramTokens tree tokens)
    (hfree : NoLoopWord tokens) : tree.LoopFree := by
  obtain ⟨ts, last, hdecls, -, rfl⟩ := h
  exact (loopFree_of_tokens tree).2 ts hdecls (noLoopWord_append.mp hfree).1

/-- No instruction jumps back. -/
def Forward (items : List Item) : Prop :=
  ∀ item ∈ items, item.op ≠ .loop

section Forward

variable {item : Item} {items first second : List Item}

@[simp] theorem forward_nil : Forward [] := nofun

@[simp] theorem forward_cons : Forward (item :: items) ↔ item.op ≠ .loop ∧ Forward items :=
  List.forall_mem_cons

@[simp] theorem forward_append : Forward (first ++ second) ↔ Forward first ∧ Forward second :=
  List.forall_mem_append

theorem op_access_ne_loop (pool : List Value) (scope : Scope) {onLocal onGlobal : Opcode}
    (x : String) (hlocal : onLocal ≠ .loop) (hglobal : onGlobal ≠ .loop) :
    (access pool scope onLocal onGlobal x).op ≠ .loop := by
  unfold access
  split
  · exact hlocal
  · exact hglobal

theorem UnaryOp.opcode_ne_loop (op : UnaryOp) : op.opcode ≠ .loop := by
  cases op <;> decide

theorem BinaryOp.forward_opcodes (op : BinaryOp) : Forward (op.opcodes.map .plain) := by
  cases op <;> simp [BinaryOp.opcodes, Item.op]

theorem Expr.forward_code (pool : List Value) (scope : Scope) (e : Expr) :
    Forward (e.code pool scope) := by
  induction e with
  | nil | number _ | string _ => simp [Expr.code, Item.op]
  | bool b => cases b <;> simp [Expr.code, Item.op]
  | name x => simpa [Expr.code] using op_access_ne_loop pool scope x (by decide) (by decide)
  | assign x value ih =>
      have haccess : (access pool scope .setLocal .setGlobal x).op ≠ .loop :=
        op_access_ne_loop pool scope x (by decide) (by decide)
      simp [Expr.code, ih, haccess]
  | unary op operand ih => simp [Expr.code, ih, Item.op, op.opcode_ne_loop]
  | binary op left right ihl ihr => simp [Expr.code, ihl, ihr, op.forward_opcodes]
  | and left right ihl ihr => simp [Expr.code, ihl, ihr, Item.op]
  | or left right ihl ihr => simp [Expr.code, ihl, ihr, Item.op]
  | group inner ih => exact ih

theorem forward_leave (outer inner : Scope) : Forward (leave outer inner) := by
  intro item hitem
  rw [List.eq_of_mem_replicate hitem]
  decide

/-- The code of a tree without loops leads nowhere back. -/
theorem Stmt.forward_code (pool : List Value) {s : Stmt} (hfree : s.LoopFree) (top : Bool)
    (scope : Scope) : Forward (s.code pool top scope) := by
  induction s generalizing top scope with
  | skip => exact forward_nil
  | seq first rest ihf ihr =>
      have hfirst := ihf hfree.1 top scope
      have hrest := ihr hfree.2 top (first.scopeAfter top scope)
      exact forward_append.mpr ⟨hfirst, hrest⟩
  | var x value =>
      have hvalue := (value.getD .nil).forward_code pool scope
      cases top <;> simp [Stmt.code, hvalue, Item.op]
  | print e | expression e => simp [Stmt.code, e.forward_code pool scope, Item.op]
  | block body ih =>
      have hbody := ih hfree false scope
      exact forward_append.mpr ⟨hbody, forward_leave _ _⟩
  | branch condition yes no ihy ihn =>
      have hyes := ihy hfree.1 top scope
      have hno := ihn hfree.2 top scope
      simp [Stmt.code, condition.forward_code pool scope, hyes, hno, Item.op]
  | whileLoop | forLoop => exact hfree.elim

end Forward

end StackScript.Tree
