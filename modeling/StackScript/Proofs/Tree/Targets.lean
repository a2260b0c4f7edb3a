import StackScript.Proofs.Code.Decode
import StackScript.Proofs.Tree.Regular

/-!
The names under which a program may change global variables: those that it declares outside every
block and those that it assigns to where they are no locals. Its code defines and sets no others.
-/

namespace StackScript.Tree

/-- The targets of assignments that are no locals in scope. -/
def Expr.targets (scope : Scope) : Expr → List String
  | .nil | .bool _ | .number _ | .string _ | .name _ => []
  | .assign x value => (if x ∈ scope then [] else [x]) ++ value.targets scope
  | .unary _ operand => operand.targets scope
  | .binary _ left right | .and left right | .or left right =>
      left.targets scope ++ right.targets scope
  | .group inner => inner.targets scope

def optionalTargets (scope : Scope) (e : Option Expr) : List String :=
  (e.map (Expr.targets scope)).getD []

/-- The same for a statement, whose declarations add to the scope unless they are at the top. -/
def Stmt.targets (top : Bool) (scope : Scope) : Stmt → List String
  | .skip => []
  | .seq first rest => first.targets top scope ++ rest.targets top (first.scopeAfter top scope)
  | .var _ value => optionalTargets scope value
  | .print e | .expression e => e.targets scope
  | .block body => body.targets false scope
  | .branch condition yes no =>
      condition.targets scope ++ yes.targets top scope ++ no.targets top scope
  | .whileLoop condition body => condition.targets scope ++ body.targets top scope
  | .forLoop first condition increment body =>
      let inner := first.scopeAfter false scope
      first.targets false scope ++ optionalTargets inner condition ++
        optionalTargets inner increment ++ body.targets false inner

/-- What has been declared before stays declared. -/
theorem Stmt.declared_eq (s : Stmt) (here : List String) :
    s.declared here = s.declared [] ++ here := by
  induction s generalizing here with
  | seq first rest ihf ihr =>
      simp only [declared]
      rw [ihr, ihf, ihr (first.declared []), List.append_assoc]
  | _ => simp [declared]

/-- The instruction defines globals of the first names only, and sets globals of the second only. -/
structure Item.Names (pool : List Value) (declared targets : List String) (item : Item) : Prop where
  defines : ∀ x, item.instruction? pool = some (.defineGlobal x) → x ∈ declared
  sets : ∀ x, item.instruction? pool = some (.setGlobal x) → x ∈ targets

/-- So do all of these instructions. -/
def Names (pool : List Value) (declared targets : List String) (items : List Item) : Prop :=
  ∀ item ∈ items, item.Names pool declared targets

section Names

variable {pool : List Value} {declared targets : List String} {item : Item}
  {items first second : List Item}

@[simp] theorem names_nil : Names pool declared targets [] := nofun

@[simp] theorem names_cons : Names pool declared targets (item :: items) ↔
    item.Names pool declared targets ∧ Names pool declared targets items :=
  List.forall_mem_cons

@[simp] theorem names_append : Names pool declared targets (first ++ second) ↔
    Names pool declared targets first ∧ Names pool declared targets second :=
  List.forall_mem_append

@[simp] theorem Item.names_plain (op : Opcode) : (Item.plain op).Names pool declared targets := by
  constructor <;> intro x h <;> cases op <;> cases h

@[simp] theorem Item.names_jump (op : Opcode) (distance : Nat) :
    (Item.jump op distance).Names pool declared targets := by
  constructor <;> intro x h <;> cases op <;> cases h

@[simp] theorem Item.names_constant (byte : UInt8) :
    (Item.operand .constant byte).Names pool declared targets := by
  constructor <;> intro x h <;> obtain ⟨v, -, hv⟩ := Option.map_eq_some_iff.mp h <;> cases hv

@[simp] theorem names_read (scope : Scope) (x : String) :
    (access pool scope .getLocal .getGlobal x).Names pool declared targets := by
  unfold access
  split
  · constructor <;> intro y h <;> cases h
  · constructor <;> intro y h <;> obtain ⟨v, -, hv⟩ := Option.map_eq_some_iff.mp h <;> cases hv

/-- The operand of an instruction that names a global leads to the name. -/
theorem text_of_operand {x : String} (hmem : Value.string x ∈ pool)
    (hroom : pool.length ≤ Chunk.constantsMax) (make : String → Instruction) {i : Instruction}
    (h : (pool[(indexIn pool (.string x)).toNat]?.map fun v => make v.text) = some i) :
    i = make x := by
  rw [getElem?_indexIn hmem hroom] at h
  exact (Option.some.inj h).symm

theorem names_define {x : String} (hmem : Value.string x ∈ pool)
    (hroom : pool.length ≤ Chunk.constantsMax) (hx : x ∈ declared) :
    (Item.operand .defineGlobal (indexIn pool (.string x))).Names pool declared targets := by
  constructor
  · intro y h
    have hname := text_of_operand hmem hroom .defineGlobal h
    obtain rfl := Instruction.defineGlobal.inj hname
    exact hx
  · intro y h
    cases text_of_operand hmem hroom .defineGlobal h

@[simp] theorem names_opcodes (op : BinaryOp) :
    Names pool declared targets (op.opcodes.map .plain) := by
  cases op <;> simp [BinaryOp.opcodes]

@[simp] theorem names_leave (outer inner : Scope) :
    Names pool declared targets (leave outer inner) := by
  intro item hitem
  rw [List.eq_of_mem_replicate hitem]
  exact Item.names_plain .pop

theorem names_write {scope : Scope} {x : String} (hmem : ∀ v ∈ scope.nameConstant x, v ∈ pool)
    (hroom : pool.length ≤ Chunk.constantsMax) (hx : x ∉ scope → x ∈ targets) :
    (access pool scope .setLocal .setGlobal x).Names pool declared targets := by
  unfold access
  cases hslot : scope.slot? x with
  | some slot => constructor <;> intro y h <;> cases h
  | none =>
      have hfree := Scope.not_mem_of_slot? hslot
      have hname : Value.string x ∈ pool := by
        apply hmem
        simp [Scope.nameConstant, hfree]
      constructor
      · intro y h
        cases text_of_operand hname hroom .setGlobal h
      · intro y h
        obtain rfl := Instruction.setGlobal.inj (text_of_operand hname hroom .setGlobal h)
        exact hx hfree

variable (hroom : pool.length ≤ Chunk.constantsMax)
include hroom

theorem Expr.names_code {scope : Scope} (e : Expr) (hmem : ∀ v ∈ e.constants scope, v ∈ pool)
    (htargets : ∀ x ∈ e.targets scope, x ∈ targets) :
    Names pool declared targets (e.code pool scope) := by
  induction e with
  | nil | number _ | string _ => simp [Expr.code]
  | bool b => cases b <;> simp [Expr.code]
  | name x => simp [Expr.code]
  | assign x value ih =>
      obtain ⟨hname, hvalue⟩ := List.forall_mem_append.mp hmem
      obtain ⟨hx, hinner⟩ := List.forall_mem_append.mp htargets
      have hwrite : (access pool scope .setLocal .setGlobal x).Names pool declared targets :=
        names_write hname hroom fun hfree => hx x (by simp [hfree])
      simp [Expr.code, ih hvalue hinner, hwrite]
  | unary op operand ih => simp [Expr.code, ih hmem htargets]
  | binary op left right ihl ihr | and left right ihl ihr | or left right ihl ihr =>
      obtain ⟨hleft, hright⟩ := List.forall_mem_append.mp hmem
      obtain ⟨htargetsLeft, htargetsRight⟩ := List.forall_mem_append.mp htargets
      have hnamesLeft := ihl hleft htargetsLeft
      have hnamesRight := ihr hright htargetsRight
      simp [Expr.code, hnamesLeft, hnamesRight]
  | group inner ih => exact ih hmem htargets

theorem Expr.names_optional {scope : Scope} {e : Option Expr}
    (hmem : ∀ v ∈ optionalConstants scope e, v ∈ pool)
    (htargets : ∀ x ∈ optionalTargets scope e, x ∈ targets) :
    ∀ code ∈ e.map (Expr.code pool scope), Names pool declared targets code := by
  intro code hcode
  obtain ⟨e, rfl, rfl⟩ := Option.map_eq_some_iff.mp hcode
  exact e.names_code hroom hmem htargets

omit hroom in
theorem names_loop {condition increment : Option (List Item)} {body : List Item} (before : Nat)
    (hcondition : ∀ code ∈ condition, Names pool declared targets code)
    (hincrement : ∀ code ∈ increment, Names pool declared targets code)
    (hbody : Names pool declared targets body) :
    Names pool declared targets (loopCode condition (stepCode before increment body)) := by
  have hstep : Names pool declared targets (stepCode before increment body) := by
    cases increment with
    | none => simp [stepCode, hbody]
    | some code => simp [stepCode, hbody, hincrement code rfl]
  cases condition with
  | none => exact hstep
  | some code => simp [loopCode, hstep, hcondition code rfl]

/-- The code of a statement names the globals that the statement declares and assigns to. Only the
top level declares globals, and there nothing does under a condition. -/
theorem Stmt.names_code {top : Bool} {scope : Scope} {s : Stmt} (hregular : s.Regular)
    (hmem : ∀ v ∈ s.constants top scope, v ∈ pool)
    (hdeclared : top = true → ∀ x ∈ s.declared [], x ∈ declared)
    (htargets : ∀ x ∈ s.targets top scope, x ∈ targets) :
    Names pool declared targets (s.code pool top scope) := by
  induction s generalizing top scope with
  | skip => exact names_nil
  | seq first rest ihf ihr =>
      obtain ⟨hfirst, hrest⟩ := List.forall_mem_append.mp hmem
      obtain ⟨htargetsFirst, htargetsRest⟩ := List.forall_mem_append.mp htargets
      have hboth (htop : top = true) (x : String)
          (hx : x ∈ rest.declared [] ∨ x ∈ first.declared []) :
          x ∈ declared := by
        apply hdeclared htop
        rw [Stmt.declared, Stmt.declared_eq]
        exact List.mem_append.mpr hx
      have hnamesFirst := ihf hregular.1 hfirst (fun htop x hx => hboth htop x (Or.inr hx))
        htargetsFirst
      have hnamesRest := ihr hregular.2 hrest (fun htop x hx => hboth htop x (Or.inl hx))
        htargetsRest
      exact names_append.mpr ⟨hnamesFirst, hnamesRest⟩
  | var x value =>
      obtain ⟨hname, hvalue⟩ := List.forall_mem_append.mp hmem
      have hnames : Names pool declared targets ((value.getD .nil).code pool scope) := by
        cases value with
        | none => simp [Expr.code]
        | some e => exact e.names_code hroom hvalue htargets
      cases top with
      | false => simp [Stmt.code, hnames]
      | true =>
          have hx : x ∈ declared := hdeclared rfl x (by simp [Stmt.declared])
          have hdefine :
              (Item.operand .defineGlobal (indexIn pool (.string x))).Names pool declared targets :=
            names_define (hname _ (by simp)) hroom hx
          simp [Stmt.code, hnames, hdefine]
  | print e | expression e => simp [Stmt.code, e.names_code hroom hmem htargets]
  | block body ih =>
      have hbody := ih hregular hmem (fun h => absurd h Bool.false_ne_true) htargets
      simp [Stmt.code, hbody]
  | branch condition yes no ihy ihn =>
      obtain ⟨⟨hyesKeeps, hnoKeeps⟩, hyesRegular, hnoRegular⟩ := hregular
      obtain ⟨hfront, hno⟩ := List.forall_mem_append.mp hmem
      obtain ⟨hcondition, hyes⟩ := List.forall_mem_append.mp hfront
      obtain ⟨htargetsFront, htargetsNo⟩ := List.forall_mem_append.mp htargets
      obtain ⟨htargetsCondition, htargetsYes⟩ := List.forall_mem_append.mp htargetsFront
      have hnamesYes := ihy hyesRegular hyes (by simp [hyesKeeps]) htargetsYes
      have hnamesNo := ihn hnoRegular hno (by simp [hnoKeeps]) htargetsNo
      simp [Stmt.code, condition.names_code hroom hcondition htargetsCondition, hnamesYes, hnamesNo]
  | whileLoop condition body ih =>
      obtain ⟨hcondition, hbody⟩ := List.forall_mem_append.mp hmem
      obtain ⟨htargetsCondition, htargetsBody⟩ := List.forall_mem_append.mp htargets
      have hnamesBody := ih hregular.2 hbody (by simp [hregular.1]) htargetsBody
      have hnamesCondition :
          ∀ code ∈ some (condition.code pool scope), Names pool declared targets code := by
        simpa using condition.names_code hroom hcondition htargetsCondition
      exact names_loop (conditionSize (some (condition.code pool scope))) hnamesCondition
        (by simp) hnamesBody
  | forLoop first condition increment body ihf ih =>
      obtain ⟨hclauses, hbody⟩ := List.forall_mem_append.mp hmem
      obtain ⟨hboth, hincrement⟩ := List.forall_mem_append.mp hclauses
      obtain ⟨hfirst, hcondition⟩ := List.forall_mem_append.mp hboth
      obtain ⟨htargetsClauses, htargetsBody⟩ := List.forall_mem_append.mp htargets
      obtain ⟨htargetsBoth, htargetsIncrement⟩ := List.forall_mem_append.mp htargetsClauses
      obtain ⟨htargetsFirst, htargetsCondition⟩ := List.forall_mem_append.mp htargetsBoth
      obtain ⟨-, hfirstRegular, hbodyRegular⟩ := hregular
      have hnamesFirst := ihf hfirstRegular hfirst (fun h => absurd h Bool.false_ne_true)
        htargetsFirst
      have hnamesBody := ih hbodyRegular hbody (fun h => absurd h Bool.false_ne_true) htargetsBody
      have hloop := names_loop (conditionSize
        (condition.map (Expr.code pool (first.scopeAfter false scope))))
        (Expr.names_optional hroom hcondition htargetsCondition)
        (Expr.names_optional hroom hincrement htargetsIncrement) hnamesBody
      simp [Stmt.code, hnamesFirst, hloop]

end Names

end StackScript.Tree
