import StackScript.Proofs.Simulation.Loop
import StackScript.Proofs.Tree.Regular

/-!
The code of a statement does what execution does, and leaves the stack with nothing but the
locals in scope behind it. One induction over the tree takes each construct in turn.
-/

namespace StackScript.Chunk

open Tree

variable {c : Chunk} {before : Array UInt8} {fuel offset : Nat} {top : Bool} {scope : Scope}

/-- The code of a statement stands at the offset, with all that it needs of the chunk. -/
structure Hosts (c : Chunk) (offset : Nat) (top : Bool) (scope : Scope) (s : Stmt) : Prop where
  runs : c.Runs offset (s.code c.constants.toList top scope)
  room : c.constants.toList.length ≤ Chunk.constantsMax
  few : s.mostLocals top scope.length ≤ Builder.localsMax
  constants : ∀ v ∈ s.constants top scope, v ∈ c.constants.toList
  regular : s.Regular

namespace Hosts

theorem hasOperands {s : Stmt} (h : c.Hosts offset top scope s) {e : Option Expr}
    (hconstants : ∀ v ∈ optionalConstants scope e, v ∈ s.constants top scope) :
    c.HasOperands scope e :=
  ⟨h.room, (s.le_mostLocals top scope.length).trans h.few, fun v hv =>
    h.constants v (hconstants v hv)⟩

/-- Room for a part of a statement. -/
theorem part {s t : Stmt} {inner : Scope} {isTop : Bool} {start : Nat}
    (h : c.Hosts offset top scope s) (hruns : c.Runs start (t.code c.constants.toList isTop inner))
    (hlocals : t.mostLocals isTop inner.length ≤ s.mostLocals top scope.length)
    (hconstants : ∀ v ∈ t.constants isTop inner, v ∈ s.constants top scope) (hregular : t.Regular) :
    c.Hosts start isTop inner t :=
  ⟨hruns, h.room, hlocals.trans h.few, fun v hv => h.constants v (hconstants v hv), hregular⟩

end Hosts

theorem length_scopeAfter_eq (s : Stmt) (top : Bool) (scope : Scope) :
    (s.scopeAfter top scope).length =
      scope.length + if top then 0 else (s.declared []).length := by
  cases top with
  | true => simp [Stmt.scopeAfter_top]
  | false => simpa using s.length_scopeAfter scope

theorem simulates_var {x : String} {value : Option Expr}
    (h : c.Hosts offset top scope (.var x value)) :
    c.Simulates before fuel ⟨offset, scope, []⟩ ((Stmt.var x value).exec fuel top)
      fun _ => ⟨offset + codeSize ((Stmt.var x value).code c.constants.toList top scope),
        (Stmt.var x value).scopeAfter top scope, []⟩ := by
  have hvalue : c.HasOperands scope (some (value.getD .nil)) := by
    refine h.hasOperands fun v hv => ?_
    cases value with
    | none => cases hv
    | some e => exact List.mem_append_right _ hv
  refine (hvalue.simulates h.runs.left).bind fun v => ?_
  cases top with
  | true =>
      rw [Stmt.code, codeSize_append, ← Nat.add_assoc]
      exact simulates_define h.runs.right (h.constants _ (List.mem_cons_self ..)) h.room
  | false =>
      rw [Stmt.code, codeSize_append, ← Nat.add_assoc]
      exact simulates_declare

theorem simulates_branch {condition : Expr} {yes no : Stmt}
    (h : c.Hosts offset top scope (.branch condition yes no))
    (hyes : ∀ offset, c.Hosts offset top scope yes →
      c.Simulates before fuel ⟨offset, scope, []⟩ (yes.exec fuel top)
        fun _ => ⟨offset + codeSize (yes.code c.constants.toList top scope), scope, []⟩)
    (hno : ∀ offset, c.Hosts offset top scope no →
      c.Simulates before fuel ⟨offset, scope, []⟩ (no.exec fuel top)
        fun _ => ⟨offset + codeSize (no.code c.constants.toList top scope), scope, []⟩) :
    c.Simulates before fuel ⟨offset, scope, []⟩ ((Stmt.branch condition yes no).exec fuel top)
      fun _ => ⟨offset + codeSize
        ((Stmt.branch condition yes no).code c.constants.toList top scope),
        scope, []⟩ := by
  let onFalse := Item.plain .pop :: no.code c.constants.toList top scope
  let onTrue := Item.plain .pop :: yes.code c.constants.toList top scope ++
    [.jump .jump (codeSize onFalse)]
  let start := offset + codeSize (condition.code c.constants.toList scope)
  have hcode : c.Runs offset (condition.code c.constants.toList scope ++
      .jump .jumpIfFalse (codeSize onTrue) :: (onTrue ++ onFalse)) := h.runs
  have hfalse : c.Runs (start + 3 + codeSize onTrue) onFalse := hcode.right.tail.right
  have htrue : c.Runs (start + 4) (yes.code c.constants.toList top scope ++
    [.jump .jump (codeSize onFalse)]) := hcode.right.tail.left.tail
  have hoperand : c.HasOperands scope (some condition) :=
    h.hasOperands fun v hv => List.mem_append_left _ (List.mem_append_left _ hv)
  have hends :
      offset + codeSize ((Stmt.branch condition yes no).code c.constants.toList top scope) =
        start + 3 + codeSize onTrue + codeSize onFalse := by
    show offset + codeSize (condition.code c.constants.toList scope ++
      .jump .jumpIfFalse (codeSize onTrue) :: (onTrue ++ onFalse)) = _
    simp only [codeSize_append, codeSize_cons, Item.size, start]
    omega
  have hsize : codeSize onTrue = codeSize (yes.code c.constants.toList top scope) + 4 := by
    simp only [onTrue, List.cons_append, codeSize_cons, codeSize_append, codeSize_nil, Item.size]
    omega
  have htest := @simulates_test c before fuel _ scope _ condition _ hoperand hcode _ hfalse
  refine htest.bind fun result => ?_
  cases result with
  | true =>
      have hbranch := hyes (start + 4) (h.part htrue.left (Nat.le_max_left ..)
        (fun v hv => List.mem_append_left _ (List.mem_append_right _ hv)) h.regular.2.1)
      refine hbranch.snoc (n := 1) fun _ => ?_
      have hover := @passes_jump c before _ scope [] _ _ htrue.right
      have hsame :
          start + 4 + codeSize (yes.code c.constants.toList top scope) + 3 + codeSize onFalse =
            start + 3 + codeSize onTrue + codeSize onFalse := by omega
      rw [hends, ← hsame]
      exact hover
  | false =>
      have hthere : start + (4 + codeSize onTrue) = start + 3 + codeSize onTrue + 1 := by omega
      have hbranch := hno (start + 3 + codeSize onTrue + 1)
        (h.part hfalse.tail (Nat.le_max_right ..)
        (fun v hv => List.mem_append_right _ hv) h.regular.2.2)
      have hsame :
          start + 3 + codeSize onTrue + 1 + codeSize (no.code c.constants.toList top scope) =
            start + 3 + codeSize onTrue + codeSize onFalse := by
        rw [codeSize_cons, ← Nat.add_assoc]
        rfl
      show c.Simulates before fuel ⟨start + (4 + codeSize onTrue), scope, []⟩ _ _
      rw [hends, ← hsame, hthere]
      exact hbranch

/-- From the locals of its scope alone, the code of a statement leads to those behind it. -/
theorem simulates_statement (s : Stmt) (h : c.Hosts offset top scope s) :
    c.Simulates before fuel ⟨offset, scope, []⟩ (s.exec fuel top)
      fun _ => ⟨offset + codeSize (s.code c.constants.toList top scope), s.scopeAfter top scope,
        []⟩ := by
  induction s generalizing offset top scope with
  | skip => exact Simulates.pure Passes.refl
  | seq first rest ihf ihr =>
      rw [Stmt.code, codeSize_append, ← Nat.add_assoc]
      have hfirst : c.Hosts _ top scope first := h.part h.runs.left (Nat.le_max_left ..)
        (fun v hv => List.mem_append_left _ hv) h.regular.1
      have hrest : c.Hosts _ top (first.scopeAfter top scope) rest := h.part h.runs.right
        (by
          rw [length_scopeAfter_eq]
          exact Nat.le_max_right ..)
        (fun v hv => List.mem_append_right _ hv) h.regular.2
      exact (ihf hfirst).bind fun _ => ihr hrest
  | var x value => exact simulates_var h
  | print e =>
      rw [Stmt.code, codeSize_append, ← Nat.add_assoc]
      have hoperand : c.HasOperands scope (some e) := h.hasOperands fun v hv => hv
      exact (hoperand.simulates h.runs.left).bind fun v => simulates_print h.runs.right
  | expression e =>
      rw [Stmt.code, codeSize_append, ← Nat.add_assoc]
      exact simulates_discard (h.hasOperands fun v hv => hv) h.runs
  | block body ih =>
      rw [Stmt.code, codeSize_append, ← Nat.add_assoc]
      have hbody : c.Hosts _ false scope body :=
        h.part h.runs.left (Nat.le_refl _) (fun v hv => hv) h.regular
      exact simulates_inScope (ih hbody) h.runs.right ⟨_, body.scopeAfter_local [] scope⟩
  | branch condition yes no ihy ihn =>
      obtain ⟨⟨hyes, hno⟩, -, -⟩ := h.regular
      refine simulates_branch h (fun offset hosts => ?_) fun offset hosts => ?_
      · have hbranch := ihy hosts
        rwa [Stmt.scopeAfter_of_declared hyes] at hbranch
      · have hbranch := ihn hosts
        rwa [Stmt.scopeAfter_of_declared hno] at hbranch
  | whileLoop condition body ih =>
      have hoperand : c.HasOperands scope (some condition) :=
        h.hasOperands fun v hv => List.mem_append_left _ hv
      have hloop := @simulates_loop c before fuel _ scope (body.exec fuel top) _
        (some condition) none hoperand
        (h.hasOperands fun _ hv => absurd hv List.not_mem_nil) h.runs fun offset hruns => by
          have hbody := ih (h.part hruns (Nat.le_refl _) (fun v hv => List.mem_append_right _ hv)
            h.regular.2)
          rwa [Stmt.scopeAfter_of_declared h.regular.1] at hbody
      have hround : (do body.exec fuel top; discard none : Eval Unit) = body.exec fuel top :=
        bind_pure_unit
      rwa [hround] at hloop
  | forLoop first condition increment body ihf ihb =>
      obtain ⟨hdeclared, hfirstRegular, hbodyRegular⟩ := h.regular
      let inner := first.scopeAfter false scope
      have hinner : inner = first.declared [] ++ scope := first.scopeAfter_local [] scope
      have hlength : inner.length = scope.length + (first.declared []).length :=
        first.length_scopeAfter scope
      have hfew : body.mostLocals false inner.length ≤
          (Stmt.forLoop first condition increment body).mostLocals top scope.length := by
        rw [hlength]
        exact Nat.le_max_right ..
      have hroom {e : Option Expr} (he : ∀ v ∈ optionalConstants inner e,
          v ∈ (Stmt.forLoop first condition increment body).constants top scope) :
          c.HasOperands inner e :=
        ⟨h.room, ((body.le_mostLocals false inner.length).trans hfew).trans h.few,
          fun v hv => h.constants v (he v hv)⟩
      have hcondition : c.HasOperands inner condition := hroom fun v hv =>
        List.mem_append_left _ (List.mem_append_left _ (List.mem_append_right _ hv))
      have hincrement : c.HasOperands inner increment := hroom fun v hv =>
        List.mem_append_left _ (List.mem_append_right _ hv)
      have hfirst : c.Hosts _ false scope first := h.part h.runs.left.left (Nat.le_max_left ..)
        (fun v hv => List.mem_append_left _ (List.mem_append_left _ (List.mem_append_left _ hv)))
        hfirstRegular
      rw [Stmt.code, codeSize_append, codeSize_append, ← Nat.add_assoc, ← Nat.add_assoc]
      refine simulates_inScope ((ihf hfirst).bind fun _ => ?_) ?_ ⟨_, hinner⟩
      · refine simulates_loop hcondition hincrement h.runs.left.right fun offset hruns => ?_
        have hbody := ihb (h.part hruns hfew (fun v hv => List.mem_append_right _ hv) hbodyRegular)
        rwa [Stmt.scopeAfter_of_declared hdeclared] at hbody
      · have hleave := h.runs.right
        rw [codeSize_append, ← Nat.add_assoc] at hleave
        exact hleave

end StackScript.Chunk
