import StackScript.Proofs.Code.Congruence
import StackScript.Proofs.Preservation
import StackScript.Proofs.Sequencing

/-!
A `for` is a `while` in a block. The two are compiled to code of different layout, in which the
increment stands before the body or behind it, and to chunks with different pools. Put at the same
place of a program they still do the same to every machine, step by step but for the jumps.
-/

namespace StackScript

open Tree

namespace Tree

section Opening

variable (first : Stmt) (more : List Stmt) (top : Bool) (scope : Scope)

theorem scopeAfter_opening : (chain (opening first ++ more)).scopeAfter top scope =
    (chain more).scopeAfter top (first.scopeAfter top scope) := by
  by_cases h : first = .skip
  · subst h
    rfl
  · rw [opening, if_neg h]
    rfl

theorem code_opening (pool : List Value) : (chain (opening first ++ more)).code pool top scope =
    first.code pool top scope ++ (chain more).code pool top (first.scopeAfter top scope) := by
  by_cases h : first = .skip
  · subst h
    rfl
  · rw [opening, if_neg h]
    rfl

theorem constants_opening : (chain (opening first ++ more)).constants top scope =
    first.constants top scope ++ (chain more).constants top (first.scopeAfter top scope) := by
  by_cases h : first = .skip
  · subst h
    rfl
  · rw [opening, if_neg h]
    rfl

end Opening

variable {first body : Stmt} {condition : Expr} {increment : Option Expr} {scope : Scope}
  (hbody : body.declared [] = [])
include hbody

/-- The body of the `while` needs no scope of its own. -/
theorem code_round (pool : List Value) (scope : Scope) :
    (Stmt.block (chain (body :: increment.toList.map .expression))).code pool false scope =
      body.code pool false scope ++ discarded (increment.map (Expr.code pool scope)) := by
  have hscope := Stmt.scopeAfter_of_declared hbody false scope
  cases increment with
  | none => simp [chain, Stmt.code, Stmt.scopeAfter, hscope, leave, discarded]
  | some e => simp [chain, Stmt.code, Stmt.scopeAfter, hscope, leave, discarded]

theorem constants_round (scope : Scope) :
    (Stmt.block (chain (body :: increment.toList.map .expression))).constants false scope =
      body.constants false scope ++ optionalConstants scope increment := by
  have hscope := Stmt.scopeAfter_of_declared hbody false scope
  cases increment with
  | none => simp [chain, Stmt.constants, optionalConstants]
  | some e => simp [chain, Stmt.constants, hscope, optionalConstants]

theorem code_desugared (pool : List Value) (top : Bool) (scope : Scope) :
    let inner := first.scopeAfter false scope
    let test := some (condition.code pool inner)
    (desugared first condition increment body).code pool top scope =
      first.code pool false scope ++
        loopCode test (stepCode (conditionSize test) none
          (body.code pool false inner ++ discarded (increment.map (Expr.code pool inner)))) ++
        leave scope inner := by
  intro inner test
  rw [desugared, Stmt.code, code_opening, scopeAfter_opening]
  show first.code pool false scope ++ (loopCode test (stepCode (conditionSize test) none
    ((Stmt.block (chain (body :: increment.toList.map .expression))).code pool false inner)) ++
    []) ++
      leave scope inner = _
  rw [code_round hbody, List.append_nil]

theorem constants_desugared (top : Bool) (scope : Scope) :
    let inner := first.scopeAfter false scope
    (desugared first condition increment body).constants top scope =
      first.constants false scope ++ (condition.constants inner ++
        (body.constants false inner ++ optionalConstants inner increment)) := by
  intro inner
  rw [desugared, Stmt.constants, constants_opening]
  show first.constants false scope ++ (condition.constants inner ++
    (Stmt.block (chain (body :: increment.toList.map .expression))).constants false inner ++ []) = _
  rw [constants_round hbody, List.append_nil]

end Tree

namespace Chunk

variable {c d : Chunk} {first body : Stmt} {condition : Expr} {increment : Option Expr} {top : Bool}
  {scope : Scope}

/-- The two loops do the same. -/
theorem accord_desugared (hroom : c.constants.toList.length ≤ constantsMax)
    (hroom' : d.constants.toList.length ≤ constantsMax) (hbody : body.declared [] = [])
    (h : ∀ v ∈ (Stmt.forLoop first (some condition) increment body).constants top scope,
      v ∈ c.constants.toList)
    (h' : ∀ v ∈ (desugared first condition increment body).constants top scope,
      v ∈ d.constants.toList) :
    c.Accord d
      ((Stmt.forLoop first (some condition) increment body).code c.constants.toList top scope)
      ((desugared first condition increment body).code d.constants.toList top scope) := by
  rw [constants_desugared hbody] at h'
  have hcommon : Common c.constants.toList d.constants.toList
      ((Stmt.forLoop first (some condition) increment body).constants top scope) := by
    intro v hv
    refine ⟨h v hv, h' v ?_⟩
    simpa [Stmt.constants, optionalConstants, or_assoc, or_comm, or_left_comm] using hv
  obtain ⟨hrest, hagain⟩ := common_append.mp hcommon
  obtain ⟨hrest, hincrement⟩ := common_append.mp hrest
  obtain ⟨hfirst, hcondition⟩ := common_append.mp hrest
  have hstart := accord_statement hroom hroom' first hfirst
  have hloop := accord_unrolled (accord_optional hroom hroom' hcondition)
    (accord_optional hroom hroom' hincrement) (accord_statement hroom hroom' body hagain)
  rw [code_desugared hbody]
  exact (hstart.append hloop).append (accord_pops _)

end Chunk

theorem Tree.Context.regular_of_fill {s : Stmt} {around : Context} (h : (around.fill s).Regular) :
    s.Regular := by
  induction around with
  | here => exact h
  | seqFirst inside rest ih => exact ih h.1
  | block inside ih => exact ih h
  | branchYes condition inside no ih => exact ih h.2.1
  | branchNo condition yes inside ih => exact ih h.2.2
  | forBody first condition increment inside ih => exact ih h.2.2
  | seqRest first inside ih | whileBody condition inside ih => exact ih h.2

/-- The same failure, whatever the line of an error. -/
def Failure.placeless : Failure → Failure
  | .runtime e => .runtime { e with line := 0 }
  | failure => failure

theorem Outcome.failure?_placeless (outcome : Outcome) :
    outcome.placeless.failure? = outcome.failure?.map Failure.placeless := by
  cases outcome <;> rfl

/-- Runs that have come to the same, whatever the line of an error. -/
structure Run.Same (r r' : Run) : Prop where
  machine : r.machine = r'.machine
  outcome : r.outcome.map Outcome.placeless = r'.outcome.map Outcome.placeless

namespace Chunk

variable {c d : Chunk}

/-- Where all of the code meets, every run has its like. -/
theorem exists_same (h : ∀ n, c.Meet d n 0 0) (tracing : Bool) (m : Machine) (n : Nat) :
    ∃ k, ((Run.start d tracing m).advance k).Same ((Run.start c tracing m).advance n) := by
  obtain ⟨k, hcomes⟩ := exists_comes_of_go (c := c) tracing n 0 m #[]
  obtain ⟨j, outcome, hcomes, hsame⟩ := (h (k + 1)).1 k (Nat.lt_succ_self k) _ _ _ hcomes
  obtain ⟨i, houtcome, hmachine⟩ := hcomes.exists_go tracing #[]
  refine ⟨i, ?_, ?_⟩
  · exact hmachine
  · rw [Run.advance_start, houtcome, hsame]
    rfl

theorem exists_leads (h : ∀ n, c.Meet d n 0 0) {m m' : Machine} {outcome : Outcome}
    (hleads : c.Leads m outcome m') :
    ∃ outcome', d.Leads m outcome' m' ∧ outcome'.placeless = outcome.placeless := by
  obtain ⟨k, hcomes⟩ := leads_iff_comes.mp hleads
  obtain ⟨j, last, hcomes, hsame⟩ := (h (k + 1)).1 k (Nat.lt_succ_self k) _ _ _ hcomes
  obtain ⟨outcome', rfl, hkind⟩ := Option.map_eq_some_iff.mp hsame
  exact ⟨outcome', leads_iff_comes.mpr ⟨j, hcomes⟩, hkind⟩

end Chunk

namespace Machine

variable {source source' : String} {c d : Chunk}

/-- With enough fuel, a text does this to a machine and fails in this way, on whatever line. -/
def InterpretsAs (tracing : Bool) (source : String) (m m' : Machine) (failure : Option Failure) :
    Prop :=
  ∃ failure', m.Interprets tracing source m' failure' ∧
    failure'.map Failure.placeless = failure.map Failure.placeless

theorem interpretsAs_of_meet (hc : compile source = .ok c) (hd : compile source' = .ok d)
    (h : ∀ n, c.Meet d n 0 0) {tracing : Bool} {m m' : Machine} {failure : Option Failure}
    (hruns : m.InterpretsAs tracing source m' failure) :
    m.InterpretsAs tracing source' m' failure := by
  obtain ⟨failure', hinterprets, hkind⟩ := hruns
  obtain ⟨outcome, m₁, hleads, rfl, rfl⟩ := (interprets_iff hc).mp hinterprets
  obtain ⟨outcome', hleads, hsame⟩ := Chunk.exists_leads h hleads
  refine ⟨outcome'.failure?, (interprets_iff hd).mpr ⟨outcome', m₁, hleads, rfl, rfl⟩, ?_⟩
  rw [← hkind, ← Outcome.failure?_placeless, hsame, Outcome.failure?_placeless]

end Machine

/-- A `for` and the `while` in a block that it stands for do the same in every program. To any
machine, the one text does what the other one does, and fails where the other one fails, if only
perhaps on another line; and when neither comes to an end, still every state of the one run, with
what it has written so far, is a state of the other one. -/
theorem interpret_desugared {source source' : String} {around : Context} {first body : Stmt}
    {condition : Expr} {increment : Option Expr}
    (htree : ProgramTokens (around.fill (.forLoop first (some condition) increment body))
      (Token.scan source))
    (htree' : ProgramTokens (around.fill (desugared first condition increment body))
      (Token.scan source'))
    {c d : Chunk} (hc : compile source = .ok c) (hd : compile source' = .ok d) (tracing : Bool)
    (m : Machine) :
    (∀ m' failure, m.InterpretsAs tracing source m' failure ↔
      m.InterpretsAs tracing source' m' failure) ∧
      (∀ n, ∃ k, ((Run.start d tracing m).advance k).Same ((Run.start c tracing m).advance n)) ∧
      ∀ n, ∃ k, ((Run.start c tracing m).advance k).Same ((Run.start d tracing m).advance n) := by
  have hadmissible := (compile_iff_admissible htree).mp ⟨c, hc⟩
  have hadmissible' := (compile_iff_admissible htree').mp ⟨d, hd⟩
  obtain ⟨hhosts, hret⟩ := (encodes_of_compile htree hc).hosts htree hadmissible
  obtain ⟨hhosts', hret'⟩ := (encodes_of_compile htree' hd).hosts htree' hadmissible'
  have hbody : body.declared [] = [] := (Context.regular_of_fill htree.regular).1
  have hscope (top : Bool) (scope : Scope) :
      (Stmt.forLoop first (some condition) increment body).scopeAfter top scope =
        (desugared first condition increment body).scopeAfter top scope := rfl
  have haccord := Chunk.accord_fill hhosts.room hhosts'.room hscope
    (fun _ _ => Chunk.accord_desugared hhosts.room hhosts'.room hbody) around hhosts.constants
    hhosts'.constants
  have hmeet (n : Nat) : c.Meet d n 0 0 := by
    apply haccord n 0 0 hhosts.runs hhosts'.runs
    rw [Nat.zero_add, Nat.zero_add]
    exact Chunk.meet_ret hret hret' n
  have hback (n : Nat) : d.Meet c n 0 0 := (hmeet n).symm
  refine ⟨fun m' failure => ⟨?_, ?_⟩, Chunk.exists_same hmeet tracing m,
    Chunk.exists_same hback tracing m⟩
  · exact Machine.interpretsAs_of_meet hc hd hmeet
  · exact Machine.interpretsAs_of_meet hd hc hback

/-- A loop that never ends around one that is run once each time. -/
theorem interpret_desugared_endless :
    let around : Context := .seqFirst (.whileBody (.bool true) .here) .skip
    let first : Stmt := .var "i" (some (.number "3"))
    let body : Stmt := .print (.name "i")
    let source := "while (true) for (var i = 3; i; i = nil) print i;"
    let source' := "while (true) { var i = 3; while (i) { print i; i = nil; } }"
    ProgramTokens (around.fill (.forLoop first (some (.name "i")) (some (.assign "i" .nil)) body))
        (Token.scan source) ∧
      ProgramTokens (around.fill (desugared first (.name "i") (some (.assign "i" .nil)) body))
        (Token.scan source') ∧
      ∃ c d, compile source = .ok c ∧ compile source' = .ok d ∧ ∀ (tracing : Bool) (m : Machine),
        (∀ m' failure, m.InterpretsAs tracing source m' failure ↔
          m.InterpretsAs tracing source' m' failure) ∧
          (∀ n, ∃ k, ((Run.start d tracing m).advance k).Same ((Run.start c tracing m).advance n)) ∧
          ∀ n, ∃ k, ((Run.start c tracing m).advance k).Same
            ((Run.start d tracing m).advance n) := by
  intro around first body source source'
  have hname (a : Nat) : WholeExpr (.name "i") [⟨.identifier, a, "i", 1⟩] :=
    .weaken (by decide) (.name ⟨rfl, rfl⟩)
  have htrue : WholeExpr (.bool true) [⟨.trueWord, 7, "true", 1⟩] := .weaken (by decide) (.true rfl)
  have hreset (a b n : Nat) : WholeExpr (.assign "i" .nil)
      [⟨.identifier, a, "i", 1⟩, ⟨.assign, b, "=", 1⟩, ⟨.nilWord, n, "nil", 1⟩] :=
    .assign ⟨rfl, rfl⟩ rfl (.weaken (by decide) (.nil rfl))
  have hvar (a b n v s : Nat) : VarTokens first [⟨.varWord, a, "var", 1⟩, ⟨.identifier, b, "i", 1⟩,
      ⟨.assign, n, "=", 1⟩, ⟨.number, v, "3", 1⟩, ⟨.semicolon, s, ";", 1⟩] := by
    have hvalue : WholeExpr (.number "3") [⟨.number, v, "3", 1⟩] :=
      .weaken (by decide) (.number ⟨rfl, rfl⟩)
    exact @VarTokens.withValue ⟨.varWord, a, "var", 1⟩ ⟨.identifier, b, "i", 1⟩ ⟨.assign, n, "=", 1⟩
      ⟨.semicolon, s, ";", 1⟩ _ _ _ rfl ⟨rfl, rfl⟩ rfl hvalue rfl
  have hprint (a b s : Nat) : StmtTokens body
      [⟨.printWord, a, "print", 1⟩, ⟨.identifier, b, "i", 1⟩, ⟨.semicolon, s, ";", 1⟩] :=
    .print rfl (hname b) rfl
  have htree :
      ProgramTokens (around.fill (.forLoop first (some (.name "i")) (some (.assign "i" .nil)) body))
        (Token.scan source) := by
    have hfor := @StmtTokens.forLoop ⟨.forWord, 13, "for", 1⟩ ⟨.leftParen, 17, "(", 1⟩
      ⟨.semicolon, 30, ";", 1⟩ ⟨.rightParen, 39, ")", 1⟩ _ _ _ _ _ _ _ _ rfl rfl
      (.var (hvar 18 22 24 26 27)) (.some (hname 29)) rfl (.some (hreset 32 34 36)) rfl
        (hprint 41 47 48)
    have hwhile := @StmtTokens.whileLoop ⟨.whileWord, 0, "while", 1⟩ ⟨.leftParen, 6, "(", 1⟩
      ⟨.rightParen, 11, ")", 1⟩ _ _ _ _ rfl rfl htrue rfl hfor
    exact ⟨_, ⟨.endOfFile, 49, "", 1⟩, .statement hwhile .skip, rfl, by decide +kernel⟩
  have htree' :
      ProgramTokens (around.fill (desugared first (.name "i") (some (.assign "i" .nil)) body))
        (Token.scan source') := by
    have hagain := @StmtTokens.expression ⟨.semicolon, 54, ";", 1⟩ _ _ (hreset 47 49 51) rfl
    have hround := @StmtTokens.block ⟨.leftBrace, 36, "\x7b", 1⟩ ⟨.rightBrace, 56, "\x7d", 1⟩ _ _
      rfl
      (.statement (hprint 38 44 45) (.statement hagain .skip)) rfl
    have hloop := @StmtTokens.whileLoop ⟨.whileWord, 26, "while", 1⟩ ⟨.leftParen, 32, "(", 1⟩
      ⟨.rightParen, 34, ")", 1⟩ _ _ _ _ rfl rfl (hname 33) rfl hround
    have hblock := @StmtTokens.block ⟨.leftBrace, 13, "\x7b", 1⟩ ⟨.rightBrace, 58, "\x7d", 1⟩ _ _
      rfl
      (.var (hvar 15 19 21 23 24) (.statement hloop .skip)) rfl
    have hwhile := @StmtTokens.whileLoop ⟨.whileWord, 0, "while", 1⟩ ⟨.leftParen, 6, "(", 1⟩
      ⟨.rightParen, 11, ")", 1⟩ _ _ _ _ rfl rfl htrue rfl hblock
    exact ⟨_, ⟨.endOfFile, 59, "", 1⟩, .statement hwhile .skip, rfl, by decide +kernel⟩
  obtain ⟨c, hc⟩ := exists_of_isOk (show (compile source).isOk = true by decide +kernel)
  obtain ⟨d, hd⟩ := exists_of_isOk (show (compile source').isOk = true by decide +kernel)
  exact ⟨htree, htree', c, d, hc, hd, fun tracing m =>
    interpret_desugared htree htree' hc hd tracing m⟩

end StackScript
