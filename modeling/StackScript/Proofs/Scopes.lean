import StackScript.Proofs.Builder.Declaring
import StackScript.Proofs.Reader.Phases

/-!
The list of locals against what really happened. A ledger is kept along a run of the readers:
for each local the depth at which it was added, and for each open scope the locals that were
there when it was opened. As long as no declaration has been refused for want of room, the
list says the same as the ledger. After a refusal it may not: the definition that follows
still marks a local as defined, whichever stands last.
-/

namespace StackScript.Reader

open Builder

/-- What happened to the locals that are there: the depth at which each was added, and what
was there before each open scope. Both lists begin with the innermost. -/
structure Ledger where
  origins : List Nat := []
  opened : List (List Local) := []

/-- The ledger after a step from `b` to `b'`. -/
def Ledger.after (l : Ledger) (b b' : Builder) : Ledger :=
  if b.scopeDepth < b'.scopeDepth then { l with opened := b.locals :: l.opened }
  else if b'.scopeDepth < b.scopeDepth then
    ⟨l.origins.drop (b.locals.length - b'.locals.length), l.opened.tail⟩
  else if b.locals.length < b'.locals.length then { l with origins := b.scopeDepth :: l.origins }
  else l

namespace Ledger

variable {l : Ledger} {b b' : Builder}

theorem after_opens (h : b.scopeDepth < b'.scopeDepth) :
    l.after b b' = { l with opened := b.locals :: l.opened } := by
  unfold after
  rw [if_pos h]

theorem after_closes (h : b'.scopeDepth < b.scopeDepth) :
    l.after b b' = ⟨l.origins.drop (b.locals.length - b'.locals.length), l.opened.tail⟩ := by
  unfold after
  rw [if_neg (Nat.not_lt_of_lt h), if_pos h]

theorem after_adds (hscope : b'.scopeDepth = b.scopeDepth)
    (h : b.locals.length < b'.locals.length) :
    l.after b b' = { l with origins := b.scopeDepth :: l.origins } := by
  unfold after
  rw [hscope, if_neg (Nat.lt_irrefl _), if_neg (Nat.lt_irrefl _), if_pos h]

theorem after_of_same (hscope : b'.scopeDepth = b.scopeDepth)
    (h : b'.locals.length = b.locals.length) : l.after b b' = l := by
  unfold after
  rw [hscope, h, if_neg (Nat.lt_irrefl _), if_neg (Nat.lt_irrefl _), if_neg (Nat.lt_irrefl _)]

end Ledger

/-- A declaration comes next, and there is no room for one more local. -/
def Config.Refuses (c : Config) : Prop :=
  ∃ e rest, c.tasks = .run (.act e) :: rest ∧ (∀ b, (e.apply b).1 = b.declared.1) ∧
    0 < c.builder.scopeDepth ∧ c.builder.locals.length = localsMax

/-- The points of a run with the ledger kept along it, where every step so far was one from
an allowed point. -/
inductive Recorded (allowed : Config → Prop) (source : String) : Config → Ledger → Prop
  | start : Recorded allowed source (start source) {}
  | step {c c' : Config} {l : Ledger} (h : Recorded allowed source c l) (hallowed : allowed c)
      (hstep : step c = some c') : Recorded allowed source c' (l.after c.builder c'.builder)

/-- The locals say what the ledger says. -/
structure Exact (c : Config) (l : Ledger) : Prop where
  depths : List.Forall₂ (fun entry depth => entry.depth = none ∨ entry.depth = some depth)
    c.builder.locals l.origins
  /-- The innermost local comes first. -/
  ordered : (c.builder.locals.filterMap Local.depth).Pairwise (· ≥ ·)
  /-- The end of a scope gives back what was there before it. -/
  closes : ∀ c', step c = some c' → c'.builder.scopeDepth < c.builder.scopeDepth →
    ∃ outer, l.opened.head? = some outer ∧ c'.builder.locals = outer ∧
      ∃ inner, c.builder.locals = inner ++ outer
  /-- What is said to be declared twice has been declared in this scope before. -/
  twice : ∀ c' d, step c = some c' → d ∈ c'.builder.errors.toList.drop c.builder.errors.size →
    d.cause = .alreadyDeclared → ∃ inner outer, l.opened.head? = some outer ∧
      c.builder.locals = inner ++ outer ∧ ∃ entry ∈ inner, entry.name = c.builder.previous.lexeme

/-- Locals in layers, one for each open scope, all of them defined. -/
inductive Layers : Nat → List Local → List Nat → List (List Local) → Prop
  | bottom : Layers 0 [] [] []
  | opens {depth : Nat} {locals : List Local} {origins : List Nat} {opened : List (List Local)}
      (h : Layers depth locals origins opened) : Layers (depth + 1) locals origins
        (locals :: opened)
  | defines {depth : Nat} {locals : List Local} {origins : List Nat} {opened : List (List Local)}
      (name : String) (h : Layers (depth + 1) locals origins opened) :
      Layers (depth + 1) (⟨name, some (depth + 1)⟩ :: locals) ((depth + 1) :: origins) opened

namespace Layers

variable {depth : Nat} {locals : List Local} {origins : List Nat} {opened : List (List Local)}

/-- The innermost layer, and the layers around it. -/
theorem split (h : Layers (depth + 1) locals origins opened) : ∃ inner outer,
    locals = inner ++ outer ∧ opened.head? = some outer ∧
      (∀ entry ∈ inner, entry.depth = some (depth + 1)) ∧
      Layers depth outer (origins.drop inner.length) opened.tail := by
  generalize hdepth : depth + 1 = d at h
  induction h with
  | bottom => cases hdepth
  | @opens _ locals origins opened h ih =>
      cases hdepth
      exact ⟨[], locals, rfl, rfl, nofun, h⟩
  | @defines _ locals origins opened name h ih =>
      cases hdepth
      obtain ⟨inner, outer, rfl, hopened, hinner, houter⟩ := ih rfl
      exact ⟨⟨name, some (depth + 1)⟩ :: inner, outer, rfl, hopened,
        List.forall_mem_cons.mpr ⟨rfl, hinner⟩, houter⟩

/-- Every local is defined, at a depth that is still open, and the ledger has that depth. -/
theorem depth_of_mem (h : Layers depth locals origins opened) {entry : Local}
    (hentry : entry ∈ locals) : ∃ d ≤ depth, entry.depth = some d := by
  induction h with
  | bottom => cases hentry
  | opens h ih =>
      obtain ⟨d, hle, hd⟩ := ih hentry
      exact ⟨d, Nat.le_succ_of_le hle, hd⟩
  | defines name h ih =>
      obtain rfl | hentry := List.mem_cons.mp hentry
      · exact ⟨_, Nat.le_refl _, rfl⟩
      · exact ih hentry

theorem depths (h : Layers depth locals origins opened) :
    List.Forall₂ (fun entry depth => entry.depth = none ∨ entry.depth = some depth)
      locals origins := by
  induction h with
  | bottom => exact .nil
  | opens h ih => exact ih
  | defines name h ih => exact .cons (.inr rfl) ih

theorem ordered (h : Layers depth locals origins opened) :
    (locals.filterMap Local.depth).Pairwise (· ≥ ·) := by
  induction h with
  | bottom => exact .nil
  | opens h ih => exact ih
  | defines name h ih =>
      refine List.pairwise_cons.mpr ⟨?_, ih⟩
      intro d hd
      obtain ⟨entry, hentry, hdepth⟩ := List.mem_filterMap.mp hd
      obtain ⟨d', hle, hd'⟩ := h.depth_of_mem hentry
      rw [hd', Option.some.injEq] at hdepth
      exact hdepth ▸ hle

end Layers

/-- The locals and the ledger in each phase: all in layers, but for a local that waits. At the
top level no local waits. -/
inductive Agrees : Phase → List Local → Ledger → Prop
  | settled {depth : Nat} {locals : List Local} {l : Ledger}
      (h : Layers depth locals l.origins l.opened) : Agrees ⟨depth, false⟩ locals l
  | global {locals : List Local} {l : Ledger} (h : Layers 0 locals l.origins l.opened) :
      Agrees ⟨0, true⟩ locals l
  | waiting {depth : Nat} {locals : List Local} {origins : List Nat} {opened : List (List Local)}
      (name : String) (h : Layers (depth + 1) locals origins opened) :
      Agrees ⟨depth + 1, true⟩ (⟨name, none⟩ :: locals) ⟨(depth + 1) :: origins, opened⟩

namespace Agrees

variable {p q : Phase} {b b' : Builder} {l : Ledger}

theorem still (h : Agrees p b.locals l) (hlocals : b'.locals = b.locals)
    (hscope : b'.scopeDepth = b.scopeDepth) : Agrees p b'.locals (l.after b b') := by
  rw [Ledger.after_of_same hscope (congrArg List.length hlocals), hlocals]
  exact h

/-- The end of a scope drops the innermost layer. -/
theorem locals_endScope {depth : Nat} (hscope : b.scopeDepth = depth + 1)
    (h : Layers (depth + 1) b.locals l.origins l.opened) : ∃ inner outer,
      b.locals = inner ++ outer ∧ b.endScope.locals = outer ∧ l.opened.head? = some outer ∧
      (∀ entry ∈ inner, entry.depth = some (depth + 1)) ∧
      Layers depth outer (l.origins.drop inner.length) l.opened.tail := by
  obtain ⟨inner, outer, hlocals, hopened, hinner, houter⟩ := h.split
  refine ⟨inner, outer, hlocals, ?_, hopened, hinner, houter⟩
  unfold endScope
  rw [hlocals]
  apply locals_dropLocals
  · intro entry hentry
    simp only [leavesAt, hscope, hinner entry hentry, Option.all_some, decide_eq_true_eq]
    omega
  · intro entry hentry
    obtain ⟨d, hle, hd⟩ := houter.depth_of_mem (List.mem_of_mem_head? hentry)
    simp only [leavesAt, hscope, hd, Option.all_some, decide_eq_false_iff_not]
    omega

/-- A step keeps the locals and the ledger together, unless it refuses a declaration. -/
theorem turn (h : Agrees p b.locals l) (hscope : b.scopeDepth = p.depth) (hturn : Turn p b q b')
    (hroom : p.pending = false → q.pending = true → 0 < b.scopeDepth →
      b.locals.length ≠ localsMax) :
    Agrees q b'.locals (l.after b b') ∧ b'.scopeDepth = q.depth := by
  cases hturn with
  | still hstill => exact ⟨h.still hstill.locals hstill.scopeDepth, hstill.scopeDepth.trans hscope⟩
  | shift => exact ⟨h.still rfl rfl, hscope⟩
  | @opens depth =>
      cases h with
      | settled h =>
          refine ⟨.settled ?_, congrArg (· + 1) hscope⟩
          rw [Ledger.after_opens (Nat.lt_succ_self b.scopeDepth)]
          exact .opens h
  | @closes depth =>
      cases h with
      | settled h =>
          obtain ⟨inner, outer, hlocals, hdropped, hopened, -, houter⟩ := locals_endScope hscope h
          have hclosed : b.endScope.scopeDepth = depth := by
            rw [scopeDepth_endScope, hscope]
            rfl
          have hlength : b.locals.length - b.endScope.locals.length = inner.length := by
            rw [hdropped, hlocals, List.length_append]
            omega
          refine ⟨.settled ?_, hclosed⟩
          dsimp only at hscope
          rw [Ledger.after_closes (by omega), hlength, hdropped]
          exact houter
  | @declares depth =>
      cases h with
      | settled h =>
          dsimp only at hscope
          cases depth with
          | zero =>
              have hstill := declared_of_global hscope
              refine ⟨?_, hstill.scopeDepth.trans hscope⟩
              rw [Ledger.after_of_same hstill.scopeDepth (congrArg List.length hstill.locals),
                hstill.locals]
              exact .global h
          | succ depth =>
              have hpos : 0 < b.scopeDepth := by omega
              have hlocals := locals_declareVariable hpos (hroom rfl rfl hpos)
              have hsame := scopeDepth_declareVariable b
              rw [declared_of_scope hpos]
              refine ⟨?_, hsame.trans hscope⟩
              have hlonger : b.locals.length < b.declareVariable.locals.length := by
                rw [hlocals]
                exact Nat.lt_succ_self _
              rw [Ledger.after_adds hsame hlonger, hlocals, hscope]
              exact .waiting b.previous.lexeme h
  | @defines depth name =>
      have hsame := scopeDepth_defineVariable name b
      generalize hlocals : b.locals = locals at h
      cases h with
      | global h =>
          have hstill := defineVariable_of_global hscope name
          refine ⟨?_, hstill.scopeDepth.trans hscope⟩
          rw [Ledger.after_of_same hstill.scopeDepth (congrArg List.length hstill.locals),
            hstill.locals, hlocals]
          exact .settled h
      | waiting x h =>
          have hpos : 0 < b.scopeDepth := by
            dsimp only at hscope
            omega
          have hmarked := locals_markInitialized hlocals
          rw [← defineVariable_of_scope hpos name] at hmarked
          dsimp only at hscope
          refine ⟨?_, hsame.trans hscope⟩
          rw [Ledger.after_of_same hsame (by rw [hmarked, hlocals]; rfl), hmarked, hscope]
          exact .settled (.defines x h)

theorem depths (h : Agrees p b.locals l) :
    List.Forall₂ (fun entry depth => entry.depth = none ∨ entry.depth = some depth)
      b.locals l.origins := by
  generalize b.locals = locals at h
  cases h with
  | settled h | global h => exact h.depths
  | waiting name h => exact .cons (.inl rfl) h.depths

theorem ordered (h : Agrees p b.locals l) : (b.locals.filterMap Local.depth).Pairwise (· ≥ ·) := by
  generalize b.locals = locals at h
  cases h with
  | settled h | global h => exact h.ordered
  | waiting name h => exact h.ordered

theorem closes (h : Agrees p b.locals l) (hscope : b.scopeDepth = p.depth) (hturn : Turn p b q b')
    (hless : b'.scopeDepth < b.scopeDepth) : ∃ outer, l.opened.head? = some outer ∧
      b'.locals = outer ∧ ∃ inner, b.locals = inner ++ outer := by
  cases hturn with
  | still hstill => exact absurd hstill.scopeDepth (Nat.ne_of_lt hless)
  | shift => exact absurd hless (Nat.lt_irrefl _)
  | opens => exact absurd hless (Nat.not_lt_of_lt (Nat.lt_succ_self b.scopeDepth))
  | closes =>
      cases h with
      | settled h =>
          obtain ⟨inner, outer, hlocals, hdropped, hopened, -⟩ := locals_endScope hscope h
          exact ⟨outer, hopened, hdropped, inner, hlocals⟩
  | declares =>
      have hsame : b.declared.1.scopeDepth = b.scopeDepth := by
        obtain hglobal | hpos := Nat.eq_zero_or_pos b.scopeDepth
        · exact (declared_of_global hglobal).scopeDepth
        · rw [declared_of_scope hpos, scopeDepth_declareVariable]
      exact absurd hsame (Nat.ne_of_lt hless)
  | defines name => exact absurd (scopeDepth_defineVariable name b) (Nat.ne_of_lt hless)

/-- A local that the innermost scope is said to have is in the innermost layer. -/
theorem exists_of_declaredHere {depth : Nat} {name : String} (hscope : b.scopeDepth = depth + 1)
    (h : Layers (depth + 1) b.locals l.origins l.opened) (hhere : b.declaredHere name = true) :
    ∃ inner outer, l.opened.head? = some outer ∧ b.locals = inner ++ outer ∧
      ∃ entry ∈ inner, entry.name = name := by
  obtain ⟨inner, outer, hlocals, hopened, hinner, houter⟩ := h.split
  refine ⟨inner, outer, hopened, hlocals, ?_⟩
  have hlayer : b.locals.takeWhile (fun entry => entry.depth.all (b.scopeDepth ≤ ·)) = inner := by
    rw [hlocals, List.takeWhile_append_of_pos]
    · cases outer with
      | nil => rw [List.takeWhile_nil, List.append_nil]
      | cons entry rest =>
          obtain ⟨d, hle, hd⟩ := houter.depth_of_mem List.mem_cons_self
          have hstops : entry.depth.all (b.scopeDepth ≤ ·) = false := by
            simp only [hd, hscope, Option.all_some, decide_eq_false_iff_not]
            omega
          rw [List.takeWhile_cons, hstops, if_neg Bool.false_ne_true, List.append_nil]
    · intro entry hentry
      simp only [hinner entry hentry, hscope, Option.all_some, decide_eq_true_eq]
      exact Nat.le_refl _
  unfold declaredHere at hhere
  rw [hlayer, List.any_eq_true] at hhere
  obtain ⟨entry, hentry, hname⟩ := hhere
  exact ⟨entry, hentry, of_decide_eq_true hname⟩

theorem twice (h : Agrees p b.locals l) (hscope : b.scopeDepth = p.depth) (hturn : Turn p b q b')
    {d : Diagnostic} (hd : d ∈ b'.errors.toList.drop b.errors.size)
    (hcause : d.cause = .alreadyDeclared) : ∃ inner outer, l.opened.head? = some outer ∧
      b.locals = inner ++ outer ∧ ∃ entry ∈ inner, entry.name = b.previous.lexeme := by
  have hnothing (herrors : b'.errors = b.errors) : False := by
    rw [herrors, ← Array.length_toList, List.drop_length] at hd
    cases hd
  cases hturn with
  | still hstill => exact absurd hcause (hstill.reports.of_mem_drop hd)
  | shift | opens => exact absurd rfl hnothing
  | closes => exact absurd (errors_endScope b) hnothing
  | defines name => exact absurd (errors_defineVariable name b) hnothing
  | @declares depth =>
      cases h with
      | settled h =>
          dsimp only at hscope
          cases depth with
          | zero => exact absurd hcause ((declared_of_global hscope).reports.of_mem_drop hd)
          | succ depth =>
              rw [declared_of_scope (by omega)] at hd
              obtain ⟨-, hhere⟩ := (reports_declareVariable b).of_mem_drop hd hcause
              exact exists_of_declaredHere hscope h hhere

end Agrees

theorem agrees_of_recorded {source : String} {c : Config} {l : Ledger}
    (h : Recorded (fun c => ¬ c.Refuses) source c l) : ∃ p, Leading c.tasks p ∧
      Agrees p c.builder.locals l ∧ c.builder.scopeDepth = p.depth := by
  induction h with
  | start => exact ⟨_, leading_start source, .settled .bottom, rfl⟩
  | @step c c' l _ hroom hstep ih =>
      obtain ⟨p, hleading, hagrees, hscope⟩ := ih
      obtain ⟨q, hleading', hturn, heffect⟩ := turn_of_step hleading hstep
      refine ⟨q, hleading', hagrees.turn hscope hturn ?_⟩
      intro hp hq hpos hfull
      obtain rfl | ⟨e, rest, htasks, hturns⟩ := heffect
      · rw [hp] at hq
        cases hq
      · refine hroom ⟨e, rest, htasks, ?_, hpos, hfull⟩
        intro b
        obtain ⟨depth, pending⟩ := p
        obtain ⟨depth', pending'⟩ := q
        cases hp
        cases hq
        generalize hafter : (e.apply b).1 = b'
        have hdeclares := hturns b
        rw [hafter] at hdeclares
        cases hdeclares
        rfl

/-- The list of locals is exact at every point that is reached without a refusal: each local
has no depth or the depth of the scope it was added in, the depths are in order, the end of a
scope gives back the locals that were there before it, and a variable that is said to be
declared twice has been declared in the same scope. -/
theorem scopes_exact {source : String} {c : Config} {l : Ledger}
    (h : Recorded (fun c => ¬ c.Refuses) source c l) : Exact c l := by
  obtain ⟨p, hleading, hagrees, hscope⟩ := agrees_of_recorded h
  refine ⟨hagrees.depths, hagrees.ordered, ?_, ?_⟩
  · intro c' hstep hless
    obtain ⟨q, -, hturn, -⟩ := turn_of_step hleading hstep
    exact hagrees.closes hscope hturn hless
  · intro c' d hstep hd hcause
    obtain ⟨q, -, hturn, -⟩ := turn_of_step hleading hstep
    exact hagrees.twice hscope hturn hd hcause

/-- The point that so many steps lead to, as long as there is room for a local at each of
them. -/
def recordWithin : Nat → Config → Ledger → Option (Config × Ledger)
  | 0, c, l => some (c, l)
  | n + 1, c, l =>
      if c.builder.locals.length < localsMax then
        (step c).bind fun c' => recordWithin n c' (l.after c.builder c'.builder)
      else none

theorem recorded_of_recordWithin {source : String} {n : Nat} {c c' : Config} {l l' : Ledger}
    (h : Recorded (fun c => ¬ c.Refuses) source c l) (hrun : recordWithin n c l = some (c', l')) :
    Recorded (fun c => ¬ c.Refuses) source c' l' := by
  induction n generalizing c l with
  | zero =>
      cases hrun
      exact h
  | succ n ih =>
      unfold recordWithin at hrun
      split at hrun
      · rename_i hroom
        obtain ⟨next, hstep, hrun⟩ := Option.bind_eq_some_iff.mp hrun
        refine ih (h.step ?_ hstep) hrun
        rintro ⟨e, rest, -, -, -, hfull⟩
        exact Nat.ne_of_lt hroom hfull
      · cases hrun

/-- Inside two scopes, with a local in each of them. -/
theorem scopes_exact_nested : ∃ c l,
    Recorded (fun c => ¬ c.Refuses) "\x7bvar a; \x7bvar b = 1; print b;\x7d\x7d" c l ∧
      c.builder.locals.map Local.depth = [some 2, some 1] ∧ Exact c l := by
  have hpoint : (recordWithin 150 (start "\x7bvar a; \x7bvar b = 1; print b;\x7d\x7d") {}).map
      (fun s => s.1.builder.locals.map Local.depth) = some [some 2, some 1] := by
    decide +kernel
  obtain ⟨⟨c, l⟩, hrun, hlocals⟩ := Option.map_eq_some_iff.mp hpoint
  have hrecorded := recorded_of_recordWithin .start hrun
  exact ⟨c, l, hrecorded, hlocals, scopes_exact hrecorded⟩

end StackScript.Reader
