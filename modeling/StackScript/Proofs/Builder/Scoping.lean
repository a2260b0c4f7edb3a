import StackScript.Proofs.Builder.Compiling
import StackScript.Builder.Expression

/-!
Variables as expressions see them. A local that is being initialized is in the list of
locals already but cannot be read; behind it, the list is the scope of the tree.
-/

namespace StackScript.Builder

open Tree

/-- The locals named in `pending` are being initialized; those named in `scope` can be
read. -/
def Knows (locals : List Local) (pending : List String) (scope : Scope) : Prop :=
  ∃ known : List Local, locals = pending.map (fun x => ⟨x, none⟩) ++ known ∧
    known.map Local.name = scope ∧ ∀ entry ∈ known, entry.depth ≠ none

theorem resolveLocal_of_known {b : Builder} {pending : List String} {scope : Scope} {x : String}
    (hknows : Knows b.locals pending scope) (hx : x ∉ pending) :
    b.resolveLocal x = (b, scope.slot? x) := by
  obtain ⟨known, hlocals, rfl, hready⟩ := hknows
  have hpending : (pending.map fun x => (⟨x, none⟩ : Local)).findIdx? (·.name = x) = none := by
    simp only [List.findIdx?_map, List.findIdx?_eq_none_iff, Function.comp_apply,
      decide_eq_false_iff_not]
    rintro y hy rfl
    exact hx hy
  have hfind : b.locals.findIdx? (·.name = x) =
      ((known.map Local.name).findIdx? (· = x)).map (· + pending.length) := by
    rw [hlocals, List.findIdx?_append, hpending, Option.none_or, List.findIdx?_map,
      List.length_map]
    rfl
  unfold resolveLocal Scope.slot?
  rw [hfind]
  cases hknown : (known.map Local.name).findIdx? (· = x) with
  | none => rfl
  | some i =>
      have hlt : i < known.length := by
        have := (List.findIdx?_eq_some_iff_getElem.mp hknown).1
        simpa using this
      have hentry : b.locals[i + pending.length]? = some known[i] := by
        rw [hlocals, List.getElem?_append_right (by simp)]
        simp [hlt]
      have hslot : b.locals.length - 1 - (i + pending.length) = known.length - 1 - i := by
        rw [hlocals, List.length_append, List.length_map]
        omega
      simp only [Option.map_some, hentry, hslot, List.length_map]
      split
      · rename_i hnone
        have hdepth := hready known[i] (List.getElem_mem hlt)
        rw [Option.some.inj hnone] at hdepth
        exact absurd rfl hdepth
      · rfl

/-- A local cannot be read in its own initializer. -/
theorem soiled_resolveLocal_of_pending {b : Builder} {pending : List String} {scope : Scope}
    {x : String} (hclean : b.Clean) (hknows : Knows b.locals pending scope) (hx : x ∈ pending) :
    (b.resolveLocal x).1.Soiled := by
  obtain ⟨known, hlocals, rfl, -⟩ := hknows
  obtain ⟨i, hi, hfind⟩ : ∃ i, i < pending.length ∧ b.locals.findIdx? (·.name = x) = some i := by
    have hsome : (pending.findIdx? (· = x)).isSome := by
      simpa [List.findIdx?_isSome] using hx
    obtain ⟨i, hi⟩ := Option.isSome_iff_exists.mp hsome
    refine ⟨i, (List.findIdx?_eq_some_iff_getElem.mp hi).1, ?_⟩
    rw [hlocals, List.findIdx?_append, List.findIdx?_map]
    have hsame : pending.findIdx? ((fun entry : Local => decide (entry.name = x)) ∘
        fun x => ⟨x, none⟩) = some i := hi
    rw [hsame, Option.some_or]
  have hentry : b.locals[i]? = some ⟨pending[i], none⟩ := by
    rw [hlocals, List.getElem?_append_left (by simpa using hi)]
    simp [hi]
  unfold resolveLocal
  rw [hfind]
  simp only [hentry]
  exact hclean.soiled_errorAtPrevious _

theorem nameConstant_of_slot {scope : Scope} {x : String} {slot : UInt8}
    (hslot : scope.slot? x = some slot) : scope.nameConstant x = [] := by
  obtain ⟨i, hi, -⟩ := Option.map_eq_some_iff.mp hslot
  have hget := (List.findIdx?_eq_some_iff_getElem.mp hi).2.1
  have hmem : x ∈ scope := by
    have := of_decide_eq_true hget
    exact this ▸ List.getElem_mem _
  simp [Scope.nameConstant, hmem]

theorem nameConstant_of_no_slot {scope : Scope} {x : String} (hslot : scope.slot? x = none) :
    scope.nameConstant x = [.string x] := by
  simp [Scope.nameConstant, Scope.not_mem_of_slot? hslot]

/-- The access to a variable is the one that the tree has. -/
theorem Ready.settles_accessTo {b : Builder} (hb : b.Ready) {pending : List String} {scope : Scope}
    (hknows : Knows b.locals pending scope) {x : String} {final : List Value}
    (hfinal : grow b.pool (scope.nameConstant x) <+: final) :
    b.Settles (x ∉ pending ∧ (grow b.pool (scope.nameConstant x)).length ≤ Chunk.constantsMax) []
        (scope.nameConstant x) [] b.locals (b.accessTo x).1 ∧
      (¬ (b.accessTo x).1.Soiled →
        .operand (b.accessTo x).2.get (b.accessTo x).2.operand =
          access final scope .getLocal .getGlobal x ∧
        .operand (b.accessTo x).2.set (b.accessTo x).2.operand =
          access final scope .setLocal .setGlobal x) := by
  by_cases hx : x ∈ pending
  · have hsoiled : (b.accessTo x).1.Soiled := by
      have hresolve := soiled_resolveLocal_of_pending hb.clean hknows hx
      unfold accessTo
      generalize b.resolveLocal x = found at hresolve ⊢
      obtain ⟨b', slot⟩ := found
      cases slot with
      | some slot => exact hresolve
      | none => exact closed_soiled.makeConstant _ _ hresolve
    exact ⟨Or.inr ⟨fun h => h.1 hx, hsoiled⟩, absurd hsoiled⟩
  · have hresolve := resolveLocal_of_known hknows hx
    unfold accessTo access
    rw [hresolve]
    cases hslot : scope.slot? x with
    | some slot =>
        rw [nameConstant_of_slot hslot]
        exact ⟨Or.inl ⟨⟨hx, hb.room⟩, hb.compiles_nothing⟩, fun _ => ⟨rfl, rfl⟩⟩
    | none =>
        rw [nameConstant_of_no_slot hslot] at hfinal ⊢
        by_cases hroom : (grow b.pool [.string x]).length ≤ Chunk.constantsMax
        · obtain ⟨hcompiles, hindex⟩ := hb.makeConstant_of_room hroom hfinal
          have hoperand : (b.nameConstant x).2 = indexIn final (.string x) := hindex
          refine ⟨Or.inl ⟨⟨hx, hroom⟩, hcompiles⟩, fun _ => ?_⟩
          simp only [hoperand, and_self]
        · have hsoiled := hb.makeConstant_of_full hroom
          exact ⟨Or.inr ⟨fun h => hroom h.2, hsoiled⟩, absurd hsoiled⟩

section Variables

variable {b : Builder} (hb : b.Ready) {pending : List String} {scope : Scope}
  (hknows : Knows b.locals pending scope) {final : List Value}
  {operand : Precedence → Builder → Builder} (hkeeps : ∀ p b, b.Soiled → (operand p b).Soiled)
include hb hknows hkeeps

omit hb hknows in
theorem soiled_namedVariable {x : String} (hx : b.previous.lexeme = x) (canAssign : Bool)
    (hsoiled : (b.accessTo x).1.Soiled) :
    (b.namedVariable (operand .assignment) canAssign).Soiled := by
  unfold namedVariable
  rw [hx]
  dsimp only
  split
  · exact closed_soiled.emitWithByte _ _ _ (hkeeps _ _ (closed_soiled.advance _ hsoiled))
  · exact closed_soiled.emitWithByte _ _ _ hsoiled

theorem Ready.settles_read {x : String} (hx : b.previous.lexeme = x)
    (hfinal : grow b.pool (scope.nameConstant x) <+: final) (canAssign : Bool)
    (hnext : b.current.kind ≠ .assign) :
    b.Settles (x ∉ pending ∧ (grow b.pool (scope.nameConstant x)).length ≤ Chunk.constantsMax) []
      (scope.nameConstant x) [access final scope .getLocal .getGlobal x] b.locals
      (b.namedVariable (operand .assignment) canAssign) := by
  obtain ⟨haccess, hitem⟩ := hb.settles_accessTo hknows hfinal
  refine haccess.andThen (soiled_namedVariable hkeeps hx canAssign) fun hcompiles => ?_
  have hcurrent : (b.accessTo x).1.current = b.current :=
    (List.head_eq_of_cons_eq hcompiles.took.upcoming).symm
  have hemit := hcompiles.trans ((hcompiles.ready hb).compiles_emitWithByte
    (b.accessTo x).2.get (b.accessTo x).2.operand)
  rw [(hitem hcompiles.took.clean.not_soiled).1, hcompiles.locals] at hemit
  unfold namedVariable
  rw [hx]
  have hread : (canAssign && (b.accessTo x).1.sees .assign) = false := by
    simp [sees, hcurrent, hnext]
  simpa [hread] using hemit

theorem Ready.settles_assign {x : String} (hx : b.previous.lexeme = x)
    (hfinal : grow b.pool (scope.nameConstant x) <+: final) {eq : Token} {ts rest : List Token}
    (hahead : b.upcoming = eq :: rest) (hmore : rest ≠ []) (heq : eq.kind = .assign) {fits : Prop}
    {constants : List Value} {items : List Item}
    (hvalue : ∀ b', b.Compiles [eq] (scope.nameConstant x) [] b.locals b' →
      b'.Settles fits ts constants items b.locals (operand .assignment b')) :
    b.Settles ((x ∉ pending ∧ (grow b.pool (scope.nameConstant x)).length ≤ Chunk.constantsMax) ∧
        fits) (eq :: ts) (scope.nameConstant x ++ constants)
      (items ++ [access final scope .setLocal .setGlobal x]) b.locals
      (b.namedVariable (operand .assignment) true) := by
  obtain ⟨haccess, hitem⟩ := hb.settles_accessTo hknows hfinal
  refine haccess.bind (soiled_namedVariable hkeeps hx true) fun hcompiles => ?_
  have hfound := hcompiles.ready hb
  have hmove := hfound.compiles_advance (hcompiles.upcoming hahead) hmore
  rw [hcompiles.locals] at hmove
  have hstart := hcompiles.trans hmove
  simp only [List.nil_append, List.append_nil] at hstart
  have hcurrent : (b.accessTo x).1.current = eq :=
    List.head_eq_of_cons_eq (hcompiles.upcoming hahead)
  have hwrite : (true && (b.accessTo x).1.sees .assign) = true := by
    simp [sees, hcurrent, heq]
  unfold namedVariable
  rw [hx]
  simp only [hwrite, if_true]
  have hwhole := (Settles.of_compiles hstart).trans (hkeeps _ _) fun h => hvalue _ h
  refine (hwhole.andThen (closed_soiled.emitWithByte _ _ _) fun hdone => ?_).iff (by simp)
  have hemit := hdone.trans ((hdone.ready hb).compiles_emitWithByte
    (b.accessTo x).2.set (b.accessTo x).2.operand)
  rw [(hitem hcompiles.took.clean.not_soiled).2, hdone.locals] at hemit
  simpa using hemit

end Variables

end StackScript.Builder
