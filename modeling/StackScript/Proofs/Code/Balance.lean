import StackScript.Proofs.Code.Flow
import StackScript.Proofs.Tree.Regular

/-!
Balanced code. The code of an expression leaves one value more than there was, the code of
a statement as many values as there are locals in scope behind it, and at the start of
every declaration inside there are as many values as locals in scope there.
-/

namespace StackScript.Tree

/-- The same starts counted from `distance` further ahead. -/
def shift (distance : Nat) (starts : List (Nat × Nat)) : List (Nat × Nat) :=
  starts.map fun start => (distance + start.1, start.2)

@[simp] theorem shift_nil (distance : Nat) : shift distance [] = [] := rfl

@[simp] theorem shift_zero (starts : List (Nat × Nat)) : shift 0 starts = starts := by
  simp [shift]

theorem shift_append (distance : Nat) (first second : List (Nat × Nat)) :
    shift distance (first ++ second) = shift distance first ++ shift distance second :=
  List.map_append

theorem shift_shift (outer inner : Nat) (starts : List (Nat × Nat)) :
    shift outer (shift inner starts) = shift (outer + inner) starts := by
  simp [shift, Nat.add_assoc]

/-- The offsets are those of sites, with the heights there. -/
def Starts (last : Nat) (sites : List Site) (starts : List (Nat × Nat)) : Prop :=
  ∀ start ∈ starts, ∃ before rest, sites = before ++ rest ∧ start.1 = sitesSize before ∧
    heightFrom last rest = start.2

theorem starts_nil (last : Nat) (sites : List Site) : Starts last sites [] :=
  fun _ h => nomatch h

theorem Starts.append {last : Nat} {sites : List Site} {first second : List (Nat × Nat)}
    (h₁ : Starts last sites first) (h₂ : Starts last sites second) :
    Starts last sites (first ++ second) :=
  List.forall_mem_append.mpr ⟨h₁, h₂⟩

/-- The starts of a part are starts of the whole. -/
theorem Starts.within {middle last : Nat} {part back : List Site} {starts : List (Nat × Nat)}
    (h : Starts middle part starts) (front : List Site) (hback : heightFrom last back = middle) :
    Starts last (front ++ (part ++ back)) (shift (sitesSize front) starts) := by
  subst hback
  intro start hstart
  obtain ⟨start, hmem, rfl⟩ := List.mem_map.mp hstart
  obtain ⟨before, rest, rfl, hoffset, hheight⟩ := h start hmem
  refine ⟨front ++ before, rest ++ back, by simp, ?_, ?_⟩
  · rw [sitesSize_append, ← hoffset]
  · rwa [heightFrom_append]

/-- The code takes the stack from one height to another; `starts` are some of its offsets
with the heights there. -/
def Balanced (pool : List Value) (height : Nat) (items : List Item) (starts : List (Nat × Nat))
    (last : Nat) : Prop :=
  ∃ sites, itemsOf sites = items ∧ heightFrom last sites = height ∧ Flow pool last [] sites [] ∧
    Starts last sites starts

namespace Balanced

variable {pool : List Value} {height middle last : Nat} {first second items : List Item}
  {starts others : List (Nat × Nat)}

theorem nil (pool : List Value) (height : Nat) : Balanced pool height [] [] height :=
  ⟨[], rfl, rfl, Flow.nil, starts_nil _ _⟩

theorem single {item : Item} (h : Site.Flows pool last [] ⟨item, height⟩ []) :
    Balanced pool height [item] [] last :=
  ⟨[⟨item, height⟩], rfl, rfl, Flow.nil.cons h, starts_nil _ _⟩

theorem plain {op : Opcode} (hbytes : op.operandBytes = 0) (hstays : op ≠ .ret)
    (henough : op.pops ≤ height) (hlast : last + op.pops = height + op.pushes) :
    Balanced pool height [.plain op] [] last :=
  single (.plain hbytes hstays henough hlast)

/-- The same in other words. -/
theorem congr (h : Balanced pool height items starts last) (hitems : first = items)
    (hstarts : others = starts) : Balanced pool height first others last := by
  rwa [hitems, hstarts]

theorem append (h₁ : Balanced pool height first starts middle)
    (h₂ : Balanced pool middle second others last) :
    Balanced pool height (first ++ second) (starts ++ shift (codeSize first) others) last := by
  obtain ⟨sites₁, rfl, rfl, hflow₁, hstarts₁⟩ := h₁
  obtain ⟨sites₂, rfl, rfl, hflow₂, hstarts₂⟩ := h₂
  refine ⟨sites₁ ++ sites₂, itemsOf_append .., heightFrom_append .., ?_, ?_⟩
  · refine Flow.append (Flow.within ?_) (Flow.within hflow₂)
    rwa [List.append_nil]
  · refine Starts.append ?_ ?_
    · simpa using hstarts₁.within [] rfl
    · simpa [sitesSize] using hstarts₂.within sites₁ (heightFrom_nil last)

/-- Code without starts of its own in front of some or behind. -/
theorem snoc (h₁ : Balanced pool height first starts middle)
    (h₂ : Balanced pool middle second [] last) :
    Balanced pool height (first ++ second) starts last := by
  have hboth := h₁.append h₂
  rwa [shift_nil, List.append_nil] at hboth

/-- A start at the very beginning. -/
theorem begin (h : Balanced pool height items starts last) :
    Balanced pool height items ((0, height) :: starts) last := by
  obtain ⟨sites, hitems, hheight, hflow, hstarts⟩ := h
  have hfirst : Starts last sites [(0, height)] :=
    List.forall_mem_singleton.mpr ⟨[], sites, rfl, rfl, hheight⟩
  exact ⟨sites, hitems, hheight, hflow, hfirst.append hstarts⟩

/-- Code that is jumped over when a condition fails. -/
theorem skip (h : Balanced pool height items [] height) (hpos : 0 < height) :
    Balanced pool height (.jump .jumpIfFalse (codeSize items) :: items) [] height := by
  obtain ⟨sites, rfl, hheight, hflow, -⟩ := h
  refine ⟨⟨.jump .jumpIfFalse (sitesSize sites), height⟩ :: sites, rfl, rfl, ?_, starts_nil _ _⟩
  refine Flow.cons ?_ (Flow.within hflow)
  exact .jumpIfFalse sites [] rfl hpos (by rwa [List.append_nil]) rfl

/-- Two ways that part at a condition and meet again. -/
theorem choice (h₁ : Balanced pool height first starts last)
    (h₂ : Balanced pool height second others last) (hpos : 0 < height) :
    Balanced pool height
      (.jump .jumpIfFalse (codeSize first + 3) ::
        (first ++ .jump .jump (codeSize second) :: second))
      (shift 3 starts ++ shift (codeSize first + 6) others) last := by
  obtain ⟨sites₁, rfl, hheight₁, hflow₁, hstarts₁⟩ := h₁
  obtain ⟨sites₂, rfl, hheight₂, hflow₂, hstarts₂⟩ := h₂
  have hsize :
      sitesSize (sites₁ ++ [⟨.jump .jump (sitesSize sites₂), last⟩]) = sitesSize sites₁ + 3 := by
    simp [Item.size]
  refine ⟨⟨.jump .jumpIfFalse (sitesSize sites₁ + 3), height⟩ ::
    (sites₁ ++ ⟨.jump .jump (sitesSize sites₂), last⟩ :: sites₂), ?_, rfl, ?_, ?_⟩
  · simp [sitesSize]
  · refine Flow.cons ?_ (Flow.append (Flow.within hflow₁) (Flow.cons ?_ (Flow.within hflow₂)))
    · rw [← hsize]
      refine .jumpIfFalse (sites₁ ++ [_]) sites₂ (by simp) hpos ?_ hheight₂
      rw [List.append_nil, heightFrom_append]
      exact hheight₁
    · exact .jump sites₂ [] rfl rfl
  · refine Starts.append ?_ ?_
    · exact hstarts₁.within [⟨.jump .jumpIfFalse (sitesSize sites₁ + 3), height⟩] rfl
    · have hsecond := hstarts₂.within (⟨.jump .jumpIfFalse (sitesSize sites₁ + 3), height⟩ ::
        (sites₁ ++ [⟨.jump .jump (sitesSize sites₂), last⟩])) (heightFrom_nil last)
      rw [sitesSize_cons, hsize] at hsecond
      have hahead : 3 + (sitesSize sites₁ + 3) = codeSize (itemsOf sites₁) + 6 := by
        simp only [sitesSize]
        omega
      simpa [Item.size, hahead] using hsecond

theorem leave (pool : List Value) {outer inner : Scope} (hle : outer.length ≤ inner.length) :
    Balanced pool inner.length (leave outer inner) [] outer.length := by
  obtain ⟨n, hn⟩ := Nat.exists_eq_add_of_le hle
  rw [Tree.leave, hn, Nat.add_sub_cancel_left]
  clear hn hle
  induction n with
  | zero => exact nil pool _
  | succ n ih =>
      rw [List.replicate_succ]
      have hpop : Balanced pool (outer.length + (n + 1)) [.plain .pop] [] (outer.length + n) :=
        plain rfl (by decide) (Nat.le_add_left 1 _) rfl
      exact hpop.append ih

/-- The sites of a loop behind its condition: they flow behind a condition of the right
size, whatever follows the loop. -/
theorem exists_stepSites (before : Nat) {increment : Option (List Item)} {body : List Item}
    (hincrement : ∀ code ∈ increment, Balanced pool height code [] (height + 1))
    (hbody : Balanced pool height body starts height) :
    ∃ sites, itemsOf sites = stepCode before increment body ∧
      (∀ last, heightFrom last sites = height) ∧
      (∀ last front back, sitesSize front = before → heightFrom height front = height →
        Flow pool last front sites back) ∧
      ∀ last, Starts last sites (shift (codeSize (incrementCode before increment)) starts) := by
  obtain ⟨sites, rfl, hheight, hflow, hstarts⟩ := hbody
  rw [stepCode_eq]
  cases increment with
  | none =>
      refine ⟨sites ++ [⟨.jump .loop (before + sitesSize sites + 3), height⟩], ?_, ?_, ?_, ?_⟩
      · simp [incrementCode, backDistance, sitesSize]
      · intro last
        rw [heightFrom_append]
        exact hheight
      · rintro last front back rfl hfront
        refine Flow.append (Flow.within hflow) (Flow.cons ?_ Flow.nil)
        rw [← sitesSize_append]
        refine .loop [] rfl ?_
        rw [heightFrom_append, hheight, hfront]
      · exact fun last => hstarts.within [] rfl
  | some code =>
      obtain ⟨stepSites, rfl, hstep, hstepFlow, -⟩ := hincrement code rfl
      -- The increment from its own start to its jump back to the condition.
      obtain ⟨back, hback⟩ : ∃ back : List Site, back = stepSites ++ [⟨.plain .pop, height + 1⟩,
        ⟨.jump .loop (before + 3 + sitesSize stepSites + 4), height⟩] := ⟨_, rfl⟩
      have hsize : sitesSize back = sitesSize stepSites + 4 := by
        simp [hback, Item.size]
      have hfrom (last : Nat) : heightFrom last back = height := by
        rw [hback, heightFrom_append]
        exact hstep
      have hloop (last : Nat) (front behind : List Site) (hfront : sitesSize front = before + 3)
          (hstart : heightFrom height front = height) : Flow pool last front back behind := by
        rw [hback]
        refine Flow.append (Flow.within hstepFlow) (Flow.cons ?_ (Flow.cons ?_ Flow.nil))
        · exact .plain rfl (by decide) (Nat.le_add_left 1 height) rfl
        · have hdistance : before + 3 + sitesSize stepSites + 4 =
              sitesSize (front ++ stepSites ++ [⟨.plain .pop, height + 1⟩]) + 3 := by
            simp only [sitesSize_append, sitesSize_cons, sitesSize_nil, Item.size, hfront]
          rw [hdistance]
          refine .loop [] rfl ?_
          rw [List.append_assoc, heightFrom_append, heightFrom_append]
          exact (congrArg (heightFrom · front) hstep).trans hstart
      have hend (last : Nat) (behind : List Site) : heightFrom last (sites ++
          ⟨.jump .loop (sitesSize (back ++ sites) + 3), height⟩ :: behind) = height := by
        rw [heightFrom_append]
        exact hheight
      refine ⟨⟨.jump .jump (sitesSize back), height⟩ ::
        (back ++ (sites ++ [⟨.jump .loop (sitesSize (back ++ sites) + 3), height⟩])), ?_,
        fun last => rfl, ?_, ?_⟩
      · simp [incrementCode, backDistance, hsize]
        simp [hback, sitesSize]
      · rintro last front behind rfl hfront
        refine Flow.cons ?_ (Flow.append ?_ (Flow.append (Flow.within ?_) (Flow.cons ?_ Flow.nil)))
        · refine .jump back _ ?_ (hend last behind)
          rw [List.append_assoc, List.append_assoc]
          rfl
        · exact hloop last _ _ (by simp [Item.size])
            (by rw [heightFrom_append, heightFrom_cons, hfront])
        · exact hflow
        · refine .loop (front ++ [_]) (List.append_assoc ..) ?_
          rw [heightFrom_append]
          exact hfrom _
      · intro last
        have hahead : codeSize (incrementCode before (some (itemsOf stepSites))) =
            sitesSize (⟨.jump .jump (sitesSize back), height⟩ :: back) := by
          rw [sitesSize_cons, hsize]
          simp [incrementCode, sitesSize, Item.size]
        rw [hahead]
        exact hstarts.within (⟨.jump .jump (sitesSize back), height⟩ :: back) rfl

/-- A loop, with or without a condition and an increment. -/
theorem loop {condition increment : Option (List Item)} {body : List Item}
    (hcondition : ∀ code ∈ condition, Balanced pool height code [] (height + 1))
    (hincrement : ∀ code ∈ increment, Balanced pool height code [] (height + 1))
    (hbody : Balanced pool height body starts height) :
    Balanced pool height (loopCode condition (stepCode (conditionSize condition) increment body))
      (shift (conditionSize condition +
        codeSize (incrementCode (conditionSize condition) increment))
        starts) height := by
  obtain ⟨stepSites, hitems, hheight, hflow, hstarts⟩ :=
    exists_stepSites (conditionSize condition) hincrement hbody
  cases condition with
  | none =>
      refine ⟨stepSites, hitems, hheight height, hflow height [] [] rfl rfl, ?_⟩
      have hsame : conditionSize none = 0 := rfl
      rw [hsame, Nat.zero_add]
      exact hstarts height
  | some code =>
      obtain ⟨sites, rfl, hcode, hcodeFlow, -⟩ := hcondition code rfl
      rw [loopCode, ← hitems]
      obtain ⟨front, hfront⟩ : ∃ front : List Site, front = sites ++
        [⟨.jump .jumpIfFalse (1 + sitesSize stepSites), height + 1⟩, ⟨.plain .pop, height + 1⟩] :=
          ⟨_, rfl⟩
      have hsize : sitesSize front = conditionSize (some (itemsOf sites)) := by
        simp [hfront, conditionSize, sitesSize, Item.size]
      have hstart : heightFrom height front = height := by
        rw [hfront, heightFrom_append]
        exact hcode
      refine ⟨front ++ (stepSites ++ [⟨.plain .pop, height + 1⟩]), ?_, ?_, ?_, ?_⟩
      · simp [hfront, sitesSize]
      · rw [heightFrom_append, heightFrom_append, hheight]
        exact hstart
      · refine Flow.append ?_ (Flow.append (hflow _ _ _ hsize hstart) (Flow.cons ?_ Flow.nil))
        · rw [hfront]
          refine Flow.append (Flow.within hcodeFlow) (Flow.cons ?_ (Flow.cons ?_ Flow.nil))
          · have hskipped :
                1 + sitesSize stepSites = sitesSize (⟨.plain .pop, height + 1⟩ :: stepSites) :=
              rfl
            rw [hskipped]
            exact .jumpIfFalse _ [⟨.plain .pop, height + 1⟩] (by simp) (Nat.succ_pos _) rfl rfl
          · refine .plain rfl (by decide) (Nat.le_add_left 1 height) ?_
            rw [List.nil_append, List.append_nil, heightFrom_append, hheight]
            rfl
        · exact .plain rfl (by decide) (Nat.le_add_left 1 height) rfl
      · have hwithin := (hstarts (height + 1)).within front
          (heightFrom_cons height ⟨.plain .pop, height + 1⟩ [])
        rw [hsize, shift_shift] at hwithin
        exact hwithin

end Balanced

namespace Expr

variable {pool : List Value} {scope : Scope} {height : Nat}

/-- A variable is found below the top of the stack, or by its name. -/
theorem balanced_access {onLocal onGlobal : Opcode} {x : String} {last : Nat}
    (hlocal : onLocal = .getLocal ∨ onLocal = .setLocal)
    (hglobal : onGlobal = .getGlobal ∨ onGlobal = .setGlobal)
    (hpops : onLocal.pops = onGlobal.pops) (hpushes : onLocal.pushes = onGlobal.pushes)
    (hscope : scope.length ≤ height) (henough : onLocal.pops ≤ height)
    (hlast : last + onLocal.pops = height + onLocal.pushes)
    (hmem : ∀ v ∈ scope.nameConstant x, v ∈ pool) (hroom : pool.length ≤ Chunk.constantsMax) :
    Balanced pool height [access pool scope onLocal onGlobal x] [] last := by
  unfold access
  cases hslot : scope.slot? x with
  | some slot =>
      obtain ⟨i, hi, rfl⟩ := Option.map_eq_some_iff.mp hslot
      have hlt : i < scope.length := (List.findIdx?_eq_some_iff_getElem.mp hi).1
      have hbyte : (UInt8.ofNat (scope.length - 1 - i)).toNat < height := by
        rw [UInt8.toNat_ofNat']
        have := Nat.mod_le (scope.length - 1 - i) (2 ^ 8)
        omega
      exact Balanced.single (.localAccess hlocal hbyte hlast)
  | none =>
      have hname : Value.string x ∈ pool := by
        refine hmem _ ?_
        simp [Scope.nameConstant, Scope.not_mem_of_slot? hslot]
      rw [hpops] at henough
      rw [hpops, hpushes] at hlast
      refine Balanced.single (.constant ?_ ?_ hname hroom (fun _ => ⟨x, rfl⟩) henough hlast)
      · rcases hglobal with rfl | rfl <;> rfl
      · rcases hglobal with rfl | rfl <;> decide

theorem balanced_opcodes (op : BinaryOp) :
    Balanced pool (height + 2) (op.opcodes.map .plain) [] (height + 1) := by
  have hone {code : Opcode} (hbytes : code.operandBytes = 0) (hstays : code ≠ .ret)
      (hpops : code.pops = 2) (hpushes : code.pushes = 1) :
      Balanced pool (height + 2) [.plain code] [] (height + 1) :=
    Balanced.plain hbytes hstays (by omega) (by omega)
  have hnot : Balanced pool (height + 1) [.plain .not] [] (height + 1) :=
    Balanced.plain rfl (by decide) (Nat.le_add_left 1 height) rfl
  cases op
  case notEqual | greaterEqual | lessEqual => exact (hone rfl (by decide) rfl rfl).append hnot
  all_goals exact hone rfl (by decide) rfl rfl

/-- The code of an expression leaves its value on what there was. -/
theorem balanced (e : Expr) (hscope : scope.length ≤ height)
    (hroom : pool.length ≤ Chunk.constantsMax) (hmem : ∀ v ∈ e.constants scope, v ∈ pool) :
    Balanced pool height (e.code pool scope) [] (height + 1) := by
  induction e generalizing height with
  | nil => exact Balanced.plain rfl (by decide) (Nat.zero_le _) rfl
  | bool b => cases b <;> exact Balanced.plain rfl (by decide) (Nat.zero_le _) rfl
  | number literal =>
      exact Balanced.single (.constant rfl (by decide) (hmem _ (List.mem_singleton_self _)) hroom
        (fun h => absurd rfl h) (Nat.zero_le _) rfl)
  | string s =>
      exact Balanced.single (.constant rfl (by decide) (hmem _ (List.mem_singleton_self _)) hroom
        (fun h => absurd rfl h) (Nat.zero_le _) rfl)
  | name x =>
      exact balanced_access (Or.inl rfl) (Or.inl rfl) rfl rfl hscope (Nat.zero_le _) rfl hmem hroom
  | assign x value ih =>
      obtain ⟨hname, hvalue⟩ := List.forall_mem_append.mp hmem
      have haccess :
          Balanced pool (height + 1) [access pool scope .setLocal .setGlobal x] [] (height + 1) :=
        balanced_access (Or.inr rfl) (Or.inr rfl) rfl rfl (hscope.trans (Nat.le_succ _))
          (Nat.le_add_left 1 height) rfl hname hroom
      exact (ih hscope hvalue).append haccess
  | unary op operand ih =>
      have hop : Balanced pool (height + 1) [.plain op.opcode] [] (height + 1) := by
        cases op <;> exact Balanced.plain rfl (by decide) (Nat.le_add_left 1 height) rfl
      exact (ih hscope hmem).append hop
  | binary op left right ihl ihr =>
      obtain ⟨hl, hr⟩ := List.forall_mem_append.mp hmem
      have hright := ihr (hscope.trans (Nat.le_succ height)) hr
      exact (ihl hscope hl).append (hright.append (balanced_opcodes op))
  | and left right ihl ihr =>
      obtain ⟨hl, hr⟩ := List.forall_mem_append.mp hmem
      have hpop : Balanced pool (height + 1) [.plain .pop] [] height :=
        Balanced.plain rfl (by decide) (Nat.le_add_left 1 height) rfl
      exact (ihl hscope hl).append ((hpop.append (ihr hscope hr)).skip (Nat.succ_pos height))
  | or left right ihl ihr =>
      obtain ⟨hl, hr⟩ := List.forall_mem_append.mp hmem
      have hpop : Balanced pool (height + 1) [.plain .pop] [] height :=
        Balanced.plain rfl (by decide) (Nat.le_add_left 1 height) rfl
      exact (ihl hscope hl).append ((Balanced.nil pool (height + 1)).choice
        (hpop.append (ihr hscope hr)) (Nat.succ_pos height))
  | group inner ih => exact ih hscope hmem

theorem balanced_optional {e : Option Expr} (hscope : scope.length ≤ height)
    (hroom : pool.length ≤ Chunk.constantsMax) (hmem : ∀ v ∈ optionalConstants scope e, v ∈ pool) :
    ∀ code ∈ e.map (Expr.code pool scope), Balanced pool height code [] (height + 1) := by
  intro code hcode
  cases e with
  | none => cases hcode
  | some e =>
      obtain rfl := Option.some.inj hcode
      exact e.balanced hscope hroom hmem

end Expr

/-- The offsets at which the declarations and statements of chains start, and the first
clauses of loops, with the numbers of locals in scope there. -/
def Stmt.starts (pool : List Value) (top : Bool) (scope : Scope) : Stmt → List (Nat × Nat)
  | .seq first rest =>
      (0, scope.length) :: (first.starts pool top scope ++
        shift (codeSize (first.code pool top scope))
          (rest.starts pool top (first.scopeAfter top scope)))
  | .block body => body.starts pool false scope
  | .branch condition yes no =>
      let before := codeSize (condition.code pool scope)
      shift (before + 4) (yes.starts pool top scope) ++
        shift (before + codeSize (yes.code pool top scope) + 8) (no.starts pool top scope)
  | .whileLoop condition body =>
      shift (codeSize (condition.code pool scope) + 4) (body.starts pool top scope)
  | .forLoop first condition increment body =>
      let inner := first.scopeAfter false scope
      let test := condition.map (Expr.code pool inner)
      let step := incrementCode (conditionSize test) (increment.map (Expr.code pool inner))
      (0, scope.length) :: (first.starts pool false scope ++
        shift (codeSize (first.code pool false scope) + conditionSize test + codeSize step)
          (body.starts pool false inner))
  | _ => []

namespace Stmt

variable {pool : List Value}

/-- A declaration without a value declares `nil`. -/
theorem balanced_initial {scope : Scope} {value : Option Expr}
    (hroom : pool.length ≤ Chunk.constantsMax)
    (hmem : ∀ v ∈ optionalConstants scope value, v ∈ pool) :
    Balanced pool scope.length ((value.getD .nil).code pool scope) [] (scope.length + 1) := by
  cases value with
  | none => exact Expr.balanced .nil le_rfl hroom (by simp [Expr.constants])
  | some e => exact e.balanced le_rfl hroom hmem

/-- The code of a statement leaves the locals that are in scope behind it, and finds those
in scope at each of its starts. -/
theorem balanced (s : Stmt) {top : Bool} {scope : Scope} (hregular : s.Regular)
    (hroom : pool.length ≤ Chunk.constantsMax) (hmem : ∀ v ∈ s.constants top scope, v ∈ pool) :
    Balanced pool scope.length (s.code pool top scope) (s.starts pool top scope)
      (s.scopeAfter top scope).length := by
  have hpop (height : Nat) : Balanced pool (height + 1) [.plain .pop] [] height :=
    Balanced.plain rfl (by decide) (Nat.le_add_left 1 height) rfl
  induction s generalizing top scope with
  | skip => exact Balanced.nil pool scope.length
  | seq first rest ihf ihr =>
      obtain ⟨hfirst, hrest⟩ := List.forall_mem_append.mp hmem
      exact ((ihf hregular.1 hfirst).append (ihr hregular.2 hrest)).begin
  | var x value =>
      obtain ⟨hname, hvalue⟩ := List.forall_mem_append.mp hmem
      have hinitial := balanced_initial hroom hvalue
      cases top with
      | false =>
          rw [code, if_neg (by decide), List.append_nil]
          exact hinitial
      | true =>
          have hx : Value.string x ∈ pool := hname _ (List.mem_singleton_self _)
          have hdefine : Balanced pool (scope.length + 1)
              [.operand .defineGlobal (indexIn pool (.string x))] [] scope.length :=
            Balanced.single (.constant rfl (by decide) hx hroom (fun _ => ⟨x, rfl⟩)
              (Nat.le_add_left 1 scope.length) rfl)
          exact hinitial.append hdefine
  | print e =>
      have hprint : Balanced pool (scope.length + 1) [.plain .print] [] scope.length :=
        Balanced.plain rfl (by decide) (Nat.le_add_left 1 scope.length) rfl
      exact (e.balanced le_rfl hroom hmem).append hprint
  | expression e => exact (e.balanced le_rfl hroom hmem).append (hpop scope.length)
  | block body ih =>
      exact (ih hregular hmem).snoc (Balanced.leave pool (body.length_le_scopeAfter false scope))
  | branch condition yes no ihy ihn =>
      obtain ⟨hboth, hno⟩ := List.forall_mem_append.mp hmem
      obtain ⟨hcondition, hyes⟩ := List.forall_mem_append.mp hboth
      obtain ⟨⟨hyesKeeps, hnoKeeps⟩, hyesRegular, hnoRegular⟩ := hregular
      have hfirst := (hpop scope.length).append (ihy hyesRegular hyes)
      have hsecond := (hpop scope.length).append (ihn hnoRegular hno)
      rw [scopeAfter_of_declared hyesKeeps] at hfirst
      rw [scopeAfter_of_declared hnoKeeps] at hsecond
      have hwhole := (condition.balanced le_rfl hroom hcondition).append
        (hfirst.choice hsecond (Nat.succ_pos _))
      refine hwhole.congr ?_ ?_
      · simp [code, Item.size, Nat.add_assoc]
      · simp only [starts, List.nil_append, shift_append, shift_shift, codeSize_append,
          codeSize_cons, codeSize_nil, Item.size]
        grind
  | whileLoop condition body ih =>
      obtain ⟨hcondition, hbody⟩ := List.forall_mem_append.mp hmem
      have hloop := @Balanced.loop pool scope.length _ (some (condition.code pool scope)) none _
        (by simpa using condition.balanced le_rfl hroom hcondition) (by simp)
        ((scopeAfter_of_declared hregular.1 top scope) ▸ ih hregular.2 hbody)
      exact hloop
  | forLoop first condition increment body ihf ih =>
      obtain ⟨hclauses, hbody⟩ := List.forall_mem_append.mp hmem
      obtain ⟨hboth, hincrement⟩ := List.forall_mem_append.mp hclauses
      obtain ⟨hfirst, hcondition⟩ := List.forall_mem_append.mp hboth
      obtain ⟨hbodyKeeps, hfirstRegular, hbodyRegular⟩ := hregular
      have hbodyBalanced := ih hbodyRegular hbody
      rw [scopeAfter_of_declared hbodyKeeps] at hbodyBalanced
      have hloop := Balanced.loop (Expr.balanced_optional le_rfl hroom hcondition)
        (Expr.balanced_optional le_rfl hroom hincrement) hbodyBalanced
      have hleave := Balanced.leave pool (first.length_le_scopeAfter false scope)
      have hwhole := ((ihf hfirstRegular hfirst).append hloop).snoc hleave
      refine hwhole.begin.congr rfl ?_
      rw [starts, shift_shift, Nat.add_assoc]

end Stmt

end StackScript.Tree
