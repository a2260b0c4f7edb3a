import StackScript.Proofs.Pool
import StackScript.Proofs.Code.Boundary

/-!
The stack along the code of a tree. Every instruction is given the number of values that
it finds on the stack, and passes the right number on to wherever it leads: to the
instruction behind it, over some instructions, or back over some. Code that is put
together from balanced parts is balanced again; the parts refer to nothing outside
themselves and the pool.
-/

namespace StackScript

namespace Opcode

/-- How many values have to be on the stack and are taken or looked at. -/
def pops : Opcode → Nat
  | .equal | .greater | .less | .add | .subtract | .multiply | .divide => 2
  | .pop | .setLocal | .defineGlobal | .setGlobal | .not | .negate | .print | .jumpIfFalse => 1
  | _ => 0

/-- How many values there are in their place. -/
def pushes : Opcode → Nat
  | .constant | .pushNil | .pushTrue | .pushFalse | .getLocal | .setLocal | .getGlobal | .setGlobal
  | .equal | .greater | .less | .add | .subtract | .multiply | .divide | .not | .negate
  | .jumpIfFalse => 1
  | _ => 0

end Opcode

namespace Tree

/-- The operand of the instruction stands for a constant of the kind that it needs. -/
def Item.Refers (pool : List Value) (item : Item) : Prop :=
  ∀ op byte, item = .operand op byte → op ∈ [.constant, .getGlobal, .defineGlobal, .setGlobal] →
    ∃ v, pool[byte.toNat]? = some v ∧ (op ≠ .constant → ∃ name, v = .string name)

structure Item.Made (pool : List Value) (item : Item) : Prop where
  shaped : item.Shaped
  stays : item.op ≠ .ret
  refers : item.Refers pool

/-- An instruction and the number of values that it finds on the stack. -/
structure Site where
  item : Item
  height : Nat

def itemsOf (sites : List Site) : List Item := sites.map Site.item

def sitesSize (sites : List Site) : Nat := codeSize (itemsOf sites)

/-- The height at the first of some sites, or `last` behind them all. -/
def heightFrom (last : Nat) : List Site → Nat
  | [] => last
  | site :: _ => site.height

/-- A site between others passes on what it should. -/
structure Site.Flows (pool : List Value) (last : Nat) (before : List Site) (site : Site)
    (behind : List Site) : Prop where
  made : site.item.Made pool
  enough : site.item.op.pops ≤ site.height
  slot : ∀ op byte, site.item = .operand op byte → op ∈ [.getLocal, .setLocal] →
    byte.toNat < site.height
  falls : site.item.op ∉ [.jump, .loop] →
    heightFrom last behind + site.item.op.pops = site.height + site.item.op.pushes
  leaps : ∀ op distance, site.item = .jump op distance → op ≠ .loop →
    ∃ skipped rest, behind = skipped ++ rest ∧ distance = sitesSize skipped ∧
      heightFrom last rest = site.height
  loops : ∀ distance, site.item = .jump .loop distance →
    ∃ front skipped, before = front ++ skipped ∧ distance = sitesSize skipped + 3 ∧
      heightFrom site.height skipped = site.height

/-- All of the sites pass on what they should, between others in `front` and `back`. -/
def Flow (pool : List Value) (last : Nat) (front sites back : List Site) : Prop :=
  ∀ before site behind, sites = before ++ site :: behind →
    site.Flows pool last (front ++ before) (behind ++ back)

@[simp] theorem itemsOf_nil : itemsOf [] = [] := rfl

@[simp] theorem itemsOf_cons (site : Site) (rest : List Site) :
    itemsOf (site :: rest) = site.item :: itemsOf rest := rfl

@[simp] theorem itemsOf_append (first second : List Site) :
    itemsOf (first ++ second) = itemsOf first ++ itemsOf second :=
  List.map_append

@[simp] theorem sitesSize_nil : sitesSize [] = 0 := rfl

@[simp] theorem sitesSize_cons (site : Site) (rest : List Site) :
    sitesSize (site :: rest) = site.item.size + sitesSize rest := by
  simp [sitesSize]

@[simp] theorem sitesSize_append (first second : List Site) :
    sitesSize (first ++ second) = sitesSize first + sitesSize second := by
  simp [sitesSize]

@[simp] theorem heightFrom_nil (last : Nat) : heightFrom last [] = last := rfl

@[simp] theorem heightFrom_cons (last : Nat) (site : Site) (rest : List Site) :
    heightFrom last (site :: rest) = site.height := rfl

theorem heightFrom_append (last : Nat) (first second : List Site) :
    heightFrom last (first ++ second) = heightFrom (heightFrom last second) first := by
  cases first <;> rfl

namespace Flow

variable {pool : List Value} {last : Nat} {front back : List Site}

theorem nil : Flow pool last front [] back := by
  intro before site behind h
  simp at h

theorem cons {site : Site} {rest : List Site} (hsite : site.Flows pool last front (rest ++ back))
    (hrest : Flow pool last (front ++ [site]) rest back) :
    Flow pool last front (site :: rest) back := by
  intro before other behind h
  cases before with
  | nil =>
      obtain ⟨rfl, rfl⟩ := List.cons.inj h
      rwa [List.append_nil]
  | cons first before =>
      obtain ⟨rfl, hsplit⟩ := List.cons.inj h
      have hother := hrest before other behind hsplit
      rwa [List.append_assoc] at hother

theorem append {first second : List Site} (hfirst : Flow pool last front first (second ++ back))
    (hsecond : Flow pool last (front ++ first) second back) :
    Flow pool last front (first ++ second) back := by
  induction first generalizing front with
  | nil => rwa [List.append_nil] at hsecond
  | cons site rest ih =>
      refine cons ?_ (ih ?_ ?_)
      · have hsite := hfirst [] site rest rfl
        rwa [List.append_nil, ← List.append_assoc] at hsite
      · intro before other behind h
        have hother := hfirst (site :: before) other behind (by rw [h, List.cons_append])
        rwa [List.append_assoc]
      · rwa [List.append_assoc]

/-- What flows on its own flows anywhere, if its end has the right height. -/
theorem within {sites : List Site} (h : Flow pool (heightFrom last back) [] sites []) :
    Flow pool last front sites back := by
  intro before site behind hsplit
  obtain ⟨hmade, henough, hslot, hfalls, hleaps, hloops⟩ := h before site behind hsplit
  rw [List.append_nil] at hfalls hleaps
  rw [List.nil_append] at hloops
  refine ⟨hmade, henough, hslot, ?_, ?_, ?_⟩
  · rwa [heightFrom_append]
  · intro op distance hitem hop
    obtain ⟨skipped, rest, rfl, hdistance, hheight⟩ := hleaps op distance hitem hop
    exact ⟨skipped, rest ++ back, List.append_assoc .., hdistance, by rwa [heightFrom_append]⟩
  · intro distance hitem
    obtain ⟨start, skipped, rfl, hdistance, hheight⟩ := hloops distance hitem
    exact ⟨front ++ start, skipped, (List.append_assoc ..).symm, hdistance, hheight⟩

end Flow

namespace Site.Flows

variable {pool : List Value} {last height : Nat} {before behind : List Site}

theorem plain {op : Opcode} (hbytes : op.operandBytes = 0) (hstays : op ≠ .ret)
    (henough : op.pops ≤ height) (hfalls : heightFrom last behind + op.pops = height + op.pushes) :
    Flows pool last before ⟨.plain op, height⟩ behind :=
  ⟨⟨by rw [Item.Shaped, Item.op, hbytes]; rfl, hstays, nofun⟩, henough, nofun, fun _ => hfalls,
    nofun, nofun⟩

theorem constant {op : Opcode} {v : Value} (hbytes : op.operandBytes = 1)
    (hother : op ∉ [.getLocal, .setLocal]) (hmem : v ∈ pool)
    (hroom : pool.length ≤ Chunk.constantsMax) (hname : op ≠ .constant → ∃ name, v = .string name)
    (henough : op.pops ≤ height) (hfalls : heightFrom last behind + op.pops = height + op.pushes) :
    Flows pool last before ⟨.operand op (indexIn pool v), height⟩ behind := by
  have hstays : op ≠ .ret := by
    rintro rfl
    cases hbytes
  refine ⟨⟨by rw [Item.Shaped, Item.op, hbytes]; rfl, hstays, ?_⟩, henough, ?_, fun _ => hfalls,
    nofun, nofun⟩
  · rintro op' byte hop -
    obtain ⟨rfl, rfl⟩ := Item.operand.inj hop
    exact ⟨v, getElem?_indexIn hmem hroom, hname⟩
  · rintro op' byte hop hslot
    obtain ⟨rfl, rfl⟩ := Item.operand.inj hop
    exact absurd hslot hother

theorem localAccess {op : Opcode} {byte : UInt8} (hop : op = .getLocal ∨ op = .setLocal)
    (hslot : byte.toNat < height) (hfalls : heightFrom last behind + op.pops = height + op.pushes) :
    Flows pool last before ⟨.operand op byte, height⟩ behind := by
  have hbytes : op.operandBytes = 1 := by rcases hop with rfl | rfl <;> rfl
  have hstays : op ≠ .ret := by rcases hop with rfl | rfl <;> decide
  have hpops : op.pops ≤ 1 := by rcases hop with rfl | rfl <;> decide
  have hkind : op ∉ [.constant, .getGlobal, .defineGlobal, .setGlobal] := by
    rcases hop with rfl | rfl <;> decide
  refine ⟨⟨by rw [Item.Shaped, Item.op, hbytes]; rfl, hstays, ?_⟩, ?_, ?_, fun _ => hfalls, nofun,
    nofun⟩
  · rintro op' byte' hop' hmem
    obtain ⟨rfl, rfl⟩ := Item.operand.inj hop'
    exact absurd hmem hkind
  · exact hpops.trans (Nat.one_le_of_lt hslot)
  · rintro op' byte' hop' -
    obtain ⟨rfl, rfl⟩ := Item.operand.inj hop'
    exact hslot

/-- A jump over some sites. -/
theorem jump (skipped rest : List Site) (hsplit : behind = skipped ++ rest)
    (hheight : heightFrom last rest = height) :
    Flows pool last before ⟨.jump .jump (sitesSize skipped), height⟩ behind := by
  refine ⟨⟨rfl, nofun, nofun⟩, Nat.zero_le _, nofun, fun hop => ?_, ?_, nofun⟩
  · exact absurd (List.mem_cons_self ..) hop
  · rintro op distance hitem -
    obtain ⟨rfl, rfl⟩ := Item.jump.inj hitem
    exact ⟨skipped, rest, hsplit, rfl, hheight⟩

/-- A jump over some sites that is taken or not. -/
theorem jumpIfFalse (skipped rest : List Site) (hsplit : behind = skipped ++ rest)
    (hpos : 0 < height) (hnext : heightFrom last behind = height)
    (hheight : heightFrom last rest = height) :
    Flows pool last before ⟨.jump .jumpIfFalse (sitesSize skipped), height⟩ behind := by
  refine ⟨⟨rfl, nofun, nofun⟩, hpos, nofun, fun _ => ?_, ?_, nofun⟩
  · rw [hnext]
    rfl
  · rintro op distance hitem -
    obtain ⟨rfl, rfl⟩ := Item.jump.inj hitem
    exact ⟨skipped, rest, hsplit, rfl, hheight⟩

/-- A jump back over some sites. -/
theorem loop (front : List Site) {skipped : List Site} (hsplit : before = front ++ skipped)
    (hheight : heightFrom height skipped = height) :
    Flows pool last before ⟨.jump .loop (sitesSize skipped + 3), height⟩ behind := by
  refine ⟨⟨rfl, nofun, nofun⟩, Nat.zero_le _, nofun, fun hop => ?_, ?_, ?_⟩
  · exact absurd (List.mem_cons_of_mem _ (List.mem_cons_self ..)) hop
  · rintro op distance hitem hop
    obtain ⟨rfl, rfl⟩ := Item.jump.inj hitem
    exact absurd rfl hop
  · rintro distance hitem
    obtain ⟨-, rfl⟩ := Item.jump.inj hitem
    exact ⟨front, skipped, hsplit, rfl, hheight⟩

end Site.Flows

end Tree

end StackScript
