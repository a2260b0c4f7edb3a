import StackScript.Proofs.Machine.Ending
import StackScript.Proofs.Machine.Keeping
import StackScript.Proofs.Tree.Targets
import StackScript.Proofs.WellFormed

/-!
What a program may change among the globals. However it ends, it removes none, adds only those that
it declares outside every block, and changes besides only those that it assigns to where they are
no locals.
-/

namespace StackScript

open Tree

namespace Globals

@[simp] theorem contains_insert (g : Globals) (name other : String) (v : Value) :
    (g.insert name v).contains other = (other = name || g.contains other) := by
  unfold contains
  rw [get?_insert]
  by_cases h : other = name <;> simp [h]

/-- What may have become of globals of which these are declared and those assigned to. -/
structure Frame (declared targets : List String) (g g' : Globals) : Prop where
  kept : ∀ x, g.contains x → g'.contains x
  fresh : ∀ x, g'.contains x → g.contains x ∨ x ∈ declared
  same : ∀ x, g.contains x → g'.get? x = g.get? x ∨ x ∈ declared ∨ x ∈ targets

namespace Frame

variable {declared targets : List String} {g g' : Globals} {x : String}

theorem refl (g : Globals) : g.Frame declared targets g :=
  ⟨fun _ h => h, fun _ h => Or.inl h, fun _ _ => Or.inl rfl⟩

theorem define (h : g.Frame declared targets g') (hx : x ∈ declared) (v : Value) :
    g.Frame declared targets (g'.insert x v) where
  kept y hy := by simp [h.kept y hy]
  fresh y hy := by
    by_cases hname : y = x
    · exact Or.inr (hname ▸ hx)
    · exact h.fresh y (by simpa [hname] using hy)
  same y hy := by
    by_cases hname : y = x
    · exact Or.inr (Or.inl (hname ▸ hx))
    · simpa [hname] using h.same y hy

theorem set (h : g.Frame declared targets g') (hx : x ∈ targets) (hthere : g'.contains x)
    (v : Value) :
    g.Frame declared targets (g'.insert x v) where
  kept y hy := by simp [h.kept y hy]
  fresh y hy := by
    by_cases hname : y = x
    · exact h.fresh y (hname ▸ hthere)
    · exact h.fresh y (by simpa [hname] using hy)
  same y hy := by
    by_cases hname : y = x
    · exact Or.inr (Or.inr (hname ▸ hx))
    · simpa [hname] using h.same y hy

end Frame

end Globals

/-- An instruction of code that names these globals only keeps to the frame. -/
theorem Instruction.harmless_frame {pool : List Value} {declared targets : List String}
    {item : Item} {i : Instruction} (hnames : item.Names pool declared targets)
    (hi : item.instruction? pool = some i) (g : Globals) :
    i.Harmless fun m => g.Frame declared targets m.globals where
  push _ _ _ h := h
  drop _ _ h := h
  store _ _ _ _ h := h
  define x hdefine _ v h := h.define (hnames.defines x (hdefine ▸ hi)) v
  set x hset _ v hthere h := h.set (hnames.sets x (hset ▸ hi)) hthere v
  write _ _ _ h := h

namespace Chunk.Follows

variable {c : Chunk} {sites : List Site} (h : c.Follows sites) {declared targets : List String}
  (hnames : Names c.constants.toList declared targets (itemsOf sites)) {ip : Nat} {m m' : Machine}
include h

/-- What is fetched at a site is the instruction there, or the one that returns. -/
theorem item_of_fetch {height : Nat} {i : Instruction} (hreaches : Reaches sites ip height)
    (hfetch : (c.fetch ip).result = .ok i) :
    ∃ item ∈ itemsOf sites ++ [.plain .ret], item.instruction? c.constants.toList = some i := by
  obtain ⟨before, behind, hsplit, rfl, -⟩ := hreaches
  cases behind with
  | nil =>
      rw [List.append_nil] at hsplit
      rw [← hsplit, h.has_ret.fetch_instruction (i := .ret) rfl nofun] at hfetch
      exact ⟨.plain .ret, by simp, congrArg some (Except.ok.inj hfetch)⟩
  | cons site behind =>
      obtain ⟨j, hj, hsite⟩ := h.exists_fetch hsplit
      rw [hsite] at hfetch
      obtain rfl := Except.ok.inj hfetch
      exact ⟨site.item, by rw [hsplit]; simp, hj⟩

include hnames

theorem harmless_of_fetch (hreaches : ∃ height, Reaches sites ip height) (g : Globals)
    (i : Instruction) (hfetch : (c.fetch ip).result = .ok i) :
    i.Harmless fun m => g.Frame declared targets m.globals := by
  obtain ⟨height, hreaches⟩ := hreaches
  obtain ⟨item, hitem, hi⟩ := h.item_of_fetch hreaches hfetch
  have hall : Names c.constants.toList declared targets (itemsOf sites ++ [.plain .ret]) := by
    simpa using hnames
  exact Instruction.harmless_frame (hall item hitem) hi g

/-- A run keeps to the frame at every step and to its end. -/
theorem frame_of_runChunk {fuel : Nat} {tracing : Bool} {failure : Option Failure}
    {log : Array Record} (hruns : m.runChunk fuel tracing c = some (m', failure, log)) :
    m.globals.Frame declared targets m'.globals := by
  obtain ⟨m₂, hframe, rfl⟩ :=
    Machine.keeps_of_runChunk (Q := fun ip => ∃ height, Reaches sites ip height)
    (fun _ _ _ _ hreaches hstep => h.exists_reaches_of_step hreaches hstep)
    (fun _ hreaches => h.harmless_of_fetch hnames hreaches m.globals) ⟨_, [], sites, rfl, rfl, rfl⟩
    (.refl m.globals) hruns
  exact hframe

end Chunk.Follows

/-- Compiled code names the globals that its program declares and assigns to. -/
theorem Chunk.Encodes.frame_of_runChunk {c : Chunk} {tree : Stmt} {tokens : List Token}
    (h : c.Encodes tree) (htokens : ProgramTokens tree tokens)
    (hadmissible : tree.admissible = true) {m m' : Machine} {fuel : Nat} {tracing : Bool}
    {failure : Option Failure} {log : Array Record}
    (hruns : m.runChunk fuel tracing c = some (m', failure, log)) :
    m.globals.Frame (tree.declared []) (tree.targets true []) m'.globals := by
  obtain ⟨sites, hfollows, hitems, -⟩ := h.exists_follows htokens hadmissible
  obtain ⟨-, -, -, hroom, -⟩ := Stmt.admissible_iff.mp hadmissible
  refine hfollows.frame_of_runChunk ?_ hruns
  rw [hitems, h.constants]
  exact Stmt.names_code hroom htokens.regular (fun v hv => mem_grow hv) (fun _ _ hx => hx)
    fun _ hx => hx

/-- The frame of the globals. Whatever a text does and however it ends, on any machine, it removes
no global; every global that is new is declared outside every block and `for`; and every other one
that has changed is so declared, too, or the target of an assignment where no local has its name.
A text that does not compile changes nothing at all. -/
theorem interpret_frame {m m' : Machine} {fuel : Nat} {tracing : Bool} {source : String}
    {failure : Option Failure} {log : Array Record}
    (h : m.interpret fuel tracing source = some (m', failure, log)) :
    (∀ x, m.globals.contains x → m'.globals.contains x) ∧
      ((∃ errors, failure = some (.compile errors)) → m' = m) ∧
      ((¬ ∃ errors, failure = some (.compile errors)) →
        ∃ tree, ProgramTokens tree (Token.scan source)) ∧
      ∀ tree, ProgramTokens tree (Token.scan source) →
        (∀ x, m'.globals.contains x → m.globals.contains x ∨ x ∈ tree.declared []) ∧
        ∀ x, m.globals.contains x → m'.globals.get? x = m.globals.get? x ∨
          x ∈ tree.declared [] ∨ x ∈ tree.targets true [] := by
  rcases Machine.run_of_interpret h with ⟨errors, -, rfl, rfl⟩ | ⟨c, records, hc, hruns⟩
  · refine ⟨fun _ hx => hx, fun _ => rfl, fun hnone => absurd ⟨errors, rfl⟩ hnone, fun tree _ => ?_⟩
    exact ⟨fun _ hx => Or.inl hx, fun _ _ => Or.inl rfl⟩
  · obtain ⟨tree, htree, hadmissible, hencodes⟩ := exists_tree_of_compile hc
    have hframe := hencodes.frame_of_runChunk htree hadmissible hruns
    refine ⟨hframe.kept, ?_, fun _ => ⟨tree, htree⟩, fun tree htree => ?_⟩
    · rintro ⟨errors, herrors⟩
      obtain ⟨-, -, -, -, outcome, -, -, -, -, hfailure⟩ := Machine.ends_of_runChunk hruns
      rw [herrors] at hfailure
      cases outcome <;> cases hfailure
    · have hadmissible := (compile_iff_admissible htree).mp ⟨c, hc⟩
      have hframe := (encodes_of_compile htree hc).frame_of_runChunk htree hadmissible hruns
      exact ⟨hframe.fresh, hframe.same⟩

/-- A text that assigns to a global, and to a local with the name of another, before it fails. -/
theorem interpret_frame_shadowed :
    let m : Machine := { globals := ⟨[("g", .nil), ("h", .nil)]⟩ }
    let source := "var a = g = true; { var h; h = true; b = h; }"
    ∃ m' failure log, m.interpret 20 false source = some (m', failure, log) ∧
      (∀ x, m.globals.contains x → m'.globals.contains x) ∧
      ((∃ errors, failure = some (.compile errors)) → m' = m) ∧
      ((¬ ∃ errors, failure = some (.compile errors)) →
        ∃ tree, ProgramTokens tree (Token.scan source)) ∧
      ∀ tree, ProgramTokens tree (Token.scan source) →
        (∀ x, m'.globals.contains x → m.globals.contains x ∨ x ∈ tree.declared []) ∧
        ∀ x, m.globals.contains x → m'.globals.get? x = m.globals.get? x ∨
          x ∈ tree.declared [] ∨ x ∈ tree.targets true [] := by
  intro m source
  have hsome : (m.interpret 20 false source).isSome = true := by decide +kernel
  obtain ⟨⟨m', failure, log⟩, hruns⟩ := Option.isSome_iff_exists.mp hsome
  exact ⟨m', failure, log, hruns, interpret_frame hruns⟩

end StackScript
