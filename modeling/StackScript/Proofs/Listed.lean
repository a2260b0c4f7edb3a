import StackScript.Proofs.Code.Cuts
import StackScript.Proofs.Simulation.Basic
import StackScript.Proofs.WellFormed

/-!
Listings against runs. Listing a chunk and running it read its bytes by code of their own, and
they agree: on where an instruction ends, on where a jump leads, and in compiled code on where
instructions stand.
-/

namespace StackScript

namespace Chunk

variable {c : Chunk} {offset : Nat}

/-- The line at `offset` shows a jump to `target`. -/
def ShowsTarget (c : Chunk) (offset : Nat) (target : Int) : Prop :=
  ∃ front, c.instructionLine? offset = some (front ++ " -> " ++ toString target)

/-- A jump to `target` is what the instruction at `offset` does to a machine: `jump` always,
`jumpIfFalse` with a falsey value on top, and `loop` unless the target is before the code. -/
structure Targets (c : Chunk) (offset : Nat) (target : Int) : Prop where
  jump : c.opAt? offset = some .jump →
    ∀ m : Machine, ∃ ip : Nat, m.step c offset = .ok ip m ∧ target = ip
  taken : c.opAt? offset = some .jumpIfFalse → ∀ (m : Machine) (v : Value),
    Exec.peek m = .ok v m → v.isFalsey = true → ∃ ip : Nat, m.step c offset = .ok ip m ∧ target = ip
  back : c.opAt? offset = some .loop → 0 ≤ target →
    ∀ m : Machine, ∃ ip : Nat, m.step c offset = .ok ip m ∧ target = ip
  invalid : c.opAt? offset = some .loop → ∀ m : Machine, target < 0 ↔
    ∃ e m', m.step c offset = .error (.failed e) m' ∧ e.fault = .invalidJump

/-- The listing of a chunk is complete and says what a machine does. -/
structure Listed (c : Chunk) : Prop where
  lines : ∀ name, ∃ lines : List String, c.offsets.toList.map c.instructionLine? = lines.map some ∧
    c.listing name = "== " ++ name ++ " ==\n" ++ String.join (lines.map (· ++ "\n"))
  start : 0 < c.size → c.offsets[0]? = some 0
  ordered : c.offsets.toList.Pairwise (· < ·)
  within : ∀ offset ∈ c.offsets, offset < c.nextOffset offset ∧ c.nextOffset offset ≤ c.size
  pieces : ∀ i < c.size, ∃! offset, offset ∈ c.offsets ∧ offset ≤ i ∧ i < c.nextOffset offset
  next : ∀ offset op, c.opAt? offset = some op → offset + 1 + op.operandBytes ≤ c.size →
    c.nextOffset offset = (c.fetch offset).next
  targets : ∀ offset op, c.opAt? offset = some op → op ∈ [.jump, .jumpIfFalse, .loop] →
    offset + 1 + op.operandBytes ≤ c.size →
      ∃ target, c.ShowsTarget offset target ∧ c.Targets offset target

/-- A listing consists of its lines. -/
theorem exists_lines (c : Chunk) (name : String) : ∃ lines : List String,
    c.offsets.toList.map c.instructionLine? = lines.map some ∧
      c.listing name = "== " ++ name ++ " ==\n" ++ String.join (lines.map (· ++ "\n")) := by
  have hfold (offsets : List Nat) (shown : String) :
      offsets.foldl (fun shown offset => shown ++ (c.instructionLine? offset).getD "" ++ "\n")
        shown =
        shown ++ String.join
          ((offsets.map fun offset => (c.instructionLine? offset).getD "").map (· ++ "\n")) := by
    induction offsets generalizing shown with
    | nil => simp
    | cons offset rest ih =>
        rw [List.foldl_cons, ih, List.map_cons, List.map_cons, String.join_cons]
        simp only [String.append_assoc]
  refine ⟨c.offsets.toList.map fun offset => (c.instructionLine? offset).getD "", ?_, ?_⟩
  · rw [List.map_map]
    apply List.map_congr_left
    intro offset hoffset
    obtain ⟨-, hlt⟩ := c.cuts_offsets.within offset hoffset
    obtain ⟨line, hline⟩ := Option.isSome_iff_exists.mp (c.isSome_instructionLine? hlt)
    simp [hline]
  · unfold listing
    rw [← Array.foldl_toList]
    exact hfold _ _

theorem signed_eq (target : Int) : Listing.signed target = toString target := by
  cases target <;> rfl

/-- The line of a jump ends with its target. -/
theorem showsTarget {op : Opcode} {distance : Nat} (hop : c.opAt? offset = some op)
    (hjump : op ∈ [.jump, .jumpIfFalse, .loop]) (hcomplete : offset + 1 + op.operandBytes ≤ c.size)
    (hword : c.wordAt? (offset + 1) = some distance) :
    c.ShowsTarget offset (jumpTarget op offset distance) := by
  obtain ⟨byte, hbyte, hof⟩ := Option.bind_eq_some_iff.mp hop
  have htext : ∃ front, c.instructionText op offset =
      some (front ++ " -> " ++ toString (jumpTarget op offset distance)) := by
    simp only [List.mem_cons, List.not_mem_nil, or_false] at hjump
    obtain rfl | rfl | rfl := hjump
    all_goals
      unfold instructionText
      simp only [hword, signed_eq, Option.bind_eq_bind, Option.bind_some]
      exact ⟨_, rfl⟩
  obtain ⟨front, htext⟩ := htext
  refine ⟨Listing.padLeft 4 '0' offset.repr ++ " " ++ c.lineColumn offset ++ front, ?_⟩
  unfold instructionLine?
  simp only [hbyte, hof, htext, if_neg (Nat.not_lt.mpr hcomplete), Option.bind_eq_bind,
    Option.bind_some, Option.pure_def, String.append_assoc]

section Jumps

variable {distance : Nat}

theorem targets_jump (hop : c.opAt? offset = some .jump)
    (hfetch : c.fetch offset = ⟨offset + 3, .ok (.jump distance)⟩) :
    c.Targets offset (jumpTarget .jump offset distance) where
  jump _ m := by
    refine ⟨offset + 3 + distance, Machine.step_of_fetch hfetch m, ?_⟩
    simp [jumpTarget]
  taken hother := by simp [hop] at hother
  back hother := by simp [hop] at hother
  invalid hother := by simp [hop] at hother

theorem targets_jumpIfFalse (hop : c.opAt? offset = some .jumpIfFalse)
    (hfetch : c.fetch offset = ⟨offset + 3, .ok (.jumpIfFalse distance)⟩) :
    c.Targets offset (jumpTarget .jumpIfFalse offset distance) where
  jump hother := by simp [hop] at hother
  taken _ m v hpeek hfalsey := by
    refine ⟨offset + 3 + distance, ?_, by simp [jumpTarget]⟩
    have hexec : (Instruction.jumpIfFalse distance).exec (offset + 3) m =
        .ok (if v.isFalsey then offset + 3 + distance else offset + 3) m := bind_of_ok hpeek
    rw [Machine.step_of_fetch hfetch, hexec, if_pos hfalsey]
  back hother := by simp [hop] at hother
  invalid hother := by simp [hop] at hother

theorem targets_loop (hop : c.opAt? offset = some .loop)
    (hfetch : c.fetch offset = ⟨offset + 3, .ok (.loop distance)⟩) :
    c.Targets offset (jumpTarget .loop offset distance) := by
  have htarget : jumpTarget .loop offset distance = (offset + 3 : Int) - distance := rfl
  have hgoes (hle : distance ≤ offset + 3) (m : Machine) :
      m.step c offset = .ok (offset + 3 - distance) m := by
    have hexec : (Instruction.loop distance).exec (offset + 3) = pure (offset + 3 - distance) :=
      if_pos hle
    rw [Machine.step_of_fetch hfetch, hexec]
    rfl
  have hfails (hlt : ¬ distance ≤ offset + 3) (m : Machine) :
      m.step c offset = .error (.failed ⟨.invalidJump, c.lineBefore (offset + 3)⟩) m := by
    have hexec : (Instruction.loop distance).exec (offset + 3) = Exec.raise .invalidJump :=
      if_neg hlt
    rw [Machine.step_of_fetch hfetch, hexec]
    rfl
  rw [htarget]
  refine ⟨fun hother => by simp [hop] at hother, fun hother => by simp [hop] at hother, ?_, ?_⟩
  · intro _ hnonneg m
    exact ⟨offset + 3 - distance, hgoes (by omega) m, by omega⟩
  · intro _ m
    constructor
    · intro hneg
      exact ⟨_, m, hfails (by omega) m, rfl⟩
    · rintro ⟨e, m', hstep, -⟩
      by_contra hnonneg
      rw [hgoes (by omega) m] at hstep
      cases hstep

/-- A jump leads where its line says. -/
theorem exists_target {op : Opcode} (hop : c.opAt? offset = some op)
    (hjump : op ∈ [.jump, .jumpIfFalse, .loop])
    (hcomplete : offset + 1 + op.operandBytes ≤ c.size) :
    ∃ target, c.ShowsTarget offset target ∧ c.Targets offset target := by
  have hlt : offset + 1 + 1 < c.size := by
    simp only [List.mem_cons, List.not_mem_nil, or_false] at hjump
    obtain rfl | rfl | rfl := hjump <;> exact hcomplete
  obtain ⟨distance, hword, hfetch⟩ := wordAt?_of_lt_size hlt
  refine ⟨jumpTarget op offset distance, showsTarget hop hjump hcomplete hword, ?_⟩
  have hwhole := fetch_of_opAt? hop
  simp only [List.mem_cons, List.not_mem_nil, or_false] at hjump
  obtain rfl | rfl | rfl := hjump
  · exact targets_jump hop (hwhole.trans (hfetch _))
  · exact targets_jumpIfFalse hop (hwhole.trans (hfetch _))
  · exact targets_loop hop (hwhole.trans (hfetch _))

end Jumps

theorem listed (c : Chunk) : c.Listed where
  lines := c.exists_lines
  start := by
    intro hpos
    have hcuts := c.cuts_offsets
    rw [← Array.getElem?_toList]
    generalize c.offsets.toList = offsets at hcuts
    generalize hzero : 0 = first at hcuts
    cases hcuts with
    | done => omega
    | piece => rw [← hzero]; rfl
  ordered := c.cuts_offsets.ordered
  within := by
    intro offset hoffset
    obtain ⟨-, hlt⟩ := c.cuts_offsets.within offset (Array.mem_toList_iff.mpr hoffset)
    exact ⟨lt_nextOffset hlt, nextOffset_le_size hlt⟩
  pieces := by
    intro i hi
    obtain ⟨offset, hoffset, hbyte⟩ := c.cuts_offsets.exists_piece (Nat.zero_le i) hi
    refine ⟨offset, ⟨Array.mem_toList_iff.mp hoffset, hbyte⟩, ?_⟩
    rintro other ⟨hother, hbyte'⟩
    exact c.cuts_offsets.piece_unique (Array.mem_toList_iff.mpr hother) hoffset hbyte' hbyte
  next := by
    intro offset op hop hcomplete
    rw [nextOffset_of_complete hop hcomplete, next_fetch hop hcomplete]
  targets _ _ := exists_target

end Chunk

/-- Any chunk is listed from its first byte to its last, every byte once, and the listing says
where a machine goes on, whether it executes the instruction next or jumps. In a compiled chunk
a machine only ever stands where the listing has a line. -/
theorem listing_agrees (c : Chunk) : c.Listed ∧
    ∀ source, compile source = .ok c → ∀ (tracing : Bool) (m : Machine) (n : Nat),
      ((Run.start c tracing m).advance n).ip ∈ c.offsets := by
  refine ⟨c.listed, ?_⟩
  intro source hc tracing m n
  obtain ⟨tree, htree, hadmissible, hencodes⟩ := exists_tree_of_compile hc
  obtain ⟨sites, hfollows, -⟩ := hencodes.exists_follows htree hadmissible
  obtain ⟨before, behind, hsplit, hip⟩ := hfollows.exists_split_of_run tracing m n
  rw [hip]
  exact (hfollows.boundary hsplit).mem_offsets (hfollows.lt_size hsplit)

/-- A loop that goes on for ever, and one that leads before the start of its code. -/
theorem listing_agrees_loops :
    (∃ c, compile "while (true) print nil;" = .ok c ∧ c.Listed ∧
      ∀ (tracing : Bool) (m : Machine) (n : Nat),
        ((Run.start c tracing m).advance n).ip ∈ c.offsets) ∧
      let c : Chunk := { code := #[22, 0, 9] }
      c.instructionLine? 0 = some "0000    ? OP_LOOP             0 -> -6" ∧
        ∃ target, c.ShowsTarget 0 target ∧ c.Targets 0 target := by
  refine ⟨?_, by decide, ?_⟩
  · obtain ⟨c, hc⟩ := exists_of_isOk
      (show (compile "while (true) print nil;").isOk = true by decide +kernel)
    obtain ⟨hlisted, hstands⟩ := listing_agrees c
    exact ⟨c, hc, hlisted, hstands _ hc⟩
  · obtain ⟨hlisted, -⟩ := listing_agrees { code := #[22, 0, 9] }
    exact hlisted.targets 0 .loop rfl (by decide) (by decide)

end StackScript
