import StackScript.Listing
import StackScript.Proofs.Code.Boundary
import StackScript.Proofs.Code.Fetching

/-!
The offsets of a listing. They cut any code into pieces, from its start to its end, and where
the code consists of complete instructions the cuts are between these.
-/

namespace StackScript

namespace Chunk

variable {c : Chunk} {offset i : Nat} {offsets : List Nat}

/-- Pieces of the code from `offset` to its end, each of which ends where the next one starts. -/
inductive Cuts (c : Chunk) : Nat → List Nat → Prop
  | done : c.Cuts c.size []
  | piece {offset : Nat} {offsets : List Nat} (hlt : offset < c.size)
      (hrest : c.Cuts (c.nextOffset offset) offsets) : c.Cuts offset (offset :: offsets)

theorem nextOffset_le_size (h : offset < c.size) : c.nextOffset offset ≤ c.size := by
  unfold nextOffset
  split
  · exact h
  · exact Nat.min_le_right _ _

theorem nextOffset_of_complete {op : Opcode} (hop : c.opAt? offset = some op)
    (hcomplete : offset + 1 + op.operandBytes ≤ c.size) :
    c.nextOffset offset = offset + 1 + op.operandBytes := by
  unfold nextOffset
  rw [hop]
  exact Nat.min_eq_left hcomplete

theorem exists_cuts (h : offset ≤ c.size) (seen : Array Nat) : ∃ offsets,
    (c.offsetsFrom offset seen).toList = seen.toList ++ offsets ∧ c.Cuts offset offsets := by
  fun_induction offsetsFrom c offset seen with
  | case1 offset seen hlt ih =>
      obtain ⟨offsets, hall, hcuts⟩ := ih (nextOffset_le_size hlt)
      exact ⟨offset :: offsets, by simp [hall], .piece hlt hcuts⟩
  | case2 offset seen hge =>
      obtain rfl : offset = c.size := by omega
      exact ⟨[], by simp, .done⟩

theorem cuts_offsets (c : Chunk) : c.Cuts 0 c.offsets.toList := by
  obtain ⟨offsets, hall, hcuts⟩ := exists_cuts (Nat.zero_le c.size) #[]
  have hoffsets : c.offsets.toList = offsets := hall
  rwa [hoffsets]

namespace Cuts

theorem within (h : c.Cuts offset offsets) :
    ∀ start ∈ offsets, offset ≤ start ∧ start < c.size := by
  induction h with
  | done => exact nofun
  | @piece offset offsets hlt hrest ih =>
      intro start hstart
      obtain rfl | hstart := List.mem_cons.mp hstart
      · exact ⟨Nat.le_refl _, hlt⟩
      · have hnext := lt_nextOffset hlt
        obtain ⟨hfrom, hbelow⟩ := ih start hstart
        exact ⟨by omega, hbelow⟩

theorem ordered (h : c.Cuts offset offsets) : offsets.Pairwise (· < ·) := by
  induction h with
  | done => exact .nil
  | piece hlt hrest ih =>
      refine .cons ?_ ih
      intro start hstart
      exact Nat.lt_of_lt_of_le (lt_nextOffset hlt) (hrest.within start hstart).1

/-- Every byte is in one of the pieces. -/
theorem exists_piece (h : c.Cuts offset offsets) (hfrom : offset ≤ i) (hlt : i < c.size) :
    ∃ start ∈ offsets, start ≤ i ∧ i < c.nextOffset start := by
  induction h with
  | done => omega
  | @piece offset offsets _ hrest ih =>
      by_cases hnext : c.nextOffset offset ≤ i
      · obtain ⟨start, hstart, hpiece⟩ := ih hnext
        exact ⟨start, List.mem_cons_of_mem _ hstart, hpiece⟩
      · exact ⟨offset, List.mem_cons_self, hfrom, by omega⟩

/-- No byte is in two of the pieces. -/
theorem piece_unique (h : c.Cuts offset offsets) {first second : Nat} (hfirst : first ∈ offsets)
    (hsecond : second ∈ offsets) (hbyte : first ≤ i ∧ i < c.nextOffset first)
    (hbyte' : second ≤ i ∧ i < c.nextOffset second) : first = second := by
  induction h with
  | done => cases hfirst
  | piece _ hrest ih =>
      have hbehind := fun start hstart => (hrest.within start hstart).1
      obtain rfl | hmem := List.mem_cons.mp hfirst
      · obtain rfl | hmem' := List.mem_cons.mp hsecond
        · rfl
        · have := hbehind second hmem'
          omega
      · obtain rfl | hmem' := List.mem_cons.mp hsecond
        · have := hbehind first hmem
          omega
        · exact ih hmem hmem'

/-- Where a piece ends before the end of the code, the next one starts. -/
theorem next_mem (h : c.Cuts offset offsets) {start : Nat} (hstart : start ∈ offsets)
    (hlt : c.nextOffset start < c.size) : c.nextOffset start ∈ offsets := by
  induction h with
  | done => cases hstart
  | piece _ hrest ih =>
      obtain rfl | hstart := List.mem_cons.mp hstart
      · generalize c.nextOffset start = next at hrest hlt
        cases hrest with
        | done => exact absurd hlt (Nat.lt_irrefl _)
        | piece => exact List.mem_cons_of_mem _ List.mem_cons_self
      · exact List.mem_cons_of_mem _ (ih hstart)

end Cuts

/-- A listing has a line for every complete instruction that is reached from the start. -/
theorem Boundary.mem_offsets (h : c.Boundary offset) (hlt : offset < c.size) :
    offset ∈ c.offsets := by
  have hcuts := c.cuts_offsets
  induction h with
  | start =>
      obtain ⟨start, hstart, hle, -⟩ := hcuts.exists_piece (Nat.le_refl 0) hlt
      obtain rfl := Nat.le_zero.mp hle
      exact Array.mem_toList_iff.mp hstart
  | @next offset op _ hop hcomplete ih =>
      have hnext := nextOffset_of_complete hop hcomplete
      have hmem := Array.mem_toList_iff.mpr (ih (lt_size_of_opAt? hop))
      rw [← hnext] at hlt ⊢
      exact Array.mem_toList_iff.mp (hcuts.next_mem hmem hlt)

end Chunk

end StackScript
