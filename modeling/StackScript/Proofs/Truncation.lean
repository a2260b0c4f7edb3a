import StackScript.Proofs.Machine.Ending
import StackScript.Proofs.Machine.Room

/-!
Output that does not fit. On a sink that takes only so many bytes a run does what it does on a
sink that takes all of them, until a print does not fit. There it ends with an output error, and
what has been written is the beginning of the whole output, as long as there is room.
-/

namespace StackScript

namespace Run

variable {c : Chunk} {tracing : Bool}

/-- The run on the machine with another limit. -/
def limitTo (r : Run) (limit : Option Nat) : Run :=
  { r with machine := r.machine.limitTo limit }

/-- A run of some more instructions has written at least as much, to a sink of the same limit. -/
theorem written_go (c : Chunk) (tracing : Bool) (n ip : Nat) (m : Machine) (log : Array Record) :
    let r := go c tracing n ip m log
    m.sink.written.toList <+: r.machine.sink.written.toList ∧
      r.machine.sink.limit = m.sink.limit := by
  have hkeeps (i : Instruction) := i.harmless_written m.sink.written m.sink.limit
  have halong {k ip' : Nat} {m' : Machine} (hpath : c.Path k ip m ip' m') :
      m.sink.written.toList <+: m'.sink.written.toList ∧ m'.sink.limit = m.sink.limit :=
    (Machine.keeps_of_path (Q := fun _ => True) (fun _ _ _ _ _ _ => trivial)
      (fun _ _ i _ => hkeeps i)
      trivial ⟨List.prefix_rfl, rfl⟩ hpath).2
  rcases path_of_go (c := c) tracing n ip m log with ⟨-, hpath⟩ | ⟨_, _, m', -, -, hpath, hends⟩
  · exact halong hpath
  · exact Machine.keeps_of_ends (fun i _ => hkeeps i) (halong hpath) hends

theorem size_written_le_go (c : Chunk) (tracing : Bool) (n ip : Nat) (m : Machine)
    (log : Array Record) :
    m.sink.written.size ≤ (go c tracing n ip m log).machine.sink.written.size :=
  (written_go c tracing n ip m log).1.length_le

/-- A run that has come further has not written less. -/
theorem written_mono (c : Chunk) (tracing : Bool) (n k ip : Nat) (m : Machine)
    (log : Array Record) :
    (go c tracing n ip m log).machine.sink.written.toList <+:
      (go c tracing (n + k) ip m log).machine.sink.written.toList := by
  induction n generalizing ip m log with
  | zero =>
      rw [Nat.zero_add]
      exact (written_go c tracing k ip m log).1
  | succ n ih =>
      rw [Nat.add_right_comm]
      by_cases hlt : ip < c.size
      · obtain ⟨traced, htraced⟩ := exists_traced c tracing hlt m log
        rw [go_succ hlt htraced, go_succ hlt htraced]
        cases m.step c ip with
        | error outcome m' => exact List.prefix_rfl
        | ok ip' m' => exact ih ip' m' traced
      · simp only [go_of_past hlt]
        exact List.prefix_rfl

/-- Tracing is nothing that the machine would notice. -/
theorem machine_go (c : Chunk) (tracing : Bool) (n ip : Nat) (m : Machine)
    (log log' : Array Record) :
    (go c tracing n ip m log).machine = (go c false n ip m log').machine := by
  induction n generalizing ip m log log' with
  | zero => rfl
  | succ n ih =>
      by_cases hlt : ip < c.size
      · obtain ⟨traced, htraced⟩ := exists_traced c tracing hlt m log
        have huntraced : traced? c false ip m log' = some log' := rfl
        rw [go_succ hlt htraced, go_succ hlt huntraced]
        cases m.step c ip with
        | error outcome m' => rfl
        | ok ip' m' => exact ih ip' m' traced log'
      · rw [go_of_past hlt, go_of_past hlt]

/-- While a run goes on, it records the instructions and nothing else. -/
theorem mem_log_go {n ip : Nat} {m : Machine} {log : Array Record} {record : Record}
    (h : record ∈ (go c tracing n ip m log).log) : record ∈ log ∨ ∃ text, record = .trace text := by
  induction n generalizing ip m log with
  | zero => exact Or.inl h
  | succ n ih =>
      by_cases hlt : ip < c.size
      · obtain ⟨traced, htraced⟩ := exists_traced c tracing hlt m log
        have hadded : record ∈ traced → record ∈ log ∨ ∃ text, record = .trace text := by
          intro hmem
          unfold traced? at htraced
          split at htraced
          · obtain ⟨records, hrecords, rfl⟩ := Option.map_eq_some_iff.mp htraced
            obtain ⟨line, -, hline⟩ := Option.bind_eq_some_iff.mp hrecords
            obtain rfl := Option.some.inj hline
            rcases Array.mem_append.mp hmem with hold | hnew
            · exact Or.inl hold
            · have htexts :
                  record = .trace ("          " ++ m.stack.listing) ∨ record = .trace line := by
                simpa using hnew
              exact Or.inr (htexts.elim (fun h => ⟨_, h⟩) fun h => ⟨_, h⟩)
          · exact Or.inl (Option.some.inj htraced ▸ hmem)
        rw [go_succ hlt htraced] at h
        cases hm : m.step c ip with
        | error outcome m' =>
            rw [hm] at h
            exact hadded h
        | ok ip' m' =>
            rw [hm] at h
            exact (ih h).elim hadded Or.inr
      · rw [go_of_past hlt] at h
        exact Or.inl h

variable {limit : Nat} {m : Machine} (hfree : m.sink.limit = none)
include hfree

/-- As long as all the output fits, the limit makes no difference. -/
theorem go_of_fits {n ip : Nat} {log : Array Record}
    (hfits : (go c tracing n ip m log).machine.sink.written.size ≤ limit) :
    go c tracing n ip (m.limitTo (some limit)) log =
      (go c tracing n ip m log).limitTo (some limit) := by
  induction n generalizing ip m log with
  | zero => rfl
  | succ n ih =>
      by_cases hlt : ip < c.size
      · have hwithin : m.sink.written.size ≤ limit :=
          Nat.le_trans (size_written_le_go c tracing (n + 1) ip m log) hfits
        have hstep := (Machine.step_limitTo c ip hfree hwithin).1
        obtain ⟨traced, htraced⟩ := exists_traced c tracing hlt m log
        have htraced' : traced? c tracing ip (m.limitTo (some limit)) log = some traced := htraced
        rw [go_succ hlt htraced] at hfits ⊢
        rw [go_succ hlt htraced']
        cases hm : m.step c ip with
        | error outcome m' =>
            rw [hm] at hfits hstep
            rw [hstep hfits]
            rfl
        | ok ip' m' =>
            rw [hm] at hfits hstep
            rw [hstep (Nat.le_trans (size_written_le_go c tracing n ip' m' traced) hfits)]
            exact ih (Machine.limit_of_step hfree hm) hfits
      · rw [go_of_past hlt, go_of_past hlt]
        rfl

/-- Output that does not fit ends in one print, the first that does not. -/
theorem go_of_beyond {n ip : Nat} {log : Array Record} (hwithin : m.sink.written.size ≤ limit)
    (hbeyond : limit < (go c tracing n ip m log).machine.sink.written.size) :
    ∃ k < n,
      let r := go c tracing k ip m log
      let r' := go c tracing (k + 1) ip m log
      r.outcome = none ∧ (c.fetch r.ip).result = .ok .print ∧
        r.machine.sink.written.size ≤ limit ∧ limit < r'.machine.sink.written.size ∧
        r'.machine.globals = r.machine.globals ∧
        ∀ fuel, k < fuel → go c tracing fuel ip (m.limitTo (some limit)) log =
          ⟨c, tracing, r.ip, r'.machine.cutTo limit, r'.log, some .outputClosed⟩ := by
  induction n generalizing ip m log with
  | zero => exact absurd hwithin (Nat.not_le_of_lt hbeyond)
  | succ n ih =>
      by_cases hlt : ip < c.size
      · obtain ⟨hfits, hcut⟩ := Machine.step_limitTo c ip hfree hwithin
        obtain ⟨traced, htraced⟩ := exists_traced c tracing hlt m log
        have htraced' : traced? c tracing ip (m.limitTo (some limit)) log = some traced := htraced
        have hgo := go_succ hlt htraced
        have hgo' := go_succ hlt htraced'
        rw [hgo] at hbeyond
        rcases Nat.lt_or_ge limit (leftBy (m.step c ip)).sink.written.size with hfirst | hlater
        · -- This is the print: the run with the limit ends here, whatever its fuel.
          obtain ⟨hprint, ip', m', hm, hglobals, hcut⟩ := hcut hfirst
          rw [hm] at hfirst
          simp only [hm] at hgo
          simp only [hcut] at hgo'
          refine ⟨0, Nat.succ_pos n, rfl, hprint, hwithin, ?_⟩
          rw [hgo]
          refine ⟨hfirst, hglobals, fun fuel hfuel => ?_⟩
          obtain ⟨fuel, rfl⟩ := Nat.exists_eq_succ_of_ne_zero (Nat.ne_of_gt hfuel)
          exact hgo' fuel
        · cases hm : m.step c ip with
          | error outcome m' =>
              rw [hm] at hbeyond hlater
              exact absurd hlater (Nat.not_le_of_lt hbeyond)
          | ok ip' m' =>
              have hfits := hfits hlater
              rw [hm] at hbeyond hlater hfits
              simp only [hm] at hgo
              simp only [hfits, limitResult] at hgo'
              obtain ⟨k, hk, hgoes, hprint, hle, hgt, hglobals, hends⟩ :=
                ih (Machine.limit_of_step hfree hm) hlater hbeyond
              refine ⟨k + 1, Nat.succ_lt_succ hk, ?_⟩
              rw [hgo, hgo]
              refine ⟨hgoes, hprint, hle, hgt, hglobals, fun fuel hfuel => ?_⟩
              obtain ⟨fuel, rfl⟩ := Nat.exists_eq_succ_of_ne_zero
                (Nat.ne_of_gt (Nat.zero_lt_of_lt hfuel))
              rw [hgo']
              exact hends fuel (Nat.lt_of_succ_lt_succ hfuel)
      · rw [go_of_past hlt] at hbeyond
        exact absurd hwithin (Nat.not_le_of_lt hbeyond)

end Run

namespace Machine

variable {c : Chunk} {tracing : Bool} {limit : Nat} {m : Machine} (hfree : m.sink.limit = none)
include hfree

/-- A chunk of which all the output fits is run as on a sink that takes every byte. -/
theorem runChunk_of_fits {fuel : Nat}
    (hfits : ((Run.start c tracing m).advance fuel).machine.sink.written.size ≤ limit) :
    (m.limitTo (some limit)).runChunk fuel tracing c =
      (m.runChunk fuel tracing c).map fun (m', failure, log) =>
        (m'.limitTo (some limit), failure, log) := by
  rw [Run.advance_start] at hfits
  have hgo := Run.go_of_fits hfree hfits
  rw [runChunk, runChunk, Run.advance_start, Run.advance_start, hgo]
  generalize Run.go c tracing fuel 0 m #[] = r
  show Option.map _ r.outcome = Option.map _ (Option.map _ r.outcome)
  cases r.outcome with
  | none => rfl
  | some outcome => rfl

/-- Nothing comes of a chunk while it goes on and all the output fits. -/
theorem runChunk_of_goes {n : Nat} (hgoes : ((Run.start c tracing m).advance n).outcome = none)
    (hfits : ((Run.start c tracing m).advance n).machine.sink.written.size ≤ limit) {fuel : Nat}
    (hfuel : fuel ≤ n) : (m.limitTo (some limit)).runChunk fuel tracing c = none := by
  rw [Run.advance_start] at hgoes hfits
  obtain ⟨k, rfl⟩ := Nat.exists_eq_add_of_le hfuel
  have hearlier : ((Run.start c tracing m).advance fuel).machine.sink.written.size ≤ limit := by
    rw [Run.advance_start]
    exact Nat.le_trans (Run.written_mono c tracing fuel k 0 m #[]).length_le hfits
  rw [runChunk_of_fits hfree hearlier,
    runChunk_of_path (Run.path_of_goes tracing hgoes) tracing hfuel]
  rfl

end Machine

/-- The bytes that a run writes begin with these, if its sink takes every byte. A run that never
ends may write ever more. -/
def Chunk.Prints (c : Chunk) (m : Machine) (bytes : List UInt8) : Prop :=
  ∃ n, m.sink.written.toList ++ bytes <+:
    ((Run.start c false m.unlimited).advance n).machine.sink.written.toList

/-- What any run of the chunk has written begins what it prints. -/
theorem Chunk.prints_of_run (c : Chunk) (m : Machine) (tracing : Bool) (n : Nat) :
    ∃ bytes, c.Prints m bytes ∧
      ((Run.start c tracing m.unlimited).advance n).machine.sink.written.toList =
      m.sink.written.toList ++ bytes := by
  obtain ⟨bytes, hbytes⟩ := (Run.written_go c tracing n 0 m.unlimited #[]).1
  have hmachine := Run.machine_go c tracing n 0 m.unlimited #[] #[]
  refine ⟨bytes, ⟨n, ?_⟩, hbytes.symm⟩
  rw [Run.advance_start, ← hmachine, ← hbytes]
  exact List.prefix_rfl

/-- A list and its beginning agree as far as the beginning goes. -/
theorem take_of_beginning {α : Type} {beginning whole : List α} (h : beginning <+: whole) {n : Nat}
    (hn : n ≤ beginning.length) : beginning.take n = whole.take n := by
  rw [List.prefix_iff_eq_take.mp h, List.take_take, Nat.min_eq_left hn]

/-- The output and what has been written begin the same bytes. If neither has room, cutting what has
been written leaves as much of the output as there is room for. -/
theorem extract_written_cut {start written whole : Array UInt8} {bytes : List UInt8} {room : Nat}
    (hbytes : start.toList ++ bytes <+: whole.toList) (hwritten : written.toList <+: whole.toList)
    (hlong : room < bytes.length) (hbeyond : start.size + room < written.size) :
    (written.extract 0 (start.size + room)).toList = start.toList ++ bytes.take room := by
  have hlonger : start.size + room ≤ (start.toList ++ bytes).length := by
    rw [List.length_append]
    exact Nat.add_le_add_left (Nat.le_of_lt hlong) _
  have hstart : start.toList.length ≤ start.size + room := Nat.le_add_right _ _
  calc (written.extract 0 (start.size + room)).toList
      = written.toList.take (start.size + room) := by
        rw [Array.toList_extract, List.extract_eq_take_drop, Nat.sub_zero, List.drop_zero]
    _ = whole.toList.take (start.size + room) := take_of_beginning hwritten (Nat.le_of_lt hbeyond)
    _ = (start.toList ++ bytes).take (start.size + room) := (take_of_beginning hbytes hlonger).symm
    _ = start.toList ++ bytes.take room := by
        rw [List.take_append, List.take_of_length_le hstart, Array.length_toList,
          Nat.add_sub_cancel_left]

/-- A sink with room for so many bytes more cuts the output there. If all that a run prints fits,
the run does the same as on a sink that takes every byte, with any fuel: it ends alike or not at
all. If not, the run ends at the first print that does not fit, with an output error, the globals
as they were before that print and an empty stack; of the output exactly the bytes that fit have
been written, and no runtime error has been recorded. -/
theorem output_truncated (c : Chunk) (m : Machine) (room : Nat) (tracing : Bool) :
    let limit := m.sink.written.size + room
    ((∀ bytes, c.Prints m bytes → bytes.length ≤ room) →
      ∀ fuel, (m.withRoom room).runChunk fuel tracing c =
        (m.unlimited.runChunk fuel tracing c).map fun (m', failure, log) =>
          (m'.limitTo (some limit), failure, log)) ∧
    ∀ bytes, c.Prints m bytes → room < bytes.length →
      ∃ n,
        let before := (Run.start c tracing m.unlimited).advance n
        let behind := (Run.start c tracing m.unlimited).advance (n + 1)
        before.outcome = none ∧ (c.fetch before.ip).result = .ok .print ∧
        before.machine.sink.written.size ≤ limit ∧ limit < behind.machine.sink.written.size ∧
        (∀ fuel ≤ n, (m.withRoom room).runChunk fuel tracing c = none) ∧
        ∀ fuel > n, ∃ m', (m.withRoom room).runChunk fuel tracing c =
            some (m', some .output, behind.log) ∧
          m'.sink.written.toList = m.sink.written.toList ++ bytes.take room ∧
          m'.globals = before.machine.globals ∧ m'.stack.height = 0 ∧
          ∀ record ∈ behind.log, ∃ text, record = .trace text := by
  intro limit
  have hfree : m.unlimited.sink.limit = none := rfl
  constructor
  · intro hall fuel
    obtain ⟨bytes, hprints, hwritten⟩ := c.prints_of_run m tracing fuel
    apply Machine.runChunk_of_fits hfree
    have hlength := congrArg List.length hwritten
    rw [List.length_append] at hlength
    exact Nat.le_trans (Nat.le_of_eq hlength) (Nat.add_le_add_left (hall bytes hprints) _)
  · rintro bytes ⟨fuel₀, hbegins⟩ hlong
    rw [Run.advance_start, ← Run.machine_go c tracing fuel₀ 0 m.unlimited #[] #[]] at hbegins
    have hwithin : m.unlimited.sink.written.size ≤ limit := Nat.le_add_right _ _
    have hbeyond : limit < (m.sink.written.toList ++ bytes).length := by
      rw [List.length_append]
      exact Nat.add_lt_add_left hlong _
    obtain ⟨n, hn, hgoes, hprint, hle, hgt, hglobals, hends⟩ :=
      Run.go_of_beyond hfree hwithin (Nat.lt_of_lt_of_le hbeyond hbegins.length_le)
    refine ⟨n, hgoes, hprint, hle, hgt, fun fuel hfuel => ?_, fun fuel hfuel => ?_⟩
    · exact Machine.runChunk_of_goes hfree hgoes hle hfuel
    · have hroom : m.withRoom room = m.unlimited.limitTo (some limit) := rfl
      rw [Machine.runChunk, Run.advance_start, hroom, hends fuel hfuel]
      refine ⟨_, rfl, ?_, hglobals, rfl, fun record hmem => ?_⟩
      · obtain ⟨k, hk⟩ := Nat.exists_eq_add_of_le hn
        have hlater := Run.written_mono c tracing (n + 1) k 0 m.unlimited #[]
        rw [← hk] at hlater
        exact extract_written_cut hbegins hlater hlong hgt
      · have hlogged : record ∈ (Run.go c tracing (n + 1) 0 m.unlimited #[]).log := hmem
        exact (Run.mem_log_go hlogged).resolve_left (Array.not_mem_empty record)

/-- A loop that prints `"ab"` for ever, with room for no more than the text of the second print. -/
theorem output_truncated_endless :
    let c : Chunk :=
      { constants := #[.string "ab"],
        code := #[Opcode.constant.toByte, 0, Opcode.print.toByte, Opcode.loop.toByte, 0, 6] }
    let bytes : List UInt8 := [97, 98, 10, 97, 98, 10]
    c.Prints {} bytes ∧ 5 < bytes.length ∧
      ∃ n,
        let before := (Run.start c false (Machine.unlimited {})).advance n
        let behind := (Run.start c false (Machine.unlimited {})).advance (n + 1)
        before.outcome = none ∧ (c.fetch before.ip).result = .ok .print ∧
        before.machine.sink.written.size ≤ 5 ∧ 5 < behind.machine.sink.written.size ∧
        (∀ fuel ≤ n, (Machine.withRoom {} 5).runChunk fuel false c = none) ∧
        ∀ fuel > n, ∃ m', (Machine.withRoom {} 5).runChunk fuel false c =
            some (m', some .output, behind.log) ∧
          m'.sink.written.toList = [97, 98, 10, 97, 98] ∧
          m'.globals = before.machine.globals ∧ m'.stack.height = 0 ∧
          ∀ record ∈ behind.log, ∃ text, record = .trace text :=
  have hprints : Chunk.Prints _ {} [97, 98, 10, 97, 98, 10] := ⟨6, by decide +kernel⟩
  ⟨hprints, by decide, (output_truncated _ {} 5 false).2 _ hprints (by decide)⟩

end StackScript
