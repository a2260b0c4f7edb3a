import StackScript.Proofs.Machine.Meeting
import StackScript.Proofs.Simulation.Loop

/-!
Code of two chunks that does the same. If two places meet behind the code, they meet in front of
it. The parts of an expression or a statement may be exchanged for such code, and the round of a
loop may be laid out in another way: it is enough that the body comes first, then what belongs to
the end of a round, and then the loop's start again.
-/

namespace StackScript

open Relation Tree

/-- The increment of a loop as the end of a round. -/
def Tree.discarded : Option (List Item) → List Item
  | none => []
  | some code => code ++ [.plain .pop]

namespace Chunk

/-- Where the one code stands in `c` and the other one in `d`, runs from the two places come to
the same as long as runs from behind the code do. -/
def Accord (c d : Chunk) (items items' : List Item) : Prop :=
  ∀ n ip jp, c.Runs ip items → d.Runs jp items' →
    c.Meet d n (ip + codeSize items) (jp + codeSize items') → c.Meet d n ip jp

variable {c d : Chunk} {items items' others others' : List Item}

theorem accord_nil : c.Accord d [] [] :=
  fun _ _ _ _ _ hmeet => hmeet

theorem Accord.append (h : c.Accord d items items') (h' : c.Accord d others others') :
    c.Accord d (items ++ others) (items' ++ others') := by
  intro n ip jp hruns hruns' hmeet
  rw [codeSize_append, codeSize_append, ← Nat.add_assoc, ← Nat.add_assoc] at hmeet
  have hmiddle := h' n _ _ hruns.right hruns'.right hmeet
  exact h n ip jp hruns.left hruns'.left hmiddle

theorem accord_straight {item item' : Item} {i : Instruction}
    (hi : item.instruction? c.constants.toList = some i)
    (hi' : item'.instruction? d.constants.toList = some i) (hstraight : i.Straight) :
    c.Accord d [item] [item'] := by
  intro n ip jp hruns hruns' hmeet
  rw [codeSize_cons, codeSize_cons, codeSize_nil, Nat.add_zero, Nat.add_zero] at hmeet
  exact (meet_straight hruns hruns' hi hi' hstraight hmeet).mono (Nat.le_succ n)

theorem accord_plain {op : Opcode} {i : Instruction}
    (hi : ∀ pool, (Item.plain op).instruction? pool = some i) (hstraight : i.Straight) :
    c.Accord d [.plain op] [.plain op] :=
  accord_straight (hi _) (hi _) hstraight

theorem accord_pop : c.Accord d [.plain .pop] [.plain .pop] :=
  accord_plain (fun _ => rfl) fun _ => rfl

theorem accord_pops (count : Nat) :
    c.Accord d (List.replicate count (.plain .pop)) (List.replicate count (.plain .pop)) := by
  induction count with
  | zero => exact accord_nil
  | succ count ih => exact accord_pop.append ih

section Jumps

variable {yes yes' no no' : List Item}

/-- Code behind a test that may be jumped over. -/
theorem Accord.skip (h : c.Accord d items items') :
    c.Accord d (.jump .jumpIfFalse (codeSize items) :: items)
      (.jump .jumpIfFalse (codeSize items') :: items') := by
  intro n ip jp hruns hruns' hmeet
  rw [codeSize_cons, codeSize_cons, ← Nat.add_assoc, ← Nat.add_assoc] at hmeet
  have hthen := h n _ _ hruns.tail hruns'.tail hmeet
  exact (meet_test hruns hruns' hthen hmeet).mono (Nat.le_succ n)

/-- Code for either result of a test. -/
theorem Accord.choice (hyes : c.Accord d yes yes') (hno : c.Accord d no no') :
    c.Accord d
      (.jump .jumpIfFalse (codeSize yes + 3) :: (yes ++ .jump .jump (codeSize no) :: no))
      (.jump .jumpIfFalse (codeSize yes' + 3) :: (yes' ++ .jump .jump (codeSize no') :: no')) := by
  intro n ip jp hruns hruns' hmeet
  have hends (ip : Nat) (yes no : List Item) :
      ip + codeSize (.jump .jumpIfFalse (codeSize yes + 3) ::
        (yes ++ .jump .jump (codeSize no) :: no)) =
        ip + 3 + codeSize yes + 3 + codeSize no := by
    simp only [codeSize_cons, codeSize_append, Item.size]
    omega
  rw [hends, hends] at hmeet
  have hjump := hruns.tail.right.hops_jump
  have hjump' := hruns'.tail.right.hops_jump
  have hover : c.Meet d n (ip + 3 + codeSize yes) (jp + 3 + codeSize yes') :=
    hjump.meet (hjump'.meet hmeet.symm).symm
  have hthen := hyes n _ _ hruns.tail.left hruns'.tail.left hover
  have helse := hno n _ _ hruns.tail.right.tail hruns'.tail.right.tail hmeet
  exact (meet_test hruns hruns' hthen helse).mono (Nat.le_succ n)

end Jumps

section Loops

/-- A round of the loop that starts at `start`, entered at `enter`: first the body is run, then
what belongs to the end of a round, and then the loop starts again. -/
def Round (c : Chunk) (start enter : Nat) (body last : List Item) : Prop :=
  ∃ bodyAt lastAt, ReflTransGen c.Hops enter bodyAt ∧ c.Runs bodyAt body ∧
    ReflTransGen c.Hops (bodyAt + codeSize body) lastAt ∧ c.Runs lastAt last ∧
    TransGen c.Hops (lastAt + codeSize last) start

variable {n start start' enter enter' before : Nat} {body body' last last' : List Item}
  {increment increment' test test' : Option (List Item)}

/-- The end of a round may as well be counted as part of the body. -/
theorem Round.split (h : c.Round start enter (body ++ last) []) :
    c.Round start enter body last := by
  obtain ⟨bodyAt, lastAt, hforth, hbody, hmore, -, hback⟩ := h
  refine ⟨bodyAt, bodyAt + codeSize body, hforth, hbody.left, .refl, hbody.right, ?_⟩
  rw [codeSize_append, ← Nat.add_assoc] at hmore
  exact .trans_right hmore hback

/-- The two layouts of a round. -/
theorem round_of_stepCode (h : c.Runs (start + before) (stepCode before increment body)) :
    c.Round start (start + before) body (discarded increment) := by
  cases increment with
  | none =>
      have hcode : c.Runs (start + before) (body ++ [.jump .loop (before + codeSize body + 3)]) := h
      have hback := hcode.right.hops_loop (by omega)
      have hstart : start + before + codeSize body + 3 - (before + codeSize body + 3) = start := by
        omega
      rw [hstart] at hback
      exact ⟨_, _, .refl, hcode.left, .refl, ⟨List.nil_prefix, nofun⟩, .single hback⟩
  | some code =>
      let back := discarded (some code)
      have hcode : c.Runs (start + before) (.jump .jump (codeSize back + 3) ::
          (back ++ .jump .loop (before + 3 + codeSize code + 4) ::
            (body ++ [.jump .loop (codeSize back + 3 + codeSize body + 3)]))) := by
        have hsize :
            codeSize (code ++ [.plain .pop, .jump .loop (before + 3 + codeSize code + 4)]) =
              codeSize back + 3 := by
          simp [back, discarded, Item.size]
        have hsame := h
        rw [stepCode, hsize] at hsame
        simpa [back, discarded] using hsame
      have hsize : codeSize back = codeSize code + 1 := by
        simp [back, discarded, Item.size]
      have hincrement : c.Runs (start + before + 3) _ := hcode.tail
      have hbody : c.Runs (start + before + 3 + codeSize back + 3) _ := hincrement.right.tail
      have hforth := hcode.hops_jump
      have hclose := hincrement.right.hops_loop (by omega)
      have hagain := hbody.right.hops_loop (by omega)
      have hstart :
          start + before + 3 + codeSize back + 3 - (before + 3 + codeSize code + 4) = start := by
        omega
      have hlast : start + before + 3 + codeSize back + 3 + codeSize body + 3 -
          (codeSize back + 3 + codeSize body + 3) = start + before + 3 := by omega
      rw [← Nat.add_assoc] at hforth
      rw [hstart] at hclose
      rw [hlast] at hagain
      exact ⟨_, _, .single hforth, hbody.left, .single hagain, hincrement.left, .single hclose⟩

/-- Where the loops start alike, they are alike at the entry of a round, for one more step. -/
theorem Round.meet (h : c.Round start enter body last) (h' : d.Round start' enter' body' last')
    (hbody : c.Accord d body body') (hlast : c.Accord d last last')
    (hmeet : c.Meet d n start start') :
    c.Meet d (n + 1) enter enter' := by
  obtain ⟨bodyAt, lastAt, hforth, hruns, hmore, hends, hback⟩ := h
  obtain ⟨bodyAt', lastAt', hforth', hruns', hmore', hends', hback'⟩ := h'
  have hover := meet_succ_of_hops hback hback' hmeet
  have hlast := hlast _ _ _ hends hends' hover
  have hbehind := meet_of_hops hmore (meet_of_hops hmore' hlast.symm).symm
  have hbody := hbody _ _ _ hruns hruns' hbehind
  exact meet_of_hops hforth (meet_of_hops hforth' hbody.symm).symm

/-- The condition of a loop leads into a round or behind the loop. -/
theorem meet_loopCode {ip jp : Nat} {rest rest' : List Item}
    (htest : Option.Rel (c.Accord d) test test') (h : c.Runs ip (loopCode test rest))
    (h' : d.Runs jp (loopCode test' rest'))
    (henter : c.Meet d n (ip + conditionSize test) (jp + conditionSize test'))
    (hmeet : c.Meet d n (ip + codeSize (loopCode test rest))
      (jp + codeSize (loopCode test' rest'))) :
    c.Meet d n ip jp := by
  cases htest with
  | none => exact henter
  | @some code code' hcode =>
      have hleave (ip : Nat) (code rest : List Item) :
          ip + codeSize (code ++ (.jump .jumpIfFalse (1 + codeSize rest) ::
            ([.plain .pop] ++ rest))) =
            ip + codeSize code + 3 + (1 + codeSize rest) := by
        simp only [codeSize_append, codeSize_cons, codeSize_nil, Item.size]
        omega
      have hloop :
          c.Runs ip (code ++ (.jump .jumpIfFalse (1 + codeSize rest) ::
            ([.plain .pop] ++ rest)) ++ [.plain .pop]) := h
      have hloop' : d.Runs jp (code' ++ (.jump .jumpIfFalse (1 + codeSize rest') ::
        ([.plain .pop] ++ rest')) ++ [.plain .pop]) := h'
      have hthen := accord_pop _ _ _ hloop.left.right.tail.left hloop'.left.right.tail.left henter
      rw [loopCode, loopCode, codeSize_append, codeSize_append _ [.plain .pop], ← Nat.add_assoc,
        ← Nat.add_assoc] at hmeet
      have helse := accord_pop _ _ _ hloop.right hloop'.right hmeet
      rw [hleave, hleave] at helse
      have htested := meet_test hloop.left.right hloop'.left.right hthen helse
      exact hcode _ _ _ hloop.left.left hloop'.left.left (htested.mono (Nat.le_succ n))

/-- A loop whose rounds do the same. A round that is entered for one step more leads back to the
start with at least one hop on either side, so the induction is on the number of steps. -/
theorem accord_loop {rest rest' : List Item} (htest : Option.Rel (c.Accord d) test test')
    (hround : ∀ n ip jp, c.Runs (ip + conditionSize test) rest →
      d.Runs (jp + conditionSize test') rest' →
      c.Meet d n ip jp → c.Meet d (n + 1) (ip + conditionSize test) (jp + conditionSize test')) :
    c.Accord d (loopCode test rest) (loopCode test' rest') := by
  intro n ip jp hruns hruns' hmeet
  induction n with
  | zero => exact meet_zero
  | succ n ih =>
      have hagain := ih (hmeet.mono (Nat.le_succ n))
      have henter := hround n ip jp hruns.behindCondition hruns'.behindCondition hagain
      exact meet_loopCode htest hruns hruns' henter hmeet

section Rounds

variable (htest : Option.Rel (c.Accord d) test test')
  (hincrement : Option.Rel (c.Accord d) increment increment') (hbody : c.Accord d body body')

include hincrement in
theorem accord_discarded : c.Accord d (discarded increment) (discarded increment') := by
  cases hincrement with
  | none => exact accord_nil
  | some hcode => exact hcode.append accord_pop

include htest hincrement hbody

/-- A loop with the same layout in both codes. -/
theorem accord_rounds : c.Accord d (loopCode test (stepCode (conditionSize test) increment body))
    (loopCode test' (stepCode (conditionSize test') increment' body')) := by
  apply accord_loop htest
  intro n ip jp hruns hruns' hmeet
  exact (round_of_stepCode hruns).meet (round_of_stepCode hruns') hbody
    (accord_discarded hincrement) hmeet

/-- A loop with its increment before the body, and one with it at the end of the body. -/
theorem accord_unrolled :
    c.Accord d (loopCode test (stepCode (conditionSize test) increment body))
      (loopCode test' (stepCode (conditionSize test') none (body' ++ discarded increment'))) := by
  apply accord_loop htest
  intro n ip jp hruns hruns' hmeet
  have hround := (round_of_stepCode hruns').split
  exact (round_of_stepCode hruns).meet hround hbody (accord_discarded hincrement) hmeet

end Rounds

end Loops

end Chunk

end StackScript
