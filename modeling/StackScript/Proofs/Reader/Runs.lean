import Mathlib.Logic.Relation
import StackScript.Proofs.Lockstep.Tail
import StackScript.Proofs.Reader.Code

/-!
Runs of the machine. What a piece of code does is told without what is to be done after it: it has
been run when the machine comes to that, whatever it is. The tokens always end with the end marker,
so whoever has not come to it can move on.
-/

namespace StackScript

namespace Builder

/-- The end marker is the last unread token and the only one, or else it is the current token. -/
def Ending (b : Builder) : Prop :=
  Complete b.unread ∨ b.unread = [] ∧ b.current.kind = .endOfFile

variable {b b' : Builder}

theorem Quiet.ending (h : Quiet b b') (hb : b.Ending) : b'.Ending := by
  rwa [Ending, h.unread, h.current]

theorem Marked.ending (h : b.Marked) : b.Ending := by
  obtain ⟨front, last, hall, hlast, hfront⟩ := h
  cases front with
  | nil =>
      obtain ⟨hcurrent, hunread⟩ : b.current = last ∧ b.unread = [] := by
        simpa [upcoming] using hall
      exact Or.inr ⟨hunread, hcurrent ▸ hlast⟩
  | cons t rest =>
      exact Or.inl ⟨rest, last, List.tail_eq_of_cons_eq hall, hlast,
        fun u hu => hfront u (List.mem_cons_of_mem t hu)⟩

theorem Ending.unread_ne_nil (h : b.Ending) (hmore : b.current.kind ≠ .endOfFile) :
    b.unread ≠ [] := by
  obtain hcomplete | ⟨-, hend⟩ := h
  · exact hcomplete.ne_nil
  · exact absurd hend hmore

theorem Ending.advance (h : b.Ending) : b.advance.Ending := by
  obtain hcomplete | ⟨hunread, hend⟩ := h
  · exact (hcomplete.load _).1.ending
  · refine Or.inr ?_
    rw [Builder.advance, hunread]
    exact ⟨rfl, hend⟩

/-- A token that is followed by others is not the end marker. -/
theorem Complete.kind_ne {t : Token} {rest : List Token} (h : Complete (t :: rest))
    (hne : rest ≠ []) :
    t.kind ≠ .endOfFile ∧ Complete rest := by
  obtain ⟨front, last, hall, hlast, hfront⟩ := h
  cases front with
  | nil => exact absurd (List.cons.inj hall).2 hne
  | cons u front =>
      obtain ⟨rfl, hrest⟩ := List.cons.inj hall
      exact ⟨hfront t List.mem_cons_self,
        front, last, hrest, hlast, fun v hv => hfront v (List.mem_cons_of_mem t hv)⟩

theorem Ending.take (h : b.Ending) : b.take.Ending := by
  unfold Builder.take
  split
  · exact h
  · rename_i t rest hunread
    have hcomplete : Complete (t :: rest) := by
      obtain hcomplete | ⟨hnil, -⟩ := h
      · rwa [← hunread]
      · rw [hunread] at hnil
        cases hnil
    by_cases hrest : rest = []
    · obtain ⟨front, last, hall, hlast, -⟩ := hcomplete
      have hkind : t.kind = .endOfFile := by
        have hlength := congrArg List.length hall
        rw [hrest, List.length_append] at hlength
        obtain rfl := List.eq_nil_of_length_eq_zero (Nat.succ.inj hlength).symm
        exact (List.cons.inj hall).1 ▸ hlast
      rw [hkind]
      exact Or.inr ⟨hrest, hkind⟩
    · have hleft := (hcomplete.kind_ne hrest).2
      split <;> exact Or.inl hleft

theorem nesting_take (b : Builder) : b.take.nesting = b.nesting := by
  unfold take
  split
  · rfl
  · split
    · exact nesting_report _ _ _
    · rfl

theorem suffix_take (b : Builder) : b.take.unread <:+ b.unread := by
  unfold take
  split
  · exact List.suffix_refl _
  · rename_i t rest hunread
    rw [hunread]
    split <;> exact List.suffix_cons t rest

end Builder

namespace Reader

open Builder

/-- Any number of steps. -/
abbrev Steps : Config → Config → Prop := Relation.ReflTransGen fun c c' => step c = some c'

/-- The code, run before anything else, turns the one builder into the other. -/
def Code.Runs (c : Code) (b b' : Builder) : Prop :=
  ∀ rest, Steps ⟨.run c :: rest, b⟩ ⟨rest, b'⟩

namespace Code

variable {c d : Code} {b b' b'' : Builder}

theorem runs_skip (b : Builder) : skip.Runs b b := fun _ => .single rfl

theorem runs_act (e : Effect Unit) (b : Builder) : (act e).Runs b (e.apply b).1 :=
    fun _ => .single rfl

theorem runs_take (b : Builder) : take.Runs b b.take := fun _ => .single rfl

theorem runs_look {k : Builder → Code} (h : (k b).Runs b b') : (look k).Runs b b' :=
  fun rest => .head rfl (h rest)

theorem Runs.seq (h : c.Runs b b') (h' : d.Runs b' b'') : (seq c d).Runs b b'' :=
  fun rest => .head rfl ((h (.run d :: rest)).trans (h' rest))

theorem runs_call {p : Proc} (h : p.code.Runs b b') : (call p).Runs b b' :=
  fun rest => .head rfl (h rest)

theorem runs_loop_end {l : Loop} (h : l.more b = false) : (loop l).Runs b b :=
  fun _ => .single (by simp [step, h])

theorem runs_loop_round {l : Loop} (h : l.more b = true) (hround : l.round.Runs b b')
    (hrest : (loop l).Runs b' b'') : (loop l).Runs b b'' :=
  fun rest => .head (by simp [step, h]) ((hround (.run (loop l) :: rest)).trans (hrest rest))

theorem runs_nested_limit (h : b.nesting = nestingMax) (hdeep : tooDeep.Runs b b') :
    (nested c).Runs b b' :=
  fun rest => .head (by simp [step, h]) (hdeep rest)

theorem runs_nested (h : b.nesting ≠ nestingMax)
    (hbody : c.Runs { b with nesting := b.nesting + 1 } b') :
    (nested c).Runs b { b' with nesting := b'.nesting - 1 } := by
  intro rest
  refine .head ?_ ((hbody (.leave :: rest)).tail rfl)
  simp [step, h]

end Code

/-- What a step can do: at most take a token, enter a level below the limit, or leave one. -/
inductive Change : Config → Config → Prop
  | quiet {tasks tasks' : List Task} {b b' : Builder} (h : Quiet b b')
      (hactive : active tasks' = active tasks) : Change ⟨tasks, b⟩ ⟨tasks', b'⟩
  | take {tasks tasks' : List Task} {b : Builder} (hactive : active tasks' = active tasks) :
      Change ⟨tasks, b⟩ ⟨tasks', b.take⟩
  | enter {tasks tasks' : List Task} {b : Builder} (hroom : b.nesting ≠ nestingMax)
      (hactive : active tasks' = active tasks + 1) :
      Change ⟨tasks, b⟩ ⟨tasks', { b with nesting := b.nesting + 1 }⟩
  | leave {tasks tasks' : List Task} {b : Builder} (hactive : active tasks = active tasks' + 1) :
      Change ⟨tasks, b⟩ ⟨tasks', { b with nesting := b.nesting - 1 }⟩

theorem change_of_step {c c' : Config} (h : step c = some c') : Change c c' := by
  obtain ⟨tasks, b⟩ := c
  cases tasks with
  | nil => cases h
  | cons task rest =>
      cases task with
      | leave => cases h; exact .leave rfl
      | run code =>
          cases code with
          | skip | look | seq | call => cases h; exact .quiet (.refl b) rfl
          | act e => cases h; exact .quiet (e.quiet b) rfl
          | take => cases h; exact .take rfl
          | loop l =>
              simp only [step] at h
              split at h <;> cases h <;> exact .quiet (.refl b) rfl
          | nested body =>
              simp only [step] at h
              split at h
              · cases h
                exact .quiet (.refl b) rfl
              · rename_i hroom
                cases h
                exact .enter hroom rfl

/-- Nothing that is run brings a token back. -/
theorem suffix_of_steps {c c' : Config} (h : Steps c c') :
    c'.builder.unread <:+ c.builder.unread := by
  induction h with
  | refl => exact List.suffix_refl _
  | tail _ hstep ih =>
      refine List.IsSuffix.trans ?_ ih
      cases change_of_step hstep with
      | quiet h _ => rw [h.unread]
      | take => exact suffix_take _
      | enter | leave => exact List.suffix_refl _

theorem Code.Runs.suffix {c : Code} {b b' : Builder} (h : c.Runs b b') : b'.unread <:+ b.unread :=
  suffix_of_steps (h [])

/-- A builder on this level, with its tokens ending as they should. -/
structure At (n : Nat) (b : Builder) : Prop where
  ending : b.Ending
  level : b.nesting = n

theorem At.quiet {n : Nat} {b b' : Builder} (hb : At n b) (h : Quiet b b') : At n b' :=
  ⟨h.ending hb.ending, h.nesting.trans hb.level⟩

/-- On this level the code does what leads from the one builder to the other, and stays there. -/
def Code.Does (n : Nat) (c : Code) (b b' : Builder) : Prop :=
  At n b → c.Runs b b' ∧ At n b'

namespace Code

variable {n : Nat} {c d : Code} {b b' b'' : Builder}

theorem does_skip : skip.Does n b b := fun h => ⟨runs_skip b, h⟩

theorem does_act (e : Effect Unit) : (act e).Does n b (e.apply b).1 :=
  fun h => ⟨runs_act e b, h.quiet (e.quiet b)⟩

theorem does_look {k : Builder → Code} (h : (k b).Does n b b') : (look k).Does n b b' :=
  fun hb => ⟨runs_look (h hb).1, (h hb).2⟩

theorem Does.seq (h : c.Does n b b') (h' : d.Does n b' b'') : (seq c d).Does n b b'' := by
  intro hb
  obtain ⟨hruns, hmiddle⟩ := h hb
  obtain ⟨hruns', hlast⟩ := h' hmiddle
  exact ⟨hruns.seq hruns', hlast⟩

theorem does_call {p : Proc} (h : p.code.Does n b b') : (call p).Does n b b' :=
  fun hb => ⟨runs_call (h hb).1, (h hb).2⟩

theorem does_bind {α : Type} {e : Effect α} {k : α → Code}
    (h : (k (e.apply b).2).Does n (e.apply b).1 b') : (bind e k).Does n b b' :=
  does_look ((does_act _).seq h)

theorem does_ite {test : Builder → Bool} (hyes : test b = true → c.Does n b b')
    (hno : test b = false → d.Does n b b') : (ite test c d).Does n b b' := by
  refine does_look ?_
  cases htest : test b with
  | true => exact hyes htest
  | false => exact hno htest

theorem does_choice {test : Builder → Bool} (hyes : c.Does n b b') (hno : d.Does n b b'') :
    (ite test c d).Does n b (if test b then b' else b'') := by
  refine does_ite (fun h => ?_) fun h => ?_
  · rwa [if_pos h]
  · rwa [h, if_neg Bool.false_ne_true]

/-- A loop of which every round takes a token away does all that its bound allows. -/
theorem does_loop {l : Loop} {f : Builder → Builder}
    (hround : ∀ b, At n b → l.more b = true →
      l.round.Does n b (f b) ∧ (f b).unread.length < b.unread.length)
    (bound : List Token) (hbound : b.unread.length ≤ bound.length) :
    (loop l).Does n b (repeatWhile l.more f bound b) := by
  intro hb
  induction bound generalizing b with
  | nil =>
      have hmore : l.more b = false := Bool.eq_false_iff.mpr fun hmore =>
        absurd (hround b hb hmore).2 (by simp only [List.length_nil] at hbound; omega)
      exact ⟨runs_loop_end hmore, hb⟩
  | cons t rest ih =>
      unfold repeatWhile
      cases hmore : l.more b with
      | false => exact ⟨runs_loop_end hmore, hb⟩
      | true =>
          obtain ⟨hdoes, hshorter⟩ := hround b hb hmore
          obtain ⟨hruns, hnext⟩ := hdoes hb
          obtain ⟨hloop, hlast⟩ := ih (by simp only [List.length_cons] at hbound; omega) hnext
          exact ⟨runs_loop_round hmore hruns hloop, hlast⟩

end Code

end Reader

end StackScript
