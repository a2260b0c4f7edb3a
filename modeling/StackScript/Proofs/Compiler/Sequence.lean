import StackScript.Proofs.Code.Embedding
import StackScript.Proofs.Lockstep.Tail
import StackScript.Proofs.Lockstep.Top
import StackScript.Proofs.Token.Append
import StackScript.Proofs.Tree.Chain

/-!
Texts one behind the other. Compiled together, the first of two texts is compiled as on its
own up to where its code would return, and the second one as it is behind any declarations.
They share a pool, which has to have room for the constants of both.
-/

namespace StackScript

open Tree

/-- The constants that are not in the pool. -/
def Tree.beyond (pool constants : List Value) : List Value :=
  constants.filter fun v => !pool.any (·.same v)

theorem Tree.mem_beyond {pool constants : List Value} {v : Value} :
    v ∈ beyond pool constants ↔ v ∈ constants ∧ v ∉ pool := by
  rw [beyond, List.mem_filter, Bool.not_eq_true', Bool.eq_false_iff]
  exact and_congr_right fun _ => not_congr any_same_iff

theorem Tree.addToPool_beyond (first second : List Value) (v : Value) :
    addToPool (first ++ beyond first second) v = first ++ beyond first (addToPool second v) := by
  by_cases hsecond : v ∈ second
  · have hmem : v ∈ first ++ beyond first second := by
      by_cases hfirst : v ∈ first
      · exact List.mem_append_left _ hfirst
      · exact List.mem_append_right _ (mem_beyond.mpr ⟨hsecond, hfirst⟩)
    rw [addToPool_of_mem hsecond, addToPool_of_mem hmem]
  · have happend : beyond first (second ++ [v]) = beyond first second ++ beyond first [v] :=
      List.filter_append ..
    rw [addToPool_of_not_mem hsecond, happend, ← List.append_assoc]
    by_cases hfirst : v ∈ first
    · have hnone : beyond first [v] = [] := by simp [beyond, any_same_iff.mpr hfirst]
      rw [addToPool_of_mem (List.mem_append_left _ hfirst), hnone, List.append_nil]
    · have hone : beyond first [v] = [v] := by
        simp [beyond, Bool.eq_false_iff.mpr (mt any_same_iff.mp hfirst)]
      have hmem : v ∉ first ++ beyond first second := by simp [mem_beyond, hfirst, hsecond]
      rw [addToPool_of_not_mem hmem, hone]

/-- A pool that goes on with other constants gets those of their own pool that it has not. -/
theorem Tree.grow_beyond (first second constants : List Value) :
    grow (first ++ beyond first second) constants = first ++ beyond first
      (grow second constants) := by
  induction constants generalizing second with
  | nil => rfl
  | cons v rest ih => rw [grow_cons, grow_cons, addToPool_beyond, ih]

/-- How many constants the two chunks have together. -/
def Chunk.constantsTogether (c d : Chunk) : Nat :=
  c.constants.size + (beyond c.constants.toList d.constants.toList).length

namespace Tree.Stmt

variable {s rest : Stmt}

/-- The pool of two programs is that of the first one and what the second one has beyond it. -/
theorem pool_eq_append_beyond (h : s.IsChain) :
    (s.followedBy rest).pool = s.pool ++ beyond s.pool rest.pool := by
  have hgrow := grow_beyond s.pool [] (rest.constants true [])
  rw [pool_followedBy h, pool_eq rest, ← hgrow]
  simp [beyond]

theorem alike_first (h : s.IsChain) : AlikeCode s.pool (s.followedBy rest).pool
    (s.code s.pool true []) (s.code (s.followedBy rest).pool true []) := by
  refine s.alike_code fun v hv => ⟨mem_grow hv, ?_⟩
  rw [pool_followedBy h]
  exact (prefix_grow _ _).subset (mem_grow hv)

theorem alike_second (h : s.IsChain) : AlikeCode rest.pool (s.followedBy rest).pool
    (rest.code rest.pool true []) (rest.code (s.followedBy rest).pool true []) := by
  refine rest.alike_code fun v hv => ⟨mem_grow hv, ?_⟩
  rw [pool_followedBy h]
  exact mem_grow hv

/-- Two admissible programs are one admissible program if their constants have room. -/
theorem admissible_followedBy (h : s.IsChain) (hs : s.admissible = true)
    (hrest : rest.admissible = true)
    (hroom : (s.pool ++ beyond s.pool rest.pool).length ≤ Chunk.constantsMax) :
    (s.followedBy rest).admissible = true := by
  obtain ⟨hnames, hlevels, hlocals, -, hjumps⟩ := admissible_iff.mp hs
  obtain ⟨hnames', hlevels', hlocals', -, hjumps'⟩ := admissible_iff.mp hrest
  refine admissible_iff.mpr ⟨?_, ?_, ?_, ?_, all_fits_iff.mp ?_⟩
  · rw [wellScoped_followedBy h, hnames, hnames']
    rfl
  · rw [levels_followedBy h]
    exact Nat.max_le.mpr ⟨hlevels, hlevels'⟩
  · rw [mostLocals_followedBy h]
    exact Nat.max_le.mpr ⟨hlocals, hlocals'⟩
  · rwa [pool_eq_append_beyond h]
  · rw [code_followedBy h, List.all_append, ← (alike_first h).fits, ← (alike_second h).fits,
      all_fits_iff.mpr hjumps, all_fits_iff.mpr hjumps']
    rfl

end Tree.Stmt

namespace Builder

/-- A program is compiled in front of other declarations as it is on its own. -/
theorem compiles_front {tokens ts more bound : List Token} {u : Token} {s : Stmt}
    {final : List Value} (htokens : tokens = ts ++ u :: more) (hts : DeclTokens s ts)
    (hahead : ∀ t ∈ tokens, t.Sound ∧ t.WellSpelled) (hother : u.kind ≠ .elseWord)
    (hfinal : s.pool <+: final) (hfits : (topPlace final).Fits 0 [] s)
    (hbound : bound.length = s.length) :
    let b := repeatWhile (fun b => !b.sees .endOfFile) topDeclaration bound (atStart tokens)
    (atStart tokens).Compiles ts (s.constants true []) (s.code final true []) [] b ∧
      b.upcoming = u :: more := by
  intro b
  obtain ⟨hlocated, hupcoming, hchunk⟩ := located_atStart final
    (show tokens ≠ [] by simp [htokens]) hahead
  have hpool : (atStart tokens).pool = [] := by rw [Builder.pool, hchunk]
  have hsettled := (settled_of_tokens s).2 ts hts (topPlace final) (nestingMax + 1) 0
    (atStart tokens) u more bound _ _ hlocated (by rw [hpool]; exact hfinal)
    (hupcoming.trans htokens) repeats_program (Or.inr ⟨hother, hbound⟩)
  rw [hpool] at hsettled
  have hcompiles := hsettled.compiles hfits
  exact ⟨hcompiles, hcompiles.upcoming (hupcoming.trans htokens)⟩

/-- Behind declarations that two texts share, the code has the same lines. -/
theorem lines_front {ts tail tail' bound : List Token} (htail : Complete tail)
    (htail' : Complete tail') (hne : ts ≠ []) (hmore : ∀ t ∈ ts, t.kind ≠ .endOfFile)
    {b b' : Builder}
    (hb : repeatWhile (fun b => !b.sees .endOfFile) topDeclaration bound (atStart (ts ++ tail)) = b)
    (hb' : repeatWhile (fun b => !b.sees .endOfFile) topDeclaration bound (atStart (ts ++ tail')) =
      b')
    (htook : (atStart (ts ++ tail)).Took ts b) (htook' : (atStart (ts ++ tail')).Took ts b')
    (hahead : b.upcoming = tail) (hahead' : b'.upcoming = tail')
    (hsize : b.chunk.lines.size = b'.chunk.lines.size) : b.chunk.lines = b'.chunk.lines := by
  have hstart : Shares tail tail' ({ unread := ts ++ tail } : Builder) { unread := ts ++ tail' } :=
    ⟨ts, rfl, rfl⟩
  have hloose :
      ((alike htail htail').atLevel 0).Loose (atStart (ts ++ tail)) (atStart (ts ++ tail')) :=
    (hstart.advance htail htail').imp_left fun h => ⟨h, (closed_levels.advance _).1⟩
  have hlast := (levels_alike htail htail').declarations bound bound rfl hloose
  rw [hb, hb'] at hlast
  obtain ⟨⟨front, hunread, -⟩, -⟩ | ⟨⟨lines, line⟩, hleft, hright⟩ := hlast
  · have hlength := congrArg List.length hahead
    rw [Builder.upcoming, hunread] at hlength
    simp only [List.length_cons, List.length_append] at hlength
    omega
  · have hprevious {c c' : Builder} (htook : c.Took ts c') : c'.previous.kind ≠ .endOfFile := by
      rw [htook.previous, List.getLastD_eq_getLast?, List.getLast?_eq_some_getLast hne]
      exact hmore _ (List.getLast_mem hne)
    obtain hshort | hend | ⟨-, k, hlines⟩ := hleft.wrote
    · exact absurd hahead (fun heq => Nat.ne_of_lt hshort (congrArg List.length heq))
    · exact absurd hend (hprevious htook)
    · obtain hshort | hend | ⟨-, k', hlines'⟩ := hright.wrote
      · exact absurd hahead' (fun heq => Nat.ne_of_lt hshort (congrArg List.length heq))
      · exact absurd hend (hprevious htook')
      · dsimp only at hlines hlines'
        rw [hlines, hlines', Array.size_append, Array.size_append, Array.size_replicate,
          Array.size_replicate] at hsize
        rw [hlines, hlines', Nat.add_left_cancel hsize]

end Builder

end StackScript
