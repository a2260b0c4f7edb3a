import StackScript.Proofs.Code.Renumber
import StackScript.Proofs.Machine.Ending
import StackScript.Proofs.StackDiscipline

/-!
The code of one chunk inside another. There it stands further on and belongs to later lines,
and its constants may have other places in the pool. A machine takes the same steps through
it as through the chunk itself, up to where that chunk would return.
-/

namespace StackScript

/-- The same outcome with an error some lines later. -/
def Outcome.later (lines : Nat) : Outcome → Outcome
  | .failed e => .failed { e with line := e.line + lines }
  | outcome => outcome

namespace Instruction

/-- Only the offset to go on at depends on where an instruction stands. -/
theorem exec_shift (i : Instruction) (shift next : Nat)
    (hback : ∀ distance, i = .loop distance → distance ≤ next) :
    i.exec (shift + next) = (shift + ·) <$> i.exec next := by
  cases i with
  | negate =>
      simp only [exec, map_bind]
      congr 1
      funext v
      cases v with
      | number x => simp only [map_bind, map_pure]
      | _ => rfl
  | jump distance => exact congrArg pure (Nat.add_assoc shift next distance)
  | jumpIfFalse distance =>
      simp only [exec, map_bind, map_pure]
      congr 1
      funext v
      split
      · rw [Nat.add_assoc]
      · rfl
  | loop distance =>
      have hle := hback distance rfl
      simp only [exec, if_pos hle, if_pos (Nat.le_add_left_of_le hle), map_pure]
      rw [Nat.add_sub_assoc hle]
  | ret => rfl
  | _ => simp only [exec, map_bind, map_pure]

end Instruction

open Tree

theorem Tree.AlikeCode.exists_split {first second : List Value} {before behind items : List Item}
    {item : Item} (h : AlikeCode first second (before ++ item :: behind) items) :
    ∃ before' item' behind', items = before' ++ item' :: behind' ∧
      codeSize before' = codeSize before ∧ item.Alike first second item' := by
  induction before generalizing items with
  | nil =>
      cases h with
      | @cons _ item' _ behind' hitem _ => exact ⟨[], item', behind', rfl, rfl, hitem⟩
  | cons other before ih =>
      cases h with
      | @cons _ other' _ _ hother hrest =>
          obtain ⟨before', item', behind', rfl, hsize, hitem⟩ := ih hrest
          exact ⟨other' :: before', item', behind', rfl, by simp [hsize, hother.size], hitem⟩

namespace Chunk

/-- A run ends where the chunk returns, or stops at a site. -/
theorem Follows.ends {c : Chunk} {sites : List Site} (h : c.Follows sites) {ip : Nat}
    {m m' : Machine} {outcome : Outcome} (hends : c.Ends ip m outcome m')
    (hreaches : ∃ height, Reaches sites ip height) :
    (outcome = .finished ∧ ip = sitesSize sites ∧ m' = m) ∨
      outcome ≠ .finished ∧ ∃ before site behind, sites = before ++ site :: behind ∧
        ip = sitesSize before ∧ m.step c ip = .error outcome m' := by
  obtain ⟨height, before, behind, hsplit, rfl, -⟩ := hreaches
  cases hends with
  | past hge => exact absurd (h.lt_size hsplit) hge
  | unlisted hlt hnone =>
      obtain ⟨line, hline⟩ := Option.isSome_iff_exists.mp (c.isSome_instructionLine? hlt)
      simp [Machine.records?, hline] at hnone
  | stopped _ hstep =>
      cases behind with
      | nil =>
          rw [List.append_nil] at hsplit
          rw [← hsplit, h.step_ret] at hstep
          obtain ⟨rfl, rfl⟩ := EStateM.Result.error.inj hstep
          exact Or.inl ⟨rfl, by rw [hsplit], rfl⟩
      | cons site behind =>
          refine Or.inr ⟨?_, before, site, behind, hsplit, rfl, hstep⟩
          rcases h.moved hsplit m with ⟨_, _, hone, -⟩ | ⟨_, _, hone, hother, -⟩
          · rw [hone] at hstep
            cases hstep
          · rw [hone] at hstep
            obtain ⟨rfl, -⟩ := EStateM.Result.error.inj hstep
            exact hother

/-- The sites of `c` have their place in `e`, `shift` bytes further on and `lines` lines
later. -/
structure Embeds (e : Chunk) (shift lines : Nat) (c : Chunk) (sites : List Site) : Prop where
  follows : c.Follows sites
  code : ∃ items, AlikeCode c.constants.toList e.constants.toList (itemsOf sites) items ∧
    e.Has shift items
  room : c.constants.size ≤ constantsMax
  room_all : e.constants.size ≤ constantsMax
  line : ∀ offset < sitesSize sites, ∃ line, c.lines[offset]? = some line ∧
    e.lines[shift + offset]? = some (line + lines)

namespace Embeds

variable {c e : Chunk} {sites before behind : List Site} {site : Site} {shift lines : Nat}
  (h : e.Embeds shift lines c sites)
include h

/-- At the place of a site stands its instruction. -/
theorem exists_has (hsplit : sites = before ++ site :: behind) : ∃ item rest,
    site.item.Alike c.constants.toList e.constants.toList item ∧
      e.Has (shift + sitesSize before) (item :: rest) := by
  obtain ⟨items, halike, hhas⟩ := h.code
  rw [hsplit, itemsOf_append, itemsOf_cons] at halike
  obtain ⟨before', item, rest, rfl, hsize, hitem⟩ := halike.exists_split
  have hhere := (has_append.mp hhas).2
  rw [hsize] at hhere
  exact ⟨item, rest, hitem, hhere⟩

theorem lt_size (hsplit : sites = before ++ site :: behind) :
    shift + sitesSize before < e.size := by
  obtain ⟨item, rest, -, hhere⟩ := h.exists_has hsplit
  exact hhere.lt_size

/-- It is fetched as the same instruction. -/
theorem exists_fetch (hsplit : sites = before ++ site :: behind) : ∃ i,
    site.item.instruction? c.constants.toList = some i ∧
      c.fetch (sitesSize before) = ⟨sitesSize (before ++ [site]), .ok i⟩ ∧
      e.fetch (shift + sitesSize before) = ⟨shift + sitesSize (before ++ [site]), .ok i⟩ := by
  obtain ⟨item, rest, hitem, hhere⟩ := h.exists_has hsplit
  obtain ⟨i, hi, hfetch⟩ := h.follows.exists_fetch hsplit
  have hmem : site.item ∈ itemsOf sites := by rw [hsplit]; simp
  have hfits (op : Opcode) (distance : Nat) (hjump : site.item = .jump op distance) :
      distance ≤ Builder.distanceMax := h.follows.fits op distance (hjump ▸ hmem)
  have hnext : sitesSize (before ++ [site]) = sitesSize before + item.size := by
    rw [sitesSize_append, sitesSize_cons, sitesSize_nil, Nat.add_zero, hitem.size]
  refine ⟨i, hi, hfetch, ?_⟩
  rw [hnext, ← Nat.add_assoc]
  exact hhere.fetch_instruction ((hitem.instruction? h.room h.room_all).trans hi)
    fun op distance hjump => hfits op distance ((hitem.jump_eq hjump).trans hjump)

/-- The line of an instruction is the one of its last byte. -/
theorem lineBefore (hsplit : sites = before ++ site :: behind) :
    e.lineBefore (shift + sitesSize (before ++ [site])) =
      c.lineBefore (sitesSize (before ++ [site])) + lines := by
  have hpos := site.item.size_pos
  obtain ⟨last, hlast⟩ : ∃ last, sitesSize (before ++ [site]) = last + 1 :=
    Nat.exists_eq_add_one.mpr (by simp; omega)
  have hlt : last < sitesSize sites := by
    rw [hsplit, sitesSize_append, sitesSize_cons]
    simp only [sitesSize_append, sitesSize_cons, sitesSize_nil] at hlast
    omega
  obtain ⟨line, hline, hlater⟩ := h.line last hlt
  simp [Chunk.lineBefore, hlast, ← Nat.add_assoc, hline, hlater]

/-- A step from a site is the same step, only elsewhere. -/
theorem step_eq (hsplit : sites = before ++ site :: behind) (m : Machine) :
    m.step e (shift + sitesSize before) =
      match m.step c (sitesSize before) with
      | .ok ip m' => .ok (shift + ip) m'
      | .error outcome m' => .error (outcome.later lines) m' := by
  obtain ⟨i, hi, hfetch, hfetch'⟩ := h.exists_fetch hsplit
  have hexec := i.exec_shift shift _ (h.follows.loop_within hsplit hi)
  have hline := h.lineBefore hsplit
  rw [Machine.step_of_fetch hfetch, Machine.step_of_fetch hfetch', hexec, hline]
  have hmap : ((shift + ·) <$> i.exec (sitesSize (before ++ [site]))) m =
      EStateM.map (shift + ·) (i.exec (sitesSize (before ++ [site]))) m := rfl
  rw [hmap, EStateM.map]
  cases i.exec (sitesSize (before ++ [site])) m with
  | ok ip m' => rfl
  | error stop m' => cases stop <;> rfl

/-- A path through the chunk is one through its place. -/
theorem path {n ip ip' : Nat} {m m' : Machine} (hpath : c.Path n ip m ip' m')
    (hreaches : ∃ height, Reaches sites ip height) :
    e.Path n (shift + ip) m (shift + ip') m' := by
  induction hpath with
  | nil => exact .nil
  | cons _ hstep _ ih =>
      have hnext := ih (h.follows.exists_reaches_of_step hreaches hstep)
      obtain ⟨height, before, behind, hsplit, rfl, -⟩ := hreaches
      cases behind with
      | nil =>
          rw [List.append_nil] at hsplit
          rw [← hsplit, h.follows.step_ret] at hstep
          cases hstep
      | cons site behind =>
          refine .cons (h.lt_size hsplit) ?_ hnext
          rw [h.step_eq hsplit, hstep]

/-- A run that ends on its way ends alike in its place; else it comes to where the chunk
would return. -/
theorem ends {ip : Nat} {m m' : Machine} {outcome : Outcome} (hends : c.Ends ip m outcome m')
    (hreaches : ∃ height, Reaches sites ip height) :
    (outcome = .finished ∧ ip = sitesSize sites ∧ m' = m) ∨
      outcome ≠ .finished ∧ e.Ends (shift + ip) m (outcome.later lines) m' := by
  obtain hlast | ⟨hother, before, site, behind, hsplit, rfl, hstep⟩ := h.follows.ends hends hreaches
  · exact Or.inl hlast
  · refine Or.inr ⟨hother, .stopped (h.lt_size hsplit) ?_⟩
    rw [h.step_eq hsplit, hstep]

end Embeds

/-- Where a run from an empty stack returns, the stack is empty. -/
theorem Follows.empty_of_leads {c : Chunk} {sites : List Site} (h : c.Follows sites)
    {m m' : Machine} (hempty : m.stack.height = 0) (hleads : c.Leads m .finished m') :
    m'.stack.height = 0 := by
  obtain ⟨n, ip, m₁, hpath, hends⟩ := hleads
  obtain ⟨-, rfl, rfl⟩ | ⟨hother, -⟩ := h.ends hends (h.reaches_of_path hpath)
  · have hlast := h.heightAt_last
    rw [h.size_eq, Nat.add_sub_cancel] at hlast
    rw [← (h.height_of_path hpath hempty).heightAt, hlast]
  · exact absurd rfl hother

/-- The code of two chunks, the second one behind the first and on later lines, and then the
instruction that returns. -/
structure Joins (e : Chunk) (lines : Nat) (c d : Chunk) (sites sites' : List Site) : Prop where
  first : e.Embeds 0 0 c sites
  second : e.Embeds (sitesSize sites) lines d sites'
  returns : e.Has (sitesSize sites + sitesSize sites') [.plain .ret]

namespace Joins

variable {c d e : Chunk} {sites sites' : List Site} {lines n ip : Nat} {m m₁ m' : Machine}
  {outcome : Outcome} (h : e.Joins lines c d sites sites')
include h

theorem path_first (hpath : c.Path n 0 m ip m') : e.Path n 0 m ip m' := by
  have hsame := h.first.path hpath ⟨0, h.first.follows.reaches_start⟩
  rwa [Nat.zero_add, Nat.zero_add] at hsame

/-- Where the first chunk would return, the second one begins. -/
theorem exists_path_second (hleads : c.Leads m .finished m₁) :
    ∃ n, e.Path n 0 m (sitesSize sites) m₁ := by
  obtain ⟨n, ip, m₂, hpath, hends⟩ := hleads
  obtain ⟨-, rfl, rfl⟩ | ⟨hother, -⟩ :=
    h.first.follows.ends hends (h.first.follows.reaches_of_path hpath)
  · exact ⟨n, h.path_first hpath⟩
  · exact absurd rfl hother

theorem path_second (hpath : d.Path n 0 m₁ ip m') :
    e.Path n (sitesSize sites) m₁ (sitesSize sites + ip) m' :=
  h.second.path hpath ⟨0, h.second.follows.reaches_start⟩

theorem leads_of_first (hleads : c.Leads m outcome m') (hfails : outcome ≠ .finished) :
    e.Leads m outcome m' := by
  obtain ⟨n, ip, m₁, hpath, hends⟩ := hleads
  obtain ⟨hfinished, -⟩ | ⟨-, hstops⟩ :=
    h.first.ends hends (h.first.follows.reaches_of_path hpath)
  · exact absurd hfinished hfails
  · have hsame : outcome.later 0 = outcome := by cases outcome <;> rfl
    rw [Nat.zero_add, hsame] at hstops
    exact ⟨n, ip, m₁, h.path_first hpath, hstops⟩

theorem leads_of_second (hleads : c.Leads m .finished m₁) (hleads' : d.Leads m₁ outcome m') :
    e.Leads m (outcome.later lines) m' := by
  obtain ⟨n, hbefore⟩ := h.exists_path_second hleads
  obtain ⟨k, ip, m₂, hpath, hends⟩ := hleads'
  refine ⟨n + k, sitesSize sites + ip, m₂, hbefore.trans (h.path_second hpath), ?_⟩
  obtain ⟨rfl, rfl, rfl⟩ | ⟨-, hstops⟩ :=
    h.second.ends hends (h.second.follows.reaches_of_path hpath)
  · exact .stopped h.returns.lt_size (h.returns.step_ret m')
  · exact hstops

theorem goesOn_of_first (hgoes : c.GoesOn m) : e.GoesOn m := by
  intro n
  obtain ⟨k, ip, m', hk, hpath⟩ := hgoes n
  exact ⟨k, ip, m', hk, h.path_first hpath⟩

theorem goesOn_of_second (hleads : c.Leads m .finished m₁) (hgoes : d.GoesOn m₁) : e.GoesOn m := by
  intro n
  obtain ⟨j, hbefore⟩ := h.exists_path_second hleads
  obtain ⟨k, ip, m', hk, hpath⟩ := hgoes n
  exact ⟨j + k, sitesSize sites + ip, m', Nat.le_add_left_of_le hk,
    hbefore.trans (h.path_second hpath)⟩

/-- The joined code comes to an end as the first chunk does, or else, where that one would
return, as the second one does. -/
theorem leads_iff : e.Leads m outcome m' ↔ (c.Leads m outcome m' ∧ outcome ≠ .finished) ∨
    ∃ m₁ outcome', c.Leads m .finished m₁ ∧ d.Leads m₁ outcome' m' ∧
      outcome = outcome'.later lines := by
  constructor
  · intro hleads
    obtain ⟨first, m₁, hfirst⟩ | hgoes := c.leads_or_goesOn m
    · by_cases hfails : first = .finished
      · subst hfails
        obtain ⟨second, m₂, hsecond⟩ | hgoes := d.leads_or_goesOn m₁
        · obtain ⟨rfl, rfl⟩ := hleads.unique (h.leads_of_second hfirst hsecond)
          exact Or.inr ⟨m₁, second, hfirst, hsecond, rfl⟩
        · exact absurd (h.goesOn_of_second hfirst hgoes) hleads.not_goesOn
      · obtain ⟨rfl, rfl⟩ := hleads.unique (h.leads_of_first hfirst hfails)
        exact Or.inl ⟨hfirst, hfails⟩
    · exact absurd (h.goesOn_of_first hgoes) hleads.not_goesOn
  · rintro (⟨hfirst, hfails⟩ | ⟨m₁, second, hfirst, hsecond, rfl⟩)
    · exact h.leads_of_first hfirst hfails
    · exact h.leads_of_second hfirst hsecond

end Joins

end Chunk

end StackScript
