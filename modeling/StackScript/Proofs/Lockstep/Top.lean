import StackScript.Proofs.Builder.Progress
import StackScript.Proofs.Diagnosis
import StackScript.Proofs.Grammar.Program
import StackScript.Proofs.Lockstep.Further

/-!
Between two declarations at the top level. No scope is open there, no level and no local,
so from there on a text is compiled as if it began there, as long as no panic is being left.
-/

namespace StackScript

namespace Builder

/-- The builder between two declarations at the top level, in front of the first one or
behind the last one. -/
inductive AtTop (tokens : List Token) : Builder → Prop where
  | start : AtTop tokens (atStart tokens)
  | next {b : Builder} (h : AtTop tokens b) (hmore : b.sees .endOfFile = false) :
      AtTop tokens b.topDeclaration

/-- No local belongs to the top level. -/
structure Scoped (b : Builder) : Prop where
  none_outside : b.scopeDepth = 0 → b.locals = []
  inside : ∀ entry ∈ b.locals, entry.depth ≠ some 0

theorem scoped_dropLocals {entries : List Local} {b : Builder}
    (h : ∀ entry ∈ entries, entry.depth ≠ some 0) : (dropLocals entries b).Scoped := by
  induction entries generalizing b with
  | nil => exact ⟨fun _ => rfl, by simp [dropLocals]⟩
  | cons entry rest ih =>
      unfold dropLocals
      split
      · exact ih fun other hother => h other (List.mem_cons_of_mem _ hother)
      · rename_i hstays
        refine ⟨fun htop => absurd ?_ hstays, h⟩
        have hdeep := h entry (List.mem_cons_self ..)
        have hdepth : b.scopeDepth = 0 := htop
        cases hentry : entry.depth with
        | none => rw [leavesAt, hentry]; rfl
        | some n =>
            rw [hentry] at hdeep
            have hpos : 0 < n := Nat.pos_of_ne_zero fun hn => hdeep (congrArg some hn)
            rw [leavesAt, hentry, hdepth]
            exact decide_eq_true hpos

theorem Scoped.of_eq {b b' : Builder} (h : b.Scoped) (hlocals : b'.locals = b.locals)
    (hdepth : b'.scopeDepth = b.scopeDepth) : b'.Scoped :=
  ⟨fun htop => hlocals.trans (h.none_outside (hdepth.symm.trans htop)), hlocals ▸ h.inside⟩

theorem locals_report (b : Builder) (t : Token) (cause : Diagnostic.Cause) :
    (b.report t cause).locals = b.locals := by
  unfold report
  split <;> rfl

theorem locals_load (unread : List Token) (b : Builder) : (load unread b).locals = b.locals := by
  induction unread generalizing b with
  | nil => rfl
  | cons t rest ih =>
      unfold load
      split
      · rw [ih, locals_report]
      · rfl

theorem Scoped.report {b : Builder} (h : b.Scoped) (t : Token) (cause : Diagnostic.Cause) :
    (b.report t cause).Scoped :=
  h.of_eq (locals_report b t cause) (scopeDepth_report b t cause)

/-- Scopes are opened and closed, but the top level never gets a local. -/
def localsScoped : Upkeep where
  loose := Scoped
  tight := Scoped
  loosen := id
  advance {b} h := h.of_eq (locals_load b.unread { b with previous := b.current })
    (levels_load b.unread { b with previous := b.current }).2
  errorAtCurrent cause _ h := h.report _ cause
  errorAtPrevious cause _ h := h.report _ cause
  recover h := h.of_eq rfl rfl
  emitByte _ h := h.of_eq rfl rfl
  makeConstant {b} v h := by
    obtain ⟨constants, hb⟩ | hb := makeConstant_eq b v
    · rw [hb]
      exact h.of_eq rfl rfl
    · rw [hb]
      exact h.report _ _
  patchJump offset h := by
    unfold patchJump
    dsimp only
    split
    · exact h.of_eq rfl rfl
    · exact h.report _ _
  addLocal {b} name hpos h := by
    unfold addLocal
    split
    · exact h.report _ _
    · refine ⟨fun htop => absurd htop (Nat.ne_of_gt hpos), fun entry hentry => ?_⟩
      obtain rfl | hentry := List.mem_cons.mp hentry
      · nofun
      · exact h.inside entry hentry
  markInitialized {b} hpos h := by
    unfold markInitialized
    split
    · exact h
    · rename_i entry rest hlocals
      refine ⟨fun htop => absurd htop (Nat.ne_of_gt hpos), fun other hother => ?_⟩
      obtain rfl | hother := List.mem_cons.mp hother
      · exact fun hzero => Nat.ne_of_gt hpos (Option.some.inj hzero)
      · exact h.inside other (hlocals ▸ List.mem_cons_of_mem _ hother)
  beginScope {b} h := ⟨fun htop => absurd htop (Nat.succ_ne_zero _), h.inside⟩
  endScope h := scoped_dropLocals h.inside
  deeper h := h.of_eq rfl rfl
  shallower h := h.of_eq rfl rfl

namespace AtTop

variable {tokens : List Token} {b : Builder}

theorem nesting (h : AtTop tokens b) : b.nesting = 0 := by
  induction h with
  | start => exact (closed_levels.advance _).1
  | next _ _ ih => exact (closed_levels.topDeclaration _).1.trans ih

theorem scopeDepth (h : AtTop tokens b) : b.scopeDepth = 0 := by
  induction h with
  | start => exact (closed_levels.advance _).2
  | next _ _ ih => exact (closed_levels.topDeclaration _).2.trans ih

theorem locals (h : AtTop tokens b) : b.locals = [] := by
  have hscoped : b.Scoped := by
    induction h with
    | start => exact localsScoped.advance ⟨fun _ => rfl, fun _ hentry => nomatch hentry⟩
    | next h _ ih => exact localsScoped.topDeclaration ih h.nesting
  exact hscoped.none_outside h.scopeDepth

/-- Some declarations later. -/
theorem declarations (h : AtTop tokens b) (bound : List Token) :
    AtTop tokens (repeatWhile (fun b => !b.sees .endOfFile) topDeclaration bound b) := by
  induction bound generalizing b with
  | nil => exact h
  | cons _ rest ih =>
      unfold repeatWhile
      split
      · rename_i hmore
        exact ih (h.next (by simpa using hmore))
      · exact h

theorem inOrder {source : String} (h : AtTop (Token.scan source) b) :
    InOrder (Token.scan source) b := by
  induction h with
  | start => exact inOrder_start source
  | next h _ ih => exact (Builder.inOrder (Token.ended_scan source)).topDeclaration ih h.nesting

end AtTop

/-- Only behind the end marker there is nothing to read. -/
theorem InOrder.unread_ne_nil {source : String} {b : Builder} (h : InOrder (Token.scan source) b)
    (hmore : b.sees .endOfFile = false) : b.unread ≠ [] := by
  obtain ⟨front, last, hscan, hlast, -⟩ := Token.scan_eq source
  obtain ⟨marks, here, hstands⟩ := h
  have hcurrent := hstands.current
  intro hunread
  rw [hstands.unread, List.drop_eq_nil_iff, hscan, List.length_append] at hunread
  have hend : here = front.length := by
    obtain ⟨hlt, -⟩ := List.getElem?_eq_some_iff.mp hcurrent
    rw [hscan, List.length_append] at hlt
    simp only [List.length_singleton] at hlt hunread
    omega
  rw [hscan, hend, List.getElem?_concat_length] at hcurrent
  have hkind : b.sees .endOfFile = true := decide_eq_true (Option.some.inj hcurrent ▸ hlast)
  rw [hkind] at hmore
  cases hmore

/-- Any bound that is not shorter than the unread tokens is enough for the declarations. -/
theorem declarations_bound {source : String} {b : Builder} (h : InOrder (Token.scan source) b)
    (hlevel : b.nesting = 0) {bound bound' : List Token} (hbound : b.unread.length ≤ bound.length)
    (hbound' : b.unread.length ≤ bound'.length) :
    repeatWhile (fun b => !b.sees .endOfFile) topDeclaration bound b =
      repeatWhile (fun b => !b.sees .endOfFile) topDeclaration bound' b := by
  refine repeatWhile_bound (I := fun b => InOrder (Token.scan source) b ∧ b.nesting = 0)
    (fun b hb hmore => ?_) bound bound' ⟨h, hlevel⟩ hbound hbound'
  have hread := movesOn_topDeclaration.unread b
  have hshorter := unread_advance b
  have hpos := List.length_pos_iff.mpr (hb.1.unread_ne_nil (by simpa using hmore))
  refine ⟨⟨(inOrder (Token.ended_scan source)).topDeclaration hb.1 hb.2,
    (closed_levels.topDeclaration b).1.trans hb.2⟩, by omega⟩

/-- A compilation goes on from any point at the top level as if it had just begun there. -/
theorem AtTop.atEnd_eq {source : String} {b : Builder} (h : AtTop (Token.scan source) b)
    {bound : List Token} (hbound : b.unread.length ≤ bound.length) :
    atEnd (Token.scan source) =
      repeatWhile (fun b => !b.sees .endOfFile) topDeclaration bound b := by
  induction h generalizing bound with
  | start =>
      exact declarations_bound (inOrder_start source) (closed_levels.advance _).1 le_rfl hbound
  | @next b h hmore ih =>
      obtain ⟨t, rest, hunread⟩ := List.exists_cons_of_ne_nil (h.inOrder.unread_ne_nil hmore)
      have hround : repeatWhile (fun b => !b.sees .endOfFile) topDeclaration b.unread b =
          repeatWhile (fun b => !b.sees .endOfFile) topDeclaration rest b.topDeclaration := by
        rw [hunread, repeatWhile, if_pos (by rw [hmore]; rfl)]
      have hread := movesOn_topDeclaration.unread b
      have hshorter := unread_advance b
      rw [hunread, List.length_cons] at hshorter
      rw [ih le_rfl, hround]
      exact declarations_bound (h.next hmore).inOrder (h.next hmore).nesting (by omega) hbound

/-- What was read before the first declaration makes no difference. -/
theorem advance_declarations_of_previous (bound : List Token) (b : Builder) (t : Token) :
    (repeatWhile (fun b => !b.sees .endOfFile) topDeclaration bound
        { b with previous := t }).advance =
      (repeatWhile (fun b => !b.sees .endOfFile) topDeclaration bound b).advance := by
  cases bound with
  | nil => rfl
  | cons _ rest =>
      unfold repeatWhile
      have hsees : ({ b with previous := t } : Builder).sees .endOfFile = b.sees .endOfFile := rfl
      rw [hsees, movesOn_topDeclaration.previous]
      split <;> rfl

namespace AtTop

variable {source rest : String} {b : Builder} (h : AtTop (Token.scan source) b)
include h

/-- The rest of the text has the tokens it has on its own, only further on. -/
theorem exists_rest : ∃ before rest : String, source = before ++ rest ∧
    before.utf8ByteSize = b.current.start ∧
    b.upcoming = (Token.scan rest).map (Token.behind before.toList) := by
  obtain ⟨marks, here, hstands⟩ := h.inOrder
  obtain ⟨hlt, hcurrent⟩ := List.getElem?_eq_some_iff.mp hstands.current
  obtain ⟨before, rest, hsource, htokens, hstart⟩ := (Cursor.start source).drop_tokens hlt
  have hrest : (Cursor.start (String.ofList rest)) = ⟨rest, 0, 1⟩ := by
    rw [Cursor.start, String.toList_ofList]
  have hdrop : (Token.scan source).drop here = b.upcoming := by
    rw [Builder.upcoming, hstands.unread, ← hcurrent]
    exact List.drop_eq_getElem_cons hlt
  refine ⟨String.ofList before, String.ofList rest, ?_, ?_, ?_⟩
  · rw [← String.ofList_append, ← hsource]
    exact String.ofList_toList.symm
  · rw [← hcurrent]
    exact (hstart.trans (Nat.zero_add _)).symm
  · rw [String.toList_ofList, ← hdrop]
    refine htokens.trans ?_
    rw [Cursor.start, Cursor.tokens_behind, ← hrest]
    rfl

/-- If no panic is being left, a text with the tokens to come begins as this one goes on. -/
theorem further {front : List Char} (hcalm : b.panicking = false)
    (hahead : b.upcoming = (Token.scan rest).map (Token.behind front)) :
    Further front b { b with previous := Token.origin.behind front }
      (atStart (Token.scan rest)) := by
  obtain ⟨marks, here, hstands⟩ := h.inOrder
  obtain ⟨t, ts, hscan, ht, hts⟩ := List.map_eq_cons_iff.mp hahead.symm
  have hsound : t.Sound := by
    have hcurrent := hstands.sound
    rwa [← ht] at hcurrent
  have hbegun : atStart (t :: ts) = ({ unread := t :: ts } : Builder).moved t ts :=
    advance_of_sound rfl hsound
  rw [hscan, hbegun]
  exact ⟨hts.symm, ht.symm, rfl, hcalm, h.locals, h.scopeDepth, h.nesting, by simp [moved],
    by simp [moved, Chunk.size], by simp [moved]⟩

/-- From there on the two are compiled alike, unless the constants of one are too many. -/
theorem further_program {front : List Char} (hcalm : b.panicking = false)
    (hahead : b.upcoming = (Token.scan rest).map (Token.behind front)) :
    Further front b (program (Token.scan source)) (program (Token.scan rest)) ∨
      (program (Token.scan source)).Overflows ∨ (program (Token.scan rest)).Overflows := by
  have hfurther := h.further hcalm hahead
  have hlength := congrArg List.length hfurther.unread
  rw [List.length_map] at hlength
  have hlast := ((levels_further front b).declarations b.unread (atStart (Token.scan rest)).unread
    hlength (Or.inl ⟨hfurther, h.nesting⟩)).advance.emit .ret
  rw [advance_declarations_of_previous, ← h.atEnd_eq le_rfl] at hlast
  obtain ⟨hlast, -⟩ | ⟨e, hleft, hright⟩ := hlast
  · exact Or.inl hlast
  · cases e with
    | true => exact Or.inr (Or.inl (hleft rfl))
    | false => exact Or.inr (Or.inr (hright rfl))

end AtTop

end Builder

end StackScript
