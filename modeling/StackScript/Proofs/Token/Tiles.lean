import StackScript.Proofs.Token.Append

/-!
A text as its tokens cut it: gaps of blanks and comments, a lexeme behind each of them, and
nothing left over. Where a token stands and on which line it ends can be counted in the text
before it.
-/

namespace StackScript

/-- Blanks and comments, with `after` behind them. A comment is complete when its line or
the text ends with it. -/
inductive Gap (after : List Char) : List Char → Prop
  | nil : Gap after []
  | blank {c : Char} {gap : List Char} (hblank : c ∈ [' ', '\t', '\r', '\n'])
      (hgap : Gap after gap) : Gap after (c :: gap)
  | comment {body gap : List Char} (hline : '\n' ∉ body)
      (hends : ∀ c ∈ (gap ++ after).head?, c = '\n') (hgap : Gap after gap) :
      Gap after ('/' :: '/' :: (body ++ gap))

/-- The tokens cut up the text that stands behind `before`, up to the end marker. -/
inductive Tiles : (before text : List Char) → List Token → Prop
  | last {before gap : List Char} (hgap : Gap [] gap) :
      Tiles before gap
        [⟨.endOfFile, (String.ofList (before ++ gap)).utf8ByteSize, "",
          1 + (before ++ gap).count '\n'⟩]
  | token {before gap lexeme after : List Char} {kind : TokenKind} {ts : List Token}
      (hgap : Gap (lexeme ++ after) gap) (hkind : kind ≠ .endOfFile) (hlexeme : lexeme ≠ [])
      (htiles : Tiles (before ++ gap ++ lexeme) after ts) :
      Tiles before (gap ++ lexeme ++ after)
        (⟨kind, (String.ofList (before ++ gap)).utf8ByteSize, String.ofList lexeme,
          1 + (before ++ gap ++ lexeme).count '\n'⟩ :: ts)

/-- Where the text of a token ends. -/
def Token.stop (t : Token) : Nat := t.start + t.size

namespace Cursor

theorem mem_of_isBlank {c : Char} (h : isBlank c = true) : c ∈ [' ', '\t', '\r', '\n'] := by
  simp only [isBlank, Bool.or_eq_true, decide_eq_true_eq] at h
  obtain ((rfl | rfl) | rfl) | rfl := h <;> decide

/-- A comment is skipped to the end of its line, which is then skipped as a blank. -/
theorem skip_comment (offset line : Nat) (chars : List Char) : ∃ offset',
    skip true offset line chars = skip false offset' line (chars.dropWhile (· != '\n')) := by
  induction chars generalizing offset with
  | nil => exact ⟨offset, rfl⟩
  | cons c rest ih =>
      by_cases hc : c = '\n'
      · subst hc
        exact ⟨offset, rfl⟩
      · obtain ⟨offset', hskip⟩ := ih (offset + c.utf8Size)
        refine ⟨offset', ?_⟩
        rw [List.dropWhile_cons, if_pos (bne_iff_ne.mpr hc), ← hskip]
        simp only [skip, if_true, bne_iff_ne.mpr hc, if_neg hc]

/-- What is skipped before a token is a gap. The induction goes from blank to blank and from
comment to comment, so a comment is taken as a whole. -/
theorem exists_gap (offset line : Nat) (chars : List Char) :
    ∃ gap, chars = gap ++ (skip false offset line chars).rest ∧
      Gap (skip false offset line chars).rest gap := by
  generalize hlength : chars.length = n
  induction n using Nat.strong_induction_on generalizing offset line chars with
  | _ n ih =>
      subst hlength
      match chars with
      | [] => exact ⟨[], rfl, .nil⟩
      | c :: rest =>
          by_cases hblank : isBlank c = true
          · have hskip : skip false offset line (c :: rest) =
                skip false (offset + c.utf8Size) (if c = '\n' then line + 1 else line) rest := by
              simp only [skip, hblank, Bool.false_eq_true, if_false, if_true]
            rw [hskip]
            obtain ⟨gap, hrest, hgap⟩ := ih _ (Nat.lt_succ_self _) _ _ rest rfl
            exact ⟨c :: gap, congrArg (c :: ·) hrest, .blank (mem_of_isBlank hblank) hgap⟩
          · rw [Bool.not_eq_true] at hblank
            cases hslash : (c = '/' && rest.head? = some '/') with
            | false =>
                rw [skip_of_text _ _ hblank hslash]
                exact ⟨[], rfl, .nil⟩
            | true =>
                simp only [Bool.and_eq_true, decide_eq_true_eq] at hslash
                obtain ⟨rfl, hhead⟩ := hslash
                obtain ⟨text, rfl⟩ := List.head?_eq_some_iff.mp hhead
                obtain ⟨offset', hcomment⟩ := skip_comment (offset + 1 + 1) line text
                have hskip : skip false offset line ('/' :: '/' :: text) =
                    skip false offset' line (text.dropWhile (· != '\n')) := hcomment
                have hshorter := List.length_dropWhile_le (· != '\n') text
                rw [hskip]
                obtain ⟨gap, hrest, hgap⟩ := ih _
                  (Nat.lt_succ_of_le (Nat.le_succ_of_le hshorter)) offset' line _ rfl
                refine ⟨'/' :: '/' :: (text.takeWhile (· != '\n') ++ gap), ?_, .comment ?_ ?_ hgap⟩
                · rw [List.cons_append, List.cons_append, List.append_assoc, ← hrest,
                    List.takeWhile_append_dropWhile]
                · intro hmem
                  exact absurd (List.mem_takeWhile_imp hmem) (by decide)
                · intro d hd
                  have hstop := List.head?_dropWhile_not (· != '\n') text
                  rw [hrest, Option.mem_def.mp hd] at hstop
                  simpa using hstop

variable {cursor : Cursor} {c : Char} {rest : List Char} {offset line : Nat}

theorem next_of_end (h : skip false cursor.offset cursor.line cursor.rest = ⟨[], offset, line⟩) :
    cursor.next = (⟨.endOfFile, offset, "", line⟩, ⟨[], offset, line⟩) := by
  unfold next
  rw [h]

theorem next_of_text
    (h : skip false cursor.offset cursor.line cursor.rest = ⟨c :: rest, offset, line⟩) :
    cursor.next = (⟨(lexemeAt c rest).1, offset, String.ofList (lexemeAt c rest).2,
        line + (lexemeAt c rest).2.count '\n'⟩,
      ⟨(c :: rest).drop (lexemeAt c rest).2.length,
        offset + (String.ofList (lexemeAt c rest).2).utf8ByteSize,
        line + (lexemeAt c rest).2.count '\n'⟩) := by
  unfold next
  rw [h]

/-- The cursor that has read `before`, with `rest` to come. -/
def past (before rest : List Char) : Cursor :=
  ⟨rest, (String.ofList before).utf8ByteSize, 1 + before.count '\n'⟩

theorem behind_past (before gap rest : List Char) :
    behind gap (past before rest) = past (before ++ gap) rest := by
  simp only [behind, past, utf8ByteSize_append, List.count_append, Nat.add_assoc]

/-- The token at the front of `text`, behind `before`. -/
def lexed (before : List Char) (c : Char) (text : List Char) : Token :=
  ⟨(lexemeAt c text).1, (String.ofList before).utf8ByteSize, String.ofList (lexemeAt c text).2,
    1 + (before ++ (lexemeAt c text).2).count '\n'⟩

/-- What a call does: past a gap it finds the end of the text or a lexeme. -/
inductive Advances (before : List Char) : (rest : List Char) → Token × Cursor → Prop
  | last {gap : List Char} (hgap : Gap [] gap) : Advances before gap
      (⟨.endOfFile, (String.ofList (before ++ gap)).utf8ByteSize, "",
        1 + (before ++ gap).count '\n'⟩, past (before ++ gap) [])
  | token {gap : List Char} {c : Char} {text after : List Char} (hgap : Gap (c :: text) gap)
      (hlexeme : (lexemeAt c text).2 ++ after = c :: text) : Advances before (gap ++ c :: text)
        (lexed (before ++ gap) c text, past (before ++ gap ++ (lexemeAt c text).2) after)

/-- A call takes a gap and a lexeme, and knows where it stands by what it has taken. -/
theorem advances_next (before rest : List Char) : Advances before rest (past before rest).next := by
  obtain ⟨gap, hrest, hgap⟩ := exists_gap (past before rest).offset (past before rest).line rest
  obtain ⟨skipped, hskipped, hskip⟩ :=
    exists_skipped false (past before rest).offset (past before rest).line rest
  obtain rfl : gap = skipped := List.append_cancel_right (hrest.symm.trans hskipped)
  generalize (skip false (past before rest).offset (past before rest).line rest).rest = after
    at hrest hgap hskip
  replace hskip :
      skip false (past before rest).offset (past before rest).line (past before rest).rest =
      past (before ++ gap) after := hskip.trans (behind_past before gap after)
  cases after with
  | nil =>
      rw [next_of_end hskip, hrest, List.append_nil]
      exact .last hgap
  | cons c text =>
      obtain ⟨after, hlexeme⟩ := lexemeAt_prefix c text
      have hcursor : (past before rest).next.2 =
          past (before ++ gap ++ (lexemeAt c text).2) after := by
        rw [next_of_text hskip, ← hlexeme, List.drop_left, ← behind_past]
        rfl
      have htoken : (past before rest).next.1 = lexed (before ++ gap) c text := by
        rw [next_of_text hskip, lexed, @List.count_append _ _ _ (before ++ gap), ← Nat.add_assoc]
      have hnext : (past before rest).next = (lexed (before ++ gap) c text,
          past (before ++ gap ++ (lexemeAt c text).2) after) := Prod.ext htoken hcursor
      rw [hnext, hrest]
      exact .token hgap hlexeme

/-- A property of texts that calls carry over from what is left holds of every text. The
tokens come with it. -/
theorem tokens_induction {P : (before rest : List Char) → List Token → Prop}
    (last : ∀ before gap, Gap [] gap → P before gap
      [⟨.endOfFile, (String.ofList (before ++ gap)).utf8ByteSize, "",
        1 + (before ++ gap).count '\n'⟩])
    (token : ∀ before gap c text after ts, Gap (c :: text) gap →
      (lexemeAt c text).2 ++ after = c :: text → P (before ++ gap ++ (lexemeAt c text).2) after ts →
        P before (gap ++ c :: text) (lexed (before ++ gap) c text :: ts))
    (before rest : List Char) : P before rest (past before rest).tokens := by
  generalize hlength : rest.length = n
  induction n using Nat.strong_induction_on generalizing before rest with
  | _ n ih =>
      have hadvances := advances_next before rest
      generalize hnext : (past before rest).next = next at hadvances
      cases hadvances with
      | last hgap =>
          rw [tokens_of_end (by rw [hnext]), hnext]
          exact last before rest hgap
      | @token gap c text after hgap hlexeme =>
          have hkind := lexemeAt_ne_endOfFile c text
          have hpos := lexemeAt_length_pos c text
          have hshorter : after.length < n := by
            rw [← hlength, ← hlexeme, List.length_append, List.length_append]
            omega
          rw [tokens_of_more (by rw [hnext]; exact hkind), hnext]
          exact token _ _ _ _ _ _ hgap hlexeme (ih _ hshorter _ after rfl)

theorem tiles_tokens (before rest : List Char) : Tiles before rest (past before rest).tokens := by
  induction before, rest using tokens_induction with
  | last before gap hgap => exact .last hgap
  | token before gap c text after ts hgap hlexeme htiles =>
      have hkind := lexemeAt_ne_endOfFile c text
      have hne := List.ne_nil_of_length_pos (lexemeAt_length_pos c text)
      rw [← hlexeme] at hgap ⊢
      rw [← List.append_assoc]
      exact .token hgap hkind hne htiles

end Cursor

theorem Token.tiles_scan (source : String) : Tiles [] source.toList (Token.scan source) :=
  Cursor.tiles_tokens [] source.toList

namespace Tiles

variable {before text : List Char} {ts : List Token}

/-- The end marker stands behind the whole text. -/
theorem exists_last (h : Tiles before text ts) : ∃ front, ts = front ++
      [⟨.endOfFile, (String.ofList (before ++ text)).utf8ByteSize, "",
        1 + (before ++ text).count '\n'⟩] ∧
    ∀ t ∈ front, t.kind ≠ .endOfFile ∧ 0 < t.size := by
  induction h with
  | last hgap => exact ⟨[], rfl, nofun⟩
  | token hgap hkind hlexeme htiles ih =>
      obtain ⟨front, rfl, hfront⟩ := ih
      simp only [List.append_assoc]
      refine ⟨_ :: front, rfl, List.forall_mem_cons.mpr ⟨⟨hkind, ?_⟩, hfront⟩⟩
      obtain ⟨c, rest, rfl⟩ := List.exists_cons_of_ne_nil hlexeme
      unfold Token.size
      dsimp only
      rw [Cursor.utf8ByteSize_cons]
      exact Nat.add_pos_left c.utf8Size_pos _

/-- Every token covers a piece of the text. -/
theorem exists_piece (h : Tiles before text ts) {t : Token} (ht : t ∈ ts) : ∃ first second,
    before ++ text = first ++ t.lexeme.toList ++ second ∧
      t.start = (String.ofList first).utf8ByteSize ∧
      t.line = 1 + (first ++ t.lexeme.toList).count '\n' ∧ before <+: first := by
  induction h with
  | @last before gap hgap =>
      obtain rfl := List.mem_singleton.mp ht
      exact ⟨before ++ gap, [], by simp, rfl, by simp, List.prefix_append ..⟩
  | @token before gap lexeme after kind ts hgap hkind hlexeme htiles ih =>
      obtain rfl | ht := List.mem_cons.mp ht
      · exact ⟨before ++ gap, after, by simp, rfl, by simp, List.prefix_append ..⟩
      · obtain ⟨first, second, htext, hstart, hline, hfirst⟩ := ih ht
        refine ⟨first, second, ?_, hstart, hline, ?_⟩
        · rw [← htext]
          simp only [List.append_assoc]
        · exact ((List.prefix_append ..).trans (List.prefix_append ..)).trans hfirst

/-- Tokens stand one behind the other. -/
theorem ordered (h : Tiles before text ts) :
    ts.Pairwise fun t u => t.start < u.start ∧ t.stop ≤ u.start := by
  induction h with
  | last hgap => exact List.pairwise_singleton _ _
  | @token before gap lexeme after kind ts hgap hkind hlexeme htiles ih =>
      refine List.pairwise_cons.mpr ⟨?_, ih⟩
      intro u hu
      obtain ⟨first, second, -, hstart, -, rest, rfl⟩ := htiles.exists_piece hu
      obtain ⟨c, rest, rfl⟩ := List.exists_cons_of_ne_nil hlexeme
      have := c.utf8Size_pos
      unfold Token.stop Token.size
      dsimp only
      rw [hstart]
      simp only [Cursor.utf8ByteSize_append, Cursor.utf8ByteSize_cons]
      omega

end Tiles

end StackScript
