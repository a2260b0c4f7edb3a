import Mathlib.Tactic.Common
import StackScript.Token.Scan

/-!
Tokens of a text that stands behind other text. Scanning has no memory: from a token on,
the tokens are those of the text that starts there, only further on, and a text that ends
with its last token can be scanned on its own when the other text starts on a new line.
-/

namespace StackScript

/-- The token where `front` stands before its text. -/
def Token.behind (front : List Char) (t : Token) : Token :=
  { t with
    start := t.start + (String.ofList front).utf8ByteSize
    line := t.line + front.count '\n' }

namespace Cursor

/-- The cursor where `front` stands before its text. -/
def behind (front : List Char) (cursor : Cursor) : Cursor :=
  { cursor with
    offset := cursor.offset + (String.ofList front).utf8ByteSize
    line := cursor.line + front.count '\n' }

theorem utf8ByteSize_cons (c : Char) (chars : List Char) :
    (String.ofList (c :: chars)).utf8ByteSize = c.utf8Size +
      (String.ofList chars).utf8ByteSize := by
  rw [← List.singleton_append, String.ofList_append, String.utf8ByteSize_append,
    ← String.singleton_eq_ofList, String.utf8ByteSize_singleton]

theorem utf8ByteSize_append (first second : List Char) :
    (String.ofList (first ++ second)).utf8ByteSize =
      (String.ofList first).utf8ByteSize + (String.ofList second).utf8ByteSize := by
  rw [String.ofList_append, String.utf8ByteSize_append]

theorem behind_append (first second : List Char) (cursor : Cursor) :
    cursor.behind (first ++ second) = (cursor.behind first).behind second := by
  simp only [behind, utf8ByteSize_append, List.count_append, Nat.add_assoc]

theorem skip_behind (front : List Char) (inComment : Bool) (offset line : Nat) (chars : List Char) :
    skip inComment (offset + (String.ofList front).utf8ByteSize) (line + front.count '\n') chars =
      (skip inComment offset line chars).behind front := by
  induction chars generalizing inComment offset line with
  | nil => rfl
  | cons c rest ih =>
      have hoffset : offset + (String.ofList front).utf8ByteSize + c.utf8Size =
          offset + c.utf8Size + (String.ofList front).utf8ByteSize := Nat.add_right_comm ..
      have hline : (if c = '\n' then line + front.count '\n' + 1 else line + front.count '\n') =
          (if c = '\n' then line + 1 else line) + front.count '\n' := by
        split
        · exact Nat.add_right_comm ..
        · rfl
      unfold skip
      simp only [hoffset, hline, ih]
      split
      · rfl
      · split
        · rfl
        · split <;> rfl

/-- What is skipped stands before the rest. -/
theorem exists_skipped (inComment : Bool) (offset line : Nat) (chars : List Char) :
    ∃ before, chars = before ++ (skip inComment offset line chars).rest ∧
      skip inComment offset line chars =
        behind before ⟨(skip inComment offset line chars).rest, offset, line⟩ := by
  induction chars generalizing inComment offset line with
  | nil => exact ⟨[], rfl, rfl⟩
  | cons c rest ih =>
      have hmore (inComment : Bool) : ∃ before, c :: rest = before ++ (skip inComment
          (offset + c.utf8Size) (if c = '\n' then line + 1 else line) rest).rest ∧
          skip inComment (offset + c.utf8Size) (if c = '\n' then line + 1 else line) rest =
            behind before ⟨(skip inComment (offset + c.utf8Size)
              (if c = '\n' then line + 1 else line) rest).rest, offset, line⟩ := by
        obtain ⟨before, hrest, hskip⟩ := ih inComment (offset + c.utf8Size)
          (if c = '\n' then line + 1 else line)
        refine ⟨c :: before, congrArg (c :: ·) hrest, hskip.trans ?_⟩
        simp only [behind, utf8ByteSize_cons, List.count_cons, beq_iff_eq]
        congr 1
        · omega
        · split <;> omega
      unfold skip
      dsimp only
      split
      · exact hmore _
      · split
        · exact hmore _
        · split
          · exact hmore _
          · exact ⟨[], rfl, rfl⟩

theorem skip_of_text (offset line : Nat) {c : Char} {rest : List Char} (hblank : isBlank c = false)
    (hslash : (c = '/' && rest.head? = some '/') = false) :
    skip false offset line (c :: rest) = ⟨c :: rest, offset, line⟩ := by
  simp only [skip, hblank, hslash, Bool.false_eq_true, if_false]

/-- Skipping ends at a character that is neither blank nor the start of a comment. -/
theorem text_of_skip {inComment : Bool} {offset line : Nat} {chars rest : List Char} {c : Char}
    (h : (skip inComment offset line chars).rest = c :: rest) :
    isBlank c = false ∧ (c = '/' && rest.head? = some '/') = false := by
  induction chars generalizing inComment offset line with
  | nil => cases h
  | cons d after ih =>
      unfold skip at h
      dsimp only at h
      split at h
      · exact ih h
      · split at h
        · exact ih h
        · split at h
          · exact ih h
          · rename_i hblank hslash
            cases h
            exact ⟨Bool.eq_false_iff.mpr hblank, Bool.eq_false_iff.mpr hslash⟩

/-- Where skipping has ended, there is nothing to skip. -/
theorem skip_skip (inComment : Bool) (offset line : Nat) (chars : List Char) (o l : Nat) :
    skip false o l (skip inComment offset line chars).rest =
      ⟨(skip inComment offset line chars).rest, o, l⟩ := by
  generalize hrest : (skip inComment offset line chars).rest = rest
  cases rest with
  | nil => rfl
  | cons c rest =>
      obtain ⟨hblank, hslash⟩ := text_of_skip hrest
      exact skip_of_text o l hblank hslash

/-- Scanning looks at the text alone. -/
theorem next_behind (front : List Char) (cursor : Cursor) :
    (cursor.behind front).next = (cursor.next.1.behind front, cursor.next.2.behind front) := by
  unfold next
  simp only [behind, skip_behind]
  generalize skip false cursor.offset cursor.line cursor.rest = here
  obtain ⟨chars, offset, line⟩ := here
  cases chars with
  | nil => rfl
  | cons c rest =>
      simp only [Token.behind, Prod.mk.injEq, Token.mk.injEq, Cursor.mk.injEq]
      exact ⟨⟨trivial, trivial, trivial, by omega⟩, trivial, by omega, by omega⟩

/-- The tokens from here on. -/
def tokens (cursor : Cursor) : List Token :=
  (cursor.tokensFrom #[]).toList

theorem tokensFrom_eq_append (cursor : Cursor) (seen : Array Token) :
    (cursor.tokensFrom seen).toList = seen.toList ++ cursor.tokens := by
  have hshift (cursor : Cursor) (seen : Array Token) : ∃ ts, ∀ seen' : Array Token,
      (cursor.tokensFrom seen').toList = seen'.toList ++ ts := by
    fun_induction tokensFrom cursor seen with
    | case1 cursor seen hend =>
        refine ⟨[cursor.next.1], fun seen' => ?_⟩
        rw [tokensFrom, dif_pos hend, Array.toList_push]
    | case2 cursor seen hmore ih =>
        obtain ⟨ts, hts⟩ := ih
        refine ⟨cursor.next.1 :: ts, fun seen' => ?_⟩
        rw [tokensFrom, dif_neg hmore, hts, Array.toList_push, List.append_assoc]
        rfl
  obtain ⟨ts, hts⟩ := hshift cursor seen
  rw [hts seen, tokens, hts #[]]
  rfl

theorem tokens_of_end {cursor : Cursor} (h : cursor.next.1.kind = .endOfFile) :
    cursor.tokens = [cursor.next.1] := by
  rw [tokens, tokensFrom, dif_pos h]
  rfl

theorem tokens_of_more {cursor : Cursor} (h : cursor.next.1.kind ≠ .endOfFile) :
    cursor.tokens = cursor.next.1 :: cursor.next.2.tokens := by
  rw [tokens, tokensFrom, dif_neg h, tokensFrom_eq_append]
  rfl

/-- Two cursors with the same next token have the same tokens. -/
theorem tokens_congr {first second : Cursor} (h : first.next = second.next) :
    first.tokens = second.tokens := by
  by_cases hend : second.next.1.kind = .endOfFile
  · rw [tokens_of_end hend, tokens_of_end (h ▸ hend), h]
  · rw [tokens_of_more hend, tokens_of_more (h ▸ hend), h]

theorem tokens_behind (front : List Char) (cursor : Cursor) :
    (cursor.behind front).tokens = cursor.tokens.map (Token.behind front) := by
  have hnext := next_behind front cursor
  by_cases hend : cursor.next.1.kind = .endOfFile
  · rw [tokens_of_end hend, tokens_of_end (by rw [hnext]; exact hend), hnext]
    rfl
  · rw [tokens_of_more hend, tokens_of_more (by rw [hnext]; exact hend), hnext,
      tokens_behind front cursor.next.2]
    rfl
termination_by cursor.rest.length
decreasing_by exact next_rest_length hend

theorem numberLexeme_prefix (chars : List Char) : numberLexeme chars <+: chars := by
  unfold numberLexeme
  dsimp only
  split
  · rename_i rest hrest
    split
    · exact List.takeWhile_prefix _
    · conv => rhs; rw [← List.takeWhile_append_dropWhile (p := Char.isDigit) (l := chars), hrest]
      exact (List.prefix_append_right_inj _).mpr
        (List.cons_prefix_cons.mpr ⟨rfl, List.takeWhile_prefix _⟩)
  · exact List.takeWhile_prefix _

theorem stringLexeme_prefix (rest : List Char) : (stringLexeme rest).2 <+: '"' :: rest := by
  unfold stringLexeme
  dsimp only
  split
  · exact List.cons_prefix_cons.mpr ⟨rfl, List.takeWhile_prefix _⟩
  · rename_i c after hrest
    have hc : c = '"' := by
      have := List.head?_dropWhile_not (· != '"') rest
      rw [hrest] at this
      simpa using this
    refine List.cons_prefix_cons.mpr ⟨rfl, after, ?_⟩
    conv => rhs; rw [← List.takeWhile_append_dropWhile (p := (· != '"')) (l := rest), hrest, hc]
    rw [List.append_assoc]
    rfl

/-- A lexeme is the front of the text at which it is read. -/
theorem lexemeAt_prefix (c : Char) (rest : List Char) : (lexemeAt c rest).2 <+: c :: rest := by
  have hoperator (c : Char) (alone withEquals : TokenKind) :
      (operator c rest alone withEquals).2 <+: c :: rest := by
    unfold operator
    split
    · rename_i hhead
      obtain ⟨after, rfl⟩ := List.head?_eq_some_iff.mp hhead
      exact ⟨after, rfl⟩
    · exact ⟨rest, rfl⟩
  unfold lexemeAt
  split
  case h_12 | h_13 | h_14 | h_15 => exact hoperator ..
  case h_16 => exact stringLexeme_prefix rest
  case h_17 =>
    split
    · exact numberLexeme_prefix _
    · split
      · exact List.takeWhile_prefix _
      · exact ⟨rest, rfl⟩
  all_goals exact ⟨rest, rfl⟩

/-- The text of a cursor is what the next token takes of it and the text of the next
cursor. -/
theorem exists_taken (cursor : Cursor) : ∃ taken, cursor.rest = taken ++ cursor.next.2.rest ∧
    cursor.next.2 = behind taken ⟨cursor.next.2.rest, cursor.offset, cursor.line⟩ := by
  obtain ⟨before, hrest, hskip⟩ := exists_skipped false cursor.offset cursor.line cursor.rest
  unfold next
  generalize skip false cursor.offset cursor.line cursor.rest = here at hrest hskip ⊢
  obtain ⟨chars, offset, line⟩ := here
  cases chars with
  | nil => exact ⟨before, hrest, hskip⟩
  | cons c rest =>
      obtain ⟨after, hlexeme⟩ := lexemeAt_prefix c rest
      dsimp only at hrest ⊢
      refine ⟨before ++ (lexemeAt c rest).2, ?_, ?_⟩
      · rw [← hlexeme, List.drop_left, hrest, ← hlexeme, List.append_assoc]
      · simp only [behind, Cursor.mk.injEq, true_and] at hskip ⊢
        rw [utf8ByteSize_append, List.count_append]
        omega

/-- Scanning from the start of the next token. -/
theorem next_skip (cursor : Cursor) :
    (skip false cursor.offset cursor.line cursor.rest).next = cursor.next := by
  simp only [next, skip_skip]

theorem start_next (cursor : Cursor) :
    cursor.next.1.start = (skip false cursor.offset cursor.line cursor.rest).offset := by
  unfold next
  dsimp only
  split <;> rfl

/-- From one of its tokens on, the tokens of a text are those of the text that starts
there, behind the text before it. -/
theorem drop_tokens (cursor : Cursor) {i : Nat} (h : i < cursor.tokens.length) :
    ∃ before rest, cursor.rest = before ++ rest ∧
      cursor.tokens.drop i = (behind before ⟨rest, cursor.offset, cursor.line⟩).tokens ∧
      cursor.tokens[i].start = cursor.offset + (String.ofList before).utf8ByteSize := by
  induction i generalizing cursor with
  | zero =>
      obtain ⟨before, hrest, hskip⟩ := exists_skipped false cursor.offset cursor.line cursor.rest
      refine ⟨before, _, hrest, ?_, ?_⟩
      · rw [← hskip]
        exact (tokens_congr cursor.next_skip).symm
      · have hstart := cursor.start_next
        rw [hskip] at hstart
        dsimp only [behind] at hstart
        by_cases hend : cursor.next.1.kind = .endOfFile
        · simpa only [tokens_of_end hend, List.getElem_cons_zero] using hstart
        · simpa only [tokens_of_more hend, List.getElem_cons_zero] using hstart
  | succ i ih =>
      have hmore : cursor.next.1.kind ≠ .endOfFile := by
        intro hend
        rw [tokens_of_end hend] at h
        simp at h
      simp only [tokens_of_more hmore, List.length_cons, Nat.add_lt_add_iff_right] at h
      obtain ⟨taken, htaken, hnext⟩ := cursor.exists_taken
      obtain ⟨before, rest, hrest, htokens, hstart⟩ := ih cursor.next.2 h
      have hbehind : (⟨rest, cursor.next.2.offset, cursor.next.2.line⟩ : Cursor) =
          behind taken ⟨rest, cursor.offset, cursor.line⟩ := by
        rw [hnext]
        rfl
      refine ⟨taken ++ before, rest, ?_, ?_, ?_⟩
      · rw [htaken, hrest, List.append_assoc]
      · rw [tokens_of_more hmore, List.drop_succ_cons, htokens, hbehind, behind_append]
      · simp only [tokens_of_more hmore, List.getElem_cons_succ, hstart, utf8ByteSize_append]
        rw [hnext]
        simp only [behind]
        omega

end Cursor

end StackScript
