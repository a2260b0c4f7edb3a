import Mathlib.Data.List.TakeWhile
import StackScript.Proofs.Token.Behind
import StackScript.Proofs.Token.Spelling

/-!
Tokens of two texts on lines of their own. A line break ends every token but a string
without its closing quote, and every comment, so the first text has the tokens it has alone,
without its end marker, and the second text those it has behind the first one.
-/

namespace StackScript

namespace Cursor

/-- A character behind which a new lexeme starts, whatever stands before it, unless that is a
string without its closing quote. -/
structure Delimiter (d : Char) : Prop where
  word : isWordPart d = false
  point : d ≠ '.'
  equals : d ≠ '='
  slash : d ≠ '/'

theorem delimiter_newline : Delimiter '\n' := by
  constructor <;> decide

theorem Delimiter.digit {d : Char} (hd : Delimiter d) : d.isDigit = false := by
  have hword := hd.word
  simp only [isWordPart, Char.isAlphanum, Bool.or_eq_false_iff] at hword
  exact hword.1.2

section
variable {d : Char}

theorem takeWhile_append_cons {p : Char → Bool} (hp : p d = false) (chars more : List Char) :
    (chars ++ d :: more).takeWhile p = chars.takeWhile p := by
  induction chars with
  | nil => exact List.takeWhile_cons_of_neg (by simp [hp])
  | cons c rest ih => rw [List.cons_append, List.takeWhile_cons, List.takeWhile_cons, ih]

theorem dropWhile_append_cons {p : Char → Bool} (hp : p d = false) (chars more : List Char) :
    (chars ++ d :: more).dropWhile p = chars.dropWhile p ++ d :: more := by
  induction chars with
  | nil => exact List.dropWhile_cons_of_neg (by simp [hp])
  | cons c rest ih =>
      rw [List.cons_append, List.dropWhile_cons, List.dropWhile_cons, ih]
      split <;> rfl

/-- What follows a delimiter has no part in a lookahead of one character. -/
theorem head?_append_cons {c : Char} (hc : d ≠ c) (chars more : List Char) :
    (chars ++ d :: more).head? = some c ↔ chars.head? = some c := by
  cases chars with
  | nil => simpa using hc
  | cons e rest => rfl

theorem operator_append (hd : Delimiter d) (c : Char) (rest more : List Char)
    (alone withEquals : TokenKind) :
    operator c (rest ++ d :: more) alone withEquals = operator c rest alone withEquals := by
  simp only [operator, head?_append_cons hd.equals]

/-- A string that is closed ends at its quote. -/
theorem stringLexeme_append {rest : List Char} (more : List Char)
    (h : (stringLexeme rest).1 ≠ .fault .unterminatedString) :
    stringLexeme (rest ++ more) = stringLexeme rest := by
  have hopen : ¬ ∀ c ∈ rest, (c != '"') = true := by
    intro hall
    refine h ?_
    rw [stringLexeme, List.dropWhile_eq_nil_iff.mpr hall]
  have htake : (rest ++ more).takeWhile (· != '"') = rest.takeWhile (· != '"') := by
    rw [List.takeWhile_append, if_neg]
    exact fun hlength => hopen (List.takeWhile_eq_self_iff.mp
      ((List.takeWhile_prefix _).eq_of_length hlength))
  have hdrop : (rest ++ more).dropWhile (· != '"') = rest.dropWhile (· != '"') ++ more := by
    rw [List.dropWhile_append, if_neg]
    exact fun hempty => hopen (List.dropWhile_eq_nil_iff.mp (List.isEmpty_iff.mp hempty))
  unfold stringLexeme
  rw [htake, hdrop]
  cases hbehind : rest.dropWhile (· != '"') with
  | nil => exact absurd (List.dropWhile_eq_nil_iff.mp hbehind) hopen
  | cons c after => rfl

theorem numberLexeme_append (hd : Delimiter d) (chars more : List Char) :
    numberLexeme (chars ++ d :: more) = numberLexeme chars := by
  have hother {c : Char} (hc : c ≠ '.') (rest : List Char) :
      ∀ after, c :: rest = '.' :: after → False :=
    fun after heq => hc (List.head_eq_of_cons_eq heq)
  unfold numberLexeme
  rw [takeWhile_append_cons hd.digit, dropWhile_append_cons hd.digit]
  generalize chars.dropWhile Char.isDigit = behind
  cases behind with
  | nil =>
      rw [List.nil_append]
      split
      · exact (hother hd.point _ _ ‹_›).elim
      · rfl
  | cons c rest =>
      rw [List.cons_append]
      by_cases hc : c = '.'
      · subst hc
        simp only [takeWhile_append_cons hd.digit]
      · split
        · exact (hother hc _ _ ‹_›).elim
        · split
          · exact (hother hc _ _ ‹_›).elim
          · rfl

/-- Only a string can go on behind a delimiter. -/
theorem lexemeAt_append (hd : Delimiter d) {c : Char} {rest : List Char} (more : List Char)
    (h : (lexemeAt c rest).1 ≠ .fault .unterminatedString) :
    lexemeAt c (rest ++ d :: more) = lexemeAt c rest := by
  unfold lexemeAt at h ⊢
  split
  case h_12 | h_13 | h_14 | h_15 => exact operator_append hd ..
  case h_16 => exact stringLexeme_append _ h
  case h_17 =>
    rw [← List.cons_append, numberLexeme_append hd, takeWhile_append_cons hd.word]
  all_goals rfl

end

/-- Skipping passes one character, or ends there, whatever stands behind the line break. -/
theorem skip_cons (inComment : Bool) (offset line : Nat) (c : Char) (rest more : List Char) :
    (∃ inComment', ∀ after ∈ [rest, rest ++ '\n' :: more],
      skip inComment offset line (c :: after) =
        skip inComment' (offset + c.utf8Size) (if c = '\n' then line + 1 else line) after) ∨
    ∀ after ∈ [rest, rest ++ '\n' :: more],
      skip inComment offset line (c :: after) = ⟨c :: after, offset, line⟩ := by
  have hslash : ∀ after ∈ [rest, rest ++ '\n' :: more],
      (after.head? = some '/' ↔ rest.head? = some '/') := by
    intro after hafter
    obtain rfl | hafter := List.mem_cons.mp hafter
    · rfl
    · rw [List.mem_singleton.mp hafter, head?_append_cons delimiter_newline.slash]
  by_cases hcomment : inComment = true
  · exact Or.inl ⟨c != '\n', fun after _ => by simp only [skip, hcomment, if_true]⟩
  · by_cases hblank : isBlank c = true
    · exact Or.inl ⟨false, fun after _ => by
        simp only [skip, hcomment, hblank, if_true, Bool.false_eq_true, if_false]⟩
    · by_cases hstarts : (c = '/' && rest.head? = some '/') = true
      · refine Or.inl ⟨true, fun after hafter => ?_⟩
        simp only [skip, hslash after hafter, hcomment, hblank, hstarts, if_true,
          Bool.false_eq_true, if_false]
      · refine Or.inr fun after hafter => ?_
        simp only [skip, hslash after hafter, hcomment, hblank, hstarts, Bool.false_eq_true,
          if_false]

theorem skip_append {inComment : Bool} {offset line : Nat} {chars : List Char} (more : List Char)
    (h : (skip inComment offset line chars).rest ≠ []) :
    skip inComment offset line (chars ++ '\n' :: more) =
      { skip inComment offset line chars with
        rest := (skip inComment offset line chars).rest ++ '\n' :: more } := by
  induction chars generalizing inComment offset line with
  | nil => exact absurd rfl h
  | cons c rest ih =>
      rw [List.cons_append]
      obtain ⟨inComment', hpasses⟩ | hends := skip_cons inComment offset line c rest more
      · rw [hpasses _ (by simp)] at h ⊢
        rw [hpasses _ (by simp)]
        exact ih h
      · rw [hends _ (by simp), hends _ (by simp)]
        rfl

/-- Behind a text that ends in blanks or a comment, skipping goes on in the next line. -/
theorem skip_append_of_end {inComment : Bool} {offset line : Nat} {chars : List Char}
    (more : List Char) (h : (skip inComment offset line chars).rest = []) :
    skip inComment offset line (chars ++ '\n' :: more) =
      skip false (offset + (String.ofList (chars ++ ['\n'])).utf8ByteSize)
        (line + (chars ++ ['\n']).count '\n') more := by
  induction chars generalizing inComment offset line with
  | nil =>
      have hblank : isBlank '\n' = true := by decide
      cases inComment <;> simp only [List.nil_append, skip, hblank, if_true] <;> rfl
  | cons c rest ih =>
      have hoffset : offset + (String.ofList (c :: rest ++ ['\n'])).utf8ByteSize =
          offset + c.utf8Size + (String.ofList (rest ++ ['\n'])).utf8ByteSize := by
        rw [List.cons_append, utf8ByteSize_cons, Nat.add_assoc]
      have hline : line + (c :: rest ++ ['\n']).count '\n' =
          (if c = '\n' then line + 1 else line) + (rest ++ ['\n']).count '\n' := by
        simp only [List.cons_append, List.count_cons, beq_iff_eq]
        split <;> omega
      rw [hoffset, hline, List.cons_append]
      obtain ⟨inComment', hpasses⟩ | hends := skip_cons inComment offset line c rest more
      · rw [hpasses _ (by simp)] at h ⊢
        exact ih h
      · rw [hends _ (by simp)] at h
        cases h

theorem lexemeAt_ne_endOfFile (c : Char) (rest : List Char) : (lexemeAt c rest).1 ≠ .endOfFile := by
  have hword (word : String) : TokenKind.ofWord word ≠ .endOfFile := by
    unfold TokenKind.ofWord
    split <;> nofun
  have hoperator (alone withEquals : TokenKind) (h : alone ≠ .endOfFile ∧ withEquals ≠ .endOfFile) :
      (operator c rest alone withEquals).1 ≠ .endOfFile := by
    unfold operator
    split
    · exact h.2
    · exact h.1
  unfold lexemeAt
  split
  case h_12 | h_13 | h_14 | h_15 => exact hoperator _ _ ⟨nofun, nofun⟩
  case h_16 =>
    unfold stringLexeme
    dsimp only
    split <;> nofun
  case h_17 =>
    split
    · nofun
    · split
      · exact hword _
      · nofun
  all_goals nofun

/-- A token of the first text. -/
theorem next_append {cursor : Cursor} (more : List Char)
    (hmore : cursor.next.1.kind ≠ .endOfFile)
    (hclosed : cursor.next.1.kind ≠ .fault .unterminatedString) :
    ({ cursor with rest := cursor.rest ++ '\n' :: more } : Cursor).next =
      (cursor.next.1, { cursor.next.2 with rest := cursor.next.2.rest ++ '\n' :: more }) := by
  have hskip := @skip_append false cursor.offset cursor.line cursor.rest more
  unfold next at hmore hclosed ⊢
  generalize skip false cursor.offset cursor.line cursor.rest = here at hmore hclosed hskip ⊢
  obtain ⟨chars, offset, line⟩ := here
  cases chars with
  | nil => exact absurd rfl hmore
  | cons c rest =>
      have hlexeme := lexemeAt_prefix c rest
      have hlength := hlexeme.length_le
      dsimp only at hclosed hskip ⊢
      rw [hskip (List.cons_ne_nil c rest)]
      dsimp only [List.cons_append]
      rw [lexemeAt_append delimiter_newline more hclosed, ← List.cons_append,
        List.drop_append_of_le_length hlength]

/-- Before the end marker there is nothing but blanks and comments. -/
theorem rest_of_end {cursor : Cursor} (hend : cursor.next.1.kind = .endOfFile) :
    (skip false cursor.offset cursor.line cursor.rest).rest = [] := by
  unfold next at hend
  generalize skip false cursor.offset cursor.line cursor.rest = here at hend ⊢
  obtain ⟨chars, offset, line⟩ := here
  cases chars with
  | nil => rfl
  | cons c rest => exact absurd hend (lexemeAt_ne_endOfFile c rest)

/-- The end marker of the first text gives way to the first token of the second one. -/
theorem next_append_of_end {cursor : Cursor} (more : List Char)
    (hend : cursor.next.1.kind = .endOfFile) :
    ({ cursor with rest := cursor.rest ++ '\n' :: more } : Cursor).next =
      (behind (cursor.rest ++ ['\n']) { cursor with rest := more }).next := by
  rw [← next_skip, ← next_skip (behind _ _)]
  dsimp only [behind]
  rw [skip_append_of_end more (rest_of_end hend)]

/-- Two texts on lines of their own, the first of which closes its strings, have the tokens
of the one without its end marker and those of the other. -/
theorem tokens_append (cursor : Cursor) (more : List Char)
    (hclosed : ∀ t ∈ cursor.tokens, t.kind ≠ .fault .unterminatedString) :
    ({ cursor with rest := cursor.rest ++ '\n' :: more } : Cursor).tokens =
      cursor.tokens.dropLast ++
        (behind (cursor.rest ++ ['\n']) { cursor with rest := more }).tokens := by
  by_cases hend : cursor.next.1.kind = .endOfFile
  · rw [tokens_of_end hend, tokens_congr (next_append_of_end more hend)]
    rfl
  · have htokens := tokens_of_more hend
    have hfirst := hclosed cursor.next.1 (by rw [htokens]; exact List.mem_cons_self ..)
    have hnext := next_append more hend hfirst
    obtain ⟨taken, hrest, hbehind⟩ := cursor.exists_taken
    have ih := tokens_append cursor.next.2 more fun t ht =>
      hclosed t (by rw [htokens]; exact List.mem_cons_of_mem _ ht)
    have hne : cursor.next.2.tokens ≠ [] := by
      obtain ⟨front, last, hall, -⟩ := cursor.next.2.tokensFrom_eq #[]
      simp [tokens, hall]
    have hmore : behind (cursor.next.2.rest ++ ['\n']) { cursor.next.2 with rest := more } =
        behind (cursor.rest ++ ['\n']) { cursor with rest := more } := by
      have hfirst : ({ cursor.next.2 with rest := more } : Cursor) =
          behind taken { cursor with rest := more } := by
        rw [hbehind]
        rfl
      rw [hfirst, ← behind_append, hrest, List.append_assoc]
    rw [tokens_of_more (by rw [hnext]; exact hend), hnext, htokens,
      List.dropLast_cons_of_ne_nil hne, List.cons_append, ← hmore, ← ih]
termination_by cursor.rest.length
decreasing_by exact next_rest_length hend

end Cursor

/-- The tokens of a text behind which another one starts on a new line. -/
theorem Token.scan_append {first second : String}
    (hclosed : ∀ t ∈ Token.scan first, t.kind ≠ .fault .unterminatedString) :
    Token.scan (first ++ "\n" ++ second) = (Token.scan first).dropLast ++
      (Token.scan second).map (Token.behind (first.toList ++ ['\n'])) := by
  have htext : Cursor.start (first ++ "\n" ++ second) =
      { Cursor.start first with rest := (Cursor.start first).rest ++ '\n' :: second.toList } := by
    simp [Cursor.start]
  have happend := (Cursor.start first).tokens_append second.toList hclosed
  rw [← htext] at happend
  exact happend.trans (congrArg _ (Cursor.tokens_behind _ (Cursor.start second)))

end StackScript
