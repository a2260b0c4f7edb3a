import StackScript.Proofs.Token.Lexeme
import StackScript.Proofs.Token.Spelling

/-!
The lexical grammar, told without the scanner: which texts are lexemes, and of what kind. The
scanner takes the longest lexeme that stands at the front of a text, and finds a fault exactly
where none does.
-/

namespace StackScript

namespace TokenKind

/-- Punctuation and operators. -/
def marks : List (TokenKind × List Char) :=
  [(.leftParen, ['(']), (.rightParen, [')']), (.leftBrace, ['{']), (.rightBrace, ['}']),
    (.comma, [',']), (.dot, ['.']), (.minus, ['-']), (.plus, ['+']), (.semicolon, [';']),
    (.slash, ['/']), (.star, ['*']), (.bang, ['!']), (.bangEqual, ['!', '=']), (.assign, ['=']),
    (.equalEqual, ['=', '=']), (.greater, ['>']), (.greaterEqual, ['>', '=']), (.less, ['<']),
    (.lessEqual, ['<', '='])]

def reservedWords : List (TokenKind × String) :=
  [(.andWord, "and"), (.classWord, "class"), (.elseWord, "else"), (.falseWord, "false"),
    (.forWord, "for"), (.funWord, "fun"), (.ifWord, "if"), (.nilWord, "nil"), (.orWord, "or"),
    (.printWord, "print"), (.returnWord, "return"), (.superWord, "super"), (.thisWord, "this"),
    (.trueWord, "true"), (.varWord, "var"), (.whileWord, "while")]

end TokenKind

/-- The lexical grammar. -/
inductive Lexeme : TokenKind → List Char → Prop
  | mark {kind : TokenKind} {l : List Char} (h : (kind, l) ∈ TokenKind.marks) : Lexeme kind l
  | string {body : List Char} (hbody : '"' ∉ body) : Lexeme .string ('"' :: (body ++ ['"']))
  | whole {digits : List Char} (hdigits : ∀ c ∈ digits, c.isDigit = true) (hne : digits ≠ []) :
      Lexeme .number digits
  | fraction {digits behind : List Char} (hdigits : ∀ c ∈ digits, c.isDigit = true)
      (hne : digits ≠ []) (hbehind : ∀ c ∈ behind, c.isDigit = true) (hbehindNe : behind ≠ []) :
      Lexeme .number (digits ++ '.' :: behind)
  | reserved {kind : TokenKind} {word : String} (h : (kind, word) ∈ TokenKind.reservedWords) :
      Lexeme kind word.toList
  | name {c : Char} {rest : List Char} (hstart : c.isAlpha = true ∨ c = '_')
      (hrest : ∀ d ∈ rest, d.isAlphanum = true ∨ d = '_')
      (hword : String.ofList (c :: rest) ∉ TokenKind.reservedWords.map Prod.snd) :
      Lexeme .identifier (c :: rest)

namespace TokenKind

/-- A word is of a reserved kind when it is one of the reserved words, and else a name. -/
theorem ofWord_cases (word : String) : (ofWord word, word) ∈ reservedWords ∨
    ofWord word = .identifier ∧ word ∉ reservedWords.map Prod.snd := by
  unfold ofWord
  split
  case h_17 =>
    refine Or.inr ⟨rfl, ?_⟩
    simp only [reservedWords, List.map_cons, List.map_nil, List.mem_cons, List.not_mem_nil,
      or_false, not_or]
    tauto
  all_goals exact Or.inl (by decide)

theorem ofLexeme_mark : ∀ p ∈ marks, ofLexeme (String.ofList p.2) = p.1 := by decide

theorem ofLexeme_reserved : ∀ p ∈ reservedWords, ofLexeme p.2 = p.1 := by decide

/-- Reserved words are words. -/
theorem wordParts_reserved : ∀ p ∈ reservedWords, p.2.toList ≠ [] ∧
    p.2.toList.head?.all Cursor.isWordStart = true ∧ p.2.toList.all Cursor.isWordPart = true := by
  decide

end TokenKind

namespace Lexeme

variable {kind kind' : TokenKind} {l : List Char} {c : Char} {rest : List Char}

theorem isName (hstart : c.isAlpha = true ∨ c = '_')
    (hrest : ∀ d ∈ rest, d.isAlphanum = true ∨ d = '_')
    (hword : String.ofList (c :: rest) ∉ TokenKind.reservedWords.map Prod.snd) :
    StackScript.isName (String.ofList (c :: rest)) = true := by
  have hkind : TokenKind.ofWord (String.ofList (c :: rest)) = .identifier := by
    obtain hreserved | ⟨hkind, -⟩ := TokenKind.ofWord_cases (String.ofList (c :: rest))
    · exact absurd (List.mem_map_of_mem hreserved) hword
    · exact hkind
  unfold StackScript.isName
  simp only [String.toList_ofList, hkind, Cursor.isWordStart, Cursor.isWordPart, Bool.and_eq_true,
    Bool.or_eq_true, decide_eq_true_eq, List.all_eq_true]
  exact ⟨⟨hstart, hrest⟩, trivial⟩

/-- Read on its own, a lexeme is of the kind the grammar gives it. -/
theorem ofLexeme_eq (h : Lexeme kind l) : TokenKind.ofLexeme (String.ofList l) = kind := by
  have hnumber {d : Decimal} (hparse : Decimal.parse? l = some d) :
      TokenKind.ofLexeme (String.ofList l) = .number := by
    apply And.right (isLexeme_number _)
    rw [Number.parse?, Option.isSome_map, String.toList_ofList, hparse]
    rfl
  cases h with
  | mark h => exact TokenKind.ofLexeme_mark _ h
  | @string body hbody =>
      have htext : "\"" ++ String.ofList body ++ "\"" = String.ofList ('"' :: (body ++ ['"'])) := by
        apply String.toList_inj.mp
        simp
      rw [← htext]
      exact (isLexeme_string (by rwa [String.toList_ofList])).2
  | whole hdigits hne => exact hnumber (Decimal.parse?_digits hdigits hne)
  | fraction hdigits hne hbehind hbehindNe =>
      exact hnumber (Decimal.parse?_fraction hdigits hbehind hne hbehindNe)
  | reserved h =>
      rw [String.ofList_toList]
      exact TokenKind.ofLexeme_reserved _ h
  | name hstart hrest hword => exact (isLexeme_name (isName hstart hrest hword)).2

/-- The class of a lexeme is determined by its text. -/
theorem kind_unique (h : Lexeme kind l) (h' : Lexeme kind' l) : kind = kind' :=
  h.ofLexeme_eq.symm.trans h'.ofLexeme_eq

end Lexeme

namespace Cursor

variable {kind : TokenKind} {l : List Char} {c : Char} {rest : List Char}

/-- A piece at the front that consists of such characters is no longer than all of them. -/
theorem length_le_takeWhile {p : Char → Bool} {chars : List Char} (hfront : l <+: chars)
    (hall : ∀ c ∈ l, p c = true) : l.length ≤ (chars.takeWhile p).length := by
  obtain ⟨after, rfl⟩ := hfront
  rw [List.takeWhile_append_of_pos hall, List.length_append]
  exact Nat.le_add_right _ _

theorem length_le_numberLexeme (chars : List Char) :
    (chars.takeWhile Char.isDigit).length ≤ (numberLexeme chars).length := by
  unfold numberLexeme
  dsimp only
  split
  · split
    · exact Nat.le_refl _
    · rw [List.length_append]
      exact Nat.le_add_right _ _
  · exact Nat.le_refl _

theorem length_fraction_le {digits behind chars : List Char}
    (hfront : digits ++ '.' :: behind <+: chars) (hdigits : ∀ c ∈ digits, c.isDigit = true)
    (hbehind : ∀ c ∈ behind, c.isDigit = true) (hne : behind ≠ []) :
    (digits ++ '.' :: behind).length ≤ (numberLexeme chars).length := by
  obtain ⟨after, rfl⟩ := hfront
  have hpoint : Char.isDigit '.' = false := by decide
  have hdrop : ((digits ++ '.' :: behind) ++ after).dropWhile Char.isDigit =
      '.' :: (behind ++ after) := by
    rw [List.append_assoc, List.dropWhile_append_of_pos hdigits, List.cons_append,
      List.dropWhile_cons_of_neg (by simp [hpoint])]
  have htake : ((digits ++ '.' :: behind) ++ after).takeWhile Char.isDigit = digits := by
    rw [List.append_assoc, List.takeWhile_append_of_pos hdigits, List.cons_append,
      List.takeWhile_cons_of_neg (by simp [hpoint]), List.append_nil]
  have hlonger : behind.length ≤ ((behind ++ after).takeWhile Char.isDigit).length :=
    length_le_takeWhile (List.prefix_append ..) hbehind
  have hfraction : ((behind ++ after).takeWhile Char.isDigit).isEmpty = false := by
    rw [List.isEmpty_eq_false_iff]
    intro hnil
    rw [hnil] at hlonger
    exact hne (List.eq_nil_of_length_eq_zero (Nat.le_zero.mp hlonger))
  unfold numberLexeme
  simp only [hdrop, htake, hfraction, Bool.false_eq_true, if_false, List.length_append,
    List.length_cons]
  omega

theorem operator_ne_fault {c : Char} {rest : List Char} {alone withEquals : TokenKind}
    (halone : ∀ reason, alone ≠ .fault reason) (hwith : ∀ reason, withEquals ≠ .fault reason)
    (reason : LexicalFault) : (operator c rest alone withEquals).1 ≠ .fault reason := by
  unfold operator
  split
  · exact hwith reason
  · exact halone reason

/-- What the scanner finds at `c` is at least as long as `l`, and no fault. -/
def Covers (l : List Char) (c : Char) (rest : List Char) : Prop :=
  l.length ≤ (lexemeAt c rest).2.length ∧ ∀ reason, (lexemeAt c rest).1 ≠ .fault reason

theorem covers_mark (h : (kind, l) ∈ TokenKind.marks) (hfront : l <+: c :: rest) :
    Covers l c rest := by
  have hpos := lexemeAt_length_pos c rest
  obtain ⟨after, hfront⟩ := hfront
  simp only [TokenKind.marks, List.mem_cons, Prod.mk.injEq, List.not_mem_nil, or_false] at h
  obtain ⟨-, rfl⟩ | ⟨-, rfl⟩ | ⟨-, rfl⟩ | ⟨-, rfl⟩ | ⟨-, rfl⟩ | ⟨-, rfl⟩ | ⟨-, rfl⟩ | ⟨-, rfl⟩ |
    ⟨-, rfl⟩ | ⟨-, rfl⟩ | ⟨-, rfl⟩ | ⟨-, rfl⟩ | ⟨-, rfl⟩ | ⟨-, rfl⟩ | ⟨-, rfl⟩ | ⟨-, rfl⟩ |
    ⟨-, rfl⟩ | ⟨-, rfl⟩ | ⟨-, rfl⟩ := h
  all_goals cases hfront
  -- An operator that may go on, one that has gone on, and all other marks.
  all_goals first
    | exact ⟨hpos, operator_ne_fault (by simp) (by simp)⟩
    | exact ⟨Nat.le_refl 2, by simp [lexemeAt, operator]⟩
    | exact ⟨hpos, by simp [lexemeAt]⟩

theorem covers_number (hc : c.isDigit = true)
    (h : l.length ≤ (numberLexeme (c :: rest)).length) : Covers l c rest := by
  unfold Covers
  rw [lexemeAt_of_digit hc]
  exact ⟨h, nofun⟩

theorem ofWord_ne_fault (word : String) (reason : LexicalFault) :
    TokenKind.ofWord word ≠ .fault reason := by
  unfold TokenKind.ofWord
  split <;> nofun

theorem covers_word (hc : isWordStart c = true) (hfront : l <+: c :: rest)
    (hall : ∀ d ∈ l, isWordPart d = true) : Covers l c rest := by
  unfold Covers
  rw [lexemeAt_of_wordStart hc]
  exact ⟨length_le_takeWhile hfront hall, ofWord_ne_fault _⟩

/-- Where a lexeme stands, the scanner finds one, and none that is shorter. -/
theorem covers_of_lexeme (h : Lexeme kind l) (hfront : l <+: c :: rest) : Covers l c rest := by
  cases h with
  | mark h => exact covers_mark h hfront
  | @string body hbody =>
      obtain ⟨after, hfront⟩ := hfront
      obtain ⟨rfl, rfl⟩ := List.cons.inj hfront
      have hinner : ∀ d ∈ body, (d != '"') = true := by
        intro d hd
        exact bne_iff_ne.mpr (ne_of_mem_of_not_mem hd hbody)
      have hscanned : lexemeAt '"' ((body ++ ['"']) ++ after) =
          (.string, '"' :: (body ++ ['"'])) := by
        change stringLexeme _ = _
        unfold stringLexeme
        rw [List.append_assoc, List.takeWhile_append_of_pos hinner,
          List.dropWhile_append_of_pos hinner]
        simp
      have hcovers : Covers ('"' :: (body ++ ['"'])) '"' ((body ++ ['"']) ++ after) := by
        unfold Covers
        rw [hscanned]
        exact ⟨Nat.le_refl _, nofun⟩
      exact hcovers
  | @whole digits hdigits hne =>
      obtain ⟨d, digits, rfl⟩ := List.exists_cons_of_ne_nil hne
      obtain ⟨rfl, -⟩ := List.cons_prefix_cons.mp hfront
      apply covers_number (hdigits d List.mem_cons_self)
      exact Nat.le_trans (length_le_takeWhile hfront hdigits) (length_le_numberLexeme _)
  | @fraction digits behind hdigits hne hbehind hbehindNe =>
      obtain ⟨d, digits, rfl⟩ := List.exists_cons_of_ne_nil hne
      obtain ⟨rfl, -⟩ := List.cons_prefix_cons.mp hfront
      apply covers_number (hdigits d List.mem_cons_self)
      exact length_fraction_le hfront hdigits hbehind hbehindNe
  | @reserved kind word h =>
      obtain ⟨hne, hstart, hall⟩ := TokenKind.wordParts_reserved _ h
      dsimp only at hne hstart hall
      obtain ⟨d, rest', hword⟩ := List.exists_cons_of_ne_nil hne
      have hd : d = c := by
        rw [hword] at hfront
        exact (List.cons_prefix_cons.mp hfront).1
      rw [hword] at hstart
      exact covers_word (hd ▸ hstart) hfront (List.all_eq_true.mp hall)
  | @name d rest' hstart hrest hword =>
      obtain ⟨rfl, -⟩ := List.cons_prefix_cons.mp hfront
      have hc : isWordStart d = true := by
        simpa only [isWordStart, Bool.or_eq_true, decide_eq_true_eq] using hstart
      apply covers_word hc hfront
      intro e he
      obtain rfl | he := List.mem_cons.mp he
      · exact isWordPart_of_start hc
      · simpa only [isWordPart, Bool.or_eq_true, decide_eq_true_eq] using hrest e he

/-- What the scanner finds is a lexeme of its kind, an open string or a character that
begins no lexeme. -/
inductive Found (c : Char) (rest : List Char) : TokenKind → List Char → Prop
  | lexeme {kind : TokenKind} {l : List Char} (h : Lexeme kind l) : Found c rest kind l
  | openString (hc : c = '"') : Found c rest (.fault .unterminatedString) (c :: rest)
  | stray (hc : c ≠ '"') : Found c rest (.fault (.unexpectedCharacter c)) [c]

theorem lexeme_numberLexeme (hc : c.isDigit = true) :
    Lexeme .number (numberLexeme (c :: rest)) := by
  have hdigits : ∀ d ∈ (c :: rest).takeWhile Char.isDigit, d.isDigit = true :=
    fun d hd => List.mem_takeWhile_imp hd
  have hne : (c :: rest).takeWhile Char.isDigit ≠ [] := by
    rw [List.takeWhile_cons_of_pos hc]
    exact List.cons_ne_nil _ _
  unfold numberLexeme
  dsimp only
  split
  · split
    · exact .whole hdigits hne
    · rename_i hfraction
      exact .fraction hdigits hne (fun d hd => List.mem_takeWhile_imp hd)
        (by simpa using hfraction)
  · exact .whole hdigits hne

theorem lexeme_word (hc : isWordStart c = true) :
    Lexeme (TokenKind.ofWord (String.ofList ((c :: rest).takeWhile isWordPart)))
      ((c :: rest).takeWhile isWordPart) := by
  obtain hreserved | ⟨hkind, hword⟩ :=
    TokenKind.ofWord_cases (String.ofList ((c :: rest).takeWhile isWordPart))
  · simpa only [String.toList_ofList] using Lexeme.reserved hreserved
  · rw [hkind]
    rw [List.takeWhile_cons_of_pos (isWordPart_of_start hc)] at hword ⊢
    apply Lexeme.name _ _ hword
    · simpa only [isWordStart, Bool.or_eq_true, decide_eq_true_eq] using hc
    · intro d hd
      have hpart := List.mem_takeWhile_imp hd
      simpa only [isWordPart, Bool.or_eq_true, decide_eq_true_eq] using hpart

theorem found_operator {alone withEquals : TokenKind} (halone : (alone, [c]) ∈ TokenKind.marks)
    (hwith : (withEquals, [c, '=']) ∈ TokenKind.marks) :
    Found c rest (operator c rest alone withEquals).1 (operator c rest alone withEquals).2 := by
  unfold operator
  split
  · exact .lexeme (.mark hwith)
  · exact .lexeme (.mark halone)

theorem found_stringLexeme : Found '"' rest (stringLexeme rest).1 (stringLexeme rest).2 := by
  unfold stringLexeme
  dsimp only
  split
  · rename_i hrest
    have hbody : rest.takeWhile (· != '"') = rest := by
      conv => rhs; rw [← List.takeWhile_append_dropWhile (p := (· != '"')) (l := rest), hrest]
      rw [List.append_nil]
    rw [hbody]
    exact .openString rfl
  · apply Found.lexeme (.string _)
    intro hmem
    exact absurd (List.mem_takeWhile_imp hmem) (by decide)

theorem found_lexemeAt (c : Char) (rest : List Char) :
    Found c rest (lexemeAt c rest).1 (lexemeAt c rest).2 := by
  unfold lexemeAt
  split
  case h_12 | h_13 | h_14 | h_15 => exact found_operator (by decide) (by decide)
  case h_16 => exact found_stringLexeme
  case h_17 hquote =>
    split
    · rename_i hdigit
      exact .lexeme (lexeme_numberLexeme hdigit)
    · split
      · rename_i hstart
        exact .lexeme (lexeme_word hstart)
      · exact .stray (by assumption)
  all_goals exact .lexeme (.mark (by decide))

end Cursor

end StackScript
