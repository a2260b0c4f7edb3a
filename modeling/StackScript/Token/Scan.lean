import StackScript.Token

/-!
Cutting a source text into tokens. A cursor holds the text still to be read, with the
byte offset and the line at which it starts. Blanks and line comments before a token
are skipped; the token itself is the longest piece that fits its first character.
At the end of the text every further token is the same end marker.
-/

namespace StackScript

structure Cursor where
  rest : List Char
  offset : Nat
  line : Nat
  deriving DecidableEq, Repr

namespace Cursor

def start (source : String) : Cursor := ⟨source.toList, 0, 1⟩

def isBlank (c : Char) : Bool :=
  c = ' ' || c = '\r' || c = '\t' || c = '\n'

def isWordStart (c : Char) : Bool :=
  c.isAlpha || c = '_'

def isWordPart (c : Char) : Bool :=
  c.isAlphanum || c = '_'

/-- Moves past blanks and comments. A comment runs from two slashes to the end of its
line, so the flag tells whether the characters read are part of one. -/
def skip (inComment : Bool) (offset line : Nat) : List Char → Cursor
  | [] => ⟨[], offset, line⟩
  | c :: rest =>
      let lineAfter := if c = '\n' then line + 1 else line
      if inComment then skip (c != '\n') (offset + c.utf8Size) lineAfter rest
      else if isBlank c then skip false (offset + c.utf8Size) lineAfter rest
      else if c = '/' && rest.head? = some '/' then skip true (offset + c.utf8Size) lineAfter rest
      else ⟨c :: rest, offset, line⟩

/-- An operator that may be written with an equals sign after it. -/
def operator (c : Char) (rest : List Char) (alone withEquals : TokenKind) :
    TokenKind × List Char :=
  if rest.head? = some '=' then (withEquals, [c, '=']) else (alone, [c])

/-- A string runs to the next quote, over any number of lines, or to the end of the
text if there is none. -/
def stringLexeme (rest : List Char) : TokenKind × List Char :=
  let body := rest.takeWhile (· != '"')
  match rest.dropWhile (· != '"') with
  | [] => (.fault .unterminatedString, '"' :: body)
  | _ :: _ => (.string, '"' :: (body ++ ['"']))

/-- Digits, then a point and more digits if a digit follows the point. -/
def numberLexeme (chars : List Char) : List Char :=
  let whole := chars.takeWhile Char.isDigit
  match chars.dropWhile Char.isDigit with
  | '.' :: rest =>
      let fraction := rest.takeWhile Char.isDigit
      if fraction.isEmpty then whole else whole ++ '.' :: fraction
  | _ => whole

/-- The kind and the characters of the token that starts with `c`. -/
def lexemeAt (c : Char) (rest : List Char) : TokenKind × List Char :=
  match c with
  | '(' => (.leftParen, [c])
  | ')' => (.rightParen, [c])
  | '{' => (.leftBrace, [c])
  | '}' => (.rightBrace, [c])
  | ';' => (.semicolon, [c])
  | ',' => (.comma, [c])
  | '.' => (.dot, [c])
  | '-' => (.minus, [c])
  | '+' => (.plus, [c])
  | '/' => (.slash, [c])
  | '*' => (.star, [c])
  | '!' => operator c rest .bang .bangEqual
  | '=' => operator c rest .assign .equalEqual
  | '<' => operator c rest .less .lessEqual
  | '>' => operator c rest .greater .greaterEqual
  | '"' => stringLexeme rest
  | _ =>
      if c.isDigit then (.number, numberLexeme (c :: rest))
      else if isWordStart c then
        let word := (c :: rest).takeWhile isWordPart
        (TokenKind.ofWord (String.ofList word), word)
      else (.fault (.unexpectedCharacter c), [c])

/-- The next token and the cursor behind it. -/
def next (cursor : Cursor) : Token × Cursor :=
  let here := skip false cursor.offset cursor.line cursor.rest
  match here.rest with
  | [] => (⟨.endOfFile, here.offset, "", here.line⟩, here)
  | c :: rest =>
      let (kind, chars) := lexemeAt c rest
      let lexeme := String.ofList chars
      let line := here.line + chars.count '\n'
      (⟨kind, here.offset, lexeme, line⟩,
        ⟨here.rest.drop chars.length, here.offset + lexeme.utf8ByteSize, line⟩)

theorem skip_rest_length (inComment : Bool) (offset line : Nat) (chars : List Char) :
    (skip inComment offset line chars).rest.length ≤ chars.length := by
  induction chars generalizing inComment offset line with
  | nil => simp [skip]
  | cons c rest ih =>
      unfold skip
      simp only [List.length_cons]
      split
      · exact Nat.le_succ_of_le (ih ..)
      · split
        · exact Nat.le_succ_of_le (ih ..)
        · split
          · exact Nat.le_succ_of_le (ih ..)
          · simp

theorem lexemeAt_length_pos (c : Char) (rest : List Char) :
    0 < (lexemeAt c rest).2.length := by
  unfold lexemeAt
  split <;> try simp
  all_goals try (unfold operator; split <;> simp)
  · unfold stringLexeme
    dsimp only
    split <;> simp
  · split
    · rename_i h
      unfold numberLexeme
      simp only [List.takeWhile_cons, h, if_true]
      split
      · split <;> simp
      · simp
    · split
      · rename_i h
        have hpart : isWordPart c = true := by
          simp only [isWordStart, isWordPart, Char.isAlphanum, Bool.or_eq_true] at h ⊢
          rcases h with halpha | hline
          · exact Or.inl (Or.inl halpha)
          · exact Or.inr hline
        simp [hpart]
      · simp

/-- A token other than the end marker takes characters away. -/
theorem next_rest_length {cursor : Cursor} (h : cursor.next.1.kind ≠ .endOfFile) :
    cursor.next.2.rest.length < cursor.rest.length := by
  have hskip := skip_rest_length false cursor.offset cursor.line cursor.rest
  unfold next at h ⊢
  generalize skip false cursor.offset cursor.line cursor.rest = here at h hskip ⊢
  obtain ⟨chars, offset, line⟩ := here
  cases chars with
  | nil => simp at h
  | cons c rest =>
      have hpos := lexemeAt_length_pos c rest
      simp only [List.length_drop, List.length_cons] at hskip ⊢
      omega

/-- All tokens from the cursor on, behind those `seen` before; the last one is the
first end marker. -/
def tokensFrom (cursor : Cursor) (seen : Array Token) : Array Token :=
  if _ : cursor.next.1.kind = .endOfFile then seen.push cursor.next.1
  else cursor.next.2.tokensFrom (seen.push cursor.next.1)
termination_by cursor.rest.length
decreasing_by exact next_rest_length ‹cursor.next.1.kind ≠ .endOfFile›

end Cursor

/-- The tokens of a text, the end marker included. -/
def Token.scan (source : String) : List Token :=
  ((Cursor.start source).tokensFrom #[]).toList

end StackScript
