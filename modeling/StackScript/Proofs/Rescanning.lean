import StackScript.Proofs.Token.Lexicon
import StackScript.Proofs.Token.Tiles

/-!
Scanning the lexemes of a text again. A lexeme that stands alone is the token it was in the
text, and a space behind it ends it there. Only a string without its closing quote goes on
behind a space, and nothing follows that one. So the lexemes of a text with a space between any
two of them have the tokens of the text.
-/

namespace StackScript

namespace Token

/-- What is left of a token when its place is forgotten. -/
def spelling (t : Token) : TokenKind × String := (t.kind, t.lexeme)

/-- The lexemes before the first end marker, with a space between any two of them. -/
def spaced (ts : List Token) : String :=
  " ".intercalate ((ts.takeWhile (·.kind ≠ .endOfFile)).map lexeme)

variable {t u : Token} {ts : List Token}

theorem spaced_of_end (ht : t.kind = .endOfFile) : spaced (t :: ts) = "" := by
  unfold spaced
  rw [List.takeWhile_cons_of_neg (by simp [ht])]
  rfl

theorem spaced_of_last (ht : t.kind ≠ .endOfFile) (hu : u.kind = .endOfFile) :
    spaced (t :: u :: ts) = t.lexeme := by
  unfold spaced
  rw [List.takeWhile_cons_of_pos (by simp [ht]), List.takeWhile_cons_of_neg (by simp [hu])]
  exact String.intercalate_singleton

theorem spaced_of_more (ht : t.kind ≠ .endOfFile) (hu : u.kind ≠ .endOfFile) :
    spaced (t :: u :: ts) = t.lexeme ++ " " ++ spaced (u :: ts) := by
  unfold spaced
  rw [List.takeWhile_cons_of_pos (by simp [ht]), List.takeWhile_cons_of_pos (by simp [hu])]
  simp only [List.map_cons]
  rw [String.intercalate_cons_cons]

end Token

/-- The text `x` is, on its own, a single token of this kind. -/
def TokenKind.Alone (kind : TokenKind) (x : String) : Prop :=
  ∃ c rest, x.toList = c :: rest ∧ Cursor.isBlank c = false ∧
    Cursor.lexemeAt c rest = (kind, c :: rest)

namespace Cursor

variable {c : Char} {rest l : List Char} {kind : TokenKind}

/-- What the scanner has found, it finds again when nothing else is there. -/
theorem lexemeAt_of_lexemeAt (h : lexemeAt c rest = (kind, c :: l)) :
    lexemeAt c l = (kind, c :: l) := by
  have hfront : (lexemeAt c l).2 <+: c :: l := lexemeAt_prefix c l
  have hfound := found_lexemeAt c rest
  rw [h] at hfound
  dsimp only at hfound
  generalize hchars : c :: l = chars at hfound
  cases hfound with
  | lexeme hlexeme =>
      subst hchars
      have hcovers : Covers (c :: l) c l := covers_of_lexeme hlexeme (List.prefix_refl _)
      have hkind : (lexemeAt c l).1 = kind := by
        have hkind := hlexeme.ofLexeme_eq
        unfold TokenKind.ofLexeme at hkind
        rwa [String.toList_ofList] at hkind
      have hwhole : (lexemeAt c l).2 = c :: l :=
        hfront.eq_of_length (Nat.le_antisymm hfront.length_le hcovers.1)
      exact Prod.ext hkind hwhole
  | openString hc =>
      obtain rfl := (List.cons.inj hchars).2
      exact h
  | stray hc =>
      obtain rfl := (List.cons.inj hchars).2
      -- Nothing shorter than `c` can be found, and were it a lexeme it would have been found.
      have halone := found_lexemeAt c []
      have hpos := lexemeAt_length_pos c []
      have hwhole : (lexemeAt c []).2 = [c] :=
        hfront.eq_of_length (Nat.le_antisymm hfront.length_le hpos)
      rw [hwhole] at halone
      generalize hkind : (lexemeAt c []).1 = kind at halone
      cases halone with
      | lexeme hlexeme =>
          have hcovers : Covers [c] c rest :=
            covers_of_lexeme hlexeme (List.cons_prefix_cons.mpr ⟨rfl, List.nil_prefix⟩)
          exact absurd (congrArg Prod.fst h) (hcovers.2 _)
      | openString hc' => exact absurd hc' hc
      | stray => exact Prod.ext hkind hwhole

variable {cursor : Cursor} {x : String}

/-- A call that does not end the text takes what the scanner finds behind the blanks. -/
theorem exists_of_more (hmore : cursor.next.1.kind ≠ .endOfFile) : ∃ c rest,
    isBlank c = false ∧ cursor.next.1.kind = (lexemeAt c rest).1 ∧
      cursor.next.1.lexeme = String.ofList (lexemeAt c rest).2 ∧
      cursor.next.2.rest = (c :: rest).drop (lexemeAt c rest).2.length := by
  generalize hskip : skip false cursor.offset cursor.line cursor.rest = here
  obtain ⟨chars, offset, line⟩ := here
  cases chars with
  | nil =>
      rw [next_of_end hskip] at hmore
      exact absurd rfl hmore
  | cons c rest =>
      obtain ⟨hblank, -⟩ := text_of_skip (congrArg Cursor.rest hskip)
      rw [next_of_text hskip]
      exact ⟨c, rest, hblank, rfl, rfl, rfl⟩

theorem alone_next (hmore : cursor.next.1.kind ≠ .endOfFile) :
    cursor.next.1.kind.Alone cursor.next.1.lexeme := by
  obtain ⟨c, rest, hblank, hkind, hlexeme, -⟩ := exists_of_more hmore
  obtain ⟨after, hfront⟩ := lexemeAt_prefix c rest
  obtain ⟨d, l, hl⟩ := List.exists_cons_of_ne_nil
    (List.ne_nil_of_length_pos (lexemeAt_length_pos c rest))
  rw [hl] at hlexeme hfront
  obtain ⟨rfl, -⟩ := List.cons.inj hfront
  rw [hkind, hlexeme]
  exact ⟨d, l, String.toList_ofList, hblank, lexemeAt_of_lexemeAt (Prod.ext rfl hl)⟩

/-- A string without its closing quote takes all that is left. -/
theorem rest_of_open (h : cursor.next.1.kind = .fault .unterminatedString) :
    cursor.next.2.rest = [] := by
  obtain ⟨c, rest, -, hkind, -, hrest⟩ := @exists_of_more cursor (by simp [h])
  have hfront := lexemeAt_prefix c rest
  have hfound := found_lexemeAt c rest
  rw [h] at hkind
  rw [← hkind] at hfound
  rw [hrest]
  generalize (lexemeAt c rest).2 = l at hfound hfront ⊢
  cases hfound with
  | lexeme hlexeme => exact absurd hkind.symm ((covers_of_lexeme hlexeme hfront).2 _)
  | openString => exact List.drop_length

theorem lexeme_of_end (hend : cursor.next.1.kind = .endOfFile) : cursor.next.1.lexeme = "" := by
  have hrest := rest_of_end hend
  unfold next
  dsimp only
  rw [hrest]

theorem end_of_rest (h : cursor.rest = []) : cursor.next.1.kind = .endOfFile := by
  unfold next
  rw [h]
  rfl

theorem tokens_nil (offset line : Nat) :
    (⟨[], offset, line⟩ : Cursor).tokens = [⟨.endOfFile, offset, "", line⟩] :=
  tokens_of_end rfl

theorem tokens_of_alone (h : kind.Alone x) (offset line : Nat) :
    (⟨x.toList, offset, line⟩ : Cursor).tokens.map Token.spelling =
      [(kind, x), (.endOfFile, "")] := by
  obtain ⟨c, rest, hlist, hblank, hlexeme⟩ := h
  have hslash : (c = '/' && rest.head? = some '/') = false := by
    by_cases hc : c = '/'
    · rw [slash_of_lexeme (congrArg Prod.snd hlexeme) hc]
      simp
    · simp [hc]
  have htext : String.ofList (c :: rest) = x := by rw [← hlist, String.ofList_toList]
  have hnext := @next_of_text ⟨c :: rest, offset, line⟩ _ _ _ _
    (skip_of_text offset line hblank hslash)
  rw [hlexeme, htext, List.drop_length] at hnext
  have hmore : (⟨c :: rest, offset, line⟩ : Cursor).next.1.kind ≠ .endOfFile := by
    rw [hnext, ← congrArg Prod.fst hlexeme]
    exact lexemeAt_ne_endOfFile c rest
  rw [hlist, tokens_of_more hmore, hnext, tokens_nil]
  rfl

theorem isLexeme_of_alone (h : kind.Alone x) (hclosed : kind ≠ .fault .unterminatedString) :
    isLexeme x = true ∧ TokenKind.ofLexeme x = kind := by
  obtain ⟨c, rest, hlist, hblank, hlexeme⟩ := h
  exact isLexeme_of_lexemeAt hlist hblank hlexeme hclosed

/-- The tokens from a cursor on are found again in their own lexemes. The induction goes from
token to token, and the two scans stand at different places of different texts. -/
theorem tokens_spaced (cursor : Cursor) (offset line : Nat) :
    (⟨(Token.spaced cursor.tokens).toList, offset, line⟩ : Cursor).tokens.map Token.spelling =
      cursor.tokens.map Token.spelling := by
  by_cases hend : cursor.next.1.kind = .endOfFile
  · have hlexeme : cursor.next.1.lexeme = "" := lexeme_of_end hend
    rw [tokens_of_end hend, Token.spaced_of_end hend]
    change (⟨[], offset, line⟩ : Cursor).tokens.map _ = [(_, _)]
    rw [tokens_nil, hend, hlexeme]
    rfl
  · have halone := alone_next hend
    have ih := tokens_spaced cursor.next.2
    rw [tokens_of_more hend]
    by_cases hlast : cursor.next.2.next.1.kind = .endOfFile
    · have hlexeme : cursor.next.2.next.1.lexeme = "" := lexeme_of_end hlast
      rw [tokens_of_end hlast, Token.spaced_of_last hend hlast, tokens_of_alone halone]
      simp only [List.map_cons, List.map_nil, Token.spelling, hlast, hlexeme]
    · have hclosed : cursor.next.1.kind ≠ .fault .unterminatedString := by
        intro hopen
        exact hlast (end_of_rest (rest_of_open hopen))
      obtain ⟨hwhole, hkind⟩ := isLexeme_of_alone halone hclosed
      obtain ⟨t, offset', line', htkind, htlexeme, htokens⟩ := tokens_of_lexeme hwhole
        delimiter_space (Token.spaced cursor.next.2.tokens).toList offset line
      have htext : (Token.spaced (cursor.next.1 :: cursor.next.2.tokens)).toList =
          cursor.next.1.lexeme.toList ++ ' ' :: (Token.spaced cursor.next.2.tokens).toList := by
        rw [tokens_of_more hlast, Token.spaced_of_more hend hlast]
        simp
      rw [htext, htokens, tokens_of_space, List.map_cons, List.map_cons, ih]
      congr 1
      unfold Token.spelling
      rw [htkind, htlexeme, hkind]
termination_by cursor.rest.length
decreasing_by exact next_rest_length hend

end Cursor

/-- A text put together from the lexemes of another one, with a space between any two of them,
has the same tokens: the same kinds, faults and their reasons included, and the same lexemes in
the same order. -/
theorem Token.scan_spaced (source : String) :
    (Token.scan (Token.spaced (Token.scan source))).map Token.spelling =
      (Token.scan source).map Token.spelling :=
  Cursor.tokens_spaced (Cursor.start source) 0 1

end StackScript
