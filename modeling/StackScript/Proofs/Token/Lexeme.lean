import Mathlib.Data.List.TakeWhile
import StackScript.Proofs.Token.Append

/-!
Texts put together from lexemes with a space between any two of them. A text that is one lexeme
stays one wherever a delimiter follows it, so the scanner takes the whole apart again.
-/

namespace StackScript

/-- The kind of the token at the front of a text that starts with no blank. -/
def TokenKind.ofLexeme (x : String) : TokenKind :=
  match x.toList with
  | [] => .endOfFile
  | c :: rest => (Cursor.lexemeAt c rest).1

/-- Whether a text is a single token from its first character to its last. -/
def isLexeme (x : String) : Bool :=
  match x.toList with
  | [] => false
  | c :: rest =>
      !Cursor.isBlank c && (Cursor.lexemeAt c rest).2 = c :: rest &&
        (Cursor.lexemeAt c rest).1 ≠ .fault .unterminatedString

theorem exists_of_isLexeme {x : String} (h : isLexeme x = true) : ∃ c rest,
    x.toList = c :: rest ∧ TokenKind.ofLexeme x = (Cursor.lexemeAt c rest).1 ∧
      Cursor.isBlank c = false ∧ (Cursor.lexemeAt c rest).2 = c :: rest ∧
      (Cursor.lexemeAt c rest).1 ≠ .fault .unterminatedString := by
  unfold isLexeme at h
  unfold TokenKind.ofLexeme
  cases hlist : x.toList with
  | nil =>
      rw [hlist] at h
      cases h
  | cons c rest =>
      rw [hlist] at h
      simp only [Bool.and_eq_true, Bool.not_eq_true', decide_eq_true_eq] at h
      obtain ⟨⟨hblank, hwhole⟩, hclosed⟩ := h
      exact ⟨c, rest, rfl, rfl, hblank, hwhole, hclosed⟩

/-- The tokens are these lexemes, wherever they stand. -/
def Spell (ts : List Token) (lexemes : List String) : Prop :=
  ts.map (fun t => (t.kind, t.lexeme)) = lexemes.map fun x => (TokenKind.ofLexeme x, x)

theorem Spell.of_cons {ts : List Token} {x : String} {lexemes : List String}
    (h : Spell ts (x :: lexemes)) : ∃ t us, ts = t :: us ∧ t.kind = TokenKind.ofLexeme x ∧
      t.lexeme = x ∧ Spell us lexemes := by
  obtain ⟨t, us, rfl, ht, hus⟩ := List.map_eq_cons_iff.mp h
  exact ⟨t, us, rfl, congrArg Prod.fst ht, congrArg Prod.snd ht, hus⟩

theorem Spell.of_append {ts : List Token} {first second : List String}
    (h : Spell ts (first ++ second)) :
    ∃ us vs, ts = us ++ vs ∧ Spell us first ∧ Spell vs second := by
  unfold Spell at h
  rw [List.map_append] at h
  exact List.map_eq_append_iff.mp h

/-- A lexeme between others. -/
theorem Spell.of_infix {ts : List Token} {first second : List String} {x : String}
    (h : Spell ts (first ++ x :: second)) : ∃ us t vs, ts = us ++ t :: vs ∧ Spell us first ∧
      t.kind = TokenKind.ofLexeme x ∧ Spell vs second := by
  obtain ⟨us, rest, rfl, hus, hrest⟩ := h.of_append
  obtain ⟨t, vs, rfl, ht, -, hvs⟩ := hrest.of_cons
  exact ⟨us, t, vs, rfl, hus, ht, hvs⟩

theorem Spell.eq_nil {ts : List Token} (h : Spell ts []) : ts = [] :=
  List.map_eq_nil_iff.mp h

theorem Spell.of_singleton {ts : List Token} {x : String} (h : Spell ts [x]) :
    ∃ t, ts = [t] ∧ t.kind = TokenKind.ofLexeme x ∧ t.lexeme = x := by
  obtain ⟨t, us, rfl, hkind, hlexeme, hus⟩ := h.of_cons
  exact ⟨t, congrArg (t :: ·) hus.eq_nil, hkind, hlexeme⟩

theorem Spell.cons {t : Token} {x : String} {ts : List Token} {lexemes : List String}
    (hkind : t.kind = TokenKind.ofLexeme x) (hlexeme : t.lexeme = x) (h : Spell ts lexemes) :
    Spell (t :: ts) (x :: lexemes) := by
  unfold Spell at h ⊢
  rw [List.map_cons, List.map_cons, h, hkind, hlexeme]

namespace Cursor

/-- Two slashes are no lexeme: they begin a comment. -/
theorem slash_of_lexeme {c : Char} {rest : List Char} (h : (lexemeAt c rest).2 = c :: rest)
    (hc : c = '/') : rest = [] := by
  subst hc
  exact (List.cons.inj h).2.symm

/-- A lexeme is read up to the delimiter behind it. -/
theorem next_of_lexeme {x : String} (hx : isLexeme x = true) {d : Char} (hd : Delimiter d)
    (more : List Char) (offset line : Nat) :
    (⟨x.toList ++ d :: more, offset, line⟩ : Cursor).next =
      (⟨TokenKind.ofLexeme x, offset, x, line + x.toList.count '\n'⟩,
        ⟨d :: more, offset + x.utf8ByteSize, line + x.toList.count '\n'⟩) := by
  obtain ⟨c, rest, hlist, hkind, hblank, hwhole, hclosed⟩ := exists_of_isLexeme hx
  have hslash : (c = '/' && (rest ++ d :: more).head? = some '/') = false := by
    by_cases hc : c = '/'
    · rw [slash_of_lexeme hwhole hc]
      simp [hd.slash]
    · simp [hc]
  have htext : String.ofList (c :: rest) = x := by rw [← hlist, String.ofList_toList]
  unfold next
  rw [hlist, List.cons_append, skip_of_text _ _ hblank hslash]
  dsimp only
  rw [lexemeAt_append hd more hclosed, hwhole, ← List.cons_append, List.drop_left, htext, hkind]

theorem tokens_of_lexeme {x : String} (hx : isLexeme x = true) {d : Char} (hd : Delimiter d)
    (more : List Char) (offset line : Nat) : ∃ t offset' line',
      t.kind = TokenKind.ofLexeme x ∧ t.lexeme = x ∧
      (⟨x.toList ++ d :: more, offset, line⟩ : Cursor).tokens =
        t :: (⟨d :: more, offset', line'⟩ : Cursor).tokens := by
  have hnext := next_of_lexeme hx hd more offset line
  have hkind : TokenKind.ofLexeme x ≠ .endOfFile := by
    obtain ⟨c, rest, -, hkind, -⟩ := exists_of_isLexeme hx
    rw [hkind]
    exact lexemeAt_ne_endOfFile c rest
  have hmore : (⟨x.toList ++ d :: more, offset, line⟩ : Cursor).next.1.kind ≠ .endOfFile := by
    rw [hnext]
    exact hkind
  have htokens := tokens_of_more hmore
  rw [hnext] at htokens
  exact ⟨_, _, _, rfl, rfl, htokens⟩

theorem tokens_of_space (more : List Char) (offset line : Nat) :
    (⟨' ' :: more, offset, line⟩ : Cursor).tokens =
      (⟨more, offset + ' '.utf8Size, line⟩ : Cursor).tokens :=
  tokens_congr rfl

theorem delimiter_space : Delimiter ' ' := by
  constructor <;> decide

theorem delimiter_semicolon : Delimiter ';' := by
  constructor <;> decide

/-- Lexemes with spaces between them are read one by one. -/
theorem tokens_of_lexemes {lexemes : List String} (hall : ∀ x ∈ lexemes, isLexeme x = true)
    {d : Char} (hd : Delimiter d) (more : List Char) (offset line : Nat) :
    ∃ ts offset' line', Spell ts lexemes ∧
      (⟨(" ".intercalate lexemes).toList ++ d :: more, offset, line⟩ : Cursor).tokens =
        ts ++ (⟨d :: more, offset', line'⟩ : Cursor).tokens := by
  induction lexemes generalizing offset line with
  | nil => exact ⟨[], offset, line, rfl, by rw [String.intercalate_nil]; rfl⟩
  | cons x rest ih =>
      have hx := hall x (List.mem_cons_self ..)
      cases rest with
      | nil =>
          obtain ⟨t, offset', line', hkind, hlexeme, htokens⟩ :=
            tokens_of_lexeme hx hd more offset line
          exact ⟨[t], offset', line', .cons hkind hlexeme rfl, by
            rw [String.intercalate_singleton, htokens]; rfl⟩
      | cons y rest =>
          -- The space behind `x` delimits it, and is skipped on the way to `y`.
          obtain ⟨t, offset', line', hkind, hlexeme, hfirst⟩ :=
            tokens_of_lexeme hx delimiter_space ((" ".intercalate (y :: rest)).toList ++ d :: more)
              offset line
          obtain ⟨ts, offset'', line'', hts, hrest⟩ :=
            ih (fun z hz => hall z (List.mem_cons_of_mem _ hz)) (offset' + ' '.utf8Size) line'
          refine ⟨t :: ts, offset'', line'', .cons hkind hlexeme hts, ?_⟩
          have htext : (" ".intercalate (x :: y :: rest)).toList ++ d :: more =
              x.toList ++ ' ' :: ((" ".intercalate (y :: rest)).toList ++ d :: more) := by
            simp [String.intercalate_cons_cons]
          rw [htext, hfirst, tokens_of_space, hrest]
          rfl

end Cursor

/-- The end of a statement that is the end of the text. -/
theorem Cursor.tokens_of_semicolon (offset line : Nat) :
    ∃ semi last, (⟨[';'], offset, line⟩ : Cursor).tokens = [semi, last] ∧
      semi.kind = .semicolon ∧ last.kind = .endOfFile := by
  have hsemi : (⟨[';'], offset, line⟩ : Cursor).next.1.kind ≠ .endOfFile := nofun
  have hlast : (⟨[';'], offset, line⟩ : Cursor).next.2.next.1.kind = .endOfFile := rfl
  exact ⟨_, _, by rw [tokens_of_more hsemi, tokens_of_end hlast], rfl, hlast⟩

/-- The tokens of a statement whose parts stand apart. -/
theorem Token.scan_statement {lexemes : List String} (hall : ∀ x ∈ lexemes, isLexeme x = true) :
    ∃ ts semi last, Token.scan (" ".intercalate lexemes ++ ";") = ts ++ [semi, last] ∧
      Spell ts lexemes ∧ semi.kind = .semicolon ∧
      last.kind = .endOfFile := by
  obtain ⟨ts, offset, line, hts, htokens⟩ :=
    Cursor.tokens_of_lexemes hall Cursor.delimiter_semicolon [] 0 1
  have hscan : Token.scan (" ".intercalate lexemes ++ ";") =
      (⟨(" ".intercalate lexemes).toList ++ [';'], 0, 1⟩ : Cursor).tokens := by
    unfold Token.scan Cursor.start
    rw [String.toList_append]
    rfl
  obtain ⟨semi, last, hrest, hsemi, hlast⟩ := Cursor.tokens_of_semicolon offset line
  exact ⟨ts, semi, last, by rw [hscan, htokens, hrest], hts, hsemi, hlast⟩

namespace Cursor

theorem isWordPart_of_start {c : Char} (hc : isWordStart c = true) : isWordPart c = true := by
  simp only [isWordStart, isWordPart, Char.isAlphanum, Bool.or_eq_true] at hc ⊢
  exact hc.imp_left Or.inl

theorem isWordPart_of_digit {c : Char} (hc : c.isDigit = true) : isWordPart c = true := by
  simp [isWordPart, Char.isAlphanum, hc]

theorem isBlank_of_wordPart {c : Char} (hc : isWordPart c = true) : isBlank c = false := by
  refine Bool.eq_false_iff.mpr fun hblank => ?_
  simp only [isBlank, Bool.or_eq_true, decide_eq_true_eq] at hblank
  obtain ((rfl | rfl) | rfl) | rfl := hblank <;> exact absurd hc (by decide)

theorem lexemeAt_of_digit {c : Char} (hc : c.isDigit = true) (rest : List Char) :
    lexemeAt c rest = (.number, numberLexeme (c :: rest)) := by
  unfold lexemeAt
  split
  case h_17 => rw [if_pos hc]
  all_goals exact absurd hc (by decide)

theorem not_isDigit_of_wordStart {c : Char} (hc : isWordStart c = true) : ¬ c.isDigit = true := by
  intro hdigit
  have hstart : ((c.isUpper || c.isLower) || decide (c = '_')) = true := hc
  rw [Bool.or_eq_true, Bool.or_eq_true] at hstart
  have hbelow : c.val ≤ 57 := of_decide_eq_true (Bool.and_eq_true_iff.mp hdigit).2
  obtain (hupper | hlower) | hunder := hstart
  · have habove : 65 ≤ c.val := (of_decide_eq_true hupper).1
    exact absurd (UInt32.le_trans habove hbelow) (by decide)
  · have habove : 97 ≤ c.val := of_decide_eq_true (Bool.and_eq_true_iff.mp hlower).1
    exact absurd (UInt32.le_trans habove hbelow) (by decide)
  · obtain rfl := of_decide_eq_true hunder
    exact absurd hdigit (by decide)

theorem lexemeAt_of_wordStart {c : Char} (hc : isWordStart c = true) (rest : List Char) :
    lexemeAt c rest = (TokenKind.ofWord (String.ofList ((c :: rest).takeWhile isWordPart)),
      (c :: rest).takeWhile isWordPart) := by
  unfold lexemeAt
  split
  case h_17 => rw [if_neg (not_isDigit_of_wordStart hc), if_pos hc]
  all_goals exact absurd hc (by decide)

/-- Text that can be read as a number is a number lexeme to its end. -/
theorem numberLexeme_of_parse {chars : List Char} (h : (Decimal.parse? chars).isSome = true) :
    chars.takeWhile Char.isDigit ≠ [] ∧ numberLexeme chars = chars := by
  have hsplit := List.takeWhile_append_dropWhile (p := Char.isDigit) (l := chars)
  unfold Decimal.parse? at h
  unfold numberLexeme
  dsimp only at h ⊢
  split at h
  · rename_i hbehind
    split at h
    · cases h
    · rename_i hwhole
      rw [hbehind, List.append_nil] at hsplit
      rw [hbehind]
      exact ⟨fun hnil => hwhole (List.isEmpty_iff.mpr hnil), hsplit⟩
  · rename_i fraction hbehind
    split at h
    · cases h
    · rename_i hparts
      simp only [Bool.or_eq_true, Bool.not_eq_true', not_or, Bool.not_eq_false, List.isEmpty_iff]
        at hparts
      obtain ⟨⟨hwhole, hfraction⟩, hdigits⟩ := hparts
      have htake : fraction.takeWhile Char.isDigit = fraction :=
        List.takeWhile_eq_self_iff.mpr (List.all_eq_true.mp hdigits)
      rw [hbehind] at hsplit ⊢
      refine ⟨hwhole, ?_⟩
      simp only [htake, List.isEmpty_iff, hfraction, if_false]
      exact hsplit
  · cases h

end Cursor

/-- A word that may name a variable. -/
def isName (x : String) : Bool :=
  match x.toList with
  | [] => false
  | c :: rest =>
      Cursor.isWordStart c && rest.all Cursor.isWordPart && TokenKind.ofWord x = .identifier

theorem isLexeme_of_lexemeAt {x : String} {c : Char} {rest : List Char} {kind : TokenKind}
    (hlist : x.toList = c :: rest) (hblank : Cursor.isBlank c = false)
    (h : Cursor.lexemeAt c rest = (kind, c :: rest)) (hkind : kind ≠ .fault .unterminatedString) :
    isLexeme x = true ∧ TokenKind.ofLexeme x = kind := by
  unfold isLexeme TokenKind.ofLexeme
  rw [hlist]
  dsimp only
  rw [h, hblank]
  exact ⟨by simp [hkind], rfl⟩

theorem isLexeme_name {x : String} (h : isName x = true) :
    isLexeme x = true ∧ TokenKind.ofLexeme x = .identifier := by
  unfold isName at h
  split at h
  · cases h
  · rename_i c rest hlist
    simp only [Bool.and_eq_true, decide_eq_true_eq] at h
    obtain ⟨⟨hc, hrest⟩, hword⟩ := h
    have hpart := Cursor.isWordPart_of_start hc
    have hwhole : (c :: rest).takeWhile Cursor.isWordPart = c :: rest := by
      rw [List.takeWhile_eq_self_iff]
      exact List.forall_mem_cons.mpr ⟨hpart, List.all_eq_true.mp hrest⟩
    refine isLexeme_of_lexemeAt hlist (Cursor.isBlank_of_wordPart hpart) ?_ nofun
    rw [Cursor.lexemeAt_of_wordStart hc, hwhole, ← hlist, String.ofList_toList, hword]

theorem isLexeme_number {x : String} (h : (Number.parse? x).isSome = true) :
    isLexeme x = true ∧ TokenKind.ofLexeme x = .number := by
  unfold Number.parse? at h
  rw [Option.isSome_map] at h
  obtain ⟨hwhole, hall⟩ := Cursor.numberLexeme_of_parse h
  cases hlist : x.toList with
  | nil =>
      rw [hlist] at hwhole
      exact absurd rfl hwhole
  | cons c rest =>
      rw [hlist] at hwhole hall
      have hc : c.isDigit = true := by
        by_contra hc
        exact hwhole (List.takeWhile_cons_of_neg hc)
      refine isLexeme_of_lexemeAt hlist
        (Cursor.isBlank_of_wordPart (Cursor.isWordPart_of_digit hc)) ?_ nofun
      rw [Cursor.lexemeAt_of_digit hc, hall]

/-- A string literal may hold any character but the one that ends it. -/
theorem isLexeme_string {s : String} (h : '"' ∉ s.toList) :
    isLexeme ("\"" ++ s ++ "\"") = true ∧ TokenKind.ofLexeme ("\"" ++ s ++ "\"") = .string := by
  have hinner : ∀ c ∈ s.toList, (c != '"') = true := by
    intro c hc
    exact bne_iff_ne.mpr (ne_of_mem_of_not_mem hc h)
  have hlist : ("\"" ++ s ++ "\"").toList = '"' :: (s.toList ++ ['"']) := by simp
  refine isLexeme_of_lexemeAt hlist (by decide) ?_ nofun
  change Cursor.stringLexeme _ = _
  unfold Cursor.stringLexeme
  rw [List.takeWhile_append_of_pos hinner, List.dropWhile_append_of_pos hinner]
  simp

end StackScript
