import StackScript.Proofs.Builder.Declaring
import StackScript.Proofs.Grammar.Precedence
import StackScript.Proofs.Reader.Phases
import StackScript.Proofs.Token.Lexicon
import StackScript.Proofs.Token.Tiles

/-!
The scanner against the lexical grammar: a token is the longest lexeme that stands where it
starts, of the kind of that lexeme, and a fault only where no lexeme stands. So a token that is
read as a number is the text of one.
-/

namespace StackScript

/-- What a token at the front of `text` has to be. -/
structure Token.Matches (t : Token) (text : List Char) : Prop where
  front : t.lexeme.toList <+: text
  longest : (∃ kind l, Lexeme kind l ∧ l <+: text) → Lexeme t.kind t.lexeme.toList ∧
    ∀ kind l, Lexeme kind l → l <+: text → l.length ≤ t.lexeme.toList.length
  unique : ∀ kind, Lexeme kind t.lexeme.toList → kind = t.kind
  reserved : t.kind ∈ TokenKind.reservedWords.map Prod.fst ↔
    t.lexeme ∈ TokenKind.reservedWords.map Prod.snd
  fault : (¬ ∃ kind l, Lexeme kind l ∧ l <+: text) →
    (text.head? = some '"' ∧ t.kind = .fault .unterminatedString ∧ t.lexeme.toList = text) ∨
      ∃ c ≠ '"', text.head? = some c ∧ t.kind = .fault (.unexpectedCharacter c) ∧
        t.lexeme.toList = [c]

namespace Cursor

/-- A token is what the scanner finds at the place where it starts. -/
theorem exists_lexed (before rest : List Char) : ∀ t ∈ (past before rest).tokens,
    t.kind ≠ .endOfFile → ∃ first c text, before ++ rest = first ++ c :: text ∧
      t = lexed first c text := by
  induction before, rest using tokens_induction with
  | last before gap hgap =>
      intro t ht hkind
      rw [List.mem_singleton.mp ht] at hkind
      exact absurd rfl hkind
  | token before gap c text after ts hgap hlexeme ih =>
      intro t ht hkind
      obtain rfl | ht := List.mem_cons.mp ht
      · exact ⟨before ++ gap, c, text, (List.append_assoc ..).symm, rfl⟩
      · obtain ⟨first, d, behind, htext, ht⟩ := ih t ht hkind
        refine ⟨first, d, behind, ?_, ht⟩
        rw [← htext, ← hlexeme]
        simp only [List.append_assoc]

end Cursor

/-- A kind that is reserved is the kind of a reserved word only. -/
theorem Lexeme.reserved_iff {kind : TokenKind} {word : String} (h : Lexeme kind word.toList) :
    kind ∈ TokenKind.reservedWords.map Prod.fst ↔ word ∈ TokenKind.reservedWords.map Prod.snd := by
  constructor
  · intro hkind
    generalize hl : word.toList = l at h
    cases h with
    | mark h =>
        have hmarks : ∀ p ∈ TokenKind.marks, p.1 ∉ TokenKind.reservedWords.map Prod.fst := by decide
        exact absurd hkind (hmarks _ h)
    | string | whole | fraction | name => exact absurd hkind (by decide)
    | reserved h =>
        rw [String.toList_inj.mp hl]
        exact List.mem_map_of_mem h
  · intro hword
    obtain ⟨⟨kind', word'⟩, hmem, rfl⟩ := List.mem_map.mp hword
    rw [h.kind_unique (.reserved hmem)]
    exact List.mem_map_of_mem hmem

namespace Cursor

variable {c : Char} {rest : List Char}

/-- A fault is found only where no lexeme stands. -/
theorem not_lexeme_of_fault {reason : LexicalFault} (h : (lexemeAt c rest).1 = .fault reason) :
    ¬ ∃ kind l, Lexeme kind l ∧ l <+: c :: rest := by
  rintro ⟨kind, l, hlexeme, hfront⟩
  exact (covers_of_lexeme hlexeme hfront).2 reason h

theorem matches_of_fault {t : Token} {text : List Char} {reason : LexicalFault}
    (hkind : t.kind = .fault reason) (hfront : t.lexeme.toList <+: text)
    (hnone : ¬ ∃ kind l, Lexeme kind l ∧ l <+: text)
    (hfault : (text.head? = some '"' ∧ t.kind = .fault .unterminatedString ∧
      t.lexeme.toList = text) ∨
      ∃ c ≠ '"', text.head? = some c ∧ t.kind = .fault (.unexpectedCharacter c) ∧
        t.lexeme.toList = [c]) : t.Matches text := by
  refine ⟨hfront, fun h => absurd h hnone, ?_, ?_, fun _ => hfault⟩
  · intro kind hlexeme
    exact absurd ⟨kind, _, hlexeme, hfront⟩ hnone
  · have hreserved : t.kind ∉ TokenKind.reservedWords.map Prod.fst := by
      rw [hkind]
      simp [TokenKind.reservedWords]
    refine iff_of_false hreserved ?_
    intro hword
    obtain ⟨⟨kind, word⟩, hmem, hword⟩ := List.mem_map.mp hword
    exact hnone ⟨kind, t.lexeme.toList, hword ▸ .reserved hmem, hfront⟩

theorem matches_lexed (before : List Char) (c : Char) (rest : List Char) :
    (lexed before c rest).Matches (c :: rest) := by
  have hfront : (lexed before c rest).lexeme.toList <+: c :: rest := by
    rw [lexed, String.toList_ofList]
    exact lexemeAt_prefix c rest
  have hfound := found_lexemeAt c rest
  have hlexeme : (lexed before c rest).lexeme.toList = (lexemeAt c rest).2 := String.toList_ofList
  generalize hkind : (lexemeAt c rest).1 = kind at hfound
  generalize hl : (lexemeAt c rest).2 = l at hfound hlexeme
  cases hfound with
  | lexeme h =>
      rw [← hlexeme, ← show (lexed before c rest).kind = kind from hkind] at h
      refine ⟨hfront, ?_, fun kind' h' => h'.kind_unique h, h.reserved_iff, ?_⟩
      · intro _
        refine ⟨h, ?_⟩
        intro kind' l' h' hfront'
        rw [hlexeme, ← hl]
        exact (covers_of_lexeme h' hfront').1
      · intro hnone
        exact absurd ⟨_, _, h, hfront⟩ hnone
  | openString hc =>
      exact matches_of_fault hkind hfront (not_lexeme_of_fault hkind)
        (.inl ⟨congrArg some hc, hkind, hlexeme⟩)
  | stray hc =>
      exact matches_of_fault hkind hfront (not_lexeme_of_fault hkind)
        (.inr ⟨c, hc, rfl, hkind, hlexeme⟩)

end Cursor

namespace Reader

open Builder

/-- Every token that a run has come to is one of the text, or stands for the time before it. -/
structure Known (source : String) (b : Builder) : Prop where
  previous : b.previous = .origin ∨ b.previous ∈ Token.scan source
  current : b.current = .origin ∨ b.current ∈ Token.scan source
  unread : b.unread <:+ Token.scan source

variable {source : String}

/-- The token read last stays, or the current one takes its place. -/
theorem Turn.previous {p q : Phase} {b b' : Builder} (h : Turn p b q b') :
    b'.previous = b.previous ∨ b'.previous = b.current := by
  cases h with
  | still h => exact .inl h.previous
  | shift => exact .inr rfl
  | opens => exact .inl rfl
  | closes => exact .inl (previous_endScope b)
  | declares => exact .inl (previous_declared b)
  | defines name => exact .inl (previous_defineVariable name b)

theorem Known.take {b : Builder} (h : Known source b) : Known source b.take := by
  obtain ⟨hprevious, hcurrent, hunread⟩ := h
  refine ⟨(still_take b).previous ▸ hprevious, ?_, (suffix_take b).trans hunread⟩
  unfold Builder.take
  split
  · exact hcurrent
  · rename_i t rest htokens
    have ht : t ∈ Token.scan source := hunread.subset (htokens ▸ List.mem_cons_self)
    split
    · rw [show ({ b.report t _ with unread := rest } : Builder).current = b.current from
        (quiet_report b t _).current]
      exact hcurrent
    · exact .inr ht

theorem known_of_steps {c : Config} (h : Steps (start source) c) : Known source c.builder := by
  induction h with
  | refl => exact ⟨.inl rfl, .inl rfl, List.suffix_refl _⟩
  | @tail c c' hsteps hstep ih =>
      obtain ⟨p, hleading⟩ := leading_of_steps hsteps
      obtain ⟨q, -, hturn, -⟩ := turn_of_step hleading hstep
      have hprevious : c'.builder.previous = .origin ∨ c'.builder.previous ∈ Token.scan source := by
        obtain heq | heq := hturn.previous
        · exact heq ▸ ih.previous
        · exact heq ▸ ih.current
      cases change_of_step hstep with
      | quiet h => exact ⟨hprevious, h.current ▸ ih.current, h.unread ▸ ih.unread⟩
      | take => exact ih.take
      | enter | leave => exact ⟨hprevious, ih.current, ih.unread⟩

/-- Where a number is read, there is one. -/
theorem exists_number {c : Config} (h : Steps (start source) c)
    (hlead : c.builder.previous.kind.lead? = some .number) :
    ∃ x, Number.parse? c.builder.previous.lexeme = some x ∧
      c.builder.number = c.builder.emitConstant (.number x) := by
  have hkind := TokenKind.lead?_eq_number hlead
  obtain horigin | hmem := (known_of_steps h).previous
  · rw [horigin] at hkind
    cases hkind
  · obtain ⟨front, last, -, -, -, hspelled⟩ := Token.scan_eq source
    obtain ⟨x, hx⟩ := Option.isSome_iff_exists.mp ((hspelled _ hmem).number hkind)
    refine ⟨x, hx, ?_⟩
    unfold Builder.number
    rw [hx]

end Reader

/-- The tokens of a text are what the lexical grammar asks for: each of them the longest lexeme
where it starts, with a fault only where there is none. A number token can be read as a number,
and whenever the compiler reads one it finds one. -/
theorem tokens_longest_match (source : String) :
    (∀ t ∈ Token.scan source, t.kind ≠ .endOfFile → ∃ before text,
      source.toList = before ++ text ∧ t.start = (String.ofList before).utf8ByteSize ∧
        t.Matches text) ∧
      (∀ t ∈ Token.scan source, t.kind = .number → (Number.parse? t.lexeme).isSome = true) ∧
      ∀ c, Reader.Steps (Reader.start source) c → c.builder.previous.kind.lead? = some .number →
        ∃ x, Number.parse? c.builder.previous.lexeme = some x ∧
          c.builder.number = c.builder.emitConstant (.number x) := by
  refine ⟨?_, ?_, fun c hsteps hlead => Reader.exists_number hsteps hlead⟩
  · intro t ht hkind
    obtain ⟨first, c, text, htext, rfl⟩ := Cursor.exists_lexed [] source.toList t ht hkind
    exact ⟨first, c :: text, htext, rfl, Cursor.matches_lexed first c text⟩
  · intro t ht hkind
    obtain ⟨front, last, -, -, -, hspelled⟩ := Token.scan_eq source
    exact (hspelled t ht).number hkind

end StackScript
