import Mathlib.Data.List.TakeWhile
import StackScript.Token.Scan
import StackScript.Number
import StackScript.Proofs.Number.Digits

/-!
What the rest of the compiler relies on in the text of a token: a number can be read, a
string stands between quotes, and the end marker comes last and only there.
-/

namespace StackScript

/-- The text of a token suits its kind. -/
structure Token.WellSpelled (t : Token) : Prop where
  number : t.kind = .number → (Number.parse? t.lexeme).isSome
  string : t.kind = .string → ∃ s, t.lexeme = "\"" ++ s ++ "\""

namespace Cursor

/-- A number lexeme can be read as a number. -/
theorem parse?_numberLexeme {c : Char} {rest : List Char} (hc : c.isDigit = true) :
    (Decimal.parse? (numberLexeme (c :: rest))).isSome := by
  have hwhole : ∀ d ∈ (c :: rest).takeWhile Char.isDigit, d.isDigit = true :=
    fun d hd => List.mem_takeWhile_imp hd
  have hne : (c :: rest).takeWhile Char.isDigit ≠ [] := by
    simp [hc]
  unfold numberLexeme
  dsimp only
  split
  · rename_i behind _
    split
    · exact Option.isSome_of_eq_some (Decimal.parse?_digits hwhole hne)
    · rename_i hfraction
      exact Option.isSome_of_eq_some (Decimal.parse?_fraction hwhole
        (fun d hd => List.mem_takeWhile_imp hd) hne (by simpa using hfraction))
  · exact Option.isSome_of_eq_some (Decimal.parse?_digits hwhole hne)

theorem ofWord_ne_number (word : String) : TokenKind.ofWord word ≠ .number := by
  unfold TokenKind.ofWord
  split <;> simp

theorem ofWord_ne_string (word : String) : TokenKind.ofWord word ≠ .string := by
  unfold TokenKind.ofWord
  split <;> simp

theorem wellSpelled_lexemeAt (c : Char) (rest : List Char) (start line : Nat) :
    Token.WellSpelled
      ⟨(lexemeAt c rest).1, start, String.ofList (lexemeAt c rest).2, line⟩ := by
  constructor
  · intro h
    dsimp only at h ⊢
    unfold lexemeAt at h ⊢
    split at h <;> try cases h
    all_goals try (unfold operator at h; split at h <;> cases h)
    · unfold stringLexeme at h
      dsimp only at h
      split at h <;> cases h
    · split at h
      · rename_i hdigit
        rw [if_pos hdigit]
        simpa [Number.parse?] using parse?_numberLexeme hdigit
      · split at h
        · exact absurd h (ofWord_ne_number _)
        · cases h
  · intro h
    dsimp only at h ⊢
    unfold lexemeAt at h ⊢
    split at h <;> try cases h
    all_goals try (unfold operator at h; split at h <;> cases h)
    · unfold stringLexeme at h ⊢
      dsimp only at h ⊢
      split at h
      · cases h
      · refine ⟨String.ofList (rest.takeWhile (· != '"')), ?_⟩
        apply String.toList_inj.mp
        simp
    · split at h
      · cases h
      · split at h
        · exact absurd h (ofWord_ne_string _)
        · cases h

theorem wellSpelled_next (cursor : Cursor) : cursor.next.1.WellSpelled := by
  unfold next
  dsimp only
  split
  · exact ⟨fun h => (nomatch h), fun h => (nomatch h)⟩
  · rename_i c rest _
    exact wellSpelled_lexemeAt c rest _ _

/-- The tokens from a cursor on: any number of tokens that do not end the text, and the
end marker. -/
theorem tokensFrom_eq (cursor : Cursor) (seen : Array Token) :
    ∃ front last, (cursor.tokensFrom seen).toList = seen.toList ++ (front ++ [last]) ∧
      last.kind = .endOfFile ∧ (∀ t ∈ front, t.kind ≠ .endOfFile) ∧
      ∀ t ∈ front ++ [last], t.WellSpelled := by
  fun_induction tokensFrom cursor seen with
  | case1 cursor seen hend =>
      exact ⟨[], cursor.next.1, by simp, hend, by simp, by simpa using cursor.wellSpelled_next⟩
  | case2 cursor seen hmore ih =>
      obtain ⟨front, last, hall, hlast, hfront, hspelled⟩ := ih
      refine ⟨cursor.next.1 :: front, last, by simp [hall], hlast, ?_, ?_⟩
      · intro t ht
        rcases List.mem_cons.mp ht with rfl | ht
        · exact hmore
        · exact hfront t ht
      · intro t ht
        rcases List.mem_cons.mp ht with rfl | ht
        · exact cursor.wellSpelled_next
        · exact hspelled t ht

end Cursor

theorem Token.scan_eq (source : String) :
    ∃ front last, Token.scan source = front ++ [last] ∧ last.kind = .endOfFile ∧
      (∀ t ∈ front, t.kind ≠ .endOfFile) ∧ ∀ t ∈ Token.scan source, t.WellSpelled := by
  obtain ⟨front, last, hall, hlast, hfront, hspelled⟩ :=
    (Cursor.start source).tokensFrom_eq #[]
  have hscan : Token.scan source = front ++ [last] := by simpa [Token.scan] using hall
  exact ⟨front, last, hscan, hlast, hfront, by rwa [hscan]⟩

end StackScript
