import StackScript.Proofs.Token.Tiles

/-!
Scanning a text token by token: every call takes a gap and the lexeme behind it, the calls
reach the end marker after finitely many tokens, and from there on they give nothing else.
-/

namespace StackScript

namespace Cursor

/-- The cursor behind the first `n` tokens. -/
def skipTokens : Nat → Cursor → Cursor
  | 0, cursor => cursor
  | n + 1, cursor => cursor.next.2.skipTokens n

/-- At the end of the text a call changes nothing. -/
theorem next_of_next_end {cursor : Cursor} (h : cursor.next.1.kind = .endOfFile) :
    cursor.next.2.next = cursor.next := by
  have hnext : cursor.next.2 = skip false cursor.offset cursor.line cursor.rest := by
    cases hskip : skip false cursor.offset cursor.line cursor.rest with
    | mk chars offset line =>
        cases chars with
        | nil => rw [next_of_end hskip]
        | cons c rest =>
            rw [next_of_text hskip] at h
            exact absurd h (lexemeAt_ne_endOfFile c rest)
  rw [hnext, next_skip]

theorem skipTokens_end {cursor : Cursor} (h : cursor.next.1.kind = .endOfFile) (n : Nat) :
    (cursor.skipTokens n).next.1 = cursor.next.1 := by
  induction n generalizing cursor with
  | zero => rfl
  | succ n ih =>
      have hnext := next_of_next_end h
      have hkind : cursor.next.2.next.1.kind = .endOfFile := by
        rw [hnext]
        exact h
      rw [skipTokens, ih hkind, hnext]

/-- The calls give the tokens one by one, and after them the last of them again and again. -/
theorem next_skipTokens {cursor : Cursor} {front : List Token} {last : Token}
    (h : cursor.tokens = front ++ [last]) (hlast : last.kind = .endOfFile)
    (hfront : ∀ t ∈ front, t.kind ≠ .endOfFile) (n : Nat) :
    (cursor.skipTokens n).next.1 = front.getD n last := by
  induction front generalizing cursor n with
  | nil =>
      have hend : cursor.next.1.kind = .endOfFile := by
        by_contra hmore
        rw [tokens_of_more hmore, List.nil_append, List.cons.injEq] at h
        exact hmore (h.1 ▸ hlast)
      rw [tokens_of_end hend, List.nil_append, List.cons.injEq] at h
      rw [skipTokens_end hend, h.1]
      rfl
  | cons t front ih =>
      obtain ⟨ht, hfront⟩ := List.forall_mem_cons.mp hfront
      have hmore : cursor.next.1.kind ≠ .endOfFile := by
        intro hend
        rw [tokens_of_end hend, List.cons_append, List.cons.injEq] at h
        exact ht (h.1 ▸ hend)
      rw [tokens_of_more hmore, List.cons_append, List.cons.injEq] at h
      cases n with
      | zero => exact h.1
      | succ n => exact ih h.2 hfront n

end Cursor

theorem Token.isValid_of_piece {source : String} {t : Token} {first second : List Char}
    (htext : source.toList = first ++ t.lexeme.toList ++ second)
    (hstart : t.start = (String.ofList first).utf8ByteSize) :
    String.Pos.Raw.IsValid source ⟨t.start⟩ ∧ String.Pos.Raw.IsValid source ⟨t.stop⟩ := by
  constructor
  · apply String.Pos.Raw.isValid_iff_exists_append.mpr
    refine ⟨String.ofList first, String.ofList (t.lexeme.toList ++ second), ?_, ?_⟩
    · apply String.toList_inj.mp
      simp [htext]
    · rw [hstart]
      rfl
  · apply String.Pos.Raw.isValid_iff_exists_append.mpr
    refine ⟨String.ofList first ++ t.lexeme, String.ofList second, ?_, ?_⟩
    · apply String.toList_inj.mp
      simp [htext]
    · unfold Token.stop Token.size
      rw [hstart, ← String.utf8ByteSize_append]
      rfl

/-- The tokens of a text tile it. They are what the calls give one after the other, then the
end marker for ever; the gaps between them hold blanks and comments only. They stand in
order, none of them reaching into the next, each between two character boundaries, and on
the line that the text up to its last character ends on. -/
theorem tokens_tile_source (source : String) : ∃ front last,
    Token.scan source = front ++ [last] ∧
      (∀ n, ((Cursor.start source).skipTokens n).next.1 = front.getD n last) ∧
      last = ⟨.endOfFile, source.utf8ByteSize, "", 1 + source.toList.count '\n'⟩ ∧
      (∀ t ∈ front, t.kind ≠ .endOfFile ∧ t.start < t.stop) ∧
      Tiles [] source.toList (front ++ [last]) ∧
      (front ++ [last]).Pairwise (fun t u => t.start < u.start ∧ t.stop ≤ u.start) ∧
      ∀ t ∈ front ++ [last], t.stop ≤ source.utf8ByteSize ∧
        String.Pos.Raw.IsValid source ⟨t.start⟩ ∧ String.Pos.Raw.IsValid source ⟨t.stop⟩ ∧
        ∃ first second, source.toList = first ++ t.lexeme.toList ++ second ∧
          t.start = (String.ofList first).utf8ByteSize ∧
          t.line = 1 + (first ++ t.lexeme.toList).count '\n' := by
  have htiles := Token.tiles_scan source
  obtain ⟨front, hscan, hfront⟩ := htiles.exists_last
  rw [List.nil_append, String.ofList_toList] at hscan
  have hkinds : ∀ t ∈ front, t.kind ≠ .endOfFile := fun t ht => (hfront t ht).1
  rw [hscan] at htiles
  refine ⟨front, _, hscan, Cursor.next_skipTokens hscan rfl hkinds, rfl, ?_, htiles,
    htiles.ordered, ?_⟩
  · intro t ht
    exact ⟨hkinds t ht, Nat.lt_add_of_pos_right (hfront t ht).2⟩
  · intro t ht
    obtain ⟨first, second, htext, hstart, hline, -⟩ := htiles.exists_piece ht
    have hvalid := Token.isValid_of_piece htext hstart
    exact ⟨hvalid.2.le_rawEndPos, hvalid.1, hvalid.2, first, second, htext, hstart, hline⟩

end StackScript
