import Mathlib.Data.List.Nodup
import StackScript.Proofs.Compiler.Joined
import StackScript.Proofs.Compiler.Naming
import StackScript.Proofs.Number.Digits
import StackScript.Proofs.Rendering

/-!
The pool of constants is that of a whole text. A mistake can take the last place of it, or find
that place taken by what stands in front of the mistake, and the mistake hides which of the two
it was: only a later name that is not in the pool is told that there is no room.
-/

namespace StackScript

open Tree

namespace Tree

/-- The pool when one more constant has been asked for. A full pool stays as it is. -/
def offered (pool : List Value) (v : Value) : List Value :=
  if (addToPool pool v).length ≤ Chunk.constantsMax then addToPool pool v else pool

theorem length_offered {pool : List Value} (h : pool.length ≤ Chunk.constantsMax) (v : Value) :
    (offered pool v).length ≤ Chunk.constantsMax := by
  unfold offered
  split
  · assumption
  · exact h

theorem grow_of_nodup {pool constants : List Value} (h : (pool ++ constants).Nodup) :
    grow pool constants = pool ++ constants := by
  induction constants generalizing pool with
  | nil => exact (List.append_nil pool).symm
  | cons v rest ih =>
      have hrest : (pool ++ [v] ++ rest).Nodup := by rwa [← List.append_cons]
      have hv : v ∉ pool := fun hmem =>
        (List.nodup_append.mp h).2.2 v hmem v (List.mem_cons_self ..) rfl
      rw [grow_cons, addToPool_of_not_mem hv, ih hrest, ← List.append_cons]

/-- The sum of `nil` and these variables, the first of them as the last one. -/
def sumOf : List String → Expr
  | [] => .nil
  | x :: names => .binary .add (sumOf names) (.name x)

section

variable (names : List String)

theorem constants_sumOf : (sumOf names).constants [] = (names.map .string).reverse := by
  induction names with
  | nil => rfl
  | cons x rest ih =>
      rw [sumOf, Expr.constants, ih, List.map_cons, List.reverse_cons]
      rfl

theorem levels_sumOf : (sumOf names).levels ≤ 2 := by
  induction names with
  | nil => decide
  | cons x rest ih =>
      rw [sumOf, Expr.levels]
      exact max_le ih le_rfl

theorem spellable_sumOf (h : ∀ x ∈ names, isName x = true) : (sumOf names).spellable = true := by
  induction names with
  | nil => rfl
  | cons x rest ih =>
      obtain ⟨hx, hrest⟩ := List.forall_mem_cons.mp h
      rw [sumOf, Expr.spellable, ih hrest, Expr.spellable, hx]
      rfl

/-- A sum groups to the left, so this one is written without parentheses. -/
theorem enclosedAt_sumOf {least : Nat} (h : least ≤ Precedence.term.rank) :
    (sumOf names).enclosedAt least = sumOf names := by
  induction names generalizing least with
  | nil => exact if_neg (Nat.not_lt.mpr (h.trans (by decide)))
  | cons x rest ih =>
      have hname : (Expr.name x).enclosedAt (Precedence.term.rank + 1) = .name x := rfl
      rw [sumOf, Expr.enclosedAt]
      exact (if_neg (Nat.not_lt.mpr h)).trans (congrArg₂ (Expr.binary .add) (ih le_rfl) hname)

theorem fits_sumOf (pool : List Value) : ((sumOf names).code pool []).all Item.fits = true := by
  induction names with
  | nil => rfl
  | cons x rest ih =>
      rw [sumOf, Expr.code, List.all_append, List.all_append, ih]
      rfl

/-- The text that prints the sum. -/
def sumText : String := "print " ++ (sumOf names).text ++ ";"

theorem programTokens_sumText (h : ∀ x ∈ names, isName x = true) :
    ProgramTokens (sumOf names).printed (Token.scan (sumText names)) := by
  have htokens := Expr.programTokens_of_spellable (spellable_sumOf names h)
  rwa [enclosedAt_sumOf names (by decide)] at htokens

/-- Whatever stands behind it, the text begins with its first word. -/
theorem exists_scan_sumText (behind : String) : ∃ more,
    Token.scan (sumText names ++ "\n" ++ behind) = ⟨.printWord, 0, "print", 1⟩ :: more := by
  have htext : (sumText names ++ "\n" ++ behind).toList =
      "print".toList ++ ' ' :: ((sumOf names).text ++ ";" ++ "\n" ++ behind).toList := by
    simp [sumText]
  have hnext := Cursor.next_of_lexeme (x := "print") (by decide) Cursor.delimiter_space
    ((sumOf names).text ++ ";" ++ "\n" ++ behind).toList 0 1
  rw [← htext] at hnext
  have hfirst : (Cursor.start (sumText names ++ "\n" ++ behind)).next.1 =
      ⟨.printWord, 0, "print", 1⟩ := congrArg Prod.fst hnext
  refine ⟨_, (Cursor.tokens_of_more ?_).trans (congrArg (· :: _) hfirst)⟩
  rw [hfirst]
  nofun

theorem constants_printed_sumOf :
    (sumOf names).printed.constants true [] = (names.map .string).reverse := by
  rw [← constants_sumOf, Expr.printed, Stmt.constants, Stmt.constants, Stmt.constants,
    List.append_nil]

theorem admissible_sumOf (h : (sumOf names).printed.pool.length ≤ Chunk.constantsMax) :
    (sumOf names).printed.admissible = true := by
  refine Stmt.admissible_iff.mpr ⟨rfl, ?_, Nat.zero_le _, h, all_fits_iff.mp ?_⟩
  · change max ((sumOf names).levels + 1) 0 ≤ Builder.nestingMax
    have hlevels : (sumOf names).levels + 1 ≤ 3 := Nat.succ_le_succ (levels_sumOf names)
    exact max_le (hlevels.trans (by decide)) (Nat.zero_le _)
  · change ((sumOf names).code _ [] ++ _ ++ _).all Item.fits = true
    rw [List.all_append, List.all_append, fits_sumOf]
    rfl

end

end Tree

theorem Chunk.addConstant_offered {c : Chunk} (hsize : c.constants.size ≤ constantsMax)
    (v : Value) :
    (c.addConstant v).1.constants.toList = offered c.constants.toList v ∧
      ((c.addConstant v).2.isSome ↔
        (addToPool c.constants.toList v).length ≤ constantsMax) := by
  rw [c.addConstant_eq v hsize, offered]
  split
  · rename_i hroom
    simp [hroom]
  · rename_i hfull
    simp [hfull]

namespace Builder

/-- In front of the second of two texts, the first of which is compiled. -/
theorem exists_front {first second : String} {s : Stmt} (h : ProgramTokens s (Token.scan first))
    (hadmissible : s.admissible = true) {u : Token} {more : List Token}
    (hsecond : Token.scan second = u :: more) (hother : u.kind ≠ .elseWord)
    (hsound : ∀ t ∈ Token.scan second, t.Sound) :
    ∃ b, AtTop (Token.scan (first ++ "\n" ++ second)) b ∧ b.Clean ∧ b.pool = s.pool ∧
      b.upcoming = (Token.scan second).map (Token.behind (first.toList ++ ['\n'])) := by
  have hfirst := h.sound
  obtain ⟨ts, last, hts, -, hscan⟩ := h
  obtain ⟨-, -, -, -, -, hspelled⟩ := Token.scan_eq (first ++ "\n" ++ second)
  have hall : Token.scan (first ++ "\n" ++ second) = _ :=
    Token.scan_append fun t ht => hfirst t ht _
  rw [hscan, List.dropLast_concat] at hall
  have hahead : ∀ t ∈ Token.scan (first ++ "\n" ++ second), t.Sound ∧ t.WellSpelled := by
    intro t ht
    refine ⟨?_, hspelled t ht⟩
    rw [hall] at ht
    obtain ht | ht := List.mem_append.mp ht
    · exact hfirst t (hscan ▸ List.mem_append_left _ ht)
    · obtain ⟨t', ht', rfl⟩ := List.mem_map.mp ht
      exact hsound t' ht'
  have hfits := fits_topPlace.mpr hadmissible
  have hbound : (List.replicate s.length Token.origin).length = s.length := List.length_replicate
  rw [hsecond, List.map_cons] at hall ⊢
  obtain ⟨hcompiles, hupcoming⟩ :=
    compiles_front hall hts hahead hother List.prefix_rfl hfits hbound
  refine ⟨_, AtTop.start.declarations _, hcompiles.took.clean, ?_, hupcoming⟩
  rw [hcompiles.pool, Builder.pool, chunk_atStart]
  rfl

/-- Behind a mistake that mentions `q`, the use of `p` is told if it finds no room then. -/
theorem errors_of_ending {source : String} {b : Builder}
    {first q last first' p last' stop : Token} (htop : AtTop (Token.scan source) b)
    (hclean : b.Clean) (hroom : b.pool.length ≤ Chunk.constantsMax)
    (hupcoming : b.upcoming = [first, q, last, first', p, last', stop])
    (hfirst : first.kind = .returnWord) (hq : q.kind = .identifier)
    (hlast : last.kind = .semicolon) (hfirst' : first'.kind = .printWord)
    (hp : p.kind = .identifier) (hlast' : last'.kind = .semicolon)
    (hstop : stop.kind = .endOfFile) :
    (program (Token.scan source)).errors =
      if (addToPool (offered b.pool (.string q.lexeme)) (.string p.lexeme)).length ≤
          Chunk.constantsMax then #[⟨.topLevelReturn, first.line, first.location⟩]
      else #[⟨.topLevelReturn, first.line, first.location⟩,
        ⟨.tooManyConstants, p.line, p.location⟩] := by
  have hmore : b.sees .endOfFile = false := by
    rw [sees, List.head_eq_of_cons_eq hupcoming, hfirst]
    rfl
  have hsound : first'.Sound := Token.sound_iff.mpr (hfirst' ▸ rfl)
  have hreturn := past_return hupcoming hq hlast hsound htop.locals htop.nesting hfirst
    hclean.calm
  have hmore' : b.topDeclaration.sees .endOfFile = false := by
    rw [sees, List.head_eq_of_cons_eq hreturn.upcoming, hfirst']
    rfl
  have htop' := htop.next hmore
  have hsound' : stop.Sound := Token.sound_iff.mpr (hstop ▸ rfl)
  have hprint := past_print hreturn.upcoming hp hlast' hsound' htop'.locals htop'.nesting hfirst'
  have hunread : b.topDeclaration.topDeclaration.unread = [] :=
    List.tail_eq_of_cons_eq hprint.upcoming
  have hend : atEnd (Token.scan source) = b.topDeclaration.topDeclaration :=
    @AtTop.atEnd_eq source _ (htop'.next hmore') [] (by rw [hunread])
  have herrors : (program (Token.scan source)).errors = (b.topDeclaration.roomFor p).errors := by
    rw [← hprint.errors, program_eq, hend]
    change (load _ { b.topDeclaration.topDeclaration with previous := _ }).errors = _
    rw [hunread]
    rfl
  have hoffered := (Chunk.addConstant_offered (c := b.chunk) hroom (.string q.lexeme)).1
  have hpool : b.topDeclaration.pool = offered b.pool (.string q.lexeme) :=
    (congrArg Array.toList hreturn.constants).trans hoffered
  have hroom' : b.topDeclaration.pool.length ≤ Chunk.constantsMax := hpool ▸ length_offered hroom _
  have hfound := (Chunk.addConstant_offered (c := b.topDeclaration.chunk) hroom'
    (.string p.lexeme)).2
  change _ ↔ (addToPool b.topDeclaration.pool _).length ≤ _ at hfound
  rw [hpool] at hfound
  rw [herrors, errors_roomFor hreturn.calm, hreturn.errors, hclean.errors]
  simp only [hfound]
  rfl

end Builder

/-- A mistake that mentions `q`, and behind it a use of `p`. -/
def ending : String := "return q;\nprint p;"

theorem scan_ending : Token.scan ending =
    [⟨.returnWord, 0, "return", 1⟩, ⟨.identifier, 7, "q", 1⟩, ⟨.semicolon, 8, ";", 1⟩,
      ⟨.printWord, 10, "print", 2⟩, ⟨.identifier, 16, "p", 2⟩, ⟨.semicolon, 17, ";", 2⟩,
      ⟨.endOfFile, 18, "", 2⟩] := by
  decide +kernel

theorem sound_ending : ∀ t ∈ Token.scan ending, t.Sound := by
  rw [scan_ending]
  decide

section Ending

variable {front : String} {s : Stmt} (h : ProgramTokens s (Token.scan front))
  (hadmissible : s.admissible = true)
include h hadmissible

theorem errors_append_ending : ∃ line line',
    (Builder.program (Token.scan (front ++ "\n" ++ ending))).errors =
      if (addToPool (offered s.pool (.string "q")) (.string "p")).length ≤ Chunk.constantsMax
      then #[⟨.topLevelReturn, line, .atToken "return"⟩]
      else #[⟨.topLevelReturn, line, .atToken "return"⟩,
        ⟨.tooManyConstants, line', .atToken "p"⟩] := by
  obtain ⟨b, htop, hclean, hpool, hupcoming⟩ := Builder.exists_front h hadmissible scan_ending
    nofun sound_ending
  have hroom : b.pool.length ≤ Chunk.constantsMax := by
    rw [hpool]
    exact (Stmt.admissible_iff.mp hadmissible).2.2.2.1
  rw [scan_ending] at hupcoming
  have herrors :=
    Builder.errors_of_ending htop hclean hroom hupcoming rfl rfl rfl rfl rfl rfl rfl
  rw [hpool] at herrors
  exact ⟨_, _, herrors⟩

/-- The mistake takes the last place of the pool, and the use of a new name is told. -/
theorem errors_of_last_place (hsize : s.pool.length + 1 = Chunk.constantsMax)
    (hq : .string "q" ∉ s.pool) (hp : .string "p" ∉ s.pool) : ∃ line line',
    (Builder.program (Token.scan (front ++ "\n" ++ ending))).errors =
      #[⟨.topLevelReturn, line, .atToken "return"⟩, ⟨.tooManyConstants, line', .atToken "p"⟩] := by
  have hoffered : offered s.pool (.string "q") = s.pool ++ [.string "q"] := by
    rw [offered, addToPool_of_not_mem hq, if_pos]
    simp [hsize]
  have hother : .string "p" ∉ s.pool ++ [.string "q"] := by simp [hp]
  have hover : ¬ (addToPool (offered s.pool (.string "q")) (.string "p")).length ≤
      Chunk.constantsMax := by
    rw [hoffered, addToPool_of_not_mem hother, List.length_append, List.length_append, ← hsize]
    exact Nat.not_succ_le_self _
  obtain ⟨line, line', herrors⟩ := errors_append_ending h hadmissible
  rw [if_neg hover] at herrors
  exact ⟨line, line', herrors⟩

/-- The mistake finds no place in the pool, which nobody is told, and the other name is there. -/
theorem errors_of_no_place (hsize : s.pool.length = Chunk.constantsMax)
    (hq : .string "q" ∉ s.pool) (hp : .string "p" ∈ s.pool) : ∃ line,
    (Builder.program (Token.scan (front ++ "\n" ++ ending))).errors =
      #[⟨.topLevelReturn, line, .atToken "return"⟩] := by
  have hoffered : offered s.pool (.string "q") = s.pool := by
    rw [offered, addToPool_of_not_mem hq, if_neg]
    simp [hsize]
  obtain ⟨line, _, herrors⟩ := errors_append_ending h hadmissible
  rw [hoffered, addToPool_of_mem hp, if_pos (Nat.le_of_eq hsize)] at herrors
  exact ⟨line, herrors⟩

end Ending

/-- A text that uses these names, `q` in a mistake and `p`. -/
def overfull (names : List String) : String := sumText names ++ "\n" ++ ending

/-- Names that leave one place in the pool, to be taken by either `p` or `q`. -/
structure LeavesOne (names : List String) : Prop where
  spelled : ∀ x ∈ names, isName x = true
  distinct : ("p" :: names).Nodup
  other : "q" ∉ names
  length : names.length + 1 = Chunk.constantsMax

namespace LeavesOne

variable {names : List String} (h : LeavesOne names)
include h

theorem nodup : (Value.string "p" :: (names.map Value.string).reverse).Nodup := by
  obtain ⟨hp, hrest⟩ := List.nodup_cons.mp h.distinct
  have hnodup := hrest.map fun _ _ => Value.string.inj
  exact List.nodup_cons.mpr ⟨by simpa using hp, List.nodup_reverse.mpr hnodup⟩

theorem pool_sum : (sumOf names).printed.pool = (names.map .string).reverse := by
  obtain ⟨-, hnodup⟩ := List.nodup_cons.mp h.nodup
  rw [Stmt.pool_eq, constants_printed_sumOf]
  exact grow_of_nodup hnodup

theorem pool_name_sum : ((Expr.name "p").printed.followedBy (sumOf names).printed).pool =
    .string "p" :: (names.map .string).reverse := by
  have hchain : (Expr.name "p").printed.IsChain := trivial
  rw [Stmt.pool_followedBy hchain, constants_printed_sumOf]
  exact @grow_of_nodup [.string "p"] _ h.nodup

theorem admissible_sum : (sumOf names).printed.admissible = true := by
  apply admissible_sumOf
  rw [h.pool_sum, ← h.length]
  simp

/-- The mistake takes the place, and there is none for the other name. -/
theorem errors_sum : ∃ line line',
    (Builder.program (Token.scan (overfull names))).errors =
      #[⟨.topLevelReturn, line, .atToken "return"⟩, ⟨.tooManyConstants, line', .atToken "p"⟩] := by
  obtain ⟨hp, -⟩ := List.nodup_cons.mp h.nodup
  apply errors_of_last_place (programTokens_sumText names h.spelled) h.admissible_sum
  · rw [h.pool_sum, ← h.length]
    simp
  · simpa [h.pool_sum] using h.other
  · rwa [h.pool_sum]

/-- The other name has taken the place, and the mistake hides that there is none for it. -/
theorem errors_name_sum : ∃ line,
    (Builder.program (Token.scan ("print p;" ++ "\n" ++ overfull names))).errors =
      #[⟨.topLevelReturn, line, .atToken "return"⟩] := by
  have htext : "print p;" ++ "\n" ++ overfull names =
      "print p;" ++ "\n" ++ sumText names ++ "\n" ++ ending := by
    rw [overfull, ← String.append_assoc, ← String.append_assoc]
  have hname : ProgramTokens (Expr.name "p").printed (Token.scan "print p;") :=
    Expr.programTokens_of_spellable (e := .name "p") (by decide)
  have hsize : ((Expr.name "p").printed.followedBy (sumOf names).printed).pool.length =
      Chunk.constantsMax := by
    rw [h.pool_name_sum, ← h.length]
    simp
  have hadmissible : ((Expr.name "p").printed.followedBy (sumOf names).printed).admissible =
      true := by
    apply Stmt.admissible_followedBy hname.isChain
    · decide +kernel
    · exact h.admissible_sum
    · rw [← Stmt.pool_eq_append_beyond hname.isChain, hsize]
  rw [htext]
  apply errors_of_no_place (hname.followedBy (programTokens_sumText names h.spelled)) hadmissible
    hsize
  · simp [h.pool_name_sum, h.other]
  · simp [h.pool_name_sum]

theorem sound : ∀ t ∈ Token.scan (overfull names), t.Sound := by
  have hsum := (programTokens_sumText names h.spelled).sound
  have happend : Token.scan (sumText names ++ "\n" ++ ending) = _ :=
    Token.scan_append fun t ht => hsum t ht _
  rw [overfull, happend, List.forall_mem_append, List.forall_mem_map]
  exact ⟨fun t ht => hsum t (List.mem_of_mem_dropLast ht), sound_ending⟩

/-- Between `p` and the sum. -/
theorem exists_between : ∃ b : Builder,
    Builder.AtTop (Token.scan ("print p;" ++ "\n" ++ overfull names)) b ∧
      b.Clean ∧ ("print p;" ++ "\n").utf8ByteSize = b.current.start := by
  have hname : ProgramTokens (Expr.name "p").printed (Token.scan "print p;") :=
    Expr.programTokens_of_spellable (e := .name "p") (by decide)
  obtain ⟨more, hmore⟩ := exists_scan_sumText names ending
  obtain ⟨b, htop, hclean, -, hupcoming⟩ :=
    Builder.exists_front hname (by decide +kernel) hmore nofun h.sound
  rw [hmore, List.map_cons] at hupcoming
  refine ⟨b, htop, hclean, ?_⟩
  rw [List.head_eq_of_cons_eq hupcoming]
  decide +kernel

end LeavesOne

/-- The name `x` and a number. -/
def numbered (i : Nat) : String := String.ofList ('x' :: Nat.toDigits 10 i)

section Numbered

variable (i : Nat)

theorem toList_numbered : (numbered i).toList = 'x' :: Nat.toDigits 10 i :=
  String.toList_ofList

theorem numbered_ne {word : String} (h : word.toList.head? ≠ some 'x') : numbered i ≠ word := by
  rintro rfl
  exact h (by rw [toList_numbered]; rfl)

/-- No word of the language begins like that. -/
theorem isName_numbered : isName (numbered i) = true := by
  have hword : TokenKind.ofWord (numbered i) = .identifier := by
    unfold TokenKind.ofWord
    split
    -- The last case is that of a name, and those before it are the words.
    case h_17 => rfl
    all_goals exact absurd ‹_› (numbered_ne i (by decide))
  have hdigits : (Nat.toDigits 10 i).all Cursor.isWordPart = true := by
    rw [List.all_eq_true]
    intro c hc
    have hdigit := Decimal.isDigit_of_mem_toDigits hc
    simp [Cursor.isWordPart, Char.isAlphanum, hdigit]
  unfold isName
  rw [toList_numbered, hword]
  simp only [hdigits]
  decide

end Numbered

theorem numbered_injective : Function.Injective numbered := by
  intro i j h
  have hdigits : Nat.toDigits 10 i = Nat.toDigits 10 j :=
    List.tail_eq_of_cons_eq (String.ofList_inj.mp h)
  rw [← Decimal.ofDigits_toDigits i, hdigits, Decimal.ofDigits_toDigits]

theorem leavesOne_numbered : LeavesOne ((List.range 255).map numbered) := by
  have hother {word : String} (h : word.toList.head? ≠ some 'x') :
      word ∉ (List.range 255).map numbered := by
    intro hmem
    obtain ⟨i, -, hi⟩ := List.mem_map.mp hmem
    exact numbered_ne i h hi
  constructor
  · rw [List.forall_mem_map]
    exact fun i _ => isName_numbered i
  · exact List.nodup_cons.mpr ⟨hother (by decide), List.nodup_range.map numbered_injective⟩
  · exact hother (by decide)
  · rw [List.length_map, List.length_range]
    rfl

end StackScript
