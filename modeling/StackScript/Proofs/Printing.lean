import StackScript.Proofs.Number.Bits
import StackScript.Proofs.Number.Shortest
import StackScript.Proofs.Preservation
import StackScript.Proofs.Rendering
import StackScript.Proofs.Token.Tiles

/-!
Printed numbers read back. What is printed of a finite number is a literal, behind a minus if the
number has a sign, and a program that prints the literal prints the same text again.
-/

namespace StackScript

open Tree

namespace Number

open Magnitude

variable {x : Number}

/-- Without a sign, the text is the shortest decimal of the number. -/
theorem text_of_lt_signBit (hfinite : x.isFinite = true) (hsign : x.bits.toNat < signBit) :
    x.text = (ofBits x.bits.toNat).shortest.text := by
  have hsize := isFinite_iff.mp hfinite
  rw [Nat.mod_eq_of_lt hsign] at hsize
  unfold text
  dsimp only
  rw [Nat.mod_eq_of_lt hsign, if_neg (Nat.lt_asymm hsize), if_neg (Nat.ne_of_lt hsize),
    if_pos hsign, String.empty_append]

/-- With a sign, it is that of the number without, behind a minus. -/
theorem text_of_signBit_le (hfinite : x.isFinite = true) (hsign : signBit ≤ x.bits.toNat) :
    x.text = "-" ++ (-x).text := by
  have hsize := isFinite_iff.mp hfinite
  have hclear := bits_neg_lt_signBit hsign
  have hsame : (-x).bits.toNat = x.bits.toNat % signBit := by
    rw [← size_neg, Nat.mod_eq_of_lt hclear]
  rw [text_of_lt_signBit (isFinite_neg hfinite) hclear, hsame]
  unfold text
  dsimp only
  rw [if_neg (Nat.lt_asymm hsize), if_neg (Nat.ne_of_lt hsize), if_neg (Nat.not_lt.mpr hsign)]

/-- Reading the text gives the number again, bit by bit. -/
theorem parse?_text (hfinite : x.isFinite = true) (hsign : x.bits.toNat < signBit) :
    parse? x.text = some x := by
  have hsize := isFinite_iff.mp hfinite
  rw [Nat.mod_eq_of_lt hsign] at hsize
  have hbits := toBits_ofBits x.bits.toNat
  have hnearest := nearestBits_shortest (canonical_ofBits x.bits.toNat) (by rwa [hbits])
  rw [hbits] at hnearest
  obtain ⟨d, hparse, hnumerator, hdenominator⟩ :=
    (ofBits x.bits.toNat).shortest.exists_parse?_digits
  rw [text_of_lt_signBit hfinite hsign, parse?, Decimal.text, String.toList_ofList, hparse,
    Option.map_some, Decimal.nearestBits_congr hnumerator hdenominator, hnearest,
    UInt64.ofNat_toNat]

theorem not_newline_mem_text (hfinite : x.isFinite = true) (hsign : x.bits.toNat < signBit) :
    '\n' ∉ x.text.toList := by
  rw [text_of_lt_signBit hfinite hsign, Decimal.text, String.toList_ofList]
  intro hmem
  rcases Decimal.isDigit_of_mem_digits hmem with hdigit | hpoint
  · exact absurd hdigit (by decide)
  · exact absurd hpoint (by decide)

end Number

namespace Cursor

theorem tokens_of_minus (more : List Char) (offset line : Nat) :
    (⟨'-' :: more, offset, line⟩ : Cursor).tokens =
      ⟨.minus, offset, "-", line⟩ :: (⟨more, offset + 1, line⟩ : Cursor).tokens :=
  tokens_of_more nofun

end Cursor

/-- A number on its own is one token. -/
theorem Token.scan_number {literal : String} (h : (Number.parse? literal).isSome = true)
    (hline : '\n' ∉ literal.toList) : Token.scan literal =
      [⟨.number, 0, literal, 1⟩, ⟨.endOfFile, literal.utf8ByteSize, "", 1⟩] := by
  obtain ⟨hlexeme, hkind⟩ := isLexeme_number h
  obtain ⟨c, rest, hlist, hfirst, hblank, hwhole, -⟩ := exists_of_isLexeme hlexeme
  have hslash : (c = '/' && rest.head? = some '/') = false := by
    by_cases hc : c = '/'
    · simp [Cursor.slash_of_lexeme hwhole hc]
    · simp [hc]
  have hskip : Cursor.skip false 0 1 literal.toList = ⟨c :: rest, 0, 1⟩ := by
    rw [hlist, Cursor.skip_of_text _ _ hblank hslash]
  have hnext : (Cursor.start literal).next =
      (⟨.number, 0, literal, 1⟩, ⟨[], literal.utf8ByteSize, 1⟩) := by
    rw [@Cursor.next_of_text (Cursor.start literal) _ _ _ _ hskip, ← hfirst, hkind, hwhole, ← hlist,
      String.ofList_toList, List.count_eq_zero.mpr hline, List.drop_length, Nat.zero_add]
  change (Cursor.start literal).tokens = _
  rw [Cursor.tokens_of_more (by rw [hnext]; nofun), hnext, Cursor.tokens_of_end rfl]
  rfl

/-- A minus before a number is a token of its own. -/
theorem Token.scan_negated {literal : String} (h : (Number.parse? literal).isSome = true) :
    ∃ ts semi last, Token.scan ("print " ++ ("-" ++ literal) ++ ";") = ts ++ [semi, last] ∧
      Spell ts ["print", "-", literal] ∧ semi.kind = .semicolon ∧ last.kind = .endOfFile := by
  have hprint : isLexeme "print" = true := by decide
  obtain ⟨p, offset, line, hp, hptext, hfirst⟩ := Cursor.tokens_of_lexeme hprint
    Cursor.delimiter_space ('-' :: (literal.toList ++ [';'])) 0 1
  obtain ⟨t, offset', line', ht, httext, hsecond⟩ := Cursor.tokens_of_lexeme (isLexeme_number h).1
    Cursor.delimiter_semicolon [] (offset + ' '.utf8Size + 1) line
  have hscan : Token.scan ("print " ++ ("-" ++ literal) ++ ";") =
      (⟨"print".toList ++ ' ' :: '-' :: (literal.toList ++ [';']), 0, 1⟩ : Cursor).tokens := by
    change (Cursor.start _).tokens = _
    simp [Cursor.start]
  obtain ⟨semi, last, hrest, hsemi, hlast⟩ := Cursor.tokens_of_semicolon offset' line'
  refine ⟨[p, ⟨.minus, offset + ' '.utf8Size, "-", line⟩, t], semi, last, ?_,
    .cons hp hptext (.cons rfl rfl (.cons ht httext rfl)), hsemi, hlast⟩
  rw [hscan, hfirst, Cursor.tokens_of_space, Cursor.tokens_of_minus, hsecond, hrest]
  rfl

section Run

variable {source line : String} {tree : Stmt}

/-- On every machine at rest that takes all output, the text adds this line to what is written,
and does nothing else. -/
def Prints (source line : String) : Prop :=
  ∀ (tracing : Bool) (m : Machine), m.stack.slots.size = Stack.capacity → m.stack.height = 0 →
    m.sink.limit = none → ∃ fuel m' log, m.interpret fuel tracing source = some (m', none, log) ∧
      m'.sink.written = m.sink.written ++ (line ++ "\n").toUTF8.data ∧ m'.globals = m.globals

theorem prints_of_evaluate {fuel : Nat} (htree : ProgramTokens tree (Token.scan source))
    (hadmissible : tree.admissible = true) (heval : ∀ globals, tree.evaluate fuel globals =
      some (none, { globals, output := (line ++ "\n").toUTF8.data })) : Prints source line := by
  intro tracing m hslots hempty hunlimited
  obtain ⟨c, hc⟩ := (compile_iff_admissible htree).mpr hadmissible
  have hcarried := (encodes_of_compile htree hc).carries htree hadmissible hslots hempty hunlimited
    fuel
  rw [heval] at hcarried
  obtain ⟨n, ip, m₁, m₂, outcome, hpath, hends, hagrees, hfault⟩ := hcarried
  obtain ⟨log, hruns⟩ := Machine.runChunk_of_ends hpath hends tracing (Nat.lt_succ_self n)
  have hfailure : outcome.failure? = none := by simpa using hfault
  rw [hfailure] at hruns
  have hinterpreted : ∃ log, m.interpret (n + 1) tracing source =
      some ({ m₂ with stack := m₂.stack.reset }, none, log) := by
    rw [Machine.interpret_of_ok hc, hruns]
    exact ⟨_, rfl⟩
  obtain ⟨log, hinterpreted⟩ := hinterpreted
  exact ⟨n + 1, _, log, hinterpreted, hagrees.written, hagrees.globals⟩

end Run

section Literal

variable {source literal : String} {tree : Stmt} {x : Number}

theorem Tree.numberValue_of_parse (h : Number.parse? literal = some x) :
    numberValue literal = .number x := by
  rw [numberValue, h, Option.getD_some]

/-- The tree of `print <literal>;`. -/
theorem Tree.programTokens_of_number (h : (Number.parse? literal).isSome = true) :
    ProgramTokens (Expr.number literal).printed (Token.scan ("print " ++ literal ++ ";")) := by
  have htext : (Expr.number literal).text = literal := String.intercalate_singleton
  have htokens := @Expr.programTokens_of_spellable (.number literal) h
  rwa [htext] at htokens

theorem Tree.programTokens_of_negated (h : (Number.parse? literal).isSome = true) :
    ProgramTokens (Expr.unary .negate (.number literal)).printed
      (Token.scan ("print " ++ ("-" ++ literal) ++ ";")) := by
  obtain ⟨ts, semi, last, hscan, hts, hsemi, hlast⟩ := Token.scan_negated h
  rw [hscan]
  exact @Expr.programTokens_of_spell (.unary .negate (.number literal)) h _ _ _ hts hsemi hlast

/-- Where an expression has a value, the value is printed. -/
theorem Tree.evaluate_printed {e : Expr} {v : Value} {globals : Globals}
    (h : e.eval 0 { globals } = .ok v { globals }) (fuel : Nat) :
    e.printed.evaluate fuel globals =
      some (none, { globals, output := (v.text ++ "\n").toUTF8.data }) := by
  have hprint : (Stmt.print e).exec fuel true { globals } =
      .ok () { globals, output := #[] ++ (v.text ++ "\n").toUTF8.data } := by
    change EStateM.bind (e.eval 0) Eval.print { globals } = _
    unfold EStateM.bind
    rw [h]
    rfl
  have hexec : e.printed.exec fuel true { globals } =
      .ok () { globals, output := #[] ++ (v.text ++ "\n").toUTF8.data } := by
    change EStateM.bind ((Stmt.print e).exec fuel true) _ { globals } = _
    unfold EStateM.bind
    rw [hprint]
    rfl
  rw [Stmt.evaluate, hexec, Array.empty_append]

/-- A program that prints an expression is compiled to it and, where the expression has a value
whatever the globals are, prints the value. -/
theorem Tree.compiles_and_prints {e : Expr} {v : Value}
    (htokens : ProgramTokens e.printed (Token.scan source))
    (hadmissible : e.printed.admissible = true)
    (heval : ∀ globals, e.eval 0 { globals } = .ok v { globals }) :
    (∃ c, compile source = .ok c ∧ c.Encodes e.printed) ∧ Prints source v.text := by
  obtain ⟨c, hc⟩ := (compile_iff_admissible htokens).mpr hadmissible
  refine ⟨⟨c, hc, encodes_of_compile htokens hc⟩, ?_⟩
  exact prints_of_evaluate htokens hadmissible fun globals => evaluate_printed (heval globals) 0

theorem Tree.eval_number (h : Number.parse? literal = some x) (globals : Globals) :
    (Expr.number literal).eval 0 { globals } = .ok (.number x) { globals } := by
  rw [← numberValue_of_parse h]
  rfl

theorem Tree.eval_negated (h : Number.parse? literal = some x) (globals : Globals) :
    (Expr.unary .negate (.number literal)).eval 0 { globals } = .ok (.number (-x)) { globals } := by
  change EStateM.bind ((Expr.number literal).eval 0) (UnaryOp.apply .negate) { globals } = _
  unfold EStateM.bind
  rw [eval_number h]
  rfl

theorem Tree.indexIn_singleton (v : Value) : indexIn [v] v = 0 := by
  have hfound : [v].findIdx (·.same v) = 0 := by simp [List.findIdx_cons]
  rw [indexIn, hfound]
  rfl

variable {c : Chunk}

/-- Around a pool of one constant, the code is that of the tree for this pool. -/
theorem Chunk.Encodes.of_single {v : Value} (hc : c.Encodes tree) (hpool : tree.pool = [v]) :
    c.constants = #[v] ∧ c.code.toList = bytesOf (tree.code [v] true [] ++ [.plain .ret]) := by
  refine ⟨Array.toList_inj.mp (hc.constants.trans hpool), ?_⟩
  rw [hc.code, Stmt.program, hpool]

theorem Chunk.Encodes.number (h : Number.parse? literal = some x)
    (hc : c.Encodes (Expr.number literal).printed) : c.constants = #[.number x] ∧
      c.code = #[Opcode.constant.toByte, 0, Opcode.print.toByte, Opcode.ret.toByte] := by
  have hpool : (Expr.number literal).printed.pool = [.number x] := by
    rw [← numberValue_of_parse h]
    rfl
  obtain ⟨hconstants, hcode⟩ := hc.of_single hpool
  refine ⟨hconstants, Array.toList_inj.mp (hcode.trans ?_)⟩
  change bytesOf [.operand .constant (indexIn [.number x] (numberValue literal)), .plain .print,
    .plain .ret] = _
  rw [numberValue_of_parse h, indexIn_singleton]
  rfl

theorem Chunk.Encodes.negated (h : Number.parse? literal = some x)
    (hc : c.Encodes (Expr.unary .negate (.number literal)).printed) : c.constants = #[.number x] ∧
      c.code = #[Opcode.constant.toByte, 0, Opcode.negate.toByte, Opcode.print.toByte,
        Opcode.ret.toByte] := by
  have hpool : (Expr.unary .negate (.number literal)).printed.pool = [.number x] := by
    rw [← numberValue_of_parse h]
    rfl
  obtain ⟨hconstants, hcode⟩ := hc.of_single hpool
  refine ⟨hconstants, Array.toList_inj.mp (hcode.trans ?_)⟩
  change bytesOf [.operand .constant (indexIn [.number x] (numberValue literal)), .plain .negate,
    .plain .print, .plain .ret] = _
  rw [numberValue_of_parse h, indexIn_singleton]
  rfl

end Literal

/-- Printed numbers read back. What is printed of a number without a sign is one token, a literal
that is compiled to a constant with the bits of the number; what is printed of one with a sign is a
minus before what is printed of the number without. Either way a program that prints the text prints
the same again. -/
theorem printed_number_reads_back {x : Number} (hfinite : x.isFinite = true) :
    (x.bits.toNat < Number.signBit →
      Token.scan (Value.number x).text =
          [⟨.number, 0, (Value.number x).text, 1⟩,
            ⟨.endOfFile, (Value.number x).text.utf8ByteSize, "", 1⟩] ∧
        (∃ c, compile ("print " ++ (Value.number x).text ++ ";") = .ok c ∧
          c.constants = #[.number x] ∧
          c.code = #[Opcode.constant.toByte, 0, Opcode.print.toByte, Opcode.ret.toByte]) ∧
        Prints ("print " ++ (Value.number x).text ++ ";") (Value.number x).text) ∧
    (Number.signBit ≤ x.bits.toNat →
      (-x).isFinite = true ∧ (-x).toFloat = -x.toFloat ∧
        (-x).bits.toNat + Number.signBit = x.bits.toNat ∧
        (Value.number x).text = "-" ++ (Value.number (-x)).text ∧
        (∃ c, compile ("print " ++ (Value.number x).text ++ ";") = .ok c ∧
          c.constants = #[.number (-x)] ∧
          c.code = #[Opcode.constant.toByte, 0, Opcode.negate.toByte, Opcode.print.toByte,
            Opcode.ret.toByte]) ∧
        Prints ("print " ++ (Value.number x).text ++ ";") (Value.number x).text) := by
  constructor
  · intro hsign
    have hparse := Number.parse?_text hfinite hsign
    have hsome := Option.isSome_of_eq_some hparse
    obtain ⟨⟨c, hc, hencodes⟩, hprints⟩ :=
      compiles_and_prints (programTokens_of_number hsome) rfl (eval_number hparse)
    obtain ⟨hconstants, hcode⟩ := hencodes.number hparse
    have hscan := Token.scan_number hsome (Number.not_newline_mem_text hfinite hsign)
    exact ⟨hscan, ⟨c, hc, hconstants, hcode⟩, hprints⟩
  · intro hsign
    have hneg := Number.isFinite_neg hfinite
    have hclear := Number.bits_neg_lt_signBit hsign
    have hparse := Number.parse?_text hneg hclear
    have htext : (Value.number x).text = "-" ++ (-x).text := Number.text_of_signBit_le hfinite hsign
    have htokens := programTokens_of_negated (Option.isSome_of_eq_some hparse)
    have hvalue := eval_negated hparse
    rw [Number.neg_neg] at hvalue
    rw [← htext] at htokens
    obtain ⟨⟨c, hc, hencodes⟩, hprints⟩ := compiles_and_prints htokens rfl hvalue
    obtain ⟨hconstants, hcode⟩ := hencodes.negated hparse
    exact ⟨hneg, Number.toFloat_neg hfinite, Number.bits_neg_add_signBit hsign, htext,
      ⟨c, hc, hconstants, hcode⟩, hprints⟩

/-- A number beyond all integers that doubles keep apart, and the zero that has a sign. -/
theorem printed_number_reads_back_extremes :
    (∃ c, compile "print 100000000000000000000000;" = .ok c ∧
      c.constants = #[.number ⟨0x44b52d02c7e14af6⟩]) ∧
    Prints "print 100000000000000000000000;" "100000000000000000000000" ∧
    (∃ c, compile "print -0;" = .ok c ∧ c.constants = #[.number (-⟨0x8000000000000000⟩)]) ∧
    Prints "print -0;" "-0" := by
  obtain ⟨-, ⟨c, hc, hconstants, -⟩, hprints⟩ :=
    (@printed_number_reads_back ⟨0x44b52d02c7e14af6⟩ (by decide +kernel)).1 (by decide +kernel)
  obtain ⟨-, -, -, -, ⟨c', hc', hconstants', -⟩, hprints'⟩ :=
    (@printed_number_reads_back ⟨0x8000000000000000⟩ (by decide +kernel)).2 (by decide +kernel)
  have htext : (Value.number ⟨0x44b52d02c7e14af6⟩).text = "100000000000000000000000" := by
    decide +kernel
  have htext' : (Value.number ⟨0x8000000000000000⟩).text = "-0" := by
    decide +kernel
  rw [htext] at hc hprints
  rw [htext'] at hc' hprints'
  exact ⟨⟨c, hc, hconstants⟩, hprints, ⟨c', hc', hconstants'⟩, hprints'⟩

end StackScript
