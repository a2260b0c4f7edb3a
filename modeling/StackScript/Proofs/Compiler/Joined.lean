import StackScript.Proofs.Compiler.Sequence

/-!
A text that is compiled, a line end and another text that is compiled make one more text. It is
compiled too, unless both together have too many constants, and its chunk is that of the first text
without the last instruction and behind it that of the second one, with its own places in the pool
and its lines further on (`Chunk.exists_joins`).
-/

namespace StackScript

open Tree

/-- The tokens of a program and of another one on the lines behind it spell both. -/
theorem Tree.ProgramTokens.followedBy {first second : String} {s t : Stmt}
    (h : ProgramTokens s (Token.scan first)) (h' : ProgramTokens t (Token.scan second)) :
    ProgramTokens (s.followedBy t) (Token.scan (first ++ "\n" ++ second)) := by
  have hsound := h.sound
  obtain ⟨ts, last, hdecls, -, hscan⟩ := h
  obtain ⟨us, last', hdecls', hlast', hscan'⟩ := h'
  have hmoved := (tokens_map (f := Token.behind (first.toList ++ ['\n'])) (fun _ => rfl)
    (fun _ => rfl) t).2 us hdecls'
  refine ⟨_, last'.behind (first.toList ++ ['\n']), hdecls.append hmoved, hlast', ?_⟩
  rw [Token.scan_append fun u hu => hsound u hu _, hscan, hscan', List.dropLast_concat,
    List.map_append, List.append_assoc]
  rfl

theorem Tree.ProgramTokens.exists_first {t : Stmt} {tokens : List Token}
    (h : ProgramTokens t tokens) :
    ∃ u more, tokens = u :: more ∧ u.kind ≠ .elseWord := by
  obtain ⟨us, last, hdecls, hlast, rfl⟩ := h
  obtain rfl | ⟨u, more, rfl, hu⟩ := hdecls.starts
  · exact ⟨last, [], rfl, by simp [hlast]⟩
  · exact ⟨u, more ++ [last], rfl, hu⟩

theorem Tree.ProgramTokens.isChain {s : Stmt} {tokens : List Token} (h : ProgramTokens s tokens) :
    s.IsChain := by
  obtain ⟨ts, last, hdecls, -⟩ := h
  exact hdecls.isChain

theorem Tree.DeclTokens.eq_skip {s : Stmt} (h : DeclTokens s []) : s = .skip := by
  generalize hts : ([] : List Token) = ts at h
  cases h with
  | skip => rfl
  | var hfirst _ => exact absurd (List.append_eq_nil_iff.mp hts.symm).1 hfirst.ne_nil
  | statement hfirst _ => exact absurd (List.append_eq_nil_iff.mp hts.symm).1 hfirst.ne_nil

theorem Chunk.size_lines_of_compile {source : String} {c : Chunk} (h : compile source = .ok c) :
    c.lines.size = c.size := by
  obtain ⟨-, rfl⟩ := compile_eq_ok_iff.mp h
  exact Builder.closed_lined.program _ rfl

namespace Builder

theorem AtTop.lined {tokens : List Token} {b : Builder} (h : AtTop tokens b) : b.Lined := by
  induction h with
  | start => exact closed_lined.advance _ rfl
  | next _ _ ih => exact closed_lined.topDeclaration _ ih

theorem chunk_atStart (tokens : List Token) : (atStart tokens).chunk = {} :=
  chunk_load tokens _

/-- The last instruction is written behind all declarations. -/
theorem lines_program {tokens : List Token} {b : Builder} (hend : atEnd tokens = b) :
    (program tokens).chunk.lines.toList.dropLast = b.chunk.lines.toList := by
  have hlines :
      (program tokens).chunk.lines = b.chunk.lines.push (atEnd tokens).advance.previous.line := by
    rw [← hend, ← chunk_load (atEnd tokens).unread
      { atEnd tokens with previous := (atEnd tokens).current }]
    rfl
  rw [hlines, Array.toList_push, List.dropLast_concat]

/-- What fits by itself fits as the first of two parts that fit together. -/
theorem fits_first {s t : Stmt} (hchain : s.IsChain) (hadmissible : s.admissible = true)
    (hjoined : (s.followedBy t).admissible = true) :
    (topPlace (s.followedBy t).pool).Fits 0 [] s := by
  obtain ⟨hlevels, hnames, hlocals, hroom, -⟩ := fits_topPlace.mpr hadmissible
  obtain ⟨-, -, -, -, hcode⟩ := fits_topPlace.mpr hjoined
  have hcode : ((s.followedBy t).code (s.followedBy t).pool true []).all Item.fits = true := hcode
  rw [Stmt.code_followedBy hchain, List.all_append, Bool.and_eq_true] at hcode
  exact ⟨hlevels, hnames, hlocals, hroom, hcode.1⟩

/-- Behind the declarations with which two texts start, their code has the same lines. -/
theorem exists_shared {ts more more' : List Token} {u u' : Token} {s : Stmt} {final : List Value}
    (hts : DeclTokens s ts) (hmore : ∀ t ∈ ts, t.kind ≠ .endOfFile)
    (hahead : ∀ t ∈ ts ++ u :: more, t.Sound ∧ t.WellSpelled)
    (hahead' : ∀ t ∈ ts ++ u' :: more', t.Sound ∧ t.WellSpelled)
    (hother : u.kind ≠ .elseWord) (hother' : u'.kind ≠ .elseWord)
    (htail : Complete (u :: more)) (htail' : Complete (u' :: more'))
    (hfinal : s.pool <+: final) (hfits : (topPlace final).Fits 0 [] s) :
    ∃ b b', AtTop (ts ++ u :: more) b ∧ AtTop (ts ++ u' :: more') b' ∧ b.panicking = false ∧
      b.upcoming = u :: more ∧ b'.upcoming = u' :: more' ∧ b.chunk.lines = b'.chunk.lines := by
  let bound := List.replicate s.length Token.origin
  have hbound : bound.length = s.length := List.length_replicate
  obtain ⟨hfront, hupcoming⟩ := compiles_front rfl hts hahead hother hfinal hfits hbound
  obtain ⟨hfront', hupcoming'⟩ := compiles_front rfl hts hahead' hother' hfinal hfits hbound
  have htop := (AtTop.start : AtTop (ts ++ u :: more) _).declarations bound
  have htop' := (AtTop.start : AtTop (ts ++ u' :: more') _).declarations bound
  generalize hb : repeatWhile (fun b => !b.sees .endOfFile) topDeclaration bound
    (atStart (ts ++ u :: more)) = b at hfront hupcoming htop
  generalize hb' : repeatWhile (fun b => !b.sees .endOfFile) topDeclaration bound
    (atStart (ts ++ u' :: more')) = b' at hfront' hupcoming' htop'
  refine ⟨b, b', htop, htop', hfront.took.clean.calm, hupcoming, hupcoming', ?_⟩
  by_cases hne : ts = []
  · subst hne
    obtain rfl := hts.eq_skip
    rw [← hb, ← hb']
    show (atStart _).chunk.lines = (atStart _).chunk.lines
    rw [chunk_atStart, chunk_atStart]
  · have hsize : b.chunk.lines.size = b'.chunk.lines.size := by
      rw [htop.lined, htop'.lined, hfront.wrote.size, hfront'.wrote.size, chunk_atStart,
        chunk_atStart]
    exact lines_front htail htail' hne hmore hb hb' hfront.took hfront'.took hupcoming hupcoming'
      hsize

/-- Behind the declarations of the first of two texts, the code has the lines that it has there
in the first text alone. -/
theorem exists_between {first second : String} {s t : Stmt}
    (hs : ProgramTokens s (Token.scan first)) (ht : ProgramTokens t (Token.scan second))
    (hadmissible : s.admissible = true) (hjoined : (s.followedBy t).admissible = true) :
    ∃ b, AtTop (Token.scan (first ++ "\n" ++ second)) b ∧ b.panicking = false ∧
      b.upcoming = (Token.scan second).map (Token.behind (first.toList ++ ['\n'])) ∧
      b.chunk.lines.toList = (program (Token.scan first)).chunk.lines.toList.dropLast := by
  have hchain := hs.isChain
  have hahead (source : String) {tree : Stmt} (h : ProgramTokens tree (Token.scan source)) :
      ∀ u ∈ Token.scan source, u.Sound ∧ u.WellSpelled := by
    obtain ⟨-, -, -, -, -, hspelled⟩ := Token.scan_eq source
    exact fun u hu => ⟨h.sound u hu, hspelled u hu⟩
  have hfinal : s.pool <+: (s.followedBy t).pool := by
    rw [Stmt.pool_eq_append_beyond hchain]
    exact List.prefix_append _ _
  have hwhole := hahead _ (hs.followedBy ht)
  have halone := hahead _ hs
  rw [Token.scan_append fun u hu => hs.sound u hu _] at hwhole ⊢
  obtain ⟨ts, last, hdecls, hlast, hscan⟩ := hs
  obtain ⟨u, more, hu, hother⟩ := ht.exists_first
  have hmore : ∀ t ∈ ts, t.kind ≠ .endOfFile := by
    obtain ⟨front, last', hscan', -, hmore, -⟩ := Token.scan_eq first
    rwa [(List.append_inj' (hscan.symm.trans hscan') rfl).1]
  have htail : Complete ((Token.scan second).map (Token.behind (first.toList ++ ['\n']))) := by
    obtain ⟨us, last', hscan', hlast', hmore', -⟩ := Token.scan_eq second
    refine ⟨us.map _, last'.behind _, by rw [hscan', List.map_append]; rfl, hlast', ?_⟩
    exact List.forall_mem_map.mpr hmore'
  rw [hscan, List.dropLast_concat, hu] at hwhole
  rw [hscan] at halone
  rw [hu] at htail
  obtain ⟨b, b', htop, htop', hcalm, hupcoming, hupcoming', hlines⟩ := exists_shared hdecls hmore
    hwhole halone hother (by simp [hlast]) htail ⟨[], last, rfl, hlast, nofun⟩ hfinal
    (fits_first hchain hadmissible hjoined)
  rw [← hscan] at htop'
  have hend : atEnd (Token.scan first) = b' := by
    have hnil : b'.unread = [] := (List.cons.inj hupcoming').2
    rw [htop'.atEnd_eq le_rfl, hnil]
    rfl
  rw [hscan, List.dropLast_concat, hu, ← hscan, lines_program hend, ← hlines]
  exact ⟨b, htop, hcalm, hupcoming, rfl⟩

end Builder

/-- One behind the other, two texts that are compiled make a text that is compiled, unless there
are too many constants. Its lines are those of the first one without the last instruction, and
then those of the second one, further on. -/
theorem exists_compile_append {first second : String} {s t : Stmt} {c d : Chunk}
    (hs : ProgramTokens s (Token.scan first)) (ht : ProgramTokens t (Token.scan second))
    (hc : compile first = .ok c) (hd : compile second = .ok d)
    (hroom : c.constantsTogether d ≤ Chunk.constantsMax) :
    ∃ e, compile (first ++ "\n" ++ second) = .ok e ∧ (s.followedBy t).admissible = true ∧
      e.Encodes (s.followedBy t) ∧ e.lines.toList =
        c.lines.toList.dropLast ++ d.lines.toList.map (· + (first.toList.count '\n' + 1)) := by
  have hwhole := hs.followedBy ht
  have hchain := hs.isChain
  have hadmissible := (compile_iff_admissible hs).mp ⟨c, hc⟩
  have hjoined : (s.followedBy t).admissible = true := by
    refine Stmt.admissible_followedBy hchain hadmissible ((compile_iff_admissible ht).mp ⟨d, hd⟩) ?_
    rw [← (encodes_of_compile hs hc).constants, ← (encodes_of_compile ht hd).constants,
      List.length_append, Array.length_toList]
    exact hroom
  obtain ⟨e, he⟩ := (compile_iff_admissible hwhole).mpr hjoined
  refine ⟨e, he, hjoined, encodes_of_compile hwhole he, ?_⟩
  obtain ⟨b, htop, hcalm, hahead, hlines⟩ := Builder.exists_between hs ht hadmissible hjoined
  have hclean {source : String} {c : Chunk} (h : compile source = .ok c) :
      ¬ (Builder.program (Token.scan source)).Overflows := by
    rintro ⟨error, hmem, -⟩
    exact (compile_eq_ok_iff.mp h).1 (Array.ne_empty_of_mem hmem)
  obtain hfurther | hoverflows | hoverflows := htop.further_program hcalm hahead
  · have hall := congrArg Array.toList hfurther.lines
    rw [Array.toList_append, Array.toList_map, hlines, (compile_eq_ok_iff.mp hc).2,
      (compile_eq_ok_iff.mp hd).2, (compile_eq_ok_iff.mp he).2] at hall
    simpa using hall
  · exact absurd hoverflows (hclean he)
  · exact absurd hoverflows (hclean hd)

namespace Chunk

section Lines

variable {c d e : Chunk} {lines offset : Nat}
  (h : e.lines.toList = c.lines.toList.dropLast ++ d.lines.toList.map (· + lines))
include h

theorem exists_line_first (hlt : offset < c.lines.size - 1) :
    ∃ line, c.lines[offset]? = some line ∧ e.lines[offset]? = some line := by
  have hfirst : offset < c.lines.toList.dropLast.length := by simpa using hlt
  refine ⟨c.lines.toList.dropLast[offset], ?_, ?_⟩
  · rw [← Array.getElem?_toList, List.getElem_dropLast, List.getElem?_eq_getElem]
  · rw [← Array.getElem?_toList, h, List.getElem?_append_left hfirst,
      List.getElem?_eq_getElem hfirst]

theorem exists_line_second (hlt : offset < d.lines.size) : ∃ line, d.lines[offset]? = some line ∧
    e.lines[c.lines.size - 1 + offset]? = some (line + lines) := by
  have hlength : c.lines.toList.dropLast.length = c.lines.size - 1 := by simp
  refine ⟨d.lines[offset], Array.getElem?_eq_getElem hlt, ?_⟩
  rw [← Array.getElem?_toList, h, ← hlength, List.getElem?_append_right (Nat.le_add_right _ _),
    Nat.add_sub_cancel_left, List.getElem?_map, Array.getElem?_toList,
    Array.getElem?_eq_getElem hlt]
  rfl

end Lines

/-- The chunk of two texts is the one of the first text and behind it the one of the second. -/
theorem exists_joins {first second : String} {c d : Chunk} (hc : compile first = .ok c)
    (hd : compile second = .ok d) (hroom : c.constantsTogether d ≤ constantsMax) :
    ∃ e sites sites', compile (first ++ "\n" ++ second) = .ok e ∧
      e.Joins (first.toList.count '\n' + 1) c d sites sites' := by
  obtain ⟨s, hs, hadmissible, hencodes⟩ := exists_tree_of_compile hc
  obtain ⟨t, ht, hadmissible', hencodes'⟩ := exists_tree_of_compile hd
  obtain ⟨e, he, hjoined, hwhole, hlines⟩ := exists_compile_append hs ht hc hd hroom
  obtain ⟨sites, hfollows, hitems, -⟩ := hencodes.exists_follows hs hadmissible
  obtain ⟨sites', hfollows', hitems', -⟩ := hencodes'.exists_follows ht hadmissible'
  have hchain := hs.isChain
  have hpool {tree : Stmt} {c : Chunk} (h : tree.admissible = true) (hencodes : c.Encodes tree) :
      c.constants.size ≤ constantsMax := by
    obtain ⟨-, -, -, hroom, -⟩ := Stmt.admissible_iff.mp h
    rwa [← hencodes.constants, Array.length_toList] at hroom
  have halike : AlikeCode s.pool (s.followedBy t).pool _ _ := Stmt.alike_first hchain
  have halike' : AlikeCode t.pool (s.followedBy t).pool _ _ := Stmt.alike_second hchain
  have hcode := hwhole.code
  rw [Stmt.program, Stmt.code_followedBy hchain, List.append_assoc] at hcode
  rw [← hitems, ← hencodes.constants, ← hwhole.constants] at halike
  rw [← hitems', ← hencodes'.constants, ← hwhole.constants] at halike'
  rw [← hwhole.constants] at hcode
  -- the code of both, cut where the second one starts
  have hsize : sitesSize sites = codeSize (s.code e.constants.toList true []) := halike.codeSize_eq
  have hsize' : sitesSize sites' = codeSize (t.code e.constants.toList true []) :=
    halike'.codeSize_eq
  have hfirst : e.Has 0 _ := has_of_split hcode (List.nil_append _).symm
  have hbehind := has_of_split hcode rfl
  rw [← hsize] at hbehind
  obtain ⟨hsecond, hret⟩ := has_append.mp hbehind
  rw [← hsize'] at hret
  have hlength : c.lines.size - 1 = sitesSize sites := by
    rw [size_lines_of_compile hc, hfollows.size_eq, Nat.add_sub_cancel]
  refine ⟨e, sites, sites', he,
    ⟨hfollows, ⟨_, halike, (has_append.mp hfirst).1⟩, hpool hadmissible hencodes,
      hpool hjoined hwhole, fun offset hlt => ?_⟩,
    ⟨hfollows', ⟨_, halike', hsecond⟩, hpool hadmissible' hencodes', hpool hjoined hwhole,
      fun offset hlt => ?_⟩, hret⟩
  · obtain ⟨line, hline, hsame⟩ := exists_line_first hlines (hlength ▸ hlt)
    exact ⟨line, hline, by rwa [Nat.zero_add]⟩
  · have hbefore : offset < d.lines.size := by
      rw [size_lines_of_compile hd, hfollows'.size_eq]
      exact Nat.lt_succ_of_lt hlt
    exact hlength ▸ exists_line_second hlines hbefore

end Chunk

end StackScript
