/-
Code that is appended to other code.

A text and a second one below it, both of them programs, are the program of the first text
followed by that of the second: read from the same tokens as before, with the numbers that
come after those of the first and as many lines further down.  What stands in front cannot
see what follows it, at any stage.  The scanner ends every piece at the line break, the parser
reads each statement as far as it reaches, a scope is known by the statements before it, and
the pass walks from the front; it only begins with a later number, which nothing shows.
-/
import ListSugar.Proofs.Formatting
import ListSugar.Proofs.Grammar.Ahead
import ListSugar.Proofs.Layout.Joined
import ListSugar.Proofs.Typing.Rows

namespace ListSugar

open Desugar

/-! ### Programs one after the other

Whatever is told of a list of statements is told of the first ones and then of the others:
their tokens, what they were read from, their text and the scopes they stand in.  Nothing
has to be asked where the two lists meet.
-/

/-- The two programs one after the other, the second one moved down by `lines` and numbered
from the end of the first. -/
def Program.followedBy (p q : Program) (lines : Nat) : Program :=
  ⟨p.stmts ++ q.stmts.map (Stmt.relabel (.shift p.nextId lines)), p.nextId + q.nextId⟩

namespace Stmt

theorem rootsOfAll_append (as bs : List Stmt) :
    rootsOfAll (as ++ bs) = rootsOfAll as ++ rootsOfAll bs := by
  rw [rootsOfAll_eq, rootsOfAll_eq, rootsOfAll_eq, List.flatMap_append]

theorem spellsAll_append {as bs : List Stmt} {us vs : List Token} (h : SpellsAll as us)
    (h' : SpellsAll bs vs) : SpellsAll (as ++ bs) (us ++ vs) := by
  induction as generalizing us with
  | nil =>
    obtain rfl : us = [] := h
    exact h'
  | cons first rest ih =>
    obtain ⟨ws, xs, hws, hxs, rfl⟩ := h
    exact ⟨ws, xs ++ vs, hws, ih hxs, List.append_assoc ws xs vs⟩

/-- The statements can be read back, from the tokens `ts`. -/
structure Readable (stmts : List Stmt) (ts : List Token) : Prop where
  wellFormed : ∀ st ∈ stmts, st.WellFormed
  resolved : ∀ e ∈ rootsOfAll stmts, e.Resolved
  spells : SpellsAll stmts ts

theorem Readable.append {as bs : List Stmt} {us vs : List Token} (h : Readable as us)
    (h' : Readable bs vs) : Readable (as ++ bs) (us ++ vs) where
  wellFormed := by
    intro st hst
    rcases List.mem_append.mp hst with hst | hst
    · exact h.wellFormed st hst
    · exact h'.wellFormed st hst
  resolved := by
    intro e he
    rw [rootsOfAll_append] at he
    rcases List.mem_append.mp he with he | he
    · exact h.resolved e he
    · exact h'.resolved e he
  spells := spellsAll_append h.spells h'.spells

theorem readable_of_spans {stmts : List Stmt} {s t : TokenStream} (h : SpansAll stmts s t)
    (hend : t.kinds = []) : Readable stmts s.kinds where
  wellFormed := allWellFormed_iff.mp (spansAll_wellFormed h fun _ _ _ _ => Spans.wellFormed)
  resolved := spansAll_roots h fun _ _ _ _ hp => Spans.forall_roots (fun he => he.resolved) hp
  spells := by
    obtain ⟨us, hus, hkinds⟩ := spansAll_spells h fun _ _ _ _ => Spans.spells
    rw [hkinds, hend, List.append_nil]
    exact hus

theorem spansAll_append {as bs : List Stmt} {s t : TokenStream} :
    SpansAll (as ++ bs) s t ↔ ∃ u, SpansAll as s u ∧ SpansAll bs u t := by
  induction as generalizing s with
  | nil => simp [SpansAll]
  | cons first rest ih =>
    simp only [List.cons_append, SpansAll, ih]
    constructor
    · rintro ⟨u, hfirst, v, hrest, hbs⟩
      exact ⟨v, ⟨u, hfirst, hrest⟩, hbs⟩
    · rintro ⟨v, ⟨u, hfirst, hrest⟩, hbs⟩
      exact ⟨u, hfirst, v, hrest, hbs⟩

theorem renderAllAt_append (depth : Nat) (as bs : List Stmt) :
    renderAllAt depth (as ++ bs) = renderAllAt depth as ++ renderAllAt depth bs := by
  induction as with
  | nil => simp [renderAllAt]
  | cons first rest ih => simp only [List.cons_append, renderAllAt, ih, String.append_assoc]

theorem scopedRootsOfAll_append (as bs : List Stmt) : ∀ scope,
    scopedRootsOfAll scope (as ++ bs)
      = scopedRootsOfAll scope as ++ scopedRootsOfAll (Typing.walkAll scope as).result bs := by
  induction as with
  | nil => exact fun scope => rfl
  | cons first rest ih =>
    intro scope
    rw [List.cons_append, scopedRootsOfAll, scopedRootsOfAll, ih, Typing.walkAll,
      List.append_assoc]

end Stmt

/-! ### Reading

The parser takes the same steps over the tokens of the first program whether the stream
ends behind them or goes on.  From there the second program is read as it would be alone,
with other numbers and further down.
-/

theorem LexesAt.ne_eof {p : Pos} {cs : List Char} {found : List Located}
    (h : LexesAt p cs found) : ∀ t ∈ found, t.token ≠ .eof :=
  fun t ht => h.lexes.ne_eof t.token (List.mem_map_of_mem ht)

namespace Program

/-- **The program of a text is what its tokens at their places are read as.** -/
theorem ofText_eq_ok_iff {source : String} {p : Program} : ofText source = .ok p ↔
    ∃ found t, LexesAt .start source.toList found ∧
      Parser.program ⟨found, Pos.start.past source.toList, 0⟩ = .ok p t := by
  unfold ofText ofTokens
  constructor
  · intro h
    cases hall : tokenize source with
    | error e =>
      rw [hall] at h
      cases h
    | ok all =>
      obtain ⟨found, hfound, rfl⟩ := tokenize_eq_ok_iff_at.mp hall
      rw [hall] at h
      simp only [TokenStream.ofTokens_append hfound.ne_eof] at h
      cases hparse : Parser.program ⟨found, Pos.start.past source.toList, 0⟩ with
      | ok q t =>
        rw [hparse] at h
        cases h
        exact ⟨found, t, hfound, hparse⟩
      | error e t =>
        rw [hparse] at h
        cases h
  · rintro ⟨found, t, hfound, hparse⟩
    rw [tokenize_eq_ok_iff_at.mpr ⟨found, hfound, rfl⟩]
    simp only [TokenStream.ofTokens_append hfound.ne_eof]
    rw [hparse]
    rfl

/-- A program that was read uses up its tokens. -/
theorem unread_eq_nil_of_read {s t : TokenStream} {p : Program} (h : Parser.program s = .ok p t)
    (hne : ∀ k ∈ s.kinds, k ≠ .eof) : t.unread = [] := by
  obtain ⟨us, -, hkinds⟩ :=
    Stmt.spansAll_spells (Parser.program_spans h).1 fun _ _ _ _ => Stmt.Spans.spells
  have hend := Parser.program_ends h
  rw [TokenStream.current_token] at hend
  cases hlast : t.kinds with
  | nil => exact List.map_eq_nil_iff.mp hlast
  | cons k rest =>
    rw [hlast] at hend
    exact absurd hend (hne k (by rw [hkinds, hlast]; simp))

/-- Further down and with later numbers, the same program is read. -/
theorem read_shift {s t : TokenStream} {p : Program} (h : Parser.program s = .ok p t)
    (ids lines : Nat) : Parser.program (s.relabel (.shift ids lines))
      = .ok (p.relabel (.shift ids lines)) (t.relabel (.shift ids lines)) := by
  rw [(Parser.steady_program fun n => Nat.add_right_comm n 1 ids).same s, h]
  rfl

/-- **Two programs in one stream.**  If the tokens of a program stand in front of those of
another one, then both are read, one after the other, and the second one is numbered from
where the first one ends. -/
theorem read_followedBy {s t s' t' : TokenStream} {p q : Program} (lines : Nat)
    (h : Parser.program s = .ok p t) (h' : Parser.program s' = .ok q t')
    (hend : t.unread = []) (hend' : t'.unread = []) (hid : s'.nextId = 0) (stop : Pos) :
    ∃ u, Parser.program ⟨s.unread ++
        s'.unread.map (Located.relabel (.shift p.nextId lines)), stop, s.nextId⟩
      = .ok (p.followedBy q lines) u := by
  obtain ⟨hspans, hnext⟩ := Parser.program_spans h
  obtain ⟨hspans', -⟩ := Parser.program_spans h'
  obtain ⟨hshifted, hnext'⟩ := Parser.program_spans (read_shift h' p.nextId lines)
  -- The joined tokens are read as statements of the right shapes.
  have hkinds : TokenStream.kinds ⟨s.unread ++
      s'.unread.map (Located.relabel (.shift p.nextId lines)), stop, s.nextId⟩
        = s.kinds ++ s'.kinds := by
    rw [TokenStream.kinds, List.map_append]
    exact congrArg (s.kinds ++ ·) (TokenStream.kinds_relabel (.shift p.nextId lines) s')
  have hread := (Stmt.readable_of_spans hspans (by rw [TokenStream.kinds, hend]; rfl)).append
    (Stmt.readable_of_spans hspans' (by rw [TokenStream.kinds, hend']; rfl))
  obtain ⟨w, u, hw, hbare⟩ := Parser.succeeds_program (Stmt.allWellFormed_iff.mpr hread.wellFormed)
    hread.resolved (hkinds ▸ hread.spells)
  refine ⟨u, ?_⟩
  obtain ⟨hwhole, hlast⟩ := Parser.program_spans hw
  rw [List.map_append] at hbare
  obtain ⟨first, second, hsplit, hfirst, hsecond⟩ := List.map_eq_append_iff.mp hbare
  rw [hsplit] at hwhole
  obtain ⟨v, hpart, hpart'⟩ := Stmt.spansAll_append.mp hwhole
  -- Shapes and streams make them the statements that were read before.
  obtain ⟨rfl, hv⟩ := Stmt.spansAll_determined hspans hpart ⟨rfl, rfl⟩ hfirst
  have hahead : TokenStream.Ahead [] (s'.relabel (.shift p.nextId lines)) v := by
    refine ⟨?_, ?_⟩
    · rw [hv.unread, hend]
      simp [TokenStream.relabel]
    · rw [hv.nextId, ← hnext]
      simp [TokenStream.relabel, Relabel.shift, hid]
  have hshapes : second.map Stmt.bare
      = (q.relabel (.shift p.nextId lines)).stmts.map Stmt.bare := by
    rw [hsecond, relabel, List.map_map]
    exact List.map_congr_left fun st _ => (st.bare_relabel _).symm
  obtain ⟨rfl, hu⟩ := Stmt.spansAll_determined hshifted hpart' hahead hshapes
  have hids : w.nextId = p.nextId + q.nextId := by
    rw [hlast, hu.nextId, ← hnext', Nat.add_comm]
    rfl
  rw [hw, followedBy, ← hids]
  exact congrArg (fun stmts => EStateM.Result.ok (Program.mk stmts w.nextId) u) hsplit

/-- **Appending code leaves the code before it alone.** -/
theorem ofText_append {source more : String} {p q : Program} (h : ofText source = .ok p)
    (h' : ofText more = .ok q) : ofText (source ++ "\n" ++ more)
      = .ok (p.followedBy q (source.toList.count '\n' + 1)) := by
  obtain ⟨found, t, hfound, hparse⟩ := ofText_eq_ok_iff.mp h
  obtain ⟨found', t', hfound', hparse'⟩ := ofText_eq_ok_iff.mp h'
  have htext : (source ++ "\n" ++ more).toList = source.toList ++ '\n' :: more.toList := by
    simp
  have hlexes := hfound.join_start p.nextId hfound'
  obtain ⟨u, hu⟩ := read_followedBy (source.toList.count '\n' + 1) hparse hparse'
    (unread_eq_nil_of_read hparse hfound.lexes.ne_eof)
    (unread_eq_nil_of_read hparse' hfound'.lexes.ne_eof) rfl
    (Pos.start.past (source ++ "\n" ++ more).toList)
  exact ofText_eq_ok_iff.mpr ⟨_, u, htext ▸ hlexes, hu⟩

end Program

/-! ### Programs that go on

A program is compared with one that begins with its statements.  The two have the same
types for these, since a type is found from what stands in front.  The pass begins with a
larger number, though, so what it makes of them is the same up to the numbers of the new
nodes.
-/

/-- The program `p'` begins with the statements of `p`, and no two of its nodes share a
number. -/
structure Program.Continues (p' p : Program) : Prop where
  stmts : ∃ more, p'.stmts = p.stmts ++ more
  nodup : (p'.nodes.map Expr.id).Nodup

variable {p p' : Program}

/-- **Types are found without looking at what follows.** -/
theorem Program.Continues.typeOf_eq (h : p'.Continues p) (hnodup : (p.nodes.map Expr.id).Nodup)
    {n : Expr} (hn : n ∈ p.nodes) : (Model.ofProgram p').typeOf n = (Model.ofProgram p).typeOf n := by
  obtain ⟨more, hmore⟩ := h.stmts
  rw [nodes_eq_flatMap, List.mem_flatMap] at hn
  obtain ⟨e, he, hn⟩ := hn
  rw [roots, Stmt.roots_eq_map_snd _ .empty, List.mem_map] at he
  obtain ⟨r, hr, rfl⟩ := he
  have hr' : r ∈ Stmt.scopedRootsOfAll .empty p'.stmts := by
    rw [hmore, Stmt.scopedRootsOfAll_append]
    exact List.mem_append_left _ hr
  rw [Model.typeOf_eq hnodup hr hn, Model.typeOf_eq h.nodup hr' hn]

/-- Numbers below `start` stay, and the others are counted from `next` on. -/
def Relabel.resume (start next : Nat) : Relabel :=
  { stay with id := fun i => if i < start then i else next + (i - start) }

namespace Relabel

theorem resume_id_of_lt {start next i : Nat} (h : i < start) : (resume start next).id i = i :=
  if_pos h

theorem resume_id (start next : Nat) : (resume start next).id start = next := by
  simp [resume]

theorem resume_stepsFrom (start next : Nat) : (resume start next).StepsFrom start := by
  intro m hm
  simp only [resume]
  rw [if_neg (by omega), if_neg (by omega)]
  omega

/-- Reports show places only, and these stay. -/
theorem map_site_resume (start next : Nat) (sites : List Site) :
    sites.map (Site.relabel (resume start next)) = sites :=
  List.map_id'' (fun _ => rfl) sites

theorem map_diagnostic_resume (start next : Nat) (found : List Diagnostic) :
    found.map (Diagnostic.relabel (resume start next)) = found :=
  List.map_id'' (fun _ => rfl) found

end Relabel

namespace Program

theorem map_relabel_resume (hlt : ∀ n ∈ p.nodes, n.id < p.nextId) (next : Nat) :
    p.stmts.map (Stmt.relabel (.resume p.nextId next)) = p.stmts := by
  refine (List.map_congr_left fun st hst => ?_).trans (List.map_id' _)
  refine Stmt.mapExprs_eq_self (fun _ => rfl) fun e he => Expr.mapMarks_eq_self fun n hn => ?_
  have hroot : e ∈ p.roots := by
    rw [roots, Stmt.rootsOfAll_eq]
    exact List.mem_flatMap.mpr ⟨st, hst, he⟩
  have hid : (Relabel.resume p.nextId next).id n.id = n.id :=
    Relabel.resume_id_of_lt (hlt n (mem_nodes_of_mem_roots hroot hn))
  exact congrArg (Mark.mk · n.mark.pos) hid

/-- **The pass over code that goes on.**  It makes the same of the code as without the rest,
only with the numbers that are then free. -/
theorem Continues.stmts_eq (h : p'.Continues p) (hp : p.IsRead) (options : Options) :
    (p'.setting options).stmts p.stmts p'.nextId
      = ((p.setting options).stmts p.stmts p.nextId).relabel (.resume p.nextId p'.nextId)
        (List.map (Stmt.relabel (.resume p.nextId p'.nextId))) := by
  have hagrees : Setting.Agrees (.resume p.nextId p'.nextId) (p.setting options)
      (p'.setting options) p.nodes := by
    refine ⟨rfl, fun n hn => ?_⟩
    show (Model.ofProgram p').typeOfId _ = _
    rw [Expr.id_relabel, Relabel.resume_id_of_lt (hp.id_lt n hn)]
    exact h.typeOf_eq hp.nodup hn
  have hwalk := Setting.stmts_relabel hagrees (Relabel.resume_stepsFrom p.nextId p'.nextId)
  rwa [map_relabel_resume hp.id_lt, Relabel.resume_id] at hwalk

theorem diagnostics_append (as bs : List Stmt) (k l m : Nat) :
    (Program.mk (as ++ bs) k).diagnostics
      = (Program.mk as l).diagnostics ++ (Program.mk bs m).diagnostics := by
  simp only [diagnostics, nodes_eq_flatMap, roots, Stmt.rootsOfAll_append, List.flatMap_append,
    List.filterMap_append]

/-- What is made of code that goes on begins with what is made of the code, up to numbers. -/
theorem Continues.desugar_eq (h : p'.Continues p) (hp : p.IsRead) (options : Options) :
    ∃ others seen, (p'.desugar options).program.stmts = (p.desugar options).program.stmts.map
          (Stmt.relabel (.resume p.nextId p'.nextId)) ++ others ∧
      (p'.desugar options).visits = (p.desugar options).visits.map
          (Visit.relabel (.resume p.nextId p'.nextId)) ++ seen := by
  obtain ⟨more, hmore⟩ := h.stmts
  have hwalk := Setting.stmts_append (s := p'.setting options) p.stmts more p'.nextId
  rw [h.stmts_eq hp, ← hmore] at hwalk
  exact ⟨_, _, congrArg Walked.value hwalk, congrArg Walked.visits hwalk⟩

end Program

/-! ### Runs -/

/-- What the run `d'` gives begins with what `d` gives. -/
structure Desugared.BeginsWith (d' d : Desugared) : Prop where
  output : ∃ rest, d'.output = d.output ++ rest
  sites : d.report.sites <+: d'.report.sites
  diagnostics : d.diagnostics <+: d'.diagnostics

/-- **A run over code that goes on begins with the run over the code.** -/
theorem Program.Continues.beginsWith (h : p'.Continues p) (hp : p.IsRead) (options : Options) :
    (p'.desugar options).BeginsWith (p.desugar options) := by
  obtain ⟨others, seen, hstmts, hvisits⟩ := h.desugar_eq hp options
  have hrender := render_relabel (.resume p.nextId p'.nextId) (p.desugar options).program
  have hdefects := diagnostics_relabel (.resume p.nextId p'.nextId) (p.desugar options).program
  rw [Relabel.map_diagnostic_resume] at hdefects
  refine ⟨⟨Stmt.renderAllAt 0 others, ?_⟩, ⟨sitesOf seen, ?_⟩, ?_⟩
  · calc (p'.desugar options).output
        = Stmt.renderAllAt 0 (p'.desugar options).program.stmts := rfl
      _ = ((p.desugar options).program.relabel (.resume p.nextId p'.nextId)).render
            ++ Stmt.renderAllAt 0 others := by
          rw [hstmts, Stmt.renderAllAt_append]
          rfl
      _ = (p.desugar options).output ++ Stmt.renderAllAt 0 others := by
          rw [hrender]
          rfl
  · calc (p.desugar options).report.sites ++ sitesOf seen
        = (sitesOf (p.desugar options).visits).map
            (Site.relabel (.resume p.nextId p'.nextId)) ++ sitesOf seen := by
          rw [Relabel.map_site_resume]
          rfl
      _ = sitesOf (p'.desugar options).visits := by
          rw [hvisits, sitesOf_append, sitesOf_relabel]
      _ = (p'.desugar options).report.sites := rfl
  · refine ⟨(Program.mk others 0).diagnostics, ?_⟩
    calc (p.desugar options).diagnostics ++ (Program.mk others 0).diagnostics
        = ((p.desugar options).program.relabel (.resume p.nextId p'.nextId)).diagnostics
            ++ (Program.mk others 0).diagnostics := by
          rw [hdefects]
          rfl
      _ = (p'.desugar options).program.diagnostics := by
          rw [relabel, ← diagnostics_append _ _ (p'.desugar options).program.nextId, ← hstmts]
      _ = (p'.desugar options).diagnostics := rfl

/-- **Appending code does not disturb what precedes it.**  A text and a second one below it,
each of them a program, are read as the statements of the first one followed by those of the
second, further down and with later numbers.  What a run then gives begins with the text, the
sites and the defects that it gives for the first one alone. -/
theorem desugar_appended {source more : String} {q : Program}
    (h : Program.ofText source = .ok p) (h' : Program.ofText more = .ok q) :
    Program.ofText (source ++ "\n" ++ more) = .ok
        ⟨p.stmts ++ q.stmts.map (Stmt.relabel (.shift p.nextId (source.toList.count '\n' + 1))),
          p.nextId + q.nextId⟩ ∧
      ∀ options, ∃ d d', desugar source options = .ok d ∧
        desugar (source ++ "\n" ++ more) options = .ok d' ∧
        (∃ rest, d'.output = d.output ++ rest) ∧
        d.report.sites <+: d'.report.sites ∧ d.diagnostics <+: d'.diagnostics := by
  have hjoined := Program.ofText_append h h'
  refine ⟨hjoined, fun options => ?_⟩
  have hcontinues : Program.Continues _ p :=
    ⟨⟨_, rfl⟩, (Program.isRead_of_ofText hjoined).nodup⟩
  have hbegins := hcontinues.beginsWith (Program.isRead_of_ofText h) options
  exact ⟨_, _, desugar_of_ofText h options, desugar_of_ofText hjoined options,
    hbegins.output, hbegins.sites, hbegins.diagnostics⟩

/-- A text that ends in a comment, and one that uses its variable. -/
theorem desugar_appended_comment : ∃ p q d d',
    Program.ofText "var a = [<1>];\n// one" = .ok p ∧ Program.ofText "var b = a;" = .ok q ∧
      Program.ofText "var a = [<1>];\n// one\nvar b = a;"
        = .ok ⟨p.stmts ++ q.stmts.map (Stmt.relabel (.shift p.nextId 2)), p.nextId + q.nextId⟩ ∧
      desugar "var a = [<1>];\n// one" {} = .ok d ∧
      desugar "var a = [<1>];\n// one\nvar b = a;" {} = .ok d' ∧
      (∃ rest, d'.output = d.output ++ rest) ∧ d.report.sites <+: d'.report.sites := by
  have hok : (Program.ofText "var a = [<1>];\n// one").map (fun _ => ()) = .ok () := by
    decide +kernel
  have hok' : (Program.ofText "var b = a;").map (fun _ => ()) = .ok () := by
    decide +kernel
  obtain ⟨p, hp, -⟩ := map_eq_ok_iff.mp hok
  obtain ⟨q, hq, -⟩ := map_eq_ok_iff.mp hok'
  obtain ⟨hread, hruns⟩ := desugar_appended hp hq
  obtain ⟨d, d', hd, hd', houtput, hsites, -⟩ := hruns {}
  exact ⟨p, q, d, d', hp, hq, hread, hd, hd', houtput, hsites⟩

end ListSugar
