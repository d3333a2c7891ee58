/-
Programs and their texts.

The two directions of reading a text meet here.  A program that was read lies on the
tokens of its text, and all tokens that write it are among them, so each is one that the
scanner can give.  The other way round, a text that is cut into the tokens of readable
statements is read as these statements, up to numbers and places.
-/
import ListSugar.Proofs.Grammar.Numbering
import ListSugar.Proofs.Grammar.Programs
import ListSugar.Proofs.Layout.Pieces
import ListSugar.Source

namespace ListSugar

namespace Stmt

/-! ### The tokens of a statement

Every condition under which a text is read back is one on tokens.  For a program that was
read these conditions are known of the tokens of its text, and they pass to its
declarations and expressions as parts of those.
-/

theorem spellsAll_heads : ∀ {stmts : List Stmt} {ts : List Token}, SpellsAll stmts ts →
    (∀ p ∈ stmts, ∀ {us}, p.Spells us → p.heads ⊆ us) → headsOfAll stmts ⊆ ts := by
  intro stmts
  induction stmts with
  | nil =>
    intro ts _ _ t ht
    cases ht
  | cons first rest ih =>
    rintro ts ⟨us, vs, hus, hvs, rfl⟩ h
    have hfirst := h first (by simp) hus
    have hrest := ih hvs fun p hp => h p (by simp [hp])
    intro t ht
    rcases List.mem_append.mp ht with ht | ht
    · exact List.mem_append_left _ (hfirst ht)
    · exact List.mem_append_right _ (hrest ht)

/-- What a statement declares is among its tokens. -/
theorem Spells.heads_subset {st : Stmt} : ∀ {ts : List Token}, st.Spells ts → st.heads ⊆ ts := by
  induction st using parts_induction with
  | step st ih =>
    intro ts h t ht
    cases st with
    | declare ty name init line =>
      obtain ⟨us, -, rfl⟩ := h
      simp only [heads, List.mem_append, List.mem_singleton] at ht
      simp only [List.mem_append, List.mem_cons]
      rcases ht with ht | ht
      · exact Or.inl ht
      · exact Or.inr (Or.inl ht)
    | assign target value => cases ht
    | expr value => cases ht
    | block stmts =>
      obtain ⟨us, hus, rfl⟩ := h
      have hall := spellsAll_heads hus fun p hp => ih p (by simpa [parts] using hp)
      simp [hall ht]
    | branch cond thenBranch elseBranch =>
      obtain ⟨us, vs, ws, -, hvs, hws, rfl⟩ := h
      rcases List.mem_append.mp ht with ht | ht
      · have hthen := ih thenBranch (by simp [parts]) hvs
        simp [hthen ht]
      · cases elseBranch with
        | none => cases ht
        | some other =>
          obtain ⟨ws, hws, rfl⟩ := hws
          have helse := ih other (by simp [parts]) hws
          simp [helse ht]
    | foreach ty name iter body =>
      obtain ⟨us, vs, -, hvs, rfl⟩ := h
      have hbody := ih body (by simp [parts]) hvs
      simp only [heads, List.mem_append, List.mem_cons] at ht
      simp only [List.mem_append, List.mem_cons]
      rcases ht with ht | ht | ht
      · simp [ht]
      · simp [ht]
      · simp [hbody ht]

theorem spellsAll_roots : ∀ {stmts : List Stmt} {ts : List Token}, SpellsAll stmts ts →
    (∀ p ∈ stmts, ∀ {us}, p.Spells us → ∀ e ∈ p.roots, ∃ vs, e.Spells vs ∧ vs ⊆ us) →
    ∀ e ∈ rootsOfAll stmts, ∃ vs, e.Spells vs ∧ vs ⊆ ts := by
  intro stmts
  induction stmts with
  | nil =>
    intro ts _ _ e he
    cases he
  | cons first rest ih =>
    rintro ts ⟨us, vs, hus, hvs, rfl⟩ h e he
    rcases List.mem_append.mp he with he | he
    · obtain ⟨ws, hws, hsub⟩ := h first (by simp) hus e he
      exact ⟨ws, hws, fun t ht => List.mem_append_left _ (hsub ht)⟩
    · obtain ⟨ws, hws, hsub⟩ := ih hvs (fun p hp => h p (by simp [hp])) e he
      exact ⟨ws, hws, fun t ht => List.mem_append_right _ (hsub ht)⟩

/-- Every expression of a statement is written by some of its tokens. -/
theorem Spells.exists_root {st : Stmt} : ∀ {ts : List Token}, st.Spells ts →
    ∀ e ∈ st.roots, ∃ us, e.Spells us ∧ us ⊆ ts := by
  induction st using parts_induction with
  | step st ih =>
    intro ts h e he
    cases st with
    | declare ty name init line =>
      obtain ⟨us, hus, rfl⟩ := h
      obtain rfl : init = some e := by simpa [roots] using he
      obtain ⟨vs, hvs, rfl⟩ := hus
      exact ⟨vs, hvs, fun t ht => by simp [ht]⟩
    | assign target value =>
      obtain ⟨us, vs, hus, hvs, rfl⟩ := h
      rcases (by simpa [roots] using he : e = target ∨ e = value) with rfl | rfl
      · exact ⟨us, hus, fun t ht => by simp [ht]⟩
      · exact ⟨vs, hvs, fun t ht => by simp [ht]⟩
    | expr value =>
      obtain ⟨us, hus, rfl⟩ := h
      obtain rfl : e = value := by simpa [roots] using he
      exact ⟨us, hus, fun t ht => by simp [ht]⟩
    | block stmts =>
      obtain ⟨us, hus, rfl⟩ := h
      obtain ⟨vs, hvs, hsub⟩ :=
        spellsAll_roots hus (fun p hp => ih p (by simpa [parts] using hp)) e he
      exact ⟨vs, hvs, fun t ht => by simp [hsub ht]⟩
    | branch cond thenBranch elseBranch =>
      obtain ⟨us, vs, ws, hus, hvs, hws, rfl⟩ := h
      rw [roots_branch, List.mem_cons, List.mem_append] at he
      rcases he with rfl | he | he
      · exact ⟨us, hus, fun t ht => by simp [ht]⟩
      · obtain ⟨xs, hxs, hsub⟩ := ih thenBranch (by simp [parts]) hvs e he
        exact ⟨xs, hxs, fun t ht => by simp [hsub ht]⟩
      · cases elseBranch with
        | none => cases he
        | some other =>
          obtain ⟨ws, hws, rfl⟩ := hws
          obtain ⟨xs, hxs, hsub⟩ := ih other (by simp [parts]) hws e (by simpa using he)
          exact ⟨xs, hxs, fun t ht => by simp [hsub ht]⟩
    | foreach ty name iter body =>
      obtain ⟨us, vs, hus, hvs, rfl⟩ := h
      rcases List.mem_cons.mp he with rfl | he
      · exact ⟨us, hus, fun t ht => by simp [ht]⟩
      · obtain ⟨xs, hxs, hsub⟩ := ih body (by simp [parts]) hvs e he
        exact ⟨xs, hxs, fun t ht => by simp [hsub ht]⟩

end Stmt

/-! ### Streams of a text

A stream ends at the end mark, and no piece of a text is that mark.  So the tokens of the
stream are those of the text, and the parser leaves none of them.
-/

/-- The stream of located tokens holds all of them up to the end mark. -/
theorem TokenStream.kinds_ofTokens {found : List Located} {us : List Token}
    (hfound : found.map Located.token = us ++ [.eof]) (heof : ∀ t ∈ us, t ≠ .eof) :
    (ofTokens found).kinds = us := by
  have hkinds : (ofTokens found).kinds = (found.map Located.token).takeWhile (· ≠ .eof) := by
    rw [List.takeWhile_map]
    rfl
  rw [hkinds, hfound, List.takeWhile_append_of_pos (by simpa using heof)]
  simp

theorem Lexes.ne_eof {cs : List Char} {us : List Token} (h : Lexes cs us) :
    ∀ t ∈ us, t ≠ .eof := by
  intro t ht heof
  have hscanned := h.scanned t ht
  rw [heof] at hscanned
  exact hscanned

namespace Program

/-- **A program that is read from a text spans the tokens of the text.** -/
theorem ofText_spans {source : String} {p : Program} (h : ofText source = .ok p) :
    ∃ s t : TokenStream, Lexes source.toList s.kinds ∧ s.nextId = 0 ∧
      Stmt.SpansAll p.stmts s t ∧ p.nextId = t.nextId := by
  unfold ofText at h
  split at h
  · cases h
  · rename_i found hfound
    obtain ⟨us, hus, heq⟩ := tokenize_eq_ok_iff.mp ⟨found, hfound, rfl⟩
    unfold ofTokens at h
    split at h
    · rename_i q t hparse
      cases h
      obtain ⟨hspans, hnext⟩ := Parser.program_spans hparse
      refine ⟨.ofTokens found, t, ?_, rfl, hspans, hnext⟩
      rw [TokenStream.kinds_ofTokens heq hus.ne_eof]
      exact hus
    · cases h

/-- **A text that is cut into the tokens of readable statements is read as these.** -/
theorem exists_ofText {source : String} {us : List Token} (hus : Lexes source.toList us)
    {stmts : List Stmt} (hwf : Stmt.AllWellFormed stmts)
    (hres : ∀ e ∈ Stmt.rootsOfAll stmts, e.Resolved) (hspell : Stmt.SpellsAll stmts us) :
    ∃ p, ofText source = .ok p ∧ p.stmts.map Stmt.bare = stmts.map Stmt.bare := by
  obtain ⟨found, hfound, heq⟩ := tokenize_eq_ok_iff.mpr ⟨us, hus, rfl⟩
  have hkinds := TokenStream.kinds_ofTokens heq hus.ne_eof
  obtain ⟨p, t, hparse, hbare⟩ := Parser.succeeds_program hwf hres (hkinds ▸ hspell)
  have htokens : ofTokens found = .ok p := by
    unfold ofTokens
    rw [hparse]
  refine ⟨p, ?_, hbare⟩
  unfold ofText
  rw [hfound]
  show (ofTokens found).mapError SourceError.parse = .ok p
  rw [htokens]
  rfl

/-- What is known of a program that was read: its statements are readable, its types are
resolved, and its tokens are ones that the scanner can give. -/
structure IsRead (p : Program) : Prop where
  wellFormed : Stmt.AllWellFormed p.stmts
  resolved : ∀ e ∈ p.roots, e.Resolved
  heads : ∀ t ∈ Stmt.headsOfAll p.stmts, t.Scanned
  words : ∀ e ∈ p.roots, ∀ t, e.Has t → t.Scanned
  /-- The nodes carry the numbers below the next one, each of them once. -/
  ids : (p.nodes.map Expr.id).Perm (List.range' 0 p.nextId)

theorem IsRead.nodup {p : Program} (h : p.IsRead) : (p.nodes.map Expr.id).Nodup :=
  h.ids.nodup_iff.mpr List.nodup_range'

theorem IsRead.id_lt {p : Program} (h : p.IsRead) : ∀ n ∈ p.nodes, n.id < p.nextId := by
  intro n hn
  have hmem := h.ids.mem_iff.mp (List.mem_map.mpr ⟨n, hn, rfl⟩)
  have hbounds := List.mem_range'_1.mp hmem
  omega

theorem isRead_of_ofText {source : String} {p : Program} (h : ofText source = .ok p) :
    p.IsRead := by
  obtain ⟨s, t, hlexes, hstart, hspans, hnext⟩ := ofText_spans h
  obtain ⟨us, hus, hkinds⟩ := Stmt.spansAll_spells hspans fun _ _ _ _ => Stmt.Spans.spells
  have hscanned : ∀ t ∈ us, t.Scanned := by
    intro t ht
    refine hlexes.scanned t ?_
    rw [hkinds]
    exact List.mem_append_left _ ht
  refine ⟨?_, ?_, ?_, ?_, ?_⟩
  · exact Stmt.spansAll_wellFormed hspans fun _ _ _ _ => Stmt.Spans.wellFormed
  · exact Stmt.spansAll_roots hspans fun _ _ _ _ hp =>
      Stmt.Spans.forall_roots (fun he => he.resolved) hp
  · intro t ht
    exact hscanned t (Stmt.spellsAll_heads hus (fun _ _ => Stmt.Spells.heads_subset) ht)
  · intro e he t ht
    obtain ⟨vs, hvs, hsub⟩ :=
      Stmt.spellsAll_roots hus (fun _ _ => Stmt.Spells.exists_root) e he
    cases hp : t.isPunctuation with
    | false => exact hscanned t (hsub ((hvs.mem_iff hp).mpr ht))
    | true =>
      unfold Token.isPunctuation at hp
      split at hp <;> first | exact trivial | cases hp
  · obtain ⟨k, hk, hids⟩ := Stmt.spansAll_numbers hspans fun _ _ _ _ => Stmt.Spans.numbers
    have hperm : (Expr.idsOf p.roots).Perm (p.nodes.map Expr.id) := by
      rw [nodes, Expr.nodesOfAll_eq]
      exact (List.Perm.flatMap_left _ fun e _ => e.postorder_perm).map _
    refine hperm.symm.trans (.of_eq ?_)
    rw [hnext, hk, hstart, Nat.zero_add, roots, hids, hstart]

end Program

end ListSugar
