/-
Programs that one session desugars after another.

A session may have numbered nodes before it meets a program, and it may still hold sites
from before.  It starts above its own numbers and above those of the program, so what it
does to a program is told by one bound: nodes with numbers from there on are the
constructions of the sites that it adds to the report, and the others are nodes of the
program, each moved to where it stands and none of them twice.
-/
import Mathlib.Data.List.Nodup
import ListSugar.Desugar.Session
import ListSugar.Proofs.Pass.Numbers
import ListSugar.Proofs.Texts

namespace ListSugar

namespace Desugar

namespace Setting

variable {s : Setting} {k : Nat}

theorem exists_moved {ns' ns : List Expr}
    (h : List.SublistForall₂ (s.Moved k) ns' ns) : ∀ n' ∈ ns', ∃ n ∈ ns, s.Moved k n' n := by
  induction h with
  | nil =>
    intro n' hn'
    cases hn'
  | cons hmoved _ ih =>
    intro n' hn'
    rcases List.mem_cons.mp hn' with rfl | hn'
    · exact ⟨_, by simp, hmoved⟩
    · obtain ⟨n, hn, hmoved'⟩ := ih n' hn'
      exact ⟨n, by simp [hn], hmoved'⟩
  | cons_right _ ih =>
    intro n' hn'
    obtain ⟨n, hn, hmoved⟩ := ih n' hn'
    exact ⟨n, by simp [hn], hmoved⟩

/-- A node that is moved is moved from one node only. -/
theorem existsUnique_moved {ns' ns : List Expr}
    (h : List.SublistForall₂ (s.Moved k) ns' ns) (hnodup : (ns.map Expr.id).Nodup) :
    ∀ n' ∈ ns', ∃! n, n ∈ ns ∧ s.Moved k n' n := by
  intro n' hn'
  obtain ⟨n, hn, hmoved⟩ := exists_moved h n' hn'
  refine ⟨n, ⟨hn, hmoved⟩, ?_⟩
  rintro m ⟨hm, hmoved'⟩
  have hid : m.id = n.id := congrArg Mark.id (hmoved'.1.symm.trans hmoved.1)
  exact List.inj_on_of_nodup_map hnodup hm hn hid

end Setting

namespace Session

/-- The expressions of a desugared program are the walk over those of the program. -/
theorem exprs_program (session : Session) (p : Program) : ∃ p' visits,
    session.program p = ((p', ⟨session.report.sites ++ sitesOf visits⟩),
      ⟨session.setting, p'.nextId, .empty⟩) ∧
    session.setting.exprs p.roots (max session.nextId p.nextId) = ⟨p'.roots, p'.nextId, visits⟩ ∧
    Stmt.RelatedAll (session.setting.Rewrites (max session.nextId p.nextId)) p.stmts p'.stmts :=
  ⟨_, _, rfl, Setting.exprs_rootsOfAll p.stmts _, Setting.stmts_related p.stmts (Nat.le_refl _)⟩

/-- **A session keeps numbers unique and moves nodes without copying them.**  Numbers that
are unique and below the next one of the program are so again afterwards.  The next number
has gone up from the first one by as many as there are sites expanded in this call, and in
the order of the nodes the new ones are the constructions of these sites, with the numbers
in between.  All others are nodes of the program, in order and each from exactly one, with
number, place and content, apart from literals expanded below them.  Around the expressions
the statements stay as they are. -/
theorem program_moves_nodes (session : Session) {p : Program}
    (hnodup : (p.nodes.map Expr.id).Nodup) (hbelow : ∀ n ∈ p.nodes, n.id < p.nextId) :
    ∃ p' sites, session.program p = ((p', ⟨session.report.sites ++ sites⟩),
        ⟨session.setting, p'.nextId, .empty⟩) ∧
      let first := max session.nextId p.nextId
      let expanded := sites.filter fun site => site.outcome = .expanded
      let created := p'.nodes.filter fun n => first ≤ n.id
      let kept := p'.nodes.filter fun n => n.id < first
      (p'.nodes.map Expr.id).Nodup ∧ (∀ n ∈ p'.nodes, n.id < p'.nextId) ∧
      p'.nextId = first + expanded.length ∧
      CreatesAll session.setting expanded first created ∧
      created.map Expr.id = List.range' first expanded.length ∧
      List.SublistForall₂ (session.setting.Moved first) kept p.nodes ∧
      (∀ n' ∈ kept, ∃! n, n ∈ p.nodes ∧ session.setting.Moved first n' n) ∧
      Stmt.RelatedAll (session.setting.Rewrites first) p.stmts p'.stmts := by
  obtain ⟨p', visits, hprogram, hwalk, hrelated⟩ := exprs_program session p
  have hroots : ∀ e ∈ p.roots, ∀ n ∈ e.nodes, n.id < max session.nextId p.nextId := by
    intro e he n hn
    have hlt := hbelow n (Program.mem_nodes_of_mem_roots he hn)
    exact Nat.lt_of_lt_of_le hlt (Nat.le_max_right _ _)
  have hfirst := Nat.le_refl (max session.nextId p.nextId)
  have hcreated := Setting.creates_exprs (s := session.setting) hroots hfirst
  have hkept := Setting.exprs_moved (s := session.setting) p.roots hfirst
  have hunique := Setting.nodup_exprs (s := session.setting)
    (Program.nodes_eq_flatMap p ▸ hnodup) hroots hfirst
  have hnext := Setting.nextId_exprs (s := session.setting) p.roots (max session.nextId p.nextId)
  rw [hwalk] at hcreated hkept hunique hnext
  simp only [← Program.nodes_eq_flatMap] at hcreated hkept hunique hnext
  refine ⟨p', sitesOf visits, hprogram, hunique, ?_, hnext, hcreated, hcreated.map_id, hkept,
    Setting.existsUnique_moved hkept hnodup, hrelated⟩
  intro n hn
  by_cases hnew : max session.nextId p.nextId ≤ n.id
  · have hid : n.id ∈ (p'.nodes.filter fun x => max session.nextId p.nextId ≤ x.id).map Expr.id :=
      List.mem_map_of_mem (List.mem_filter.mpr ⟨hn, by simpa using hnew⟩)
    rw [hcreated.map_id, List.mem_range'_1] at hid
    omega
  · omega

/-- A session that starts high above the numbers of the program: a literal is left with one
inside it expanded, another one is expanded, and the new nodes have the next two numbers. -/
theorem program_moves_nodes_nested : ∃ (p p' : Program) (report : Report),
    Program.ofText "x = f([<[<1>], 2>], [<3>]);" = .ok p ∧
      (start (p.setting {}) 40).program p = ((p', report), ⟨p.setting {}, 42, .empty⟩) ∧
      report.sites.map (fun site => (site.outcome, site.count)) =
        [(.abstained, 2), (.expanded, 1), (.expanded, 1)] ∧
      (p'.nodes.filter fun n => 40 ≤ n.id).map Expr.id = [40, 41] := by
  have hrun : (Program.ofText "x = f([<[<1>], 2>], [<3>]);").map (fun p =>
      (p.nextId, ((start (p.setting {}) 40).program p).1.2.sites.map
        fun site => (site.outcome, site.count))) =
      .ok (24, [(.abstained, 2), (.expanded, 1), (.expanded, 1)]) := by
    decide +kernel
  obtain ⟨p, hp, hrun⟩ := map_eq_ok_iff.mp hrun
  have hread := Program.isRead_of_ofText hp
  obtain ⟨p', sites, hprogram, -, -, hnext, -, hids, -⟩ :=
    program_moves_nodes (start (p.setting {}) 40) hread.nodup hread.id_lt
  rw [hprogram] at hrun
  obtain ⟨hnextId, hsites⟩ := Prod.mk.inj hrun
  have hexpanded : (sites.filter fun site => site.outcome = .expanded).length = 2 := by
    have hcount := congrArg (List.countP fun r => r.1 = .expanded) hsites
    rw [List.countP_map] at hcount
    rw [← List.countP_eq_length_filter]
    exact hcount
  have hfirst : max (start (p.setting {}) 40).nextId p.nextId = 40 := by
    rw [hnextId]
    rfl
  rw [hfirst, hexpanded] at hnext hids
  exact ⟨p, p', _, hp, by rw [hprogram, hnext]; rfl, hsites, hids⟩

end Session

end Desugar

end ListSugar
