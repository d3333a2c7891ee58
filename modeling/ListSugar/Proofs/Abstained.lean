/-
Literals that are left, and whether anything tells of them.

The report counts the literals that were left as they were; the diagnostics list missing
operands and types with a gap.  Neither looks at the other.  A run that leaves literals of
unknown type writes no type with a gap, so what can tell of such a literal is a missing
operand, and the delimiters of a literal have one each.  Only the shape does not ask for it:
an element access between two comparisons counts as a literal with all its operands there,
and if that is left, and nothing else is missing, nothing tells of it.
-/
import ListSugar.Proofs.HostCode
import ListSugar.Proofs.Pass.Reported
import ListSugar.Proofs.Typing.Resolved

namespace ListSugar

namespace Diagnostic

/-- A node has no defect just when it is there and has no gap in its type. -/
theorem ofNode_eq_none_iff {n : Expr} :
    ofNode n = none ↔ n.isMissing = false ∧ n.ResolvedNode := by
  cases n with
  | missing m => simp [ofNode, Expr.isMissing]
  | new m ty args init => simp [ofNode, Expr.isMissing, Expr.ResolvedNode]
  | _ => simp [ofNode, Expr.isMissing, Expr.ResolvedNode]

end Diagnostic

namespace Expr

theorem nodesOutside_subset (k : Nat) (e : Expr) : ∀ n ∈ e.nodesOutside k, n ∈ e.nodes := by
  induction e using children_induction with
  | step e ih =>
    intro n hn
    by_cases hnew : k ≤ e.id
    · rw [nodesOutside_of_le hnew] at hn
      cases hn
    · rw [nodesOutside_of_lt (Nat.lt_of_not_le hnew), List.mem_cons, List.mem_flatMap] at hn
      rcases hn with rfl | ⟨c, hc, hn⟩
      · exact self_mem_nodes n
      · exact mem_nodes_iff.mpr (Or.inr ⟨c, hc, ih c hc n hn⟩)

theorem literalCount?_eq_none_iff {e : Expr} : e.literalCount? = none ↔ e.delimited? = none := by
  simp [literalCount?, literalElements?]

end Expr

namespace Program

open Desugar

theorem mem_nodes_of_mem_nodesOutside {k : Nat} {p : Program} {n x : Expr}
    (hn : n ∈ p.nodesOutside k) (hx : x ∈ n.nodes) : x ∈ p.nodes := by
  obtain ⟨e, he, hn⟩ := List.mem_flatMap.mp hn
  exact mem_nodes_of_mem_roots he (Expr.mem_nodes_trans hx (e.nodesOutside_subset k n hn))

variable {p : Program}

/-- **A run leaves a literal just when one stands in its result, outside the new nodes.** -/
theorem IsRead.abstained_pos_iff (h : p.IsRead) (options : Options) :
    0 < (p.desugar options).report.abstained ↔
      ∃ n ∈ (p.desugar options).program.nodesOutside p.nextId, n.delimited? ≠ none := by
  have hroots : ∀ e ∈ p.roots, ∀ x ∈ e.nodes, x.id < p.nextId := fun e he x hx =>
    h.id_lt x (mem_nodes_of_mem_roots he hx)
  have hleaves := Setting.leaves_exprs (s := p.setting options) hroots (Nat.le_refl _)
  rw [exprs_desugar] at hleaves
  have hcount : (p.desugar options).report.abstained =
      (((p.desugar options).program.nodesOutside p.nextId).filter
        fun x => x.literalCount?.isSome).length := by
    rw [Report.abstained, Report.countOf, List.countP_eq_length_filter]
    exact hleaves.length_eq
  rw [hcount, List.length_pos_iff_exists_mem]
  simp only [List.mem_filter, Option.isSome_iff_ne_none, ne_eq, Expr.literalCount?_eq_none_iff]

/-- **A run that abstains finds nothing wrong just when no operand is missing.** -/
theorem IsRead.diagnostics_eq_nil_iff (h : p.IsRead) {options : Options}
    (habstain : options.onUnresolved = .abstain) :
    (p.desugar options).diagnostics = [] ↔
      ∀ n ∈ (p.desugar options).program.nodes, n.isMissing = false := by
  show (p.desugar options).program.nodes.filterMap Diagnostic.ofNode = [] ↔ _
  rw [List.filterMap_eq_nil_iff]
  refine forall₂_congr fun n hn => ?_
  have hresolved : n.ResolvedNode := by
    rw [nodes_eq_flatMap, List.mem_flatMap] at hn
    obtain ⟨e, he, hn⟩ := hn
    exact h.resolved_desugar habstain e he n hn
  rw [Diagnostic.ofNode_eq_none_iff]
  exact and_iff_left hresolved

end Program

/-- **When a literal is left and nothing tells of it.**  A run that abstains and has left some
literal lists no diagnostic just when no operand of its result is missing, and then what was
left is an element access with two arguments or more, the first a comparison by `<` and the
last one by `>`.  Every other literal that is left has a missing operand, which is listed. -/
theorem desugar_abstained_silent_iff {source : String} {p : Program}
    (hp : Program.ofText source = .ok p) (options : Options)
    (habstain : options.onUnresolved = .abstain) :
    ∃ d, desugar source options = .ok d ∧
      ((0 < d.report.abstained ∧ d.diagnostics = []) ↔
        (∃ n ∈ d.program.nodesOutside p.nextId, n.BetweenComparisons) ∧
          ∀ n ∈ d.program.nodes, n.isMissing = false) := by
  have hread := Program.isRead_of_ofText hp
  refine ⟨p.desugar options, desugar_of_ofText hp options, ?_⟩
  rw [hread.abstained_pos_iff, hread.diagnostics_eq_nil_iff habstain]
  refine and_congr_left fun hpresent => exists_congr fun n => and_congr_right fun hn => ?_
  have hshape := Expr.delimited?_iff_of_no_missing fun x hx =>
    hpresent x (Program.mem_nodes_of_mem_nodesOutside hn hx)
  rw [ne_eq, hshape, Classical.not_not]

/-- An access whose arguments are comparisons is counted as a literal that is left, and no
diagnostic tells of it. -/
theorem desugar_abstained_silent_iff_access : ∃ p d,
    Program.ofText "var x = m[a < b, c > d];" = .ok p ∧
      desugar "var x = m[a < b, c > d];" {} = .ok d ∧
      d.report.abstained = 1 ∧ d.diagnostics = [] ∧
      ∃ n ∈ d.program.nodesOutside p.nextId, n.BetweenComparisons := by
  have hrun : (Program.ofText "var x = m[a < b, c > d];").map (fun p =>
      ((p.desugar {}).report.abstained, (p.desugar {}).diagnostics.length)) = .ok (1, 0) := by
    decide +kernel
  obtain ⟨p, hp, hrun⟩ := map_eq_ok_iff.mp hrun
  obtain ⟨d, hd, hiff⟩ := desugar_abstained_silent_iff hp {} rfl
  obtain rfl := Except.ok.inj ((desugar_of_ofText hp {}).symm.trans hd)
  obtain ⟨hcount, hdiagnostics⟩ := Prod.mk.inj hrun
  have hsilent := List.length_eq_zero_iff.mp hdiagnostics
  refine ⟨p, _, hp, hd, hcount, hsilent, (hiff.mp ⟨?_, hsilent⟩).1⟩
  rw [hcount]
  exact Nat.one_pos

end ListSugar
