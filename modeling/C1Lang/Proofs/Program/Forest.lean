import C1Lang.Proofs.Parser.Stored
import C1Lang.Token.Lexer

/-!
# Every node in one place

Each node is listed once: among the declarations, or among the children of one other node
(`Program.arena_forest`). Nothing is lost on the way, and nothing is taken twice: a group of nodes
is numbered in a row, and all of them but those that are handed on are children in the group. What
the parser stores of an error-free text is such a forest (`Stored.Forest`).
-/

namespace C1Lang

namespace Arena

/-- Nodes were added in a row. The numbers `is` and the children of the new nodes are the new
numbers. -/
def Grown (nodes : Array Node) (is : List Nat) (nodes' : Array Node) : Prop :=
  ∃ new, nodes'.toList = nodes.toList ++ new ∧
    (is ++ new.flatMap Node.children).Perm (List.range' nodes.size new.length)

namespace Grown

variable {nodes nodes' nodes'' : Array Node} {is js children : List Nat}

theorem nil (nodes : Array Node) : Grown nodes [] nodes := ⟨[], by simp⟩

theorem append (h : Grown nodes is nodes') (k : Grown nodes' js nodes'') :
    Grown nodes (is ++ js) nodes'' := by
  obtain ⟨new, hnew, hperm⟩ := h
  obtain ⟨more, hmore, hperm'⟩ := k
  have hsize : nodes'.size = nodes.size + new.length := by
    rw [← Array.length_toList, hnew, List.length_append, Array.length_toList]
  refine ⟨new ++ more, by rw [hmore, hnew, List.append_assoc], ?_⟩
  rw [hsize] at hperm'
  rw [List.flatMap_append, List.length_append, ← List.range'_append_1]
  refine .trans ?_ (hperm.append hperm')
  simp only [List.append_assoc]
  exact (List.perm_append_comm_assoc _ _ _).append_left is

theorem push (h : Grown nodes is nodes') (kind : NodeKind) (span : Span)
    (hc : children.Perm is) :
    Grown nodes [(Arena.push nodes' kind span children).1]
      (Arena.push nodes' kind span children).2 := by
  obtain ⟨new, hnew, hperm⟩ := h
  have hsize : nodes'.size = nodes.size + new.length := by
    rw [← Array.length_toList, hnew, List.length_append, Array.length_toList]
  refine ⟨new ++ [⟨kind, span, children⟩], by simp [Arena.push, hnew], ?_⟩
  have hall : (new.flatMap Node.children ++ children).Perm (List.range' nodes.size new.length) :=
    (List.perm_append_comm.trans (hc.append_right _)).trans hperm
  have hids : List.range' nodes.size (new.length + 1) =
      List.range' nodes.size new.length ++ [nodes'.size] := by
    rw [List.range'_1_concat, hsize]
  rw [List.length_append, List.length_singleton, hids, List.flatMap_append, List.flatMap_singleton]
  exact List.perm_append_comm.trans (hall.append_right _)

theorem leaf (nodes : Array Node) (kind : NodeKind) (span : Span) :
    Grown nodes [(Arena.push nodes kind span []).1] (Arena.push nodes kind span []).2 :=
  (nil nodes).push kind span .nil

end Grown

theorem addExpr_grown (e : Expr) (nodes : Array Node) :
    Grown nodes [(addExpr e nodes).1] (addExpr e nodes).2 := by
  induction e generalizing nodes with
  | literal v span => exact .leaf nodes .literal span
  | binary op l r span ihl ihr =>
    exact ((ihl nodes).append (ihr (addExpr l nodes).2)).push .binary span (.refl _)
  | unary op e span ih => exact (ih nodes).push .unary span (.refl _)
  | name x span => exact .leaf nodes .lvalue span
  | element x i span ih => exact (ih nodes).push .lvalue span (.refl _)

theorem addExprs_grown (es : List Expr) (nodes : Array Node) :
    Grown nodes (addExprs es nodes).1 (addExprs es nodes).2 := by
  induction es generalizing nodes with
  | nil => exact .nil nodes
  | cons e es ih => exact (addExpr_grown e nodes).append (ih (addExpr e nodes).2)

theorem addCondition_grown (c : Condition) (nodes : Array Node) :
    Grown nodes [(addCondition c nodes).1] (addCondition c nodes).2 := by
  have hl := addExpr_grown c.left nodes
  have hr := addExpr_grown c.right (addExpr c.left nodes).2
  exact (hl.append hr).push .condition c.span (.refl _)

theorem addVariable_grown (v : Variable) (nodes : Array Node) :
    Grown nodes [(addVariable v nodes).1] (addVariable v nodes).2 := by
  unfold addVariable
  split
  · exact (addExprs_grown v.initializers nodes).push .declaration v.span (.refl _)
  · next length _ =>
    have hn := addExpr_grown length nodes
    have hes := addExprs_grown v.initializers (addExpr length nodes).2
    exact (hn.append hes).push .declaration v.span (.refl _)
  · next count span _ =>
    have hes := addExprs_grown v.initializers nodes
    have hn := Grown.leaf (addExprs v.initializers nodes).2 .literal span
    -- The counted length is added after the initializers, and listed before them.
    exact (hes.append hn).push .declaration v.span (List.perm_append_singleton _ _).symm

mutual

theorem addStmt_grown : (st : Stmt) → (nodes : Array Node) →
    Grown nodes [(addStmt st nodes).1] (addStmt st nodes).2
  | .declare v, nodes => addVariable_grown v nodes
  | .assign target value span, nodes => by
    have ht := addExpr_grown target.toExpr nodes
    have hv := addExpr_grown value (addExpr target.toExpr nodes).2
    exact (ht.append hv).push .assignment span (.refl _)
  | .call _ span, nodes => .leaf nodes .call span
  | .block body span, nodes => (addStmts_grown body nodes).push .block span (.refl _)
  | .branch test body span, nodes => by
    have hc := addCondition_grown test nodes
    have hb := addStmt_grown body (addCondition test nodes).2
    exact (hc.append hb).push .branch span (.refl _)
  | .branchElse test body other span, nodes => by
    have hc := addCondition_grown test nodes
    have hb := addStmt_grown body (addCondition test nodes).2
    have ho := addStmt_grown other (addStmt body (addCondition test nodes).2).2
    exact (hc.append (hb.append ho)).push .branch span (.refl _)
  | .loop test body span, nodes => by
    have hc := addCondition_grown test nodes
    have hb := addStmt_grown body (addCondition test nodes).2
    exact (hc.append hb).push .loop span (.refl _)
  | .empty span, nodes => .leaf nodes .empty span

theorem addStmts_grown : (body : List Stmt) → (nodes : Array Node) →
    Grown nodes (addStmts body nodes).1 (addStmts body nodes).2
  | [], nodes => .nil nodes
  | st :: rest, nodes => (addStmt_grown st nodes).append (addStmts_grown rest (addStmt st nodes).2)

end

theorem addDeclaration_grown (d : Declaration) (nodes : Array Node) :
    Grown nodes [(addDeclaration d nodes).1] (addDeclaration d nodes).2 := by
  cases d with
  | global v => exact addVariable_grown v nodes
  | function f =>
    have hblock := (addStmts_grown f.body nodes).push .block f.bodySpan (.refl _)
    exact hblock.push .function f.span (.refl _)

theorem add_grown (p : Program) (a : Arena) :
    ∃ is, (add p a).roots = a.roots ++ is ∧ Grown a.nodes is (add p a).nodes := by
  induction p generalizing a with
  | nil => exact ⟨[], (List.append_nil _).symm, .nil a.nodes⟩
  | cons d p ih =>
    have hd := addDeclaration_grown d a.nodes
    obtain ⟨is, hroots, hp⟩ :=
      ih ⟨(addDeclaration d a.nodes).2, a.roots ++ [(addDeclaration d a.nodes).1]⟩
    exact ⟨_ :: is, hroots.trans (List.append_assoc _ _ _), hd.append hp⟩

end Arena

theorem Program.arena_forest (p : Program) :
    (p.arena.roots ++ p.arena.nodes.toList.flatMap Node.children).Perm
      (List.range p.arena.nodes.size) := by
  obtain ⟨is, hroots, new, hnew, hperm⟩ := Arena.add_grown p {}
  have hroots : p.arena.roots = is := hroots
  have hnew : p.arena.nodes.toList = new := hnew
  rw [hroots, hnew, List.range_eq_range', ← Array.length_toList, hnew]
  exact hperm

namespace Stored

def Child (r : Stored) (j i : Nat) : Prop := ∃ c, r.cells[i]? = some c ∧ j ∈ c.children

/-- The nodes are a forest. Children stand before their node, the declarations and the children of
all nodes are, taken together, all nodes once, and every name that is mentioned was interned. -/
structure Forest (r : Stored) : Prop where
  descends : ∀ {j i : Nat}, r.Child j i → j < i
  once : (r.roots ++ r.cells.toList.flatMap fun c => c.children).Perm (List.range r.cells.size)
  interned : ∀ c ∈ r.cells, ∀ x ∈ c.symbol, ∃ name, r.symbols.get? x = some name

theorem Forest.wellFounded {r : Stored} (h : r.Forest) : WellFounded r.Child :=
  Subrelation.wf h.descends Nat.lt_wfRel.wf

end Stored

/-- What parses without errors has been stored as a forest, and the nodes are those of the program.
There are no more nodes than tokens, so that of less than `2 ^ 32` tokens every node has a number of
32 bits. -/
theorem parse_forest {ts : List Token} {p : Program} (hp : (parse ts).program? = some p) :
    ∃ r, parseStored ts = some r ∧ r.arena = p.arena ∧ r.symbols = (parse ts).symbols ∧
      r.Forest ∧ WellFounded r.Child ∧ r.cells.size ≤ (significant ts).length := by
  obtain ⟨cells, hstored, hcells, hinterned⟩ := parseStored_eq_some hp
  have hnodes := Grammar.Derives.nodes_le (derives_of_parse hp) {}
  have hsize : cells.size = p.arena.nodes.size := by rw [← hcells, Array.size_map]
  have hforest : Stored.Forest ⟨cells, p.arena.roots, (parse ts).symbols⟩ := by
    refine ⟨fun {j i} ⟨c, hc, hj⟩ => ?_, ?_, fun c hc x hx => ?_⟩
    · refine ((p.arena_shaped).fits i c.toNode ?_).1 j hj
      rw [← hcells, Array.getElem?_map, hc]
      rfl
    · have hperm := p.arena_forest
      rw [← hcells, Array.toList_map, List.flatMap_map, Array.size_map] at hperm
      exact hperm
    · exact ⟨_, List.getElem?_eq_getElem (hinterned c hc x hx)⟩
  refine ⟨_, hstored, congrArg (Arena.mk · p.arena.roots) hcells, rfl, hforest,
    hforest.wellFounded, ?_⟩
  rw [hsize]
  simpa [Program.arena] using hnodes

theorem parse_forest_counted : ∃ r,
    parseStored (lex "int a[] = \x7b 1 \x7d;").tokens = some r ∧
    r.cells.toList.map (fun c => (c.children, c.symbol)) =
      [([], none), ([], none), ([1, 0], some 0)] ∧
    r.roots = [2] ∧ r.Forest := by
  have hparses : (parse (lex "int a[] = \x7b 1 \x7d;").tokens).program?.isSome = true := by
    decide +kernel
  have hcells : ((parseStored (lex "int a[] = \x7b 1 \x7d;").tokens).map fun r =>
      (r.cells.toList.map (fun c => (c.children, c.symbol)), r.roots)) =
        some ([([], none), ([], none), ([1, 0], some 0)], [2]) := by decide +kernel
  obtain ⟨p, hp⟩ := Option.isSome_iff_exists.mp hparses
  obtain ⟨r, hr, -, -, hforest, -⟩ := parse_forest hp
  rw [hr] at hcells
  obtain ⟨hchildren, hroots⟩ := Prod.mk.inj (Option.some.inj hcells)
  exact ⟨r, hr, hchildren, hroots, hforest⟩

end C1Lang
