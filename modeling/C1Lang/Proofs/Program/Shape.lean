import C1Lang.Program.Arena
import C1Lang.Proofs.Parser.Grammar
import Mathlib.Data.List.Forall2

/-!
# The shape of numbered nodes

Nodes are numbered after their children, and which kinds of children a node has is told by its own
kind (`takes`): tests stand only at the head of branches and loops, the body of a function is a
block, and functions are children of nothing. A program that the grammar derives has no more nodes
than tokens, since every node can be charged to a token of its own.
-/

namespace C1Lang

namespace NodeKind

def isExpr : NodeKind → Bool
  | literal | binary | unary | lvalue => true
  | _ => false

def isStmt : NodeKind → Bool
  | declaration | assignment | call | block | branch | loop | empty => true
  | _ => false

def isRoot : NodeKind → Bool
  | function | declaration => true
  | _ => false

/-- The kinds that the children of a node can have. -/
def takes : NodeKind → List NodeKind → Bool
  | literal, [] | call, [] | empty, [] | lvalue, [] => true
  | lvalue, [i] => i.isExpr
  | unary, [o] => o.isExpr
  | binary, [l, r] | condition, [l, r] => l.isExpr && r.isExpr
  | declaration, ks => ks.all isExpr
  | assignment, [t, v] => t == lvalue && v.isExpr
  | block, ks => ks.all isStmt
  | branch, [c, b] | loop, [c, b] => c == condition && b.isStmt
  | branch, [c, b, o] => c == condition && b.isStmt && o.isStmt
  | function, [b] => b == block
  | _, _ => false

theorem takes_cases {k : NodeKind} {ks : List NodeKind} (h : k.takes ks = true) :
    (∀ x ∈ ks, x.isExpr = true) ∨ (∀ x ∈ ks, x.isStmt = true) ∨
      (k = branch ∨ k = loop) ∧ ∃ rest, ks = condition :: rest ∧ ∀ x ∈ rest, x.isStmt = true := by
  unfold takes at h
  split at h <;> simp_all [isExpr, isStmt]

theorem function_not_mem {k : NodeKind} {ks : List NodeKind} (h : k.takes ks = true) :
    function ∉ ks := by
  intro hmem
  rcases takes_cases h with hexpr | hstmt | ⟨-, rest, rfl, hstmt⟩
  · cases hexpr _ hmem
  · cases hstmt _ hmem
  · rcases List.mem_cons.mp hmem with heq | hmem
    · cases heq
    · cases hstmt _ hmem

theorem condition_first {k : NodeKind} {ks : List NodeKind} (h : k.takes ks = true) {i : Nat}
    (hi : ks[i]? = some condition) : i = 0 ∧ (k = branch ∨ k = loop) := by
  have hmem := List.mem_of_getElem? hi
  rcases takes_cases h with hexpr | hstmt | ⟨hk, rest, rfl, hstmt⟩
  · cases hexpr _ hmem
  · cases hstmt _ hmem
  · cases i with
    | zero => exact ⟨rfl, hk⟩
    | succ i => cases hstmt _ (List.mem_of_getElem? hi)

end NodeKind

namespace Arena

def kindAt? (nodes : Array Node) (i : Nat) : Option NodeKind := nodes[i]?.map Node.kind

def KindsAt (nodes : Array Node) (is : List Nat) (ks : List NodeKind) : Prop :=
  List.Forall₂ (fun i k => kindAt? nodes i = some k) is ks

def Fits (nodes : Array Node) : Prop :=
  ∀ (i : Nat) (n : Node), nodes[i]? = some n → (∀ j ∈ n.children, j < i) ∧
    ∃ ks, KindsAt nodes n.children ks ∧ n.kind.takes ks = true

theorem getElem?_mono {nodes nodes' : Array Node} (h : nodes.toList <+: nodes'.toList) {i : Nat}
    {n : Node} (hn : nodes[i]? = some n) : nodes'[i]? = some n := by
  obtain ⟨more, hmore⟩ := h
  rw [← Array.getElem?_toList] at hn ⊢
  rw [← hmore, List.getElem?_append_left (List.getElem?_eq_some_iff.mp hn).1, hn]

theorem kindAt?_mono {nodes nodes' : Array Node} (h : nodes.toList <+: nodes'.toList) {i : Nat}
    {k : NodeKind} (hk : kindAt? nodes i = some k) : kindAt? nodes' i = some k := by
  obtain ⟨n, hn, rfl⟩ := Option.map_eq_some_iff.mp hk
  simp [kindAt?, getElem?_mono h hn]

theorem KindsAt.mono {nodes nodes' : Array Node} {is : List Nat} {ks : List NodeKind}
    (hk : KindsAt nodes is ks) (h : nodes.toList <+: nodes'.toList) : KindsAt nodes' is ks :=
  List.Forall₂.imp (fun _ _ => kindAt?_mono h) hk

theorem kindAt?_push (nodes : Array Node) (kind : NodeKind) (span : Span) (children : List Nat)
    (i : Nat) : kindAt? (push nodes kind span children).2 i =
      if i = nodes.size then some kind else kindAt? nodes i := by
  unfold kindAt? push
  rw [Array.getElem?_push]
  split <;> rfl

theorem kindAt?_push_self (nodes : Array Node) (kind : NodeKind) (span : Span)
    (children : List Nat) : kindAt? (push nodes kind span children).2 nodes.size = some kind := by
  rw [kindAt?_push, if_pos rfl]

theorem push_kept (nodes : Array Node) (kind : NodeKind) (span : Span) (children : List Nat) :
    nodes.toList <+: (push nodes kind span children).2.toList := by
  simp [push]

theorem KindsAt.lt {nodes : Array Node} {is : List Nat} {ks : List NodeKind}
    (h : KindsAt nodes is ks) : ∀ j ∈ is, j < nodes.size := by
  induction h with
  | nil => simp
  | cons hk _ ih =>
    obtain ⟨n, hn, -⟩ := Option.map_eq_some_iff.mp hk
    exact List.forall_mem_cons.mpr ⟨(Array.getElem?_eq_some_iff.mp hn).1, ih⟩

theorem push_fits {nodes : Array Node} {kind : NodeKind} {children : List Nat}
    {ks : List NodeKind} (span : Span) (hks : KindsAt nodes children ks)
    (htakes : kind.takes ks = true) (h : Fits nodes) :
    Fits (push nodes kind span children).2 := by
  have hkept := push_kept nodes kind span children
  intro i n hn
  by_cases hi : i = nodes.size
  · have heq : n = ⟨kind, span, children⟩ := by
      simp only [push, hi, Array.getElem?_push_size] at hn
      exact (Option.some.inj hn).symm
    subst heq hi
    exact ⟨hks.lt, ks, hks.mono hkept, htakes⟩
  · have hold : nodes[i]? = some n := by
      simpa only [push, Array.getElem?_push, if_neg hi] using hn
    obtain ⟨hlt, ls, hls, htakes'⟩ := h i n hold
    exact ⟨hlt, ls, hls.mono hkept, htakes'⟩

structure Grows (nodes nodes' : Array Node) : Prop where
  kept : nodes.toList <+: nodes'.toList
  fits : Fits nodes → Fits nodes'
  functions : ∀ i, kindAt? nodes' i = some .function → kindAt? nodes i = some .function

theorem Grows.refl (nodes : Array Node) : Grows nodes nodes :=
  ⟨List.prefix_rfl, fun h => h, fun _ h => h⟩

theorem Grows.trans {nodes nodes' nodes'' : Array Node} (h : Grows nodes nodes')
    (k : Grows nodes' nodes'') : Grows nodes nodes'' :=
  ⟨h.kept.trans k.kept, fun hn => k.fits (h.fits hn),
    fun i hi => h.functions i (k.functions i hi)⟩

/-- One node of a kind that is all right was added last. -/
structure Adds (ok : NodeKind → Bool) (nodes : Array Node) (r : Nat × Array Node) : Prop where
  grows : Grows nodes r.2
  kind : ∃ k, kindAt? r.2 r.1 = some k ∧ ok k = true

structure AddsAll (ok : NodeKind → Bool) (nodes : Array Node) (r : List Nat × Array Node) :
    Prop where
  grows : Grows nodes r.2
  kinds : ∃ ks, KindsAt r.2 r.1 ks ∧ ∀ k ∈ ks, ok k = true

theorem Adds.push {ok : NodeKind → Bool} {nodes nodes' : Array Node} {kind : NodeKind}
    {children : List Nat} {ks : List NodeKind} (span : Span) (h : Grows nodes nodes')
    (hks : KindsAt nodes' children ks) (htakes : kind.takes ks = true)
    (hok : ok kind = true) (hf : kind ≠ .function) :
    Adds ok nodes (Arena.push nodes' kind span children) := by
  refine ⟨h.trans ⟨push_kept _ _ _ _, push_fits span hks htakes, fun i hi => ?_⟩, kind, ?_, hok⟩
  · rw [kindAt?_push] at hi
    split at hi
    · exact absurd (Option.some.inj hi) hf
    · exact hi
  · exact kindAt?_push_self _ _ _ _

theorem addExpr_adds (e : Expr) (nodes : Array Node) :
    Adds NodeKind.isExpr nodes (addExpr e nodes) := by
  induction e generalizing nodes with
  | literal v span => exact .push span (.refl nodes) .nil rfl rfl (by decide)
  | binary op l r span ihl ihr =>
    obtain ⟨hl, j, hj, hjok⟩ := ihl nodes
    obtain ⟨hr, k, hk, hkok⟩ := ihr (addExpr l nodes).2
    refine .push span (hl.trans hr) (.cons (kindAt?_mono hr.kept hj) (.cons hk .nil)) ?_ rfl
      (by decide)
    simp [NodeKind.takes, hjok, hkok]
  | unary op e span ih =>
    obtain ⟨he, k, hk, hok⟩ := ih nodes
    refine .push span he (.cons hk .nil) ?_ rfl (by decide)
    simp [NodeKind.takes, hok]
  | name x span => exact .push span (.refl nodes) .nil rfl rfl (by decide)
  | element x i span ih =>
    obtain ⟨he, k, hk, hok⟩ := ih nodes
    refine .push span he (.cons hk .nil) ?_ rfl (by decide)
    simp [NodeKind.takes, hok]

theorem addExpr_place (p : Place) (nodes : Array Node) :
    kindAt? (addExpr p.toExpr nodes).2 (addExpr p.toExpr nodes).1 = some .lvalue := by
  cases p with
  | name x span => exact kindAt?_push_self nodes .lvalue span []
  | element x i span => exact kindAt?_push_self (addExpr i nodes).2 .lvalue span _

theorem addExprs_adds (es : List Expr) (nodes : Array Node) :
    AddsAll NodeKind.isExpr nodes (addExprs es nodes) := by
  induction es generalizing nodes with
  | nil => exact ⟨.refl nodes, [], .nil, by simp⟩
  | cons e es ih =>
    obtain ⟨he, k, hk, hkok⟩ := addExpr_adds e nodes
    obtain ⟨hes, ks, hks, hksok⟩ := ih (addExpr e nodes).2
    refine ⟨he.trans hes, k :: ks, .cons (kindAt?_mono hes.kept hk) hks, ?_⟩
    exact List.forall_mem_cons.mpr ⟨hkok, hksok⟩

theorem addCondition_adds (c : Condition) (nodes : Array Node) :
    Adds (· == .condition) nodes (addCondition c nodes) := by
  obtain ⟨hl, j, hj, hjok⟩ := addExpr_adds c.left nodes
  obtain ⟨hr, k, hk, hkok⟩ := addExpr_adds c.right (addExpr c.left nodes).2
  refine .push c.span (hl.trans hr) (.cons (kindAt?_mono hr.kept hj) (.cons hk .nil)) ?_ rfl
    (by decide)
  simp [NodeKind.takes, hjok, hkok]

theorem takes_declaration {ks : List NodeKind} (h : ∀ k ∈ ks, k.isExpr = true) :
    NodeKind.declaration.takes ks = true := by
  simpa [NodeKind.takes] using h

theorem addVariable_adds (v : Variable) (nodes : Array Node) :
    Adds (· == .declaration) nodes (addVariable v nodes) := by
  unfold addVariable
  split
  · obtain ⟨hes, ks, hks, hok⟩ := addExprs_adds v.initializers nodes
    exact .push v.span hes hks (takes_declaration hok) rfl (by decide)
  · next length _ =>
    obtain ⟨hn, k, hk, hkok⟩ := addExpr_adds length nodes
    obtain ⟨hes, ks, hks, hok⟩ := addExprs_adds v.initializers (addExpr length nodes).2
    refine .push v.span (hn.trans hes) (.cons (kindAt?_mono hes.kept hk) hks) ?_ rfl (by decide)
    exact takes_declaration (List.forall_mem_cons.mpr ⟨hkok, hok⟩)
  · next count span _ =>
    obtain ⟨hes, ks, hks, hok⟩ := addExprs_adds v.initializers nodes
    obtain ⟨hn, k, hk, hkok⟩ :=
      addExpr_adds (.literal (.int count) span) (addExprs v.initializers nodes).2
    refine .push v.span (hes.trans hn) (.cons hk (hks.mono hn.kept)) ?_ rfl (by decide)
    exact takes_declaration (List.forall_mem_cons.mpr ⟨hkok, hok⟩)

mutual

theorem addStmt_adds : (st : Stmt) → (nodes : Array Node) →
    Adds NodeKind.isStmt nodes (addStmt st nodes)
  | .declare v, nodes => by
    obtain ⟨hv, k, hk, hok⟩ := addVariable_adds v nodes
    refine ⟨hv, k, hk, ?_⟩
    rw [eq_of_beq hok]
    rfl
  | .assign target value span, nodes => by
    obtain ⟨ht, -⟩ := addExpr_adds target.toExpr nodes
    have htarget := addExpr_place target nodes
    obtain ⟨hv, k, hk, hok⟩ := addExpr_adds value (addExpr target.toExpr nodes).2
    refine .push span (ht.trans hv) (.cons (kindAt?_mono hv.kept htarget) (.cons hk .nil)) ?_ rfl
      (by decide)
    simp [NodeKind.takes, hok]
  | .call _ span, nodes => .push span (.refl nodes) .nil rfl rfl (by decide)
  | .block body span, nodes => by
    obtain ⟨hbody, ks, hks, hok⟩ := addStmts_adds body nodes
    refine .push span hbody hks ?_ rfl (by decide)
    simpa [NodeKind.takes] using hok
  | .branch test body span, nodes => by
    obtain ⟨hc, j, hj, hjok⟩ := addCondition_adds test nodes
    obtain ⟨hb, k, hk, hkok⟩ := addStmt_adds body (addCondition test nodes).2
    refine .push span (hc.trans hb) (.cons (kindAt?_mono hb.kept hj) (.cons hk .nil)) ?_ rfl
      (by decide)
    simpa [NodeKind.takes, hkok] using hjok
  | .branchElse test body other span, nodes => by
    obtain ⟨hc, i, hi, hiok⟩ := addCondition_adds test nodes
    obtain ⟨hb, j, hj, hjok⟩ := addStmt_adds body (addCondition test nodes).2
    obtain ⟨ho, k, hk, hkok⟩ := addStmt_adds other (addStmt body (addCondition test nodes).2).2
    refine .push span ((hc.trans hb).trans ho) (.cons (kindAt?_mono (hb.trans ho).kept hi)
      (.cons (kindAt?_mono ho.kept hj) (.cons hk .nil))) ?_ rfl (by decide)
    simpa [NodeKind.takes, hjok, hkok] using hiok
  | .loop test body span, nodes => by
    obtain ⟨hc, j, hj, hjok⟩ := addCondition_adds test nodes
    obtain ⟨hb, k, hk, hkok⟩ := addStmt_adds body (addCondition test nodes).2
    refine .push span (hc.trans hb) (.cons (kindAt?_mono hb.kept hj) (.cons hk .nil)) ?_ rfl
      (by decide)
    simpa [NodeKind.takes, hkok] using hjok
  | .empty span, nodes => .push span (.refl nodes) .nil rfl rfl (by decide)

theorem addStmts_adds : (body : List Stmt) → (nodes : Array Node) →
    AddsAll NodeKind.isStmt nodes (addStmts body nodes)
  | [], nodes => ⟨.refl nodes, [], .nil, by simp⟩
  | st :: rest, nodes => by
    obtain ⟨hst, k, hk, hkok⟩ := addStmt_adds st nodes
    obtain ⟨hrest, ks, hks, hksok⟩ := addStmts_adds rest (addStmt st nodes).2
    refine ⟨hst.trans hrest, k :: ks, .cons (kindAt?_mono hrest.kept hk) hks, ?_⟩
    exact List.forall_mem_cons.mpr ⟨hkok, hksok⟩

end

structure AddsRoot (nodes : Array Node) (r : Nat × Array Node) : Prop where
  kept : nodes.toList <+: r.2.toList
  fits : Fits nodes → Fits r.2
  kind : ∃ k, kindAt? r.2 r.1 = some k ∧ k.isRoot = true
  functions : ∀ i, kindAt? r.2 i = some .function → kindAt? nodes i = some .function ∨ i = r.1

theorem addDeclaration_adds (d : Declaration) (nodes : Array Node) :
    AddsRoot nodes (addDeclaration d nodes) := by
  cases d with
  | global v =>
    obtain ⟨hv, k, hk, hok⟩ := addVariable_adds v nodes
    refine ⟨hv.kept, hv.fits, ⟨k, hk, ?_⟩, fun i hi => .inl (hv.functions i hi)⟩
    rw [eq_of_beq hok]
    rfl
  | function f =>
    obtain ⟨hblock, k, hk, -⟩ := addStmt_adds (.block f.body f.bodySpan) nodes
    have hbody : kindAt? (addStmt (.block f.body f.bodySpan) nodes).2
        (addStmt (.block f.body f.bodySpan) nodes).1 = some .block :=
      kindAt?_push_self (addStmts f.body nodes).2 .block f.bodySpan _
    refine ⟨hblock.kept.trans (push_kept _ _ _ _),
      fun h => push_fits f.span (.cons hbody .nil) rfl (hblock.fits h), ⟨.function, ?_, rfl⟩,
      fun i hi => ?_⟩
    · exact kindAt?_push_self (addStmt (.block f.body f.bodySpan) nodes).2 .function f.span _
    · replace hi : kindAt? (push (addStmt (.block f.body f.bodySpan) nodes).2 .function f.span
        [(addStmt (.block f.body f.bodySpan) nodes).1]).2 i = some .function := hi
      rw [kindAt?_push] at hi
      split at hi
      · next heq => exact .inr heq
      · exact .inl (hblock.functions i hi)

/-- Every node has the children that its kind takes, the roots are declarations, and every
function is a root. -/
structure Shaped (a : Arena) : Prop where
  fits : Fits a.nodes
  roots : ∀ i ∈ a.roots, ∃ k, kindAt? a.nodes i = some k ∧ k.isRoot = true
  functions : ∀ i, kindAt? a.nodes i = some .function → i ∈ a.roots

theorem add_shaped (p : Program) (a : Arena) (h : a.Shaped) : (add p a).Shaped := by
  induction p generalizing a with
  | nil => exact h
  | cons d p ih =>
    obtain ⟨hkept, hfits, hkind, hfunctions⟩ := addDeclaration_adds d a.nodes
    refine ih _ ⟨hfits h.fits, fun i hi => ?_, fun i hi => ?_⟩
    · rcases List.mem_append.mp hi with hi | hi
      · obtain ⟨k, hk, hok⟩ := h.roots i hi
        exact ⟨k, kindAt?_mono hkept hk, hok⟩
      · obtain rfl := List.mem_singleton.mp hi
        exact hkind
    · rcases hfunctions i hi with hi | hi
      · exact List.mem_append_left _ (h.functions i hi)
      · exact List.mem_append_right _ (List.mem_singleton.mpr hi)

end Arena

theorem Program.arena_shaped (p : Program) : p.arena.Shaped :=
  Arena.add_shaped p {} ⟨by simp [Arena.Fits], by simp, by simp [Arena.kindAt?]⟩

namespace Arena

variable {a : Arena} {i j : Nat} {n : Node}

theorem KindsAt.getElem? {nodes : Array Node} {is : List Nat} {ks : List NodeKind}
    (h : KindsAt nodes is ks) {position : Nat} (hi : is[position]? = some i) :
    kindAt? nodes i = ks[position]? := by
  induction h generalizing position with
  | nil => simp at hi
  | cons hk _ ih =>
    cases position with
    | zero =>
      cases hi
      exact hk
    | succ position => exact ih hi

theorem Shaped.condition_first (h : a.Shaped) (hn : a.nodes[i]? = some n) {position : Nat}
    (hj : n.children[position]? = some j) (hk : kindAt? a.nodes j = some .condition) :
    position = 0 ∧ (n.kind = .branch ∨ n.kind = .loop) := by
  obtain ⟨-, ks, hks, htakes⟩ := h.fits i n hn
  exact NodeKind.condition_first htakes (hks.getElem? hj ▸ hk)

theorem Shaped.function_body (h : a.Shaped) (hn : a.nodes[i]? = some n)
    (hk : n.kind = .function) : ∃ b, n.children = [b] ∧ kindAt? a.nodes b = some .block := by
  obtain ⟨-, ks, hks, htakes⟩ := h.fits i n hn
  rw [hk] at htakes
  match ks, hks, htakes with
  | [k], hks, htakes =>
    obtain rfl : k = .block := eq_of_beq htakes
    generalize n.children = is at hks ⊢
    cases hks with
    | cons hb hnil =>
      cases hnil
      exact ⟨_, rfl, hb⟩

theorem Shaped.function_root (h : a.Shaped) (hj : kindAt? a.nodes j = some .function) :
    j ∈ a.roots ∧ ∀ (i : Nat) (n : Node), a.nodes[i]? = some n → j ∉ n.children := by
  refine ⟨h.functions j hj, fun i n hn hmem => ?_⟩
  obtain ⟨-, ks, hks, htakes⟩ := h.fits i n hn
  obtain ⟨position, hposition⟩ := List.mem_iff_getElem?.mp hmem
  have hk := hks.getElem? hposition
  rw [hj] at hk
  exact NodeKind.function_not_mem htakes (List.mem_of_getElem? hk.symm)

@[simp] theorem push_size (nodes : Array Node) (kind : NodeKind) (span : Span)
    (children : List Nat) : (push nodes kind span children).2.size = nodes.size + 1 := by
  simp [push]

theorem addStmts_append (body rest : List Stmt) (nodes : Array Node) :
    addStmts (body ++ rest) nodes =
      ((addStmts body nodes).1 ++ (addStmts rest (addStmts body nodes).2).1,
        (addStmts rest (addStmts body nodes).2).2) := by
  induction body generalizing nodes with
  | nil => rfl
  | cons st body ih => simp only [List.cons_append, addStmts, ih]

theorem add_append (p q : Program) (a : Arena) : add (p ++ q) a = add q (add p a) := by
  induction p generalizing a with
  | nil => rfl
  | cons d p ih => exact ih _

theorem add_globals (xs : List Variable) (p : Program) (a : Arena) :
    add (xs.map .global ++ p) a = add p ⟨(addStmts (xs.map .declare) a.nodes).2,
      a.roots ++ (addStmts (xs.map .declare) a.nodes).1⟩ := by
  induction xs generalizing a with
  | nil => simp [addStmts]
  | cons x xs ih =>
    refine (ih ⟨(addVariable x a.nodes).2, a.roots ++ [(addVariable x a.nodes).1]⟩).trans ?_
    simp [addStmts, addStmt]

end Arena

namespace Grammar

open Arena

variable {ts rest : List Token}

theorem Expression.nodes_le {level : Level} {e : Expr} {k : Nat}
    (h : Expression level ts e k rest) (nodes : Array Node) :
    (addExpr e nodes).2.size + rest.length ≤ nodes.size + ts.length := by
  -- An operator is the token that pays for its node; parentheses are tokens without one.
  induction h generalizing nodes with
  | term _ ih => exact ih nodes
  | factor _ ih => exact ih nodes
  | @add ts mid rest t op l r j k _ _ _ ihl ihr =>
    have hl := ihl nodes
    have hr := ihr (addExpr l nodes).2
    simp only [addExpr, push_size, List.length_cons] at hl ⊢
    omega
  | @mul ts mid rest t op l r j k _ _ _ ihl ihr =>
    have hl := ihl nodes
    have hr := ihr (addExpr l nodes).2
    simp only [addExpr, push_size, List.length_cons] at hl ⊢
    omega
  | signed _ _ ih =>
    have he := ih nodes
    simp only [addExpr, push_size, List.length_cons]
    omega
  | smallest =>
    simp only [addExpr, push_size, List.length_cons]
    omega
  | parens _ _ _ ih =>
    have he := ih nodes
    simp only [List.length_cons] at he ⊢
    omega
  | literal =>
    simp only [addExpr, push_size, List.length_cons]
    omega
  | name =>
    simp only [addExpr, push_size, List.length_cons]
    omega
  | element _ _ _ _ ih =>
    have he := ih nodes
    simp only [addExpr, push_size, List.length_cons] at he ⊢
    omega

theorem Whole.nodes_le {e : Expr} (h : Whole ts e rest) (nodes : Array Node) :
    (addExpr e nodes).2.size + rest.length ≤ nodes.size + ts.length := by
  obtain ⟨k, -, h⟩ := h
  exact h.nodes_le nodes

theorem Test.nodes_le {c : Condition} (h : Test ts c rest) (nodes : Array Node) :
    (addCondition c nodes).2.size + rest.length ≤ nodes.size + ts.length := by
  cases h with
  | @mk ts mid rest t u v relation l r _ hl _ hr _ =>
    have hl := hl.nodes_le nodes
    have hr := hr.nodes_le (addExpr l nodes).2
    simp only [addCondition, push_size, List.length_cons] at hl hr ⊢
    omega

theorem Target.nodes_le {p : Place} (h : Target ts p rest) (nodes : Array Node) :
    (addExpr p.toExpr nodes).2.size + rest.length ≤ nodes.size + ts.length := by
  cases h with
  | name =>
    simp only [Place.toExpr, addExpr, push_size, List.length_cons]
    omega
  | element _ _ hi _ =>
    have hi := hi.nodes_le nodes
    simp only [Place.toExpr, addExpr, push_size, List.length_cons] at hi ⊢
    omega

theorem Elements.nodes_le {es : List Expr} (h : Elements ts es rest) (nodes : Array Node) :
    (addExprs es nodes).2.size + rest.length ≤ nodes.size + ts.length := by
  induction h generalizing nodes with
  | done => exact Nat.le_refl _
  | comma =>
    simp only [addExprs, List.length_cons]
    omega
  | @more ts mid rest t e es _ he _ ih =>
    have he := he.nodes_le nodes
    have hes := ih (addExpr e nodes).2
    simp only [addExprs, List.length_cons]
    omega

theorem Braces.nodes_lt {es : List Expr} {z : Token} (h : Braces ts es z rest)
    (nodes : Array Node) :
    (addExprs es nodes).2.size + rest.length < nodes.size + ts.length := by
  cases h with
  | empty =>
    simp only [addExprs, List.length_cons]
    omega
  | @elements ts mid rest t u e es _ he hes _ =>
    have he := he.nodes_le nodes
    have hes := hes.nodes_le (addExpr e nodes).2
    simp only [addExprs, List.length_cons] at hes ⊢
    omega

theorem Declarator.nodes_le {kind : Kind} {constant : Bool} {x : Variable}
    (h : Declarator kind constant ts x rest) (nodes : Array Node) :
    (addVariable x nodes).2.size + rest.length ≤ nodes.size + ts.length := by
  cases h with
  | scalar =>
    simp only [addVariable, addExprs, push_size, List.length_cons]
    omega
  | scalarValue _ _ he =>
    have he := he.nodes_le nodes
    simp only [addVariable, addExprs, push_size, List.length_cons]
    omega
  | array _ _ _ hn _ =>
    have hn := hn.nodes_le nodes
    simp only [addVariable, addExprs, push_size, List.length_cons] at hn ⊢
    omega
  | @arrayValue ts mid rest t u v w z n es _ _ hn _ _ hes =>
    have hn := hn.nodes_le nodes
    have hes := hes.nodes_lt (addExpr n nodes).2
    simp only [addVariable, push_size, List.length_cons] at hn ⊢
    omega
  | openArray _ _ _ _ hes =>
    -- The length that was counted is a node without a token. The braces have one to spare.
    have hes := hes.nodes_lt nodes
    simp only [addVariable, push_size, List.length_cons]
    omega

theorem Declarators.nodes_le {kind : Kind} {constant : Bool} {xs : List Variable}
    (h : Declarators kind constant ts xs rest) (nodes : Array Node) :
    (addStmts (xs.map .declare) nodes).2.size + rest.length ≤ nodes.size + ts.length := by
  induction h generalizing nodes with
  | done => exact Nat.le_refl _
  | @more ts mid rest t x xs _ hx _ ih =>
    have hx := hx.nodes_le nodes
    have hxs := ih (addVariable x nodes).2
    simp only [List.map_cons, addStmts, addStmt, List.length_cons]
    omega

theorem Variables.nodes_le {xs : List Variable} (h : Variables ts xs rest)
    (nodes : Array Node) :
    (addStmts (xs.map .declare) nodes).2.size + rest.length ≤ nodes.size + ts.length := by
  cases h with
  | @plain ts mid rest t u kind x xs _ hx hxs _ =>
    have hx := hx.nodes_le nodes
    have hxs := hxs.nodes_le (addVariable x nodes).2
    simp only [List.map_cons, addStmts, addStmt, List.length_cons] at hxs ⊢
    omega
  | @constant ts mid rest w t u kind x xs _ _ hx hxs _ =>
    have hx := hx.nodes_le nodes
    have hxs := hxs.nodes_le (addVariable x nodes).2
    simp only [List.map_cons, addStmts, addStmt, List.length_cons] at hxs ⊢
    omega

mutual

theorem Statement.nodes_le : {ts rest : List Token} → {st : Stmt} → Statement ts st rest →
    (nodes : Array Node) → (addStmt st nodes).2.size + rest.length ≤ nodes.size + ts.length
  | _, _, _, .block _ hbody _, nodes => by
    have hbody := hbody.nodes_le nodes
    simp only [addStmt, push_size, List.length_cons] at hbody ⊢
    omega
  | _, _, _, @Statement.branch _ _ _ _ test _ _ htest hbody, nodes => by
    have htest := htest.nodes_le nodes
    have hbody := hbody.nodes_le (addCondition test nodes).2
    simp only [addStmt, push_size, List.length_cons]
    omega
  | _, _, _, @Statement.branchElse _ _ _ _ _ _ test body _ _ htest hbody _ _ hother, nodes => by
    have htest := htest.nodes_le nodes
    have hbody := hbody.nodes_le (addCondition test nodes).2
    have hother := hother.nodes_le (addStmt body (addCondition test nodes).2).2
    simp only [addStmt, push_size, List.length_cons] at hbody ⊢
    omega
  | _, _, _, @Statement.loop _ _ _ _ test _ _ htest hbody, nodes => by
    have htest := htest.nodes_le nodes
    have hbody := hbody.nodes_le (addCondition test nodes).2
    simp only [addStmt, push_size, List.length_cons]
    omega
  | _, _, _, .empty _, nodes => by
    simp only [addStmt, push_size, List.length_cons]
    omega
  | _, _, _, .call _ _ _ _, nodes => by
    simp only [addStmt, push_size, List.length_cons]
    omega
  | _, _, _, @Statement.assign _ _ _ _ _ target _ htarget _ hvalue _, nodes => by
    have htarget := htarget.nodes_le nodes
    have hvalue := hvalue.nodes_le (addExpr target.toExpr nodes).2
    simp only [addStmt, push_size, List.length_cons] at htarget hvalue ⊢
    omega

theorem Items.nodes_le : {ts rest : List Token} → {body : List Stmt} → Items ts body rest →
    (nodes : Array Node) → (addStmts body nodes).2.size + rest.length ≤ nodes.size + ts.length
  | _, _, _, .done, nodes => Nat.le_refl _
  | _, _, _, @Items.declare _ _ _ vs _ hvs hbody, nodes => by
    have hvs := hvs.nodes_le nodes
    have hbody := hbody.nodes_le (addStmts (vs.map .declare) nodes).2
    rw [addStmts_append]
    dsimp only
    omega
  | _, _, _, @Items.statement _ _ _ st _ hst hbody, nodes => by
    have hst := hst.nodes_le nodes
    have hbody := hbody.nodes_le (addStmt st nodes).2
    simp only [addStmts]
    omega

end

theorem Derives.nodes_le {p : Program} (h : Derives ts p) (a : Arena) :
    (add p a).nodes.size ≤ a.nodes.size + ts.length := by
  induction h generalizing a with
  | done => exact Nat.le_refl _
  | function _ _ _ _ _ hbody _ _ ih =>
    have hbody := hbody.nodes_le a.nodes
    refine Nat.le_trans (ih _) ?_
    simp only [Array.size_push, List.length_cons] at hbody ⊢
    omega
  | @globals ts mid xs p hxs _ ih =>
    have hxs := hxs.nodes_le a.nodes
    rw [add_globals]
    refine Nat.le_trans (ih _) ?_
    dsimp only
    omega

end Grammar

end C1Lang
