import C1Lang.Proofs.Parser.Soundness
import C1Lang.Proofs.Program.Shape
import C1Lang.Proofs.Token.Coverage
import C1Lang.Proofs.Token.Lines

/-!
# Spans that nest

In a text the tokens stand in a row: none is empty, and each begins where the one before it has
ended, or behind it. Reading a phrase puts one span into the row for the tokens of the phrase, that
of its node, and the spans of the children of the node were in the row where it stands now. So
spans nest as the tree does, and siblings stand apart in the order in which they are listed
(`parse_spans_nested`).
-/

namespace C1Lang

/-- The spans stand in a row between the two offsets. -/
def InRow (lo : Nat) : List Span → Nat → Prop
  | [], hi => lo ≤ hi
  | s :: rest, hi => lo ≤ s.start ∧ s.start < s.stop ∧ InRow s.stop rest hi

namespace InRow

variable {lo lo' hi hi' : Nat} {a b s : Span} {xs ys rest : List Span}

theorem le (h : InRow lo xs hi) : lo ≤ hi := by
  induction xs generalizing lo with
  | nil => exact h
  | cons s xs ih =>
    obtain ⟨hlo, hs, hxs⟩ := h
    exact Nat.le_trans hlo (Nat.le_trans (Nat.le_of_lt hs) (ih hxs))

theorem weaken (h : InRow lo xs hi) (hlo : lo' ≤ lo) : InRow lo' xs hi := by
  cases xs with
  | nil => exact Nat.le_trans hlo h
  | cons s xs => exact ⟨Nat.le_trans hlo h.1, h.2⟩

theorem sublist (h : InRow lo ys hi) (hs : xs.Sublist ys) : InRow lo xs hi := by
  induction hs generalizing lo with
  | slnil => exact h
  | cons s _ ih => exact (ih h.2.2).weaken (Nat.le_trans h.1 (Nat.le_of_lt h.2.1))
  | cons_cons s _ ih => exact ⟨h.1, h.2.1, ih h.2.2⟩

theorem split (h : InRow lo (xs ++ s :: rest) hi) :
    InRow lo xs s.start ∧ s.start < s.stop ∧ InRow s.stop rest hi := by
  induction xs generalizing lo with
  | nil => exact h
  | cons x xs ih =>
    obtain ⟨hlo, hx, hxs⟩ := h
    obtain ⟨hxs, hs⟩ := ih hxs
    exact ⟨⟨hlo, hx, hxs⟩, hs⟩

theorem append (h : InRow lo xs hi) (k : InRow hi ys hi') : InRow lo (xs ++ ys) hi' := by
  induction xs generalizing lo with
  | nil => exact k.weaken h
  | cons s xs ih => exact ⟨h.1, h.2.1, ih h.2.2⟩

theorem replace {zs : List Span} (h : InRow lo (xs ++ ys) hi)
    (hz : ∀ lo, InRow lo ys hi → InRow lo zs hi) : InRow lo (xs ++ zs) hi := by
  induction xs generalizing lo with
  | nil => exact hz lo h
  | cons s xs ih => exact ⟨h.1, h.2.1, ih h.2.2⟩

/-- The smallest span around the first and the last of some spans in a row holds them all, and can
stand in the row for them. -/
theorem around (h : InRow lo (a :: (xs ++ b :: rest)) hi) :
    InRow lo (a.merge b :: rest) hi ∧
      InRow (a.merge b).start (a :: (xs ++ [b])) (a.merge b).stop := by
  obtain ⟨hlo, ha, hrow⟩ := h
  obtain ⟨hxs, hb, hrest⟩ := hrow.split
  have hle := hxs.le
  have hmerge : a.merge b = ⟨a.start, b.stop⟩ := by
    simp only [Span.merge, Span.mk.injEq]
    omega
  rw [hmerge]
  refine ⟨⟨hlo, ?_, hrest⟩, Nat.le_refl _, ha, hxs.append ⟨Nat.le_refl _, hb, Nat.le_refl _⟩⟩
  dsimp only
  omega

theorem within (h : InRow lo xs hi) : ∀ s ∈ xs, lo ≤ s.start ∧ s.start < s.stop ∧ s.stop ≤ hi := by
  induction xs generalizing lo with
  | nil => exact fun _ hs => nomatch hs
  | cons x xs ih =>
    obtain ⟨hlo, hx, hxs⟩ := h
    refine List.forall_mem_cons.mpr ⟨⟨hlo, hx, hxs.le⟩, fun s hs => ?_⟩
    obtain ⟨hle, hs⟩ := ih hxs s hs
    exact ⟨by omega, hs⟩

theorem apart (h : InRow lo xs hi) : xs.Pairwise fun s t => s.stop ≤ t.start := by
  induction xs generalizing lo with
  | nil => exact .nil
  | cons x xs ih => exact .cons (fun s hs => (h.2.2.within s hs).1) (ih h.2.2)

theorem of_apart (h : ∀ s ∈ xs, lo ≤ s.start ∧ s.start < s.stop ∧ s.stop ≤ hi)
    (ha : xs.Pairwise fun s t => s.stop ≤ t.start) (hle : lo ≤ hi) : InRow lo xs hi := by
  induction ha generalizing lo with
  | nil => exact hle
  | cons hx _ ih =>
    obtain ⟨hfirst, hrest⟩ := List.forall_mem_cons.mp h
    exact ⟨hfirst.1, hfirst.2.1, ih (fun s hs => ⟨hx s hs, (hrest s hs).2⟩) hfirst.2.2⟩

end InRow

namespace Arena

def spanAt? (nodes : Array Node) (i : Nat) : Option Span := nodes[i]?.map Node.span

def SpansAt (nodes : Array Node) (is : List Nat) (spans : List Span) : Prop :=
  List.Forall₂ (fun i s => spanAt? nodes i = some s) is spans

def Nested (limit : Nat) (nodes : Array Node) : Prop :=
  ∀ (i : Nat) (n : Node), nodes[i]? = some n → n.span.start < n.span.stop ∧ n.span.stop ≤ limit ∧
    ∃ spans, SpansAt nodes n.children spans ∧ InRow n.span.start spans n.span.stop

/-- Nodes were added that nest, and among them those with the numbers and the spans. -/
structure Placed (limit : Nat) (nodes : Array Node) (is : List Nat) (nodes' : Array Node)
    (spans : List Span) : Prop where
  kept : nodes.toList <+: nodes'.toList
  nested : Nested limit nodes → Nested limit nodes'
  spans : SpansAt nodes' is spans

theorem SpansAt.mono {nodes nodes' : Array Node} {is : List Nat} {spans : List Span}
    (hs : SpansAt nodes is spans) (h : nodes.toList <+: nodes'.toList) :
    SpansAt nodes' is spans := by
  refine List.Forall₂.imp (fun i s hi => ?_) hs
  obtain ⟨n, hn, rfl⟩ := Option.map_eq_some_iff.mp hi
  simp [spanAt?, getElem?_mono h hn]

namespace Placed

variable {limit lo : Nat} {nodes nodes' nodes'' : Array Node} {is js : List Nat}
  {ss tt : List Span}

theorem nil (nodes : Array Node) : Placed limit nodes [] nodes [] :=
  ⟨List.prefix_rfl, fun h => h, .nil⟩

theorem append (h : Placed limit nodes is nodes' ss) (k : Placed limit nodes' js nodes'' tt) :
    Placed limit nodes (is ++ js) nodes'' (ss ++ tt) :=
  ⟨h.kept.trans k.kept, fun hn => k.nested (h.nested hn),
    List.rel_append (h.spans.mono k.kept) k.spans⟩

theorem prepend (h : Placed limit nodes is nodes' ss) (k : Placed limit nodes' js nodes'' tt) :
    Placed limit nodes (js ++ is) nodes'' (tt ++ ss) :=
  ⟨h.kept.trans k.kept, fun hn => k.nested (h.nested hn),
    List.rel_append k.spans (h.spans.mono k.kept)⟩

theorem push (h : Placed limit nodes is nodes' ss) (kind : NodeKind) {s : Span}
    (hs : s.start < s.stop) (hlimit : s.stop ≤ limit) (hrow : InRow s.start ss s.stop) :
    Placed limit nodes [(Arena.push nodes' kind s is).1] (Arena.push nodes' kind s is).2 [s] := by
  have hkept := push_kept nodes' kind s is
  refine ⟨h.kept.trans hkept, fun hn i n hi => ?_, .cons ?_ .nil⟩
  · by_cases heq : i = nodes'.size
    · have hself : n = ⟨kind, s, is⟩ := by
        simp only [Arena.push, heq, Array.getElem?_push_size] at hi
        exact (Option.some.inj hi).symm
      subst hself
      exact ⟨hs, hlimit, ss, h.spans.mono hkept, hrow⟩
    · have hold : nodes'[i]? = some n := by
        simpa only [Arena.push, Array.getElem?_push, if_neg heq] using hi
      obtain ⟨hn, hl, spans, hspans, hrow⟩ := h.nested hn i n hold
      exact ⟨hn, hl, spans, hspans.mono hkept, hrow⟩
  · simp [spanAt?, Arena.push]

theorem leaf (nodes : Array Node) (kind : NodeKind) {s : Span} {rest : List Span}
    (h : InRow lo (s :: rest) limit) :
    Placed limit nodes [(Arena.push nodes kind s []).1] (Arena.push nodes kind s []).2 [s] :=
  (nil nodes).push kind h.2.1 h.2.2.le (Nat.le_of_lt h.2.1)

theorem node (h : Placed limit nodes is nodes' ss) (kind : NodeKind) {a b : Span}
    (inner : List Span) {rest : List Span} (hrow : InRow lo (a :: (inner ++ b :: rest)) limit)
    (hss : ss.Sublist (a :: (inner ++ [b]))) :
    InRow lo (a.merge b :: rest) limit ∧
      Placed limit nodes [(Arena.push nodes' kind (a.merge b) is).1]
        (Arena.push nodes' kind (a.merge b) is).2 [a.merge b] := by
  obtain ⟨houter, hinner⟩ := hrow.around
  exact ⟨houter, h.push kind houter.2.1 houter.2.2.le (hinner.sublist hss)⟩

end Placed

end Arena

namespace Grammar

open Arena

variable {ts rest : List Token} {lo hi : Nat}

theorem Expression.placed {level : Level} {e : Expr} {k : Nat} (h : Expression level ts e k rest)
    (hrow : InRow lo (ts.map Token.span) hi) (nodes : Array Node) :
    InRow lo (e.span :: rest.map Token.span) hi ∧
      Placed hi nodes [(addExpr e nodes).1] (addExpr e nodes).2 [e.span] := by
  induction h generalizing lo nodes with
  | term _ ih | factor _ ih => exact ih hrow nodes
  | @add ts mid rest t op l r j k _ _ _ ihl ihr | @mul ts mid rest t op l r j k _ _ _ ihl ihr =>
    obtain ⟨⟨h₁, h₂, h₃, h₄, hmid⟩, hl⟩ := ihl hrow nodes
    obtain ⟨hrest, hr⟩ := ihr hmid (addExpr l nodes).2
    exact (hl.append hr).node .binary [t.span] ⟨h₁, h₂, h₃, h₄, hrest⟩ (by simp)
  | @signed ts rest t op e k _ _ ih =>
    obtain ⟨hrest, he⟩ := ih hrow.2.2 nodes
    exact he.node .unary [] ⟨hrow.1, hrow.2.1, hrest⟩ (by simp)
  | @smallest rest t u =>
    exact (Placed.nil nodes).node .literal [] hrow (by simp)
  | @parens ts rest t u e k _ _ _ ih =>
    obtain ⟨hrest, he⟩ := ih hrow.2.2 nodes
    have hall : InRow lo (t.span :: e.span :: u.span :: rest.map Token.span) hi :=
      ⟨hrow.1, hrow.2.1, hrest⟩
    exact ⟨hall.sublist (by simp), he⟩
  | literal => exact ⟨hrow, .leaf nodes .literal hrow⟩
  | name => exact ⟨hrow, .leaf nodes .lvalue hrow⟩
  | @element ts rest t u v i k _ _ _ _ ih =>
    obtain ⟨h₁, h₂, h₃, h₄, hts⟩ := hrow
    obtain ⟨hrest, hi⟩ := ih hts nodes
    exact hi.node .lvalue [u.span, i.span] ⟨h₁, h₂, h₃, h₄, hrest⟩ (by simp)

theorem Whole.placed {e : Expr} (h : Whole ts e rest) (hrow : InRow lo (ts.map Token.span) hi)
    (nodes : Array Node) : InRow lo (e.span :: rest.map Token.span) hi ∧
      Placed hi nodes [(addExpr e nodes).1] (addExpr e nodes).2 [e.span] := by
  obtain ⟨k, -, h⟩ := h
  exact h.placed hrow nodes

theorem Test.placed {c : Condition} (h : Test ts c rest)
    (hrow : InRow lo (ts.map Token.span) hi) (nodes : Array Node) :
    InRow lo (c.span :: rest.map Token.span) hi ∧
      Placed hi nodes [(addCondition c nodes).1] (addCondition c nodes).2 [c.span] := by
  cases h with
  | @mk ts mid rest t u v relation l r _ hl _ hr _ =>
    obtain ⟨h₁, h₂, hts⟩ := hrow
    obtain ⟨⟨h₃, h₄, h₅, h₆, hmid⟩, hl⟩ := hl.placed hts nodes
    obtain ⟨hrest, hr⟩ := hr.placed hmid (addExpr l nodes).2
    obtain ⟨hspan, hc⟩ :=
      (hl.append hr).node .condition [u.span] ⟨h₃, h₄, h₅, h₆, hrest⟩ (by simp)
    have hall : InRow lo (t.span :: l.span.merge r.span :: v.span :: rest.map Token.span) hi :=
      ⟨h₁, h₂, hspan⟩
    exact ⟨hall.sublist (by simp), hc⟩

theorem Target.placed {p : Place} (h : Target ts p rest)
    (hrow : InRow lo (ts.map Token.span) hi) (nodes : Array Node) :
    InRow lo (p.span :: rest.map Token.span) hi ∧
      Placed hi nodes [(addExpr p.toExpr nodes).1] (addExpr p.toExpr nodes).2 [p.span] := by
  cases h with
  | name => exact ⟨hrow, .leaf nodes .lvalue hrow⟩
  | @element ts _ t u v i _ _ hi _ =>
    obtain ⟨h₁, h₂, h₃, h₄, hts⟩ := hrow
    obtain ⟨hrest, hi⟩ := hi.placed hts nodes
    exact hi.node .lvalue [u.span, i.span] ⟨h₁, h₂, h₃, h₄, hrest⟩ (by simp)

theorem Elements.placed {es : List Expr} (h : Elements ts es rest)
    (hrow : InRow lo (ts.map Token.span) hi) (nodes : Array Node) :
    InRow lo (es.map Expr.span ++ rest.map Token.span) hi ∧
      Placed hi nodes (addExprs es nodes).1 (addExprs es nodes).2 (es.map Expr.span) := by
  induction h generalizing lo nodes with
  | done => exact ⟨hrow, .nil nodes⟩
  | comma => exact ⟨hrow.sublist (by simp), .nil nodes⟩
  | @more ts mid rest t e es _ he _ ih =>
    obtain ⟨h₁, h₂, hts⟩ := hrow
    obtain ⟨⟨h₃, h₄, hmid⟩, he⟩ := he.placed hts nodes
    obtain ⟨hrest, hes⟩ := ih hmid (addExpr e nodes).2
    have hall : InRow lo (t.span :: ((e :: es).map Expr.span ++ rest.map Token.span)) hi :=
      ⟨h₁, h₂, h₃, h₄, hrest⟩
    exact ⟨hall.sublist (by simp), he.append hes⟩

theorem Braces.placed {es : List Expr} {z : Token} (h : Braces ts es z rest)
    (hrow : InRow lo (ts.map Token.span) hi) (nodes : Array Node) :
    InRow lo (es.map Expr.span ++ z.span :: rest.map Token.span) hi ∧
      Placed hi nodes (addExprs es nodes).1 (addExprs es nodes).2 (es.map Expr.span) := by
  cases h with
  | empty => exact ⟨hrow.sublist (by simp), .nil nodes⟩
  | @elements ts mid rest t _ e es _ he hes _ =>
    obtain ⟨h₁, h₂, hts⟩ := hrow
    obtain ⟨⟨h₃, h₄, hmid⟩, he⟩ := he.placed hts nodes
    obtain ⟨hrest, hes⟩ := hes.placed hmid (addExpr e nodes).2
    have hall : InRow lo (t.span :: ((e :: es).map Expr.span ++ z.span :: rest.map Token.span))
        hi := ⟨h₁, h₂, h₃, h₄, hrest⟩
    exact ⟨hall.sublist (by simp), he.append hes⟩

theorem Declarator.placed {kind : Kind} {constant : Bool} {x : Variable}
    (h : Declarator kind constant ts x rest) (hrow : InRow lo (ts.map Token.span) hi)
    (nodes : Array Node) : InRow lo (x.span :: rest.map Token.span) hi ∧
      Placed hi nodes [(addVariable x nodes).1] (addVariable x nodes).2 [x.span] := by
  cases h with
  | scalar => exact ⟨hrow, .leaf nodes .declaration hrow⟩
  | @scalarValue ts _ t u e _ _ he =>
    obtain ⟨h₁, h₂, h₃, h₄, hts⟩ := hrow
    obtain ⟨hrest, he⟩ := he.placed hts nodes
    exact he.node .declaration [u.span] ⟨h₁, h₂, h₃, h₄, hrest⟩ (by simp)
  | @array ts _ t u v n _ _ _ hn _ =>
    obtain ⟨h₁, h₂, h₃, h₄, hts⟩ := hrow
    obtain ⟨hrest, hn⟩ := hn.placed hts nodes
    exact hn.node .declaration [u.span, n.span] ⟨h₁, h₂, h₃, h₄, hrest⟩ (by simp)
  | @arrayValue ts mid _ t u v w z n es _ _ hn _ _ hes =>
    obtain ⟨h₁, h₂, h₃, h₄, hts⟩ := hrow
    obtain ⟨⟨h₅, h₆, h₇, h₈, h₉, h₁₀, hmid⟩, hn⟩ := hn.placed hts nodes
    obtain ⟨hrest, hes⟩ := hes.placed hmid (addExpr n nodes).2
    refine (hn.append hes).node .declaration
      (u.span :: n.span :: v.span :: w.span :: es.map Expr.span)
      ⟨h₁, h₂, h₃, h₄, h₅, h₆, h₇, h₈, h₉, h₁₀, hrest⟩ ?_
    have hsub := List.sublist_append_left (es.map Expr.span) [z.span]
    exact .cons _ (.cons _ (.cons_cons n.span (.cons _ (.cons _ hsub))))
  | @openArray mid _ t u v w z es _ _ _ _ hes =>
    obtain ⟨h₁, h₂, h₃, h₄, h₅, h₆, h₇, h₈, hmid⟩ := hrow
    obtain ⟨hrest, hes⟩ := hes.placed hmid nodes
    -- The counted length is added after the initializers, and listed before them.
    have hclose : InRow u.span.stop (v.span :: w.span :: mid.map Token.span) hi :=
      ⟨h₅, h₆, h₇, h₈, hmid⟩
    have hcount : Placed hi _ _ _ [v.span] := .leaf (addExprs es nodes).2 .literal hclose
    refine (hes.prepend hcount).node .declaration (u.span :: v.span :: w.span :: es.map Expr.span)
      ⟨h₁, h₂, h₃, h₄, h₅, h₆, h₇, h₈, hrest⟩ ?_
    have hsub := List.sublist_append_left (es.map Expr.span) [z.span]
    exact .cons _ (.cons _ (.cons_cons v.span (.cons _ hsub)))

theorem Declarators.placed {kind : Kind} {constant : Bool} {xs : List Variable}
    (h : Declarators kind constant ts xs rest) (hrow : InRow lo (ts.map Token.span) hi)
    (nodes : Array Node) : InRow lo (xs.map Variable.span ++ rest.map Token.span) hi ∧
      Placed hi nodes (addStmts (xs.map .declare) nodes).1 (addStmts (xs.map .declare) nodes).2
        (xs.map Variable.span) := by
  induction h generalizing lo nodes with
  | done => exact ⟨hrow, .nil nodes⟩
  | @more ts mid rest t x xs _ hx _ ih =>
    obtain ⟨h₁, h₂, hts⟩ := hrow
    obtain ⟨⟨h₃, h₄, hmid⟩, hx⟩ := hx.placed hts nodes
    obtain ⟨hrest, hxs⟩ := ih hmid (addVariable x nodes).2
    have hall : InRow lo (t.span :: ((x :: xs).map Variable.span ++ rest.map Token.span)) hi :=
      ⟨h₁, h₂, h₃, h₄, hrest⟩
    exact ⟨hall.sublist (by simp), hx.append hxs⟩

theorem Variables.placed {xs : List Variable} (h : Variables ts xs rest)
    (hrow : InRow lo (ts.map Token.span) hi) (nodes : Array Node) :
    InRow lo (xs.map Variable.span ++ rest.map Token.span) hi ∧
      Placed hi nodes (addStmts (xs.map .declare) nodes).1 (addStmts (xs.map .declare) nodes).2
        (xs.map Variable.span) := by
  have hmore : ∀ {kind : Kind} {constant : Bool} {ts mid : List Token} {u : Token} {x : Variable}
      {xs : List Variable} {lo : Nat}, Declarator kind constant ts x mid →
      Declarators kind constant mid xs (u :: rest) → InRow lo (ts.map Token.span) hi →
      InRow lo ((x :: xs).map Variable.span ++ rest.map Token.span) hi ∧
        Placed hi nodes (addStmts ((x :: xs).map .declare) nodes).1
          (addStmts ((x :: xs).map .declare) nodes).2 ((x :: xs).map Variable.span) := by
    intro kind constant ts mid u x xs lo hx hxs hrow
    obtain ⟨⟨h₁, h₂, hmid⟩, hx⟩ := hx.placed hrow nodes
    obtain ⟨hrest, hxs⟩ := hxs.placed hmid (addVariable x nodes).2
    have hall : InRow lo ((x :: xs).map Variable.span ++ u.span :: rest.map Token.span) hi :=
      ⟨h₁, h₂, hrest⟩
    exact ⟨hall.sublist (by simp), hx.append hxs⟩
  cases h with
  | plain _ hx hxs _ => exact hmore hx hxs (hrow.sublist (by simp))
  | constant _ _ hx hxs _ => exact hmore hx hxs (hrow.sublist (by simp))

mutual

theorem Statement.placed : {ts rest : List Token} → {st : Stmt} → Statement ts st rest →
    {lo hi : Nat} → InRow lo (ts.map Token.span) hi → (nodes : Array Node) →
    InRow lo (st.span :: rest.map Token.span) hi ∧
      Placed hi nodes [(addStmt st nodes).1] (addStmt st nodes).2 [st.span]
  | _, _, _, .block _ hbody _, _, _, hrow, nodes => by
    obtain ⟨h₁, h₂, hts⟩ := hrow
    obtain ⟨hrest, hbody⟩ := hbody.placed hts nodes
    exact hbody.node .block _ ⟨h₁, h₂, hrest⟩ (by simp)
  | _, _, _, @Statement.branch _ _ _ t test body _ htest hbody, _, _, hrow, nodes => by
    obtain ⟨h₁, h₂, hts⟩ := hrow
    obtain ⟨⟨h₃, h₄, hmid⟩, htest⟩ := htest.placed hts nodes
    obtain ⟨hrest, hbody⟩ := hbody.placed hmid (addCondition test nodes).2
    exact (htest.append hbody).node .branch [test.span] ⟨h₁, h₂, h₃, h₄, hrest⟩ (by simp)
  | _, _, _, @Statement.branchElse _ _ _ _ t u test body other _ htest hbody _ _ hother, _, _,
      hrow, nodes => by
    obtain ⟨h₁, h₂, hts⟩ := hrow
    obtain ⟨⟨h₃, h₄, hmid⟩, htest⟩ := htest.placed hts nodes
    obtain ⟨⟨h₅, h₆, h₇, h₈, hmid'⟩, hbody⟩ := hbody.placed hmid (addCondition test nodes).2
    obtain ⟨hrest, hother⟩ :=
      hother.placed hmid' (addStmt body (addCondition test nodes).2).2
    exact (htest.append (hbody.append hother)).node .branch [test.span, body.span, u.span]
      ⟨h₁, h₂, h₃, h₄, h₅, h₆, h₇, h₈, hrest⟩ (by simp)
  | _, _, _, @Statement.loop _ _ _ t test body _ htest hbody, _, _, hrow, nodes => by
    obtain ⟨h₁, h₂, hts⟩ := hrow
    obtain ⟨⟨h₃, h₄, hmid⟩, htest⟩ := htest.placed hts nodes
    obtain ⟨hrest, hbody⟩ := hbody.placed hmid (addCondition test nodes).2
    exact (htest.append hbody).node .loop [test.span] ⟨h₁, h₂, h₃, h₄, hrest⟩ (by simp)
  | _, _, _, .empty _, _, _, hrow, nodes => ⟨hrow, .leaf nodes .empty hrow⟩
  | _, _, _, @Statement.call _ t u v w _ _ _ _, _, _, hrow, nodes =>
    (Placed.nil nodes).node .call [u.span, v.span] hrow (by simp)
  | _, _, _, @Statement.assign _ _ _ t u target value htarget _ hvalue _, _, _, hrow, nodes => by
    obtain ⟨⟨h₁, h₂, h₃, h₄, hmid⟩, htarget⟩ := htarget.placed hrow nodes
    obtain ⟨hrest, hvalue⟩ := hvalue.placed hmid (addExpr target.toExpr nodes).2
    exact (htarget.append hvalue).node .assignment [t.span, value.span]
      ⟨h₁, h₂, h₃, h₄, hrest⟩ (by simp)

theorem Items.placed : {ts rest : List Token} → {body : List Stmt} → Items ts body rest →
    {lo hi : Nat} → InRow lo (ts.map Token.span) hi → (nodes : Array Node) →
    InRow lo (body.map Stmt.span ++ rest.map Token.span) hi ∧
      Placed hi nodes (addStmts body nodes).1 (addStmts body nodes).2 (body.map Stmt.span)
  | _, _, _, .done, _, _, hrow, nodes => ⟨hrow, .nil nodes⟩
  | _, _, _, @Items.declare _ _ _ vs _ hvs hbody, _, _, hrow, nodes => by
    obtain ⟨hmid, hvs⟩ := hvs.placed hrow nodes
    have hall := hmid.replace fun _ h =>
      (hbody.placed h (addStmts (vs.map .declare) nodes).2).1
    obtain ⟨-, hbody⟩ := hbody.placed (hmid.sublist (List.sublist_append_right _ _))
      (addStmts (vs.map .declare) nodes).2
    rw [addStmts_append]
    simpa [Function.comp_def, Stmt.span] using ⟨hall, hvs.append hbody⟩
  | _, _, _, @Items.statement _ _ _ st _ hst hbody, _, _, hrow, nodes => by
    obtain ⟨⟨h₁, h₂, hmid⟩, hst⟩ := hst.placed hrow nodes
    obtain ⟨hrest, hbody⟩ := hbody.placed hmid (addStmt st nodes).2
    exact ⟨⟨h₁, h₂, hrest⟩, hst.append hbody⟩

end

theorem Derives.placed {p : Program} (h : Derives ts p) (hrow : InRow lo (ts.map Token.span) hi)
    (a : Arena) : InRow lo (p.map Declaration.span) hi ∧ ∃ is, (add p a).roots = a.roots ++ is ∧
      Placed hi a.nodes is (add p a).nodes (p.map Declaration.span) := by
  induction h generalizing lo a with
  | done => exact ⟨hrow, [], (List.append_nil _).symm, .nil a.nodes⟩
  | @function ts mid t name u v w x body p _ _ _ _ _ hbody _ _ ih =>
    obtain ⟨h₁, h₂, h₃, h₄, h₅, h₆, h₇, h₈, h₉, h₁₀, hts⟩ := hrow
    obtain ⟨hmid, hbody⟩ := hbody.placed hts a.nodes
    obtain ⟨⟨h₉, h₁₀, hmid⟩, hblock⟩ :=
      hbody.node .block (body.map Stmt.span) ⟨h₉, h₁₀, hmid⟩ (by simp)
    obtain ⟨⟨h₁, h₂, hmid⟩, hfunction⟩ := hblock.node .function [name.span, u.span, v.span]
      ⟨h₁, h₂, h₃, h₄, h₅, h₆, h₇, h₈, h₉, h₁₀, hmid⟩ (by simp)
    obtain ⟨hrest, is, hroots, hp⟩ := ih hmid ⟨_, a.roots ++ [_]⟩
    exact ⟨⟨h₁, h₂, hrest⟩, _ :: is, hroots.trans (List.append_assoc _ _ _), hfunction.append hp⟩
  | @globals ts mid vs p hvs _ ih =>
    obtain ⟨hmid, hvs⟩ := hvs.placed hrow a.nodes
    rw [add_globals]
    obtain ⟨-, is, hroots, hp⟩ := ih (hmid.sublist (List.sublist_append_right _ _))
      ⟨(addStmts (vs.map .declare) a.nodes).2, a.roots ++ (addStmts (vs.map .declare) a.nodes).1⟩
    have hall := hmid.replace fun lo h => (ih h a).1
    refine ⟨by simpa [Function.comp_def, Declaration.span] using hall, _,
      hroots.trans (List.append_assoc _ _ _), ?_⟩
    simpa [Function.comp_def, Declaration.span] using hvs.append hp

end Grammar

theorem significant_lex_inRow {text : String} (hbytes : byteLength text.toList < 0x100000000) :
    InRow 0 ((significant (lex text).tokens).map Token.span) (byteLength text.toList) := by
  have hsignificant : (significant (lex text).tokens).Sublist (lex text).tokens :=
    List.filter_sublist.trans (List.takeWhile_sublist _)
  refine .of_apart ?_ (List.pairwise_map.mpr ((lex_tokens_apart hbytes).sublist hsignificant))
    (Nat.zero_le _)
  refine List.forall_mem_map.mpr fun t ht => ⟨Nat.zero_le _, ?_, ?_⟩
  · have hkind : (t.kind != .eof) = true :=
      List.all_eq_true.mp List.all_takeWhile t (List.mem_of_mem_filter ht)
    have hfound : t ∈ (lex text).tokens.filter (·.kind != .eof) :=
      List.mem_filter.mpr ⟨hsignificant.subset ht, hkind⟩
    rw [filter_lex_tokens hbytes] at hfound
    obtain ⟨item, hitem, htoken⟩ := List.mem_filterMap.mp hfound
    have hspan := (Lexer.items_cover 0 text.toList).start_lt_stop item hitem
    cases item <;> cases htoken
    exact hspan
  · exact (lex_tokens_within hbytes "" t (hsignificant.subset ht)).stop

/-- In a text of less than 2 ^ 32 bytes that is a program, the span of every node is a piece of the
text that is not empty and holds the spans of the children, which stand apart in the order in which
they are listed. So do the declarations in the text. -/
theorem parse_spans_nested {text : String} {p : Program}
    (hbytes : byteLength text.toList < 0x100000000)
    (hp : (parse (lex text).tokens).program? = some p) :
    (∀ (i : Nat) (n : Node), p.arena.nodes[i]? = some n →
      n.span.start < n.span.stop ∧ n.span.stop ≤ byteLength text.toList ∧
      ∃ spans, Arena.SpansAt p.arena.nodes n.children spans ∧
        (∀ s ∈ spans, n.span.start ≤ s.start ∧ s.stop ≤ n.span.stop) ∧
        spans.Pairwise fun s t => s.stop ≤ t.start) ∧
    ∃ spans, Arena.SpansAt p.arena.nodes p.arena.roots spans ∧
      spans.Pairwise fun s t => s.stop ≤ t.start := by
  have hrow := significant_lex_inRow hbytes
  obtain ⟨hroots, is, his, hplaced⟩ := (derives_of_parse hp).placed hrow {}
  have hnested := hplaced.nested (by simp [Arena.Nested])
  refine ⟨fun i n hn => ?_, _, ?_, hroots.apart⟩
  · obtain ⟨hn, hlimit, spans, hspans, hrow⟩ := hnested i n hn
    refine ⟨hn, hlimit, spans, hspans, fun s hs => ?_, hrow.apart⟩
    obtain ⟨hstart, -, hstop⟩ := hrow.within s hs
    exact ⟨hstart, hstop⟩
  · have his : p.arena.roots = is := his
    rw [his]
    exact hplaced.spans

theorem parse_spans_nested_counted :
    byteLength "int a[] = \x7b 1, /* two */ (2) \x7d;".toList < 0x100000000 ∧ ∃ p n,
    (parse (lex "int a[] = \x7b 1, /* two */ (2) \x7d;").tokens).program? = some p ∧
    p.arena.nodes[3]? = some n ∧ n.children = [2, 0, 1] ∧
    ∃ spans, Arena.SpansAt p.arena.nodes [2, 0, 1] spans ∧
      (∀ s ∈ spans, n.span.start ≤ s.start ∧ s.stop ≤ n.span.stop) ∧
      spans.Pairwise fun s t => s.stop ≤ t.start := by
  have hbytes : byteLength "int a[] = \x7b 1, /* two */ (2) \x7d;".toList < 0x100000000 := by
    decide +kernel
  have hnode : ((parse (lex "int a[] = \x7b 1, /* two */ (2) \x7d;").tokens).program?.bind
      (·.arena.nodes[3]?)).any (·.children = [2, 0, 1]) = true := by decide +kernel
  obtain ⟨n, hn, hchildren⟩ := (Option.any_eq_true _ _).mp hnode
  obtain ⟨p, hp, hn⟩ := Option.bind_eq_some_iff.mp hn
  have hchildren : n.children = [2, 0, 1] := by simpa using hchildren
  obtain ⟨-, -, spans, hspans⟩ := (parse_spans_nested hbytes hp).1 3 n hn
  exact ⟨hbytes, p, n, hp, hn, hchildren, spans, hchildren ▸ hspans⟩

/-- The second declaration begins at the byte 2 ^ 32, and is placed where the first one is. -/
theorem parse_spans_meet :
    (lex (farApart "int a;" "int b;")).diagnostics = [] ∧
    ∃ p, (parse (lex (farApart "int a;" "int b;")).tokens).program? = some p ∧
      Arena.SpansAt p.arena.nodes p.arena.roots [⟨4, 5⟩, ⟨4, 5⟩] ∧
      ¬ [(⟨4, 5⟩ : Span), ⟨4, 5⟩].Pairwise fun s t => s.stop ≤ t.start := by
  have hlex := lex_farApart (a := "int a;") (by decide) (by decide +kernel) "int b;"
  have hparse : ((parse ((lex "int a;").tokens.dropLast ++ (lex "int b;").tokens)).program?).any
      (fun p => p.arena.roots.map (Arena.spanAt? p.arena.nodes) =
        [(⟨4, 5⟩ : Span), ⟨4, 5⟩].map some) = true := by
    decide +kernel
  obtain ⟨p, hp, hspans⟩ := (Option.any_eq_true _ _).mp hparse
  rw [hlex]
  refine ⟨by decide +kernel, p, hp, ?_, by decide⟩
  rw [decide_eq_true_eq, ← List.forall₂_eq_eq_eq, List.forall₂_map_left_iff,
    List.forall₂_map_right_iff] at hspans
  exact hspans

end C1Lang
