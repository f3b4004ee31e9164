import C1Lang.Proofs.Parser.Grammar
import Mathlib.Data.List.Forall2

/-!
# Where a program can be complained about

The sites of a program are groups of spans in its tree, in the order of the text: the test of a
branch is one, what is declared by a variable is one and each of its initializers another. A
derivation takes the groups off the tokens one behind the other (`Spread`). So spans that are
picked from a program, no two of them from one group, stand in the order of the text, although
inside of a group they may not.
-/

namespace C1Lang

def Expr.spans : Expr → List Span
  | .literal _ span | .name _ span => [span]
  | .unary _ operand span => span :: operand.spans
  | .binary _ left right span => span :: (left.spans ++ right.spans)
  | .element _ index span => span :: index.spans

theorem Expr.span_mem (e : Expr) : e.span ∈ e.spans := by
  cases e <;> exact List.mem_cons_self

def Place.spans (p : Place) : List Span := p.toExpr.spans

def Condition.spans (c : Condition) : List Span := c.left.spans ++ c.right.spans

def Variable.spans (v : Variable) : List Span :=
  v.nameSpan :: v.span :: v.extent.elim [] (·.length.spans)

def Variable.sites (v : Variable) : List (List Span) :=
  v.spans :: v.initializers.map Expr.spans

mutual

def Stmt.sites : Stmt → List (List Span)
  | .declare v => v.sites
  | .assign target value _ => [target.spans ++ value.spans]
  | .call _ span => [[span]]
  | .block body _ => Stmt.allSites body
  | .branch test body _ => test.spans :: body.sites
  | .branchElse test body other _ => test.spans :: (body.sites ++ other.sites)
  | .loop test body _ => test.spans :: body.sites
  | .empty _ => []

def Stmt.allSites : List Stmt → List (List Span)
  | [] => []
  | st :: rest => st.sites ++ Stmt.allSites rest

end

theorem Stmt.allSites_declare (vs : List Variable) (body : List Stmt) :
    Stmt.allSites (vs.map .declare ++ body) = vs.flatMap (·.sites) ++ Stmt.allSites body := by
  induction vs with
  | nil => rfl
  | cons v vs ih =>
    rw [List.map_cons, List.cons_append, Stmt.allSites, ih, List.flatMap_cons, List.append_assoc,
      Stmt.sites]

def Declaration.sites : Declaration → List (List Span)
  | .function f => [f.nameSpan] :: Stmt.allSites f.body
  | .global v => v.sites

def Program.sites (p : Program) : List (List Span) := p.flatMap (·.sites)

/-- The spans are from groups one behind the other, no two of them from the same one. -/
def Picks (spans : List Span) (sites : List (List Span)) : Prop :=
  List.SublistForall₂ (· ∈ ·) spans sites

namespace Picks

variable {spans spans' : List Span} {sites sites' : List (List Span)}

theorem nil : Picks [] sites := List.SublistForall₂.nil

theorem cons {span : Span} {group : List Span} (h : span ∈ group) (hp : Picks spans sites) :
    Picks (span :: spans) (group :: sites) := List.SublistForall₂.cons h hp

theorem mono (h : Picks spans sites) (hs : sites.Sublist sites') : Picks spans sites' := by
  obtain ⟨groups, hgroups, hsub⟩ := List.sublistForall₂_iff.mp h
  exact List.sublistForall₂_iff.mpr ⟨groups, hgroups, hsub.trans hs⟩

theorem append (h : Picks spans sites) (h' : Picks spans' sites') :
    Picks (spans ++ spans') (sites ++ sites') := by
  obtain ⟨groups, hgroups, hsub⟩ := List.sublistForall₂_iff.mp h
  obtain ⟨groups', hgroups', hsub'⟩ := List.sublistForall₂_iff.mp h'
  exact List.sublistForall₂_iff.mpr
    ⟨groups ++ groups', List.rel_append hgroups hgroups', hsub.append hsub'⟩

end Picks

def Rising (ts : List Token) : Prop := ts.Pairwise fun a b => a.span.start ≤ b.span.start

theorem Rising.suffix {ts rest : List Token} (h : Rising ts) (hs : rest <:+ ts) : Rising rest :=
  h.sublist hs.sublist

theorem Rising.merge_start {t : Token} {ts : List Token} (h : Rising (t :: ts)) {span : Span}
    (hs : ∃ u ∈ ts, span.start = u.span.start) : (t.span.merge span).start = t.span.start := by
  obtain ⟨u, hu, hspan⟩ := hs
  have hle := (List.pairwise_cons.mp h).1 u hu
  show min t.span.start span.start = _
  omega

/-- The tokens before `rest` were read, and each of the spans starts with one of them. -/
def Stands (spans : List Span) (ts rest : List Token) : Prop :=
  ∃ used, ts = used ++ rest ∧ ∀ span ∈ spans, ∃ t ∈ used, span.start = t.span.start

namespace Stands

variable {spans spans' : List Span} {ts mid rest : List Token} {t : Token}

theorem token (h : ∀ span ∈ spans, span.start = t.span.start) : Stands spans (t :: rest) rest :=
  ⟨[t], rfl, fun span hspan => ⟨t, List.mem_singleton_self t, h span hspan⟩⟩

theorem pass : Stands [] (t :: rest) rest := token nofun

theorem own : Stands [t.span] (t :: rest) rest := by
  refine token fun span hspan => ?_
  rw [List.mem_singleton.mp hspan]

theorem append (h : Stands spans ts mid) (h' : Stands spans' mid rest) :
    Stands (spans ++ spans') ts rest := by
  obtain ⟨used, rfl, hused⟩ := h
  obtain ⟨used', rfl, hused'⟩ := h'
  refine ⟨used ++ used', (List.append_assoc _ _ _).symm, fun span hspan => ?_⟩
  rcases List.mem_append.mp hspan with hspan | hspan
  · obtain ⟨t, ht, heq⟩ := hused span hspan
    exact ⟨t, List.mem_append_left _ ht, heq⟩
  · obtain ⟨t, ht, heq⟩ := hused' span hspan
    exact ⟨t, List.mem_append_right _ ht, heq⟩

theorem mono (h : Stands spans ts rest) (hs : spans' ⊆ spans) : Stands spans' ts rest := by
  obtain ⟨used, hts, hused⟩ := h
  exact ⟨used, hts, fun span hspan => hused span (hs hspan)⟩

theorem skip (h : Stands spans ts rest) : Stands spans (t :: ts) rest := pass.append h

theorem close (h : Stands spans ts (t :: rest)) : Stands spans ts rest := by
  have hclosed := h.append pass
  rwa [List.append_nil] at hclosed

theorem merge (h : Stands spans ts rest) {a b : Span} (ha : a ∈ spans) (hb : b ∈ spans) :
    Stands (a.merge b :: spans) ts rest := by
  obtain ⟨used, hts, hused⟩ := h
  refine ⟨used, hts, fun span hspan => ?_⟩
  rcases List.mem_cons.mp hspan with rfl | hspan
  · rcases Nat.le_total a.start b.start with hle | hle
    · obtain ⟨t, ht, heq⟩ := hused a ha
      exact ⟨t, ht, (Nat.min_eq_left hle).trans heq⟩
    · obtain ⟨t, ht, heq⟩ := hused b hb
      exact ⟨t, ht, (Nat.min_eq_right hle).trans heq⟩
  · exact hused span hspan

theorem lead (h : Stands spans ts rest) {span : Span} (hspan : span ∈ spans) :
    Stands (t.span.merge span :: spans) (t :: ts) rest := by
  have hspans := (own.append h).merge (a := t.span) (b := span) List.mem_cons_self
    (List.mem_cons_of_mem _ hspan)
  exact hspans.mono (List.cons_subset_cons _ (List.subset_cons_self _ _))

theorem suffix (h : Stands spans ts rest) : rest <:+ ts := by
  obtain ⟨used, hts, -⟩ := h
  exact ⟨used, hts.symm⟩

theorem start_mem (h : Stands spans ts rest) {span : Span} (hspan : span ∈ spans) :
    ∃ t ∈ ts, span.start = t.span.start := by
  obtain ⟨used, rfl, hused⟩ := h
  obtain ⟨t, ht, heq⟩ := hused span hspan
  exact ⟨t, List.mem_append_left _ ht, heq⟩

end Stands

/-- The groups stand one behind the other in the tokens before `rest`. -/
inductive Spread : List (List Span) → List Token → List Token → Prop
  | done {ts rest : List Token} : rest <:+ ts → Spread [] ts rest
  | next {spans : List Span} {sites : List (List Span)} {ts mid rest : List Token} :
      Stands spans ts mid → Spread sites mid rest → Spread (spans :: sites) ts rest

namespace Spread

variable {spans : List Span} {sites sites' : List (List Span)} {ts mid rest : List Token}
  {t : Token}

theorem one (h : Stands spans ts rest) : Spread [spans] ts rest := .next h (.done List.suffix_rfl)

theorem suffix (h : Spread sites ts rest) : rest <:+ ts := by
  induction h with
  | done h => exact h
  | next h _ ih => exact ih.trans h.suffix

theorem skip (h : Spread sites ts rest) : Spread sites (t :: ts) rest := by
  cases h with
  | done h => exact .done (h.trans (List.suffix_cons _ _))
  | next h hs => exact .next h.skip hs

theorem behind (h : Spread sites mid rest) (hs : mid <:+ ts) : Spread sites ts rest := by
  obtain ⟨skipped, rfl⟩ := hs
  induction skipped with
  | nil => exact h
  | cons t skipped ih => exact ih.skip

theorem append (h : Spread sites ts mid) (h' : Spread sites' mid rest) :
    Spread (sites ++ sites') ts rest := by
  induction h with
  | done hs => exact h'.behind hs
  | next h _ ih => exact .next h (ih h')

theorem close (h : Spread sites ts (t :: rest)) : Spread sites ts rest := by
  have hclosed := h.append (.done (List.suffix_cons t rest))
  rwa [List.append_nil] at hclosed

theorem picked (h : Spread sites ts rest) (hr : Rising ts) {picked : List Span}
    (hp : Picks picked sites) :
    picked.Pairwise (fun a b => a.start ≤ b.start) ∧
      ∀ span ∈ picked, ∃ t ∈ ts, span.start = t.span.start := by
  induction h generalizing picked with
  | done _ =>
    cases hp
    exact ⟨.nil, nofun⟩
  | next hstands _ ih =>
    obtain ⟨used, rfl, hused⟩ := hstands
    have hbetween := (List.pairwise_append.mp hr).2.2
    have hlater := fun {picked : List Span} => @ih (hr.suffix (List.suffix_append _ _)) picked
    cases hp with
    | nil => exact ⟨.nil, nofun⟩
    | cons hspan hp =>
      obtain ⟨hsorted, hwithin⟩ := hlater hp
      obtain ⟨t, ht, hstart⟩ := hused _ hspan
      refine ⟨List.pairwise_cons.mpr ⟨fun b hb => ?_, hsorted⟩, fun b hb => ?_⟩
      · obtain ⟨u, hu, hb⟩ := hwithin b hb
        rw [hstart, hb]
        exact hbetween t ht u hu
      · rcases List.mem_cons.mp hb with rfl | hb
        · exact ⟨t, List.mem_append_left _ ht, hstart⟩
        · obtain ⟨u, hu, hb⟩ := hwithin b hb
          exact ⟨u, List.mem_append_right _ hu, hb⟩
    | cons_right hp =>
      obtain ⟨hsorted, hwithin⟩ := hlater hp
      refine ⟨hsorted, fun b hb => ?_⟩
      obtain ⟨u, hu, hb⟩ := hwithin b hb
      exact ⟨u, List.mem_append_right _ hu, hb⟩

end Spread

namespace Grammar

variable {ts rest : List Token}

theorem Expression.stands {level : Level} {e : Expr} {k : Nat}
    (h : Expression level ts e k rest) : Stands e.spans ts rest := by
  induction h with
  | term _ ih => exact ih
  | factor _ ih => exact ih
  | @add _ _ _ _ _ l r _ _ _ _ _ ihl ihr =>
    exact (ihl.append ihr.skip).merge (List.mem_append_left _ l.span_mem)
      (List.mem_append_right _ r.span_mem)
  | @mul _ _ _ _ _ l r _ _ _ _ _ ihl ihr =>
    exact (ihl.append ihr.skip).merge (List.mem_append_left _ l.span_mem)
      (List.mem_append_right _ r.span_mem)
  | @signed _ _ _ _ e _ _ _ ih => exact ih.lead e.span_mem
  | @smallest rest t u _ _ =>
    have hspans : Stands [t.span.merge u.span, u.span] (t :: u :: rest) rest :=
      Stands.own.lead List.mem_cons_self
    exact hspans.mono (by simp [Expr.spans])
  | parens _ _ _ ih => exact ih.close.skip
  | literal => exact .own
  | name => exact .own
  | @element ts rest t u v i _ _ _ _ _ ih =>
    have hspans : Stands (t.span.merge v.span :: (i.spans ++ [v.span])) (t :: u :: ts) rest :=
      (ih.skip.append .own).lead (by simp)
    exact hspans.mono (by simp [Expr.spans])

theorem Whole.stands {e : Expr} (h : Whole ts e rest) : Stands e.spans ts rest := by
  obtain ⟨k, -, h⟩ := h
  exact h.stands

theorem Test.stands {c : Condition} (h : Test ts c rest) : Stands c.spans ts rest := by
  cases h with
  | mk _ hl _ hr _ => exact (hl.stands.append hr.stands.close.skip).skip

theorem Target.stands {p : Place} (h : Target ts p rest) : Stands p.spans ts rest := by
  cases h with
  | name => exact .own
  | @element ts _ t u v i _ _ hi _ =>
    have hspans : Stands (t.span.merge v.span :: (i.spans ++ [v.span])) (t :: u :: ts) rest :=
      (hi.stands.skip.append .own).lead (by simp)
    exact hspans.mono (by simp [Place.spans, Place.toExpr, Expr.spans])

theorem Elements.spread {es : List Expr} (h : Elements ts es rest) :
    Spread (es.map Expr.spans) ts rest := by
  induction h with
  | done => exact .done List.suffix_rfl
  | comma => exact .done (List.suffix_cons _ _)
  | more _ he _ ih => exact .next he.stands.skip ih

theorem Braces.spread {es : List Expr} {z : Token} (h : Braces ts es z rest) :
    Spread (es.map Expr.spans) ts rest ∧ z ∈ ts := by
  cases h with
  | empty => exact ⟨.skip (.done (List.suffix_cons _ _)), by simp⟩
  | @elements ts _ _ t z e es _ he hes _ =>
    have hspread : Spread ((e :: es).map Expr.spans) (t :: ts) (z :: rest) :=
      .next he.stands.skip hes.spread
    exact ⟨hspread.close, hspread.suffix.subset List.mem_cons_self⟩

theorem named {t z : Token} (hr : Rising (t :: ts)) (hz : z ∈ ts) :
    Stands [t.span, t.span.merge z.span] (t :: ts) ts := by
  have hstart := hr.merge_start ⟨z, hz, rfl⟩
  exact .token (by simp [hstart])

theorem Declarator.spread {kind : Kind} {constant : Bool} {v : Variable}
    (h : Declarator kind constant ts v rest) (hr : Rising ts) : Spread v.sites ts rest := by
  cases h with
  | scalar => exact .one (.token (by simp [Variable.spans]))
  | @scalarValue _ _ t u e _ _ he =>
    have hstart := hr.merge_start (he.stands.skip.start_mem e.span_mem)
    exact .next (.token (by simp [Variable.spans, hstart])) (.one he.stands.skip)
  | @array ts _ t u v n _ _ _ hn _ =>
    have hlength : Stands n.spans (u :: ts) (v :: rest) := hn.stands.skip
    exact .one ((named hr (hlength.suffix.subset List.mem_cons_self)).append hlength.close)
  | @arrayValue ts mid _ t u v w z n es _ _ hn _ _ hes =>
    obtain ⟨hspread, hz⟩ := hes.spread
    have hlength : Stands n.spans (u :: ts) mid := hn.stands.close.close.skip
    exact .next ((named hr (hlength.suffix.subset hz)).append hlength) hspread
  | @openArray mid _ t u v w z es _ _ _ _ hes =>
    obtain ⟨hspread, hz⟩ := hes.spread
    have hlength : Stands [v.span] (u :: v :: w :: mid) mid := .skip (.append .own .pass)
    exact .next ((named hr (hlength.suffix.subset hz)).append hlength) hspread

theorem Declarators.spread {kind : Kind} {constant : Bool} {vs : List Variable}
    (h : Declarators kind constant ts vs rest) (hr : Rising ts) :
    Spread (vs.flatMap (·.sites)) ts rest := by
  induction h with
  | done => exact .done List.suffix_rfl
  | more _ hv _ ih =>
    have hfirst := hv.spread (hr.suffix (List.suffix_cons _ _))
    exact (hfirst.append (ih (hr.suffix (hfirst.suffix.trans (List.suffix_cons _ _))))).skip

theorem Variables.spread {vs : List Variable} (h : Variables ts vs rest) (hr : Rising ts) :
    Spread (vs.flatMap (·.sites)) ts rest := by
  cases h with
  | plain _ hv hvs _ =>
    have hr := hr.suffix (List.suffix_cons _ _)
    have hfirst := hv.spread hr
    exact (hfirst.append (hvs.spread (hr.suffix hfirst.suffix)).close).skip
  | constant _ _ hv hvs _ =>
    have hr := (hr.suffix (List.suffix_cons _ _)).suffix (List.suffix_cons _ _)
    have hfirst := hv.spread hr
    exact (hfirst.append (hvs.spread (hr.suffix hfirst.suffix)).close).skip.skip

mutual

theorem Statement.spread : {ts rest : List Token} → {st : Stmt} → Statement ts st rest →
    Rising ts → Spread st.sites ts rest
  | _, _, _, .block _ hbody _, hr =>
    (hbody.spread (hr.suffix (List.suffix_cons _ _))).close.skip
  | _, _, _, @Statement.branch ts mid _ t test _ _ htest hbody, hr => by
    have htest : Stands test.spans (t :: ts) mid := htest.stands.skip
    exact .next htest (hbody.spread (hr.suffix htest.suffix))
  | _, _, _, @Statement.branchElse ts mid _ _ t _ test _ _ _ htest hbody _ _ hother, hr => by
    have htest : Stands test.spans (t :: ts) mid := htest.stands.skip
    have hr := hr.suffix htest.suffix
    have hbody := hbody.spread hr
    have hother := hother.spread ((hr.suffix hbody.suffix).suffix (List.suffix_cons _ _))
    exact .next htest (hbody.append hother.skip)
  | _, _, _, @Statement.loop ts mid _ t test _ _ htest hbody, hr => by
    have htest : Stands test.spans (t :: ts) mid := htest.stands.skip
    exact .next htest (hbody.spread (hr.suffix htest.suffix))
  | _, _, _, .empty _, _ => .done (List.suffix_cons _ _)
  | _, _, _, @Statement.call rest t u v w _ _ _ _, _ => by
    have hspans : Stands [t.span.merge w.span, w.span] (t :: u :: v :: w :: rest) rest :=
      (Stands.own.skip.skip).lead List.mem_cons_self
    exact .one (hspans.mono (by simp))
  | _, _, _, .assign htarget _ hvalue _, _ =>
    .one (htarget.stands.append hvalue.stands.close.skip)

theorem Items.spread : {ts rest : List Token} → {body : List Stmt} → Items ts body rest →
    Rising ts → Spread (Stmt.allSites body) ts rest
  | _, _, _, .done, _ => .done List.suffix_rfl
  | _, _, _, .declare hvs hbody, hr => by
    have hvs := hvs.spread hr
    rw [Stmt.allSites_declare]
    exact hvs.append (hbody.spread (hr.suffix hvs.suffix))
  | _, _, _, .statement hst hbody, hr => by
    have hst := hst.spread hr
    exact hst.append (hbody.spread (hr.suffix hst.suffix))

end

theorem Derives.spread {p : Program} (h : Derives ts p) (hr : Rising ts) :
    Spread p.sites ts [] := by
  induction h with
  | done => exact .done List.suffix_rfl
  | @function ts mid t name u v w x body p _ _ _ _ _ hbody _ _ ih =>
    have hname : Stands [name.span] (t :: name :: u :: v :: w :: ts) ts :=
      .skip (.append .own (.append .pass (.append .pass .pass)))
    have hr := hr.suffix hname.suffix
    have hbody := (hbody.spread hr).close
    exact .next hname (hbody.append (ih (hr.suffix hbody.suffix)))
  | @globals _ _ vs p hvs _ ih =>
    have hvs := hvs.spread hr
    have hsites : Program.sites (vs.map .global ++ p) =
        vs.flatMap (·.sites) ++ Program.sites p := by
      simp [Program.sites, List.flatMap_map, Declaration.sites]
    rw [hsites]
    exact hvs.append (ih (hr.suffix hvs.suffix))

end Grammar

end C1Lang
