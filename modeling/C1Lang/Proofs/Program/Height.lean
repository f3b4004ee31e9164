import C1Lang.Proofs.Parser.Completeness
import Mathlib.Data.List.TakeWhile

/-!
# How high expressions are

The limit of the parser is on its own nesting. A right operand, the operand of a sign and an index
are nested in what they belong to, but a left operand has been read already when its operator comes.
So no path from the root of a tree has more nodes than the limit allows, left operands not counted,
and a tree is higher than that only by the left operands on a path (`parse_nesting_le`). Left
operands themselves have no limit: sums of any length are accepted (`parse_sum`), and so are trees
higher than the limit (`parse_height_gt`).
-/

namespace C1Lang

namespace Expr

/-- The number of nodes on the longest path from the root: so many visits of nodes are under way at
once when the tree is visited recursively. -/
def height : Expr → Nat
  | literal _ _ | name _ _ => 1
  | unary _ operand _ => operand.height + 1
  | binary _ left right _ => max left.height right.height + 1
  | element _ index _ => index.height + 1

/-- The height, where a left operand is no lower than its operator. -/
def nesting : Expr → Nat
  | literal _ _ | name _ _ => 1
  | unary _ operand _ => operand.nesting + 1
  | binary _ left right _ => max left.nesting (right.nesting + 1)
  | element _ index _ => index.nesting + 1

def leftSteps : Expr → Nat
  | literal _ _ | name _ _ => 0
  | unary _ operand _ => operand.leftSteps
  | binary _ left right _ => max (left.leftSteps + 1) right.leftSteps
  | element _ index _ => index.leftSteps

theorem height_le (e : Expr) : e.height ≤ e.nesting + e.leftSteps := by
  induction e with
  | literal => exact Nat.le_refl 1
  | name => exact Nat.le_refl 1
  | unary _ operand _ ih =>
    simp only [height, nesting, leftSteps]
    omega
  | binary _ left right _ ihl ihr =>
    simp only [height, nesting, leftSteps]
    omega
  | element _ index _ ih =>
    simp only [height, nesting, leftSteps]
    omega

end Expr

/-- An expression that is part of no other one: a value, or the target of an assignment. -/
inductive Outermost
  | value (e : Expr)
  | target (p : Place)

namespace Outermost

def tree : Outermost → Expr
  | value e => e
  | target p => p.toExpr

def limit : Outermost → Nat
  | value _ => Parser.maxDepth
  | target _ => Parser.maxDepth + 1

end Outermost

def Condition.outermost (c : Condition) : List Outermost := [.value c.left, .value c.right]

def Variable.outermost (v : Variable) : List Outermost :=
  (v.extent.toList.map fun extent => .value extent.length) ++ v.initializers.map .value

mutual

def Stmt.outermost : Stmt → List Outermost
  | .declare v => v.outermost
  | .assign target value _ => [.target target, .value value]
  | .call _ _ | .empty _ => []
  | .block body _ => Stmt.allOutermost body
  | .branch test body _ => test.outermost ++ body.outermost
  | .branchElse test body other _ => test.outermost ++ body.outermost ++ other.outermost
  | .loop test body _ => test.outermost ++ body.outermost

def Stmt.allOutermost : List Stmt → List Outermost
  | [] => []
  | st :: rest => st.outermost ++ Stmt.allOutermost rest

end

theorem Stmt.allOutermost_declare (vs : List Variable) (body : List Stmt) :
    Stmt.allOutermost (vs.map .declare ++ body) =
      vs.flatMap Variable.outermost ++ Stmt.allOutermost body := by
  induction vs with
  | nil => rfl
  | cons v vs ih =>
    rw [List.map_cons, List.cons_append, Stmt.allOutermost, Stmt.outermost, ih, List.flatMap_cons,
      List.append_assoc]

def Declaration.outermost : Declaration → List Outermost
  | .function f => Stmt.allOutermost f.body
  | .global v => v.outermost

def Program.outermost (p : Program) : List Outermost := p.flatMap Declaration.outermost

namespace Grammar

variable {ts rest : List Token}

theorem Expression.nesting_le {level : Level} {e : Expr} {k : Nat}
    (h : Expression level ts e k rest) : e.nesting ≤ k := by
  induction h with
  | term _ ih => exact ih
  | factor _ ih => exact ih
  | add _ _ _ ihl ihr =>
    rw [Expr.nesting]
    omega
  | mul _ _ _ ihl ihr =>
    rw [Expr.nesting]
    omega
  | signed _ _ ih =>
    rw [Expr.nesting]
    omega
  | smallest => exact Nat.le_refl 1
  | parens _ _ _ ih => omega
  | literal => exact Nat.le_refl 1
  | name => exact Nat.le_refl 1
  | element _ _ _ _ ih =>
    rw [Expr.nesting]
    omega

theorem Whole.nesting_le {e : Expr} (h : Whole ts e rest) : e.nesting ≤ Parser.maxDepth := by
  obtain ⟨k, hk, h⟩ := h
  exact Nat.le_trans h.nesting_le hk

theorem Target.nesting_le {p : Place} (h : Target ts p rest) :
    p.toExpr.nesting ≤ Parser.maxDepth + 1 := by
  cases h with
  | name => exact Nat.le_add_left 1 _
  | element _ _ hi _ => exact Nat.succ_le_succ hi.nesting_le

def Nested (os : List Outermost) : Prop := ∀ o ∈ os, o.tree.nesting ≤ o.limit

theorem nested_nil : Nested [] := nofun

theorem Nested.append {os os' : List Outermost} (h : Nested os) (h' : Nested os') :
    Nested (os ++ os') := by
  intro o ho
  rcases List.mem_append.mp ho with ho | ho
  · exact h o ho
  · exact h' o ho

theorem Whole.nested {e : Expr} (h : Whole ts e rest) : Nested [.value e] := by
  intro o ho
  cases List.mem_singleton.mp ho
  exact h.nesting_le

theorem Target.nested {p : Place} (h : Target ts p rest) : Nested [.target p] := by
  intro o ho
  cases List.mem_singleton.mp ho
  exact h.nesting_le

theorem Test.nested {c : Condition} (h : Test ts c rest) : Nested c.outermost := by
  cases h with
  | mk _ hl _ hr _ => exact hl.nested.append hr.nested

theorem Elements.nested {es : List Expr} (h : Elements ts es rest) :
    Nested (es.map .value) := by
  induction h with
  | done => exact nested_nil
  | comma => exact nested_nil
  | more _ he _ ih => exact he.nested.append ih

theorem Braces.nested {es : List Expr} {z : Token} (h : Braces ts es z rest) :
    Nested (es.map .value) := by
  cases h with
  | empty => exact nested_nil
  | elements _ he hes _ => exact he.nested.append hes.nested

theorem Declarator.nested {kind : Kind} {constant : Bool} {v : Variable}
    (h : Declarator kind constant ts v rest) : Nested v.outermost := by
  cases h with
  | scalar => exact nested_nil
  | scalarValue _ _ he => exact he.nested
  | array _ _ _ hn _ => exact hn.nested
  | arrayValue _ _ hn _ _ hes => exact hn.nested.append hes.nested
  | @openArray _ _ _ _ v _ _ es _ _ _ _ hes =>
    have hcounted : Nested [.value (.literal (.int (Int32.ofNat es.length)) v.span)] := by
      intro o ho
      cases List.mem_singleton.mp ho
      exact Nat.le_add_left 1 499
    exact hcounted.append hes.nested

theorem Declarators.nested {kind : Kind} {constant : Bool} {vs : List Variable}
    (h : Declarators kind constant ts vs rest) : Nested (vs.flatMap Variable.outermost) := by
  induction h with
  | done => exact nested_nil
  | more _ hv _ ih =>
    rw [List.flatMap_cons]
    exact hv.nested.append ih

theorem Variables.nested {vs : List Variable} (h : Variables ts vs rest) :
    Nested (vs.flatMap Variable.outermost) := by
  cases h with
  | plain _ hv hvs _ =>
    rw [List.flatMap_cons]
    exact hv.nested.append hvs.nested
  | constant _ _ hv hvs _ =>
    rw [List.flatMap_cons]
    exact hv.nested.append hvs.nested

mutual

theorem Statement.nested : {ts rest : List Token} → {st : Stmt} → Statement ts st rest →
    Nested st.outermost
  | _, _, _, .block _ hbody _ => by
    rw [Stmt.outermost]
    exact hbody.nested
  | _, _, _, .branch _ htest hbody => by
    rw [Stmt.outermost]
    exact htest.nested.append hbody.nested
  | _, _, _, .branchElse _ htest hbody _ _ hother => by
    rw [Stmt.outermost]
    exact (htest.nested.append hbody.nested).append hother.nested
  | _, _, _, .loop _ htest hbody => by
    rw [Stmt.outermost]
    exact htest.nested.append hbody.nested
  | _, _, _, .empty _ => by
    rw [Stmt.outermost]
    exact nested_nil
  | _, _, _, .call _ _ _ _ => by
    rw [Stmt.outermost]
    exact nested_nil
  | _, _, _, .assign htarget _ hvalue _ => by
    rw [Stmt.outermost]
    exact htarget.nested.append hvalue.nested

theorem Items.nested : {ts rest : List Token} → {body : List Stmt} → Items ts body rest →
    Nested (Stmt.allOutermost body)
  | _, _, _, .done => by
    rw [Stmt.allOutermost]
    exact nested_nil
  | _, _, _, .declare hvs hbody => by
    rw [Stmt.allOutermost_declare]
    exact hvs.nested.append hbody.nested
  | _, _, _, .statement hst hbody => by
    rw [Stmt.allOutermost]
    exact hst.nested.append hbody.nested

end

theorem Derives.nested {p : Program} (h : Derives ts p) : Nested p.outermost := by
  induction h with
  | done => exact nested_nil
  | function _ _ _ _ _ hbody _ _ ih => exact hbody.nested.append ih
  | @globals _ _ vs p hvs _ ih =>
    have hglobals : Program.outermost (vs.map .global ++ p) =
        vs.flatMap Variable.outermost ++ p.outermost := by
      simp only [Program.outermost, List.flatMap_append, List.flatMap_map, Declaration.outermost]
    rw [hglobals]
    exact hvs.nested.append ih

end Grammar

/-! ## High trees -/

namespace Tall

open Grammar

def token (kind : TokenKind) (lexeme : String) : Token := ⟨kind, lexeme, ⟨0, 0⟩⟩

def one : Token := token .int "1"

def oneTree : Expr := .literal (.int 1) ⟨0, 0⟩

theorem one_derives (rest : List Token) : Expression .factor (one :: rest) oneTree 1 rest :=
  .literal (literal_iff.mpr (.inl ⟨rfl, by decide, 1, by decide, rfl⟩))

def sum : Nat → List Token
  | 0 => [one]
  | n + 1 => sum n ++ [token .plus "+", one]

def sumTree : Nat → Expr
  | 0 => oneTree
  | n + 1 => .binary .add (sumTree n) oneTree ⟨0, 0⟩

def indices : Nat → List Token
  | 0 => [one]
  | n + 1 =>
    token .identifier "a" :: token .leftBracket "[" :: (indices n ++ [token .rightBracket "]"])

def indicesTree : Nat → Expr
  | 0 => oneTree
  | n + 1 => .element "a" (indicesTree n) ⟨0, 0⟩

theorem sumTree_span (n : Nat) : (sumTree n).span = ⟨0, 0⟩ := by
  cases n <;> rfl

theorem sumTree_height (n : Nat) : (sumTree n).height = n + 1 := by
  induction n with
  | zero => rfl
  | succ n ih =>
    rw [sumTree, Expr.height, ih]
    exact congrArg (· + 1) (Nat.max_eq_left (Nat.le_add_left 1 n))

theorem indicesTree_height (n : Nat) : (indicesTree n).height = n + 1 := by
  induction n with
  | zero => rfl
  | succ n ih => rw [indicesTree, Expr.height, ih]

/-- Each operator takes the sum before it as its left operand, so none of them is nested. -/
theorem sum_derives (n : Nat) (rest : List Token) :
    ∃ k ≤ 2, Expression .sum (sum n ++ rest) (sumTree n) k rest := by
  induction n generalizing rest with
  | zero => exact ⟨1, by decide, .term (.factor (one_derives rest))⟩
  | succ n ih =>
    obtain ⟨k, hk, h⟩ := ih (token .plus "+" :: one :: rest)
    have hplus : sumOp? TokenKind.plus = some .add := rfl
    have hadd := Expression.add h hplus (.factor (one_derives rest))
    rw [sumTree_span] at hadd
    rw [sum, List.append_assoc]
    exact ⟨max k 2, Nat.max_le.mpr ⟨hk, Nat.le_refl 2⟩, hadd⟩

theorem indices_derives (n : Nat) (rest : List Token) :
    Expression .sum (indices n ++ rest) (indicesTree n) (n + 1) rest := by
  induction n generalizing rest with
  | zero => exact .term (.factor (one_derives rest))
  | succ n ih =>
    have h : Expression .factor (token .identifier "a" :: token .leftBracket "[" :: _)
        (indicesTree (n + 1)) (n + 2) rest :=
      .element rfl rfl (ih (token .rightBracket "]" :: rest)) rfl
    rw [indices, List.cons_append, List.cons_append, List.append_assoc]
    exact .term (.factor h)

theorem one_whole (rest : List Token) : Whole (one :: rest) oneTree rest :=
  ⟨1, by decide, .term (.factor (one_derives rest))⟩

theorem target_derives {n : Nat} (hn : n < Parser.maxDepth) (rest : List Token) :
    Target (indices (n + 1) ++ rest) (.element "a" (indicesTree n) ⟨0, 0⟩) rest := by
  have hindex : Whole (indices n ++ token .rightBracket "]" :: rest) (indicesTree n)
      (token .rightBracket "]" :: rest) := ⟨n + 1, hn, indices_derives n _⟩
  rw [indices, List.cons_append, List.cons_append, List.append_assoc]
  exact .element rfl rfl hindex rfl

def sumSource (n : Nat) : List Token :=
  token .intType "int" :: token .identifier "x" :: token .equal "=" ::
    (sum n ++ [token .semicolon ";"])

def sumProgram (n : Nat) : Program :=
  [.global ⟨"x", ⟨0, 0⟩, .int, false, none, [sumTree n], ⟨0, 0⟩⟩]

def targetSource (n : Nat) : List Token :=
  token .voidKeyword "void" :: token .identifier "f" :: token .leftParen "(" ::
    token .rightParen ")" :: token .leftBrace "\x7b" :: (indices (n + 1) ++
      [token .equal "=", one, token .semicolon ";", token .rightBrace "\x7d"])

def targetProgram (n : Nat) : Program :=
  [.function ⟨"f", ⟨0, 0⟩, [.assign (.element "a" (indicesTree n) ⟨0, 0⟩) oneTree ⟨0, 0⟩], ⟨0, 0⟩,
    ⟨0, 0⟩⟩]

def Counts (t : Token) : Prop := t.kind ≠ .eof ∧ t.kind.isComment = false

instance : DecidablePred Counts := fun _ => inferInstanceAs (Decidable (_ ∧ _))

theorem significant_eq_self {ts : List Token} (h : ∀ t ∈ ts, Counts t) : significant ts = ts := by
  have hbefore : ∀ t ∈ ts, (t.kind != .eof) = true := fun t ht => by simpa using (h t ht).1
  have hcounts : ∀ t ∈ ts, (!t.kind.isComment) = true := fun t ht => by simp [(h t ht).2]
  unfold significant
  rw [List.takeWhile_eq_self_iff.mpr hbefore]
  exact List.filter_eq_self.mpr hcounts

theorem sum_counts (n : Nat) : ∀ t ∈ sum n, Counts t := by
  induction n with
  | zero => decide
  | succ n ih => exact List.forall_mem_append.mpr ⟨ih, by decide⟩

theorem indices_counts (n : Nat) : ∀ t ∈ indices n, Counts t := by
  induction n with
  | zero => decide
  | succ n ih =>
    simp only [indices, List.forall_mem_cons, List.forall_mem_append]
    exact ⟨by decide, by decide, ih, by decide⟩

end Tall

open Grammar Tall

theorem parse_sum (n : Nat) : (parse (sumSource n)).program? = some (sumProgram n) := by
  have hcounts : ∀ t ∈ sumSource n, Counts t := by
    simp only [sumSource, List.forall_mem_cons, List.forall_mem_append]
    exact ⟨by decide, by decide, by decide, sum_counts n, by decide⟩
  refine parse_of_derives ?_
  rw [significant_eq_self hcounts]
  obtain ⟨k, hk, hsum⟩ := sum_derives n [token .semicolon ";"]
  have hwhole : Whole _ (sumTree n) [token .semicolon ";"] := ⟨k, Nat.le_trans hk (by decide), hsum⟩
  have hx : Declarator .int false (token .identifier "x" :: token .equal "=" :: _) _ _ :=
    .scalarValue rfl rfl hwhole
  rw [sumTree_span] at hx
  exact .globals (.plain rfl hx .done rfl) .done

theorem parse_target {n : Nat} (hn : n < Parser.maxDepth) :
    (parse (targetSource n)).program? = some (targetProgram n) := by
  have hcounts : ∀ t ∈ targetSource n, Counts t := by
    simp only [targetSource, List.forall_mem_cons, List.forall_mem_append]
    exact ⟨by decide, by decide, by decide, by decide, by decide, indices_counts (n + 1),
      by decide⟩
  refine parse_of_derives ?_
  rw [significant_eq_self hcounts]
  exact .function rfl rfl rfl rfl rfl
    (.statement (.assign (target_derives hn _) rfl (one_whole _) rfl) .done) rfl .done

/-- In an accepted program a path from the root of a tree has no more nodes than the limit, left
operands not counted; with them it has as many more as it has left operands. -/
theorem parse_nesting_le {ts : List Token} {p : Program} (h : (parse ts).program? = some p) :
    ∀ o ∈ p.outermost,
      o.tree.nesting ≤ o.limit ∧ o.tree.height ≤ o.limit + o.tree.leftSteps := by
  intro o ho
  have hnesting : o.tree.nesting ≤ o.limit := (derives_of_parse h).nested o ho
  exact ⟨hnesting, Nat.le_trans o.tree.height_le (Nat.add_le_add_right hnesting _)⟩

theorem parse_nesting_le_sum :
    (parse (sumSource 501)).program? = some (sumProgram 501) ∧
    ∀ o ∈ (sumProgram 501).outermost,
      o.tree.nesting ≤ o.limit ∧ o.tree.height ≤ o.limit + o.tree.leftSteps :=
  ⟨parse_sum 501, parse_nesting_le (parse_sum 501)⟩

/-- Neither a value nor a target is limited to the height that the parser nests its own calls. -/
theorem parse_height_gt :
    (∃ p, (parse (sumSource 501)).program? = some p ∧
      ∃ o ∈ p.outermost, o.tree.height = 502 ∧ Parser.maxDepth < o.tree.height) ∧
    ∃ p, (parse (targetSource 499)).program? = some p ∧
      ∃ o ∈ p.outermost, o.tree.height = 501 ∧ Parser.maxDepth < o.tree.height := by
  constructor
  · have hheight : (Outermost.value (sumTree 501)).tree.height = 502 := sumTree_height 501
    exact ⟨_, parse_sum 501, .value (sumTree 501), .head _, hheight, by rw [hheight]; decide⟩
  · have hheight : (Outermost.target (.element "a" (indicesTree 499) ⟨0, 0⟩)).tree.height = 501 :=
      congrArg (· + 1) (indicesTree_height 499)
    exact ⟨_, parse_target (by decide), .target _, .head _, hheight, by rw [hheight]; decide⟩

end C1Lang
