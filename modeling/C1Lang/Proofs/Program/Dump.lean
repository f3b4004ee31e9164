import C1Lang.Program.Dump
import C1Lang.Proofs.Number.Text
import C1Lang.Proofs.Program.Names
import C1Lang.Proofs.Relabeling.Basic

/-!
# What a dump shows

The dump of a program that was parsed shows all of the program but its spans
(`parse_dump_iff`). A dump is read from its start: behind the text of each part stands a
character that cannot belong to it, so that the part is known once its text is at hand.
-/

namespace C1Lang

namespace Relabeling

def nowhere : Relabeling := placeless id Function.injective_id

@[simp] theorem nowhere_name (x : String) : nowhere.name x = x := rfl

theorem nowhere_span (s s' : Span) : nowhere.span s = nowhere.span s' := rfl

end Relabeling

open Relabeling (nowhere nowhere_span)

/-- A variable but for its spans. A length that was counted is the literal that it stands for. -/
def Variable.bare (v : Variable) : Variable :=
  { nowhere.declared v with extent := v.extent.map fun x => .stated (nowhere.expr x.length) }

mutual

def Stmt.bare : Stmt → Stmt
  | .declare v => .declare v.bare
  | .assign target value s => nowhere.stmt (.assign target value s)
  | .call x s => nowhere.stmt (.call x s)
  | .block body s => .block (Stmt.allBare body) (nowhere.span s)
  | .branch test body s => .branch (nowhere.condition test) body.bare (nowhere.span s)
  | .branchElse test body other s =>
    .branchElse (nowhere.condition test) body.bare other.bare (nowhere.span s)
  | .loop test body s => .loop (nowhere.condition test) body.bare (nowhere.span s)
  | .empty s => nowhere.stmt (.empty s)

def Stmt.allBare : List Stmt → List Stmt
  | [] => []
  | st :: rest => st.bare :: Stmt.allBare rest

end

def Declaration.bare : Declaration → Declaration
  | .function f => .function { nowhere.function f with body := Stmt.allBare f.body }
  | .global v => .global v.bare

def Program.bare (p : Program) : Program := p.map Declaration.bare

section Pieces

open Number (isNumeric)

def Delimited (r : List Char) : Prop := ∀ c ∈ r.head?, isNumeric c = false

theorem Delimited.cons {c : Char} {r : List Char} (h : isNumeric c = false) :
    Delimited (c :: r) := by
  intro d hd
  obtain rfl : c = d := by simpa using hd
  exact h

def Quotable (names : List String) : Prop := ∀ x ∈ names, ∀ c ∈ x.toList, (c != '"') = true

theorem quotable_append {xs ys : List String} :
    Quotable (xs ++ ys) ↔ Quotable xs ∧ Quotable ys := List.forall_mem_append

theorem quotable_cons {x : String} {xs : List String} :
    Quotable (x :: xs) ↔ (∀ c ∈ x.toList, (c != '"') = true) ∧ Quotable xs := List.forall_mem_cons

theorem word_split {P : Char → Bool} {w w' r r' : List Char} (hw : ∀ c ∈ w, P c = true)
    (hw' : ∀ c ∈ w', P c = true) (hr : ∀ c ∈ r.head?, P c = false)
    (hr' : ∀ c ∈ r'.head?, P c = false) (h : w ++ r = w' ++ r') : w = w' ∧ r = r' := by
  obtain ⟨htake, hdrop⟩ := Lexer.span_append hw hr
  obtain ⟨htake', hdrop'⟩ := Lexer.span_append hw' hr'
  exact ⟨by rw [← htake, h, htake'], by rw [← hdrop, h, hdrop']⟩

theorem quoteName_split {x y : String} {r r' : List Char}
    (hx : ∀ c ∈ x.toList, (c != '"') = true) (hy : ∀ c ∈ y.toList, (c != '"') = true)
    (h : (quoteName x).toList ++ r = (quoteName y).toList ++ r') : x = y ∧ r = r' := by
  simp only [quoteName, String.toList_append, String.reduceToList, List.append_assoc,
    List.cons_append, List.nil_append, List.cons.injEq, true_and] at h
  obtain ⟨hname, hrest⟩ := word_split hx hy (by simp) (by simp) h
  exact ⟨String.toList_inj.mp hname, (List.cons.inj hrest).2⟩

theorem Value.dump_numeric (v : Value) : ∀ c ∈ v.dump.toList, isNumeric c = true := by
  intro c hc
  cases v with
  | int n =>
    rcases Number.integerText_digits n.toInt c hc with hdigit | rfl
    · exact Number.isNumeric_of_isDigit hdigit
    · decide
  | float x => exact Number.compact.text_numeric x c hc

theorem Value.dump_ne_nil (v : Value) : v.dump.toList ≠ [] := by
  cases v with
  | int n => exact Number.integerText_ne_nil n.toInt
  | float x =>
    obtain ⟨c, hc, -⟩ := Number.NumberFormat.text_pointed (n := Number.compact) rfl x
    exact List.ne_nil_of_mem hc

theorem Value.dump_kind {n : Int32} {x : Float} :
    (Value.int n).dump.toList ≠ (Value.float x).dump.toList := by
  intro h
  obtain ⟨c, hc, hdigit, hminus⟩ := Number.NumberFormat.text_pointed (n := Number.compact) rfl x
  have hc : c ∈ (toString n.toInt).toList := by
    show c ∈ (Value.int n).dump.toList
    rw [h]
    exact hc
  rcases Number.integerText_digits n.toInt c hc with h | h
  · rw [hdigit] at h
    cases h
  · exact hminus h

theorem Value.dump_injective {v w : Value} (h : v.dump.toList = w.dump.toList) : v = w := by
  cases v with
  | int n =>
    cases w with
    | int m => rw [Int32.toInt_inj.mp (Number.integerText_injective h)]
    | float y => exact absurd h Value.dump_kind
  | float x =>
    cases w with
    | int m => exact absurd h.symm Value.dump_kind
    | float y =>
      rw [Number.NumberFormat.text_injective Number.compact (String.toList_inj.mp h)]

theorem Value.dump_split {v w : Value} {r r' : List Char} (hr : Delimited r) (hr' : Delimited r')
    (h : v.dump.toList ++ r = w.dump.toList ++ r') : v = w ∧ r = r' := by
  obtain ⟨hvalue, hrest⟩ := word_split v.dump_numeric w.dump_numeric hr hr' h
  exact ⟨Value.dump_injective hvalue, hrest⟩

theorem Value.dump_ne_paren {v : Value} {r r' : List Char} :
    v.dump.toList ++ r ≠ '(' :: r' := by
  intro h
  cases htext : v.dump.toList with
  | nil => exact v.dump_ne_nil htext
  | cons c cs =>
    rw [htext, List.cons_append, List.cons.injEq] at h
    have hc := v.dump_numeric c (htext ▸ List.mem_cons_self)
    rw [h.1] at hc
    exact absurd hc (by decide)

end Pieces

/-- Wherever the text of the thing starts a text, it shows where it ends, and what the thing is as
far as the key says. -/
def Told {α β : Type} (text : α → String) (names : α → List String) (key : α → β) (a : α) : Prop :=
  ∀ (a' : α) (r r' : List Char), Quotable (names a) → Quotable (names a') → Delimited r →
    Delimited r' → (text a).toList ++ r = (text a').toList ++ r' → key a = key a' ∧ r = r'

theorem Told.split {α β : Type} {text : α → String} {names : α → List String} {key : α → β}
    {a a' : α} {c c' : Char} {r r' : List Char} (ha : Told text names key a)
    (hn : Quotable (names a)) (hn' : Quotable (names a')) (hc : Number.isNumeric c = false)
    (hc' : Number.isNumeric c' = false)
    (h : (text a).toList ++ c :: r = (text a').toList ++ c' :: r') :
    key a = key a' ∧ c = c' ∧ r = r' := by
  obtain ⟨hkey, h⟩ := ha a' _ _ hn hn' (.cons hc) (.cons hc') h
  exact ⟨hkey, List.cons.inj h⟩

theorem Told.row {α β : Type} {text : α → String} {names : α → List String} {key : α → β}
    (s : Char) (sep : List Char) {close : Char} (hs : Number.isNumeric s = false)
    (hclose : Number.isNumeric close = false) (hne : s ≠ close) {as : List α}
    (h : ∀ a ∈ as, Told text names key a) {as' : List α} {r r' : List Char}
    (hn : Quotable (as.flatMap names)) (hn' : Quotable (as'.flatMap names))
    (heq : (as.flatMap fun a => s :: sep ++ (text a).toList) ++ close :: r =
      (as'.flatMap fun a => s :: sep ++ (text a).toList) ++ close :: r') :
    as.map key = as'.map key ∧ r = r' := by
  have hdelimited : ∀ (bs : List α) (r : List Char),
      Delimited ((bs.flatMap fun a => s :: sep ++ (text a).toList) ++ close :: r) := by
    intro bs r
    cases bs with
    | nil => exact .cons hclose
    | cons b bs => exact .cons hs
  induction as generalizing as' with
  | nil =>
    cases as' with
    | nil => simpa using heq
    | cons b bs => simp [hne.symm] at heq
  | cons a as ih =>
    cases as' with
    | nil => simp [hne] at heq
    | cons b bs =>
      obtain ⟨ha, has⟩ := List.forall_mem_cons.mp h
      rw [List.flatMap_cons, quotable_append] at hn hn'
      simp only [List.flatMap_cons, List.append_assoc, List.cons_append, List.cons.injEq, true_and,
        List.append_cancel_left_eq] at heq
      obtain ⟨hkey, hrest⟩ := ha b _ _ hn.1 hn'.1 (hdelimited _ _) (hdelimited _ _)
        (by simpa using heq)
      obtain ⟨hkeys, hend⟩ := ih has hn.2 hn'.2 (by simpa using hrest)
      exact ⟨by rw [List.map_cons, List.map_cons, hkey, hkeys], hend⟩

section Expressions

theorem BinaryOp.symbol_injective {op op' : BinaryOp} (h : op.symbol = op'.symbol) : op = op' := by
  cases op <;> cases op' <;> first | rfl | simp [symbol] at h

theorem UnaryOp.symbol_injective {op op' : UnaryOp} (h : op.symbol = op'.symbol) : op = op' := by
  cases op <;> cases op' <;> first | rfl | simp [symbol] at h

theorem Relation.symbol_split {op op' : Relation} {r r' : List Char}
    (h : op.symbol.toList ++ ' ' :: r = op'.symbol.toList ++ ' ' :: r') : op = op' ∧ r = r' := by
  cases op <;> cases op' <;> simp_all [symbol]

namespace Expr

/-- The first word in the dump of an expression. A literal is no list, and has none. -/
def word : Expr → String
  | .literal _ _ => ""
  | .binary op _ _ _ => op.symbol
  | .unary op _ _ => op.symbol
  | .name _ _ => "LValue"
  | .element _ _ _ => "Index"

def behind (r : List Char) : Expr → List Char
  | .literal _ _ => []
  | .binary _ x y _ => x.dump.toList ++ ' ' :: (y.dump.toList ++ ')' :: r)
  | .unary _ x _ => x.dump.toList ++ ')' :: r
  | .name x _ => (quoteName x).toList ++ ')' :: r
  | .element x i _ => (quoteName x).toList ++ ' ' :: (i.dump.toList ++ ')' :: r)

theorem dump_text (e : Expr) (r : List Char) :
    (∃ v s, e = .literal v s) ∨
      e.dump.toList ++ r = '(' :: (e.word.toList ++ ' ' :: e.behind r) := by
  cases e with
  | literal v s => exact .inl ⟨v, s, rfl⟩
  | _ => exact .inr (by simp [dump, word, behind])

theorem word_unbroken (e : Expr) : ∀ c ∈ e.word.toList, (c != ' ') = true := by
  refine List.all_eq_true.mp ?_
  cases e with
  | binary op => simp only [word]; cases op <;> decide
  | unary op => simp only [word]; cases op <;> decide
  | _ => simp only [word]; decide

theorem dump_split {e e' : Expr} {r r' : List Char} (he : ∀ v s, e ≠ .literal v s)
    (h : e.dump.toList ++ r = e'.dump.toList ++ r') :
    e.word = e'.word ∧ e.behind r = e'.behind r' := by
  rcases e.dump_text r with ⟨v, s, rfl⟩ | htext
  · exact absurd rfl (he v s)
  rcases e'.dump_text r' with ⟨w, s', rfl⟩ | htext'
  · exact absurd (h.symm.trans htext) Value.dump_ne_paren
  rw [htext, htext'] at h
  obtain ⟨hword, h⟩ := word_split e.word_unbroken e'.word_unbroken (by simp) (by simp)
    (List.cons.inj h).2
  exact ⟨String.toList_inj.mp hword, (List.cons.inj h).2⟩

variable {x y : Expr} {s : Span}

theorem literal_told (v : Value) : Told dump names nowhere.expr (.literal v s) := by
  intro e' r r' _ _ hr hr' h
  rcases e'.dump_text r' with ⟨w, s', rfl⟩ | htext
  · obtain ⟨rfl, hend⟩ := Value.dump_split hr hr' h
    exact ⟨rfl, hend⟩
  · exact absurd (h.trans htext) Value.dump_ne_paren

theorem binary_told (op : BinaryOp) (hx : Told dump names nowhere.expr x)
    (hy : Told dump names nowhere.expr y) : Told dump names nowhere.expr (.binary op x y s) := by
  intro e' r r' hn hn' _ _ h
  obtain ⟨hword, h⟩ := dump_split (by simp) h
  obtain ⟨hnx, hny⟩ := quotable_append.mp hn
  cases e' with
  | binary op' x' y' s' =>
    obtain ⟨hnx', hny'⟩ := quotable_append.mp hn'
    obtain ⟨hleft, -, h⟩ := hx.split hnx hnx' (by decide) (by decide) h
    obtain ⟨hright, -, h⟩ := hy.split hny hny' (by decide) (by decide) h
    rw [Relabeling.expr, Relabeling.expr, BinaryOp.symbol_injective hword, hleft, hright,
      nowhere_span]
    exact ⟨rfl, h⟩
  | unary op' x' s' =>
    -- the words can be the same, but a sign has no second operand
    have hnx' : Quotable x'.names := hn'
    obtain ⟨-, hend, -⟩ := hx.split hnx hnx' (by decide) (by decide) h
    exact absurd hend (by decide)
  | _ => cases op <;> simp [word, BinaryOp.symbol] at hword

theorem unary_told (op : UnaryOp) (hx : Told dump names nowhere.expr x) :
    Told dump names nowhere.expr (.unary op x s) := by
  intro e' r r' hn hn' _ _ h
  obtain ⟨hword, h⟩ := dump_split (by simp) h
  cases e' with
  | unary op' x' s' =>
    have hnx' : Quotable x'.names := hn'
    obtain ⟨hoperand, -, h⟩ := hx.split hn hnx' (by decide) (by decide) h
    rw [Relabeling.expr, Relabeling.expr, UnaryOp.symbol_injective hword, hoperand, nowhere_span]
    exact ⟨rfl, h⟩
  | binary op' x' y' s' =>
    obtain ⟨hnx', -⟩ := quotable_append.mp hn'
    obtain ⟨-, hend, -⟩ := hx.split hn hnx' (by decide) (by decide) h
    exact absurd hend (by decide)
  | _ => cases op <;> simp [word, UnaryOp.symbol] at hword

theorem name_told (x : String) : Told dump names nowhere.expr (.name x s) := by
  intro e' r r' hn hn' _ _ h
  obtain ⟨hword, h⟩ := dump_split (by simp) h
  cases e' with
  | name x' s' =>
    obtain ⟨hx, -⟩ := quotable_cons.mp hn
    obtain ⟨hx', -⟩ := quotable_cons.mp hn'
    obtain ⟨hname, h⟩ := quoteName_split hx hx' h
    rw [Relabeling.expr, Relabeling.expr, hname, nowhere_span]
    exact ⟨rfl, (List.cons.inj h).2⟩
  | binary op' => cases op' <;> simp [word, BinaryOp.symbol] at hword
  | unary op' => cases op' <;> simp [word, UnaryOp.symbol] at hword
  | _ => simp [word] at hword

theorem element_told (x : String) {i : Expr} (hi : Told dump names nowhere.expr i) :
    Told dump names nowhere.expr (.element x i s) := by
  intro e' r r' hn hn' _ _ h
  obtain ⟨hword, h⟩ := dump_split (by simp) h
  cases e' with
  | element x' i' s' =>
    obtain ⟨hx, hni⟩ := quotable_cons.mp hn
    obtain ⟨hx', hni'⟩ := quotable_cons.mp hn'
    obtain ⟨hname, h⟩ := quoteName_split hx hx' h
    obtain ⟨hindex, -, h⟩ := hi.split hni hni' (by decide) (by decide) (List.cons.inj h).2
    rw [Relabeling.expr, Relabeling.expr, hname, hindex, nowhere_span]
    exact ⟨rfl, h⟩
  | binary op' => cases op' <;> simp [word, BinaryOp.symbol] at hword
  | unary op' => cases op' <;> simp [word, UnaryOp.symbol] at hword
  | _ => simp [word] at hword

theorem told (e : Expr) : Told dump names nowhere.expr e := by
  induction e with
  | literal v s => exact literal_told v
  | binary op x y s hx hy => exact binary_told op hx hy
  | unary op x s hx => exact unary_told op hx
  | name x s => exact name_told x
  | element x i s hi => exact element_told x hi

end Expr

end Expressions

section Statements

theorem Place.toExpr_injective {p q : Place} (h : nowhere.expr p.toExpr = nowhere.expr q.toExpr) :
    nowhere.place p = nowhere.place q := by
  cases p <;> cases q <;> simp_all [Place.toExpr, Relabeling.expr, Relabeling.place]

theorem Condition.told (c : Condition) :
    Told Condition.dump Condition.names nowhere.condition c := by
  intro c' r r' hn hn' _ _ h
  obtain ⟨hnleft, hnright⟩ := quotable_append.mp hn
  obtain ⟨hnleft', hnright'⟩ := quotable_append.mp hn'
  simp only [dump, String.toList_append, String.reduceToList, List.cons_append,
    List.nil_append, List.append_assoc, List.cons.injEq, true_and] at h
  obtain ⟨hop, h⟩ := Relation.symbol_split h
  obtain ⟨hleft, -, h⟩ := c.left.told.split hnleft hnleft' (by decide) (by decide) h
  obtain ⟨hright, -, h⟩ := c.right.told.split hnright hnright' (by decide) (by decide) h
  rw [Relabeling.condition, Relabeling.condition, hop, hleft, hright, nowhere_span]
  exact ⟨rfl, h⟩

def extentText : Option Extent → String
  | none => ""
  | some x => "[" ++ x.length.dump ++ "]"

def valuesText (array : Bool) (es : List Expr) : String :=
  if es.isEmpty then ""
  else if array then " = \x7b" ++ " ".intercalate (es.map Expr.dump) ++ "\x7d"
  else " = " ++ " ".intercalate (es.map Expr.dump)

def Variable.content (v : Variable) : String :=
  (if v.constant then "const " else "") ++ v.kind.word ++ " " ++ quoteName v.name ++
    extentText v.extent ++ valuesText v.isArray v.initializers

theorem Variable.dump_eq (v : Variable) : v.dump = "(Var " ++ v.content ++ ")" := by
  unfold dump content extentText valuesText
  cases v.extent <;> simp only [String.append_assoc]

theorem kind_split {c c' : Bool} {k k' : Kind} {r r' : List Char}
    (h : (if c then "const " else "").toList ++ (k.word.toList ++ ' ' :: r) =
      (if c' then "const " else "").toList ++ (k'.word.toList ++ ' ' :: r')) :
    c = c' ∧ k = k' ∧ r = r' := by
  cases c <;> cases c' <;> cases k <;> cases k' <;> simp_all [Kind.word]

theorem intercalate_toList (e : Expr) (es : List Expr) :
    (" ".intercalate ((e :: es).map Expr.dump)).toList =
      e.dump.toList ++ es.flatMap fun x => ' ' :: [] ++ x.dump.toList := by
  induction es generalizing e with
  | nil => simp
  | cons x es ih =>
    rw [List.map_cons, List.map_cons, String.intercalate_cons_cons, ← List.map_cons,
      String.toList_append, String.toList_append, ih x]
    simp

theorem values_told {e e' : Expr} {es es' : List Expr} {close : Char} {r r' : List Char}
    (hclose : Number.isNumeric close = false) (hne : ' ' ≠ close)
    (hn : Quotable ((e :: es).flatMap Expr.names)) (hn' : Quotable ((e' :: es').flatMap Expr.names))
    (h : (" ".intercalate ((e :: es).map Expr.dump)).toList ++ close :: r =
      (" ".intercalate ((e' :: es').map Expr.dump)).toList ++ close :: r') :
    (e :: es).map nowhere.expr = (e' :: es').map nowhere.expr ∧ r = r' := by
  rw [intercalate_toList, intercalate_toList] at h
  refine Told.row ' ' [] (by decide) hclose hne (fun a _ => a.told) hn hn' ?_
  simpa using h

theorem valuesText_told {array : Bool} {es es' : List Expr} {r r' : List Char}
    (hn : Quotable (es.flatMap Expr.names)) (hn' : Quotable (es'.flatMap Expr.names))
    (h : (valuesText array es).toList ++ ')' :: r = (valuesText array es').toList ++ ')' :: r') :
    es.map nowhere.expr = es'.map nowhere.expr ∧ r = r' := by
  cases es with
  | nil =>
    cases es' with
    | nil => exact ⟨rfl, (List.cons.inj h).2⟩
    | cons e' es' => cases array <;> simp [valuesText] at h
  | cons e es =>
    cases es' with
    | nil => cases array <;> simp [valuesText] at h
    | cons e' es' =>
      simp only [valuesText, List.isEmpty_cons, Bool.false_eq_true, if_false] at h
      cases array with
      | true =>
        simp only [if_true, String.toList_append, String.reduceToList, List.append_assoc,
          List.append_cancel_left_eq] at h
        obtain ⟨hvalues, h⟩ := values_told (by decide) (by decide) hn hn' h
        exact ⟨hvalues, (List.cons.inj h).2⟩
      | false =>
        simp only [Bool.false_eq_true, if_false, String.toList_append, String.reduceToList,
          List.append_assoc, List.append_cancel_left_eq] at h
        exact values_told (by decide) (by decide) hn hn' h

theorem valuesText_head (array : Bool) (es : List Expr) (r : List Char) :
    ((valuesText array es).toList ++ ')' :: r).head? ≠ some '[' := by
  cases es <;> cases array <;> simp [valuesText]

theorem extentText_told {x x' : Option Extent} {r r' : List Char}
    (hn : Quotable (x.toList.flatMap Extent.names))
    (hn' : Quotable (x'.toList.flatMap Extent.names))
    (hr : r.head? ≠ some '[') (hr' : r'.head? ≠ some '[')
    (h : (extentText x).toList ++ r = (extentText x').toList ++ r') :
    (x.map fun x => Extent.stated (nowhere.expr x.length)) =
      (x'.map fun x => Extent.stated (nowhere.expr x.length)) ∧ r = r' := by
  cases x with
  | none =>
    cases x' with
    | none => exact ⟨rfl, h⟩
    | some x' =>
      have h : r = _ := h
      simp [h, extentText] at hr
  | some x =>
    cases x' with
    | none =>
      have h : _ = r' := h
      simp [← h, extentText] at hr'
    | some x' =>
      simp only [extentText, String.toList_append, String.reduceToList, List.cons_append,
        List.nil_append, List.append_assoc, List.cons.injEq, true_and] at h
      obtain ⟨hlength, -, h⟩ := x.length.told.split (by simpa [Extent.names] using hn)
        (by simpa [Extent.names] using hn') (by decide) (by decide) h
      exact ⟨by rw [Option.map_some, Option.map_some, hlength], h⟩

theorem Variable.content_told {v v' : Variable} {r r' : List Char} (hn : Quotable v.names)
    (hn' : Quotable v'.names)
    (h : v.content.toList ++ ')' :: r = v'.content.toList ++ ')' :: r') :
    v.bare = v'.bare ∧ r = r' := by
  obtain ⟨hname, hn⟩ := quotable_cons.mp hn
  obtain ⟨hname', hn'⟩ := quotable_cons.mp hn'
  obtain ⟨hextent, hvalues⟩ := quotable_append.mp hn
  obtain ⟨hextent', hvalues'⟩ := quotable_append.mp hn'
  simp only [content, String.toList_append, String.reduceToList, List.cons_append,
    List.nil_append, List.append_assoc] at h
  obtain ⟨hconstant, hkind, h⟩ := kind_split h
  obtain ⟨hname, h⟩ := quoteName_split hname hname' h
  obtain ⟨hextent, h⟩ := extentText_told hextent hextent' (valuesText_head _ _ _)
    (valuesText_head _ _ _) h
  have harray : v.isArray = v'.isArray := by
    have := congrArg Option.isSome hextent
    simpa [isArray] using this
  rw [harray] at h
  obtain ⟨hvalues, h⟩ := valuesText_told hvalues hvalues' h
  refine ⟨?_, h⟩
  rw [bare, bare, hextent, Relabeling.declared, Relabeling.declared, hconstant, hkind, hname,
    hvalues, nowhere_span v.span v'.span, nowhere_span v.nameSpan v'.nameSpan]

theorem Variable.told (v : Variable) : Told Variable.dump Variable.names Variable.bare v := by
  intro v' r r' hn hn' _ _ h
  simp only [dump_eq, String.toList_append, String.reduceToList, List.cons_append,
    List.nil_append, List.append_assoc, List.cons.injEq, true_and] at h
  exact content_told hn hn' h

def Stmt.word : Stmt → String
  | .declare _ => "Var"
  | .assign _ _ _ => "Assign"
  | .call _ _ => "Call"
  | .block _ _ => "Block"
  | .branch _ _ _ | .branchElse _ _ _ _ => "If"
  | .loop _ _ _ => "While"
  | .empty _ => "Empty"

def Stmt.behind (level : Nat) (r : List Char) : Stmt → List Char
  | .declare v => ' ' :: (v.content.toList ++ ')' :: r)
  | .assign target value _ =>
    ' ' :: (target.toExpr.dump.toList ++ ' ' :: (value.dump.toList ++ ')' :: r))
  | .call x _ => ' ' :: ((quoteName x).toList ++ ')' :: r)
  | .block body _ => (Stmt.dumpAll (level + 1) body).toList ++ ')' :: r
  | .branch test body _ | .loop test body _ =>
    ' ' :: (test.dump.toList ++ ((newLine (level + 1)).toList ++
      ((body.dump (level + 1)).toList ++ ')' :: r)))
  | .branchElse test body other _ =>
    ' ' :: (test.dump.toList ++ ((newLine (level + 1)).toList ++
      ((body.dump (level + 1)).toList ++ ((newLine (level + 1)).toList ++
        ((other.dump (level + 1)).toList ++ ')' :: r)))))
  | .empty _ => ')' :: r

theorem Stmt.dump_text (st : Stmt) (level : Nat) (r : List Char) :
    (st.dump level).toList ++ r = '(' :: (st.word.toList ++ st.behind level r) := by
  cases st <;> simp [dump, word, behind, Variable.dump_eq]

def BodyTold (level : Nat) (body : List Stmt) : Prop :=
  ∀ (body' : List Stmt) (r r' : List Char), Quotable (Stmt.allNames body) →
    Quotable (Stmt.allNames body') →
    (Stmt.dumpAll level body).toList ++ ')' :: r = (Stmt.dumpAll level body').toList ++ ')' :: r' →
    Stmt.allBare body = Stmt.allBare body' ∧ r = r'

namespace Stmt

variable {level : Nat} {test : Condition} {body other : Stmt} {s : Span}

theorem delimited_close (r : List Char) : Delimited (')' :: r) := .cons (by decide)

theorem delimited_newLine (r : List Char) : Delimited ((newLine level).toList ++ r) := by
  rw [newLine, String.toList_ofList]
  exact .cons (by decide)

/-- Behind the only statement of a branch stands a parenthesis, and behind the first of two a new
line. -/
theorem close_ne_newLine {r r' : List Char} : ')' :: r ≠ (newLine level).toList ++ r' := by
  simp [newLine]

theorem body_head (body : List Stmt) (r : List Char) :
    ∀ c ∈ ((dumpAll level body).toList ++ ')' :: r).head?, c = ')' ∨ c = '\n' := by
  cases body <;> simp [dumpAll, newLine]

theorem delimited_body (body : List Stmt) (r : List Char) :
    Delimited ((dumpAll level body).toList ++ ')' :: r) := by
  intro c hc
  rcases body_head body r c hc with rfl | rfl <;> decide

theorem behind_stops (st : Stmt) (r : List Char) :
    ∀ c ∈ (st.behind level r).head?, Lexer.isLetter c = false := by
  have hhead : ∀ c ∈ (st.behind level r).head?, c = ' ' ∨ c = ')' ∨ c = '\n' := by
    cases st with
    | block body s => exact fun c hc => .inr (body_head body r c hc)
    | _ => simp [behind]
  intro c hc
  rcases hhead c hc with rfl | rfl | rfl <;> decide

theorem word_letters (st : Stmt) : ∀ c ∈ st.word.toList, Lexer.isLetter c = true :=
  List.all_eq_true.mp (by cases st <;> simp only [word] <;> decide)

theorem dump_split {st st' : Stmt} {r r' : List Char}
    (h : (st.dump level).toList ++ r = (st'.dump level).toList ++ r') :
    st.word = st'.word ∧ st.behind level r = st'.behind level r' := by
  rw [dump_text, dump_text] at h
  obtain ⟨hword, h⟩ := word_split st.word_letters st'.word_letters (st.behind_stops r)
    (st'.behind_stops r') (List.cons.inj h).2
  exact ⟨String.toList_inj.mp hword, h⟩

theorem declare_told (v : Variable) : Told (dump level) names bare (.declare v) := by
  intro st' r r' hn hn' _ _ h
  obtain ⟨hword, h⟩ := dump_split h
  cases st' with
  | declare v' =>
    obtain ⟨hv, h⟩ := Variable.content_told hn hn' (List.cons.inj h).2
    exact ⟨congrArg declare hv, h⟩
  | _ => simp [word] at hword

theorem assign_told (target : Place) (value : Expr) :
    Told (dump level) names bare (.assign target value s) := by
  intro st' r r' hn hn' _ _ h
  obtain ⟨hword, h⟩ := dump_split h
  cases st' with
  | assign target' value' s' =>
    obtain ⟨hntarget, hnvalue⟩ := quotable_append.mp hn
    obtain ⟨hntarget', hnvalue'⟩ := quotable_append.mp hn'
    obtain ⟨htarget, -, h⟩ := target.toExpr.told.split hntarget hntarget' (by decide) (by decide)
      (List.cons.inj h).2
    obtain ⟨hvalue, -, h⟩ := value.told.split hnvalue hnvalue' (by decide) (by decide) h
    have hplace := Place.toExpr_injective htarget
    exact ⟨congrArg₂ (assign · · (nowhere.span s)) hplace hvalue, h⟩
  | _ => simp [word] at hword

theorem call_told (x : String) : Told (dump level) names bare (.call x s) := by
  intro st' r r' hn hn' _ _ h
  obtain ⟨hword, h⟩ := dump_split h
  cases st' with
  | call x' s' =>
    obtain ⟨hx, -⟩ := quotable_cons.mp hn
    obtain ⟨hx', -⟩ := quotable_cons.mp hn'
    obtain ⟨hname, h⟩ := quoteName_split hx hx' (List.cons.inj h).2
    exact ⟨congrArg (call · (nowhere.span s)) hname, (List.cons.inj h).2⟩
  | _ => simp [word] at hword

theorem block_told {body : List Stmt} (hbody : BodyTold (level + 1) body) :
    Told (dump level) names bare (.block body s) := by
  intro st' r r' hn hn' _ _ h
  obtain ⟨hword, h⟩ := dump_split h
  cases st' with
  | block body' s' =>
    obtain ⟨hbody, h⟩ := hbody body' r r' hn hn' h
    exact ⟨congrArg (block · (nowhere.span s)) hbody, h⟩
  | _ => simp [word] at hword

theorem empty_told : Told (dump level) names bare (.empty s) := by
  intro st' r r' _ _ _ _ h
  obtain ⟨hword, h⟩ := dump_split h
  cases st' with
  | empty s' => exact ⟨rfl, (List.cons.inj h).2⟩
  | _ => simp [word] at hword

theorem guarded_split (hbody : Told (dump level) names bare body) {test' : Condition}
    {body' : Stmt} {r r' : List Char} (hntest : Quotable test.names) (hnbody : Quotable body.names)
    (hntest' : Quotable test'.names) (hnbody' : Quotable body'.names) (hr : Delimited r)
    (hr' : Delimited r')
    (h : test.dump.toList ++ ((newLine level).toList ++ ((body.dump level).toList ++ r)) =
      test'.dump.toList ++ ((newLine level).toList ++ ((body'.dump level).toList ++ r'))) :
    nowhere.condition test = nowhere.condition test' ∧ body.bare = body'.bare ∧ r = r' := by
  obtain ⟨htest, h⟩ := test.told test' _ _ hntest hntest' (delimited_newLine _)
    (delimited_newLine _) h
  exact ⟨htest, hbody body' _ _ hnbody hnbody' hr hr' (List.append_cancel_left h)⟩

theorem loop_told (hbody : Told (dump (level + 1)) names bare body) :
    Told (dump level) names bare (.loop test body s) := by
  intro st' r r' hn hn' _ _ h
  obtain ⟨hword, h⟩ := dump_split h
  cases st' with
  | loop test' body' s' =>
    obtain ⟨hntest, hnbody⟩ := quotable_append.mp hn
    obtain ⟨hntest', hnbody'⟩ := quotable_append.mp hn'
    obtain ⟨htest, hbody, h⟩ := guarded_split hbody hntest hnbody hntest' hnbody'
      (delimited_close _) (delimited_close _) (List.cons.inj h).2
    exact ⟨congrArg₂ (loop · · (nowhere.span s)) htest hbody, (List.cons.inj h).2⟩
  | _ => simp [word] at hword

theorem branch_told (hbody : Told (dump (level + 1)) names bare body) :
    Told (dump level) names bare (.branch test body s) := by
  intro st' r r' hn hn' _ _ h
  obtain ⟨hword, h⟩ := dump_split h
  obtain ⟨hntest, hnbody⟩ := quotable_append.mp hn
  cases st' with
  | branch test' body' s' =>
    obtain ⟨hntest', hnbody'⟩ := quotable_append.mp hn'
    obtain ⟨htest, hbody, h⟩ := guarded_split hbody hntest hnbody hntest' hnbody'
      (delimited_close _) (delimited_close _) (List.cons.inj h).2
    exact ⟨congrArg₂ (branch · · (nowhere.span s)) htest hbody, (List.cons.inj h).2⟩
  | branchElse test' body' other' s' =>
    obtain ⟨hntest', hn'⟩ := quotable_append.mp hn'
    obtain ⟨hnbody', -⟩ := quotable_append.mp hn'
    obtain ⟨-, -, h⟩ := guarded_split hbody hntest hnbody hntest' hnbody' (delimited_close _)
      (delimited_newLine _) (List.cons.inj h).2
    exact absurd h close_ne_newLine
  | _ => simp [word] at hword

theorem branchElse_told (hbody : Told (dump (level + 1)) names bare body)
    (hother : Told (dump (level + 1)) names bare other) :
    Told (dump level) names bare (.branchElse test body other s) := by
  intro st' r r' hn hn' _ _ h
  obtain ⟨hword, h⟩ := dump_split h
  obtain ⟨hntest, hn⟩ := quotable_append.mp hn
  obtain ⟨hnbody, hnother⟩ := quotable_append.mp hn
  cases st' with
  | branch test' body' s' =>
    obtain ⟨hntest', hnbody'⟩ := quotable_append.mp hn'
    obtain ⟨-, -, h⟩ := guarded_split hbody hntest hnbody hntest' hnbody' (delimited_newLine _)
      (delimited_close _) (List.cons.inj h).2
    exact absurd h.symm close_ne_newLine
  | branchElse test' body' other' s' =>
    obtain ⟨hntest', hn'⟩ := quotable_append.mp hn'
    obtain ⟨hnbody', hnother'⟩ := quotable_append.mp hn'
    obtain ⟨htest, hbody, h⟩ := guarded_split hbody hntest hnbody hntest' hnbody'
      (delimited_newLine _) (delimited_newLine _) (List.cons.inj h).2
    obtain ⟨hother, -, h⟩ := hother.split hnother hnother' (by decide) (by decide)
      (List.append_cancel_left h)
    have hbare : bare (.branchElse test body other s) = .branchElse (nowhere.condition test)
      body.bare other.bare (nowhere.span s) := rfl
    rw [hbare, htest, hbody, hother]
    exact ⟨rfl, h⟩
  | _ => simp [word] at hword

theorem nil_told : BodyTold level [] := by
  intro body' r r' hn hn' h
  cases body' with
  | nil => exact ⟨rfl, (List.cons.inj h).2⟩
  | cons st' rest' => simp [dumpAll, newLine] at h

theorem cons_told {st : Stmt} {rest : List Stmt} (hst : Told (dump level) names bare st)
    (hrest : BodyTold level rest) : BodyTold level (st :: rest) := by
  intro body' r r' hn hn' h
  cases body' with
  | nil => simp [dumpAll, newLine] at h
  | cons st' rest' =>
    obtain ⟨hnst, hnrest⟩ := quotable_append.mp hn
    obtain ⟨hnst', hnrest'⟩ := quotable_append.mp hn'
    simp only [dumpAll, String.toList_append, List.append_assoc,
      List.append_cancel_left_eq] at h
    obtain ⟨hst, h⟩ := hst st' _ _ hnst hnst' (delimited_body _ _) (delimited_body _ _) h
    obtain ⟨hrest, h⟩ := hrest rest' r r' hnrest hnrest' h
    exact ⟨congrArg₂ List.cons hst hrest, h⟩

mutual

theorem told : (st : Stmt) → (level : Nat) → Told (dump level) names bare st
  | .declare v, _ => declare_told v
  | .assign target value _, _ => assign_told target value
  | .call x _, _ => call_told x
  | .block body _, level => block_told (bodyTold body (level + 1))
  | .branch _ body _, level => branch_told (told body (level + 1))
  | .branchElse _ body other _, level =>
    branchElse_told (told body (level + 1)) (told other (level + 1))
  | .loop _ body _, level => loop_told (told body (level + 1))
  | .empty _, _ => empty_told

theorem bodyTold : (body : List Stmt) → (level : Nat) → BodyTold level body
  | [], _ => nil_told
  | st :: rest, level => cons_told (told st level) (bodyTold rest level)

end

end Stmt

end Statements

theorem FunctionDef.told (level : Nat) (f : FunctionDef) :
    Told (Declaration.dump level) Declaration.names Declaration.bare (.function f) := by
  intro d r r' hn hn' _ _ h
  cases d with
  | global v => simp [Declaration.dump, FunctionDef.dump, Variable.dump_eq] at h
  | function f' =>
    obtain ⟨hnf, hnbody⟩ := quotable_cons.mp hn
    obtain ⟨hnf', hnbody'⟩ := quotable_cons.mp hn'
    simp only [Declaration.dump, FunctionDef.dump, String.toList_append, String.reduceToList,
      List.cons_append, List.nil_append, List.append_assoc, List.cons.injEq, true_and] at h
    obtain ⟨hname, h⟩ := quoteName_split hnf hnf' h
    have hnblock : Quotable (Stmt.block f.body f.bodySpan).names := hnbody
    have hnblock' : Quotable (Stmt.block f'.body f'.bodySpan).names := hnbody'
    obtain ⟨hbody, -, h⟩ := ((Stmt.block f.body f.bodySpan).told (level + 1)).split hnblock hnblock'
      (by decide) (by decide) (List.append_cancel_left h)
    have hbody : Stmt.allBare f.body = Stmt.allBare f'.body := (Stmt.block.inj hbody).1
    refine ⟨?_, h⟩
    rw [Declaration.bare, Declaration.bare, Relabeling.function, Relabeling.function, hname,
      hbody, nowhere_span f.span f'.span, nowhere_span f.nameSpan f'.nameSpan,
      nowhere_span f.bodySpan f'.bodySpan]

theorem Declaration.told (level : Nat) (d : Declaration) :
    Told (Declaration.dump level) Declaration.names Declaration.bare d := by
  cases d with
  | function f => exact f.told level
  | global v =>
    intro d r r' hn hn' hr hr' h
    cases d with
    | function f => simp [Declaration.dump, FunctionDef.dump, Variable.dump_eq] at h
    | global v' =>
      obtain ⟨hv, h⟩ := v.told v' r r' hn hn' hr hr' h
      exact ⟨congrArg Declaration.global hv, h⟩

theorem Program.dump_injective {p q : Program} (hp : Quotable p.names) (hq : Quotable q.names)
    (h : p.dump = q.dump) : p.bare = q.bare := by
  have htext : ∀ p : Program, p.dump.toList = "(Program".toList ++
      ((p.flatMap fun d => '\n' :: List.replicate 2 ' ' ++ (d.dump 1).toList) ++ [')']) := by
    intro p
    simp [dump, newLine, String.toList_join, List.flatMap_map]
  have h := congrArg String.toList h
  rw [htext, htext] at h
  exact (Told.row '\n' (List.replicate 2 ' ') (by decide) (by decide) (by decide)
    (fun d _ => d.told 1) hp hq (List.append_cancel_left h)).1

section Bare

@[simp] theorem Expr.dump_nowhere (e : Expr) : (nowhere.expr e).dump = e.dump := by
  induction e with
  | literal v s => rfl
  | binary op x y s hx hy => simp only [Relabeling.expr, dump, hx, hy]
  | unary op x s hx => simp only [Relabeling.expr, dump, hx]
  | name x s => rfl
  | element x i s hi => simp only [Relabeling.expr, dump, hi, Relabeling.nowhere_name]

@[simp] theorem Condition.dump_nowhere (c : Condition) :
    (nowhere.condition c).dump = c.dump := by
  simp [dump, Relabeling.condition]

@[simp] theorem Variable.dump_bare (v : Variable) : v.bare.dump = v.dump := by
  have hdump : Expr.dump ∘ nowhere.expr = Expr.dump := funext Expr.dump_nowhere
  cases h : v.extent <;>
    simp [dump, bare, Relabeling.declared, isArray, h, hdump, Extent.length]

mutual

theorem Stmt.dump_bare : (st : Stmt) → (level : Nat) → st.bare.dump level = st.dump level
  | .declare v, _ => by rw [bare, dump, dump, v.dump_bare]
  | .assign target value _, _ => by simp [bare, Relabeling.stmt, dump]
  | .call x _, _ => by simp [bare, Relabeling.stmt, dump]
  | .block body _, level => by rw [bare, dump, dump, Stmt.dumpAll_bare body]
  | .branch test body _, level => by
    rw [bare, dump, dump, Stmt.dump_bare body, Condition.dump_nowhere]
  | .branchElse test body other _, level => by
    rw [bare, dump, dump, Stmt.dump_bare body, Stmt.dump_bare other, Condition.dump_nowhere]
  | .loop test body _, level => by
    rw [bare, dump, dump, Stmt.dump_bare body, Condition.dump_nowhere]
  | .empty _, _ => rfl

theorem Stmt.dumpAll_bare : (body : List Stmt) → (level : Nat) →
    Stmt.dumpAll level (Stmt.allBare body) = Stmt.dumpAll level body
  | [], _ => rfl
  | st :: rest, level => by
    rw [allBare, dumpAll, dumpAll, Stmt.dump_bare st, Stmt.dumpAll_bare rest]

end

theorem Program.dump_bare (p : Program) : p.bare.dump = p.dump := by
  have hdump : ∀ d : Declaration, d.bare.dump 1 = d.dump 1 := by
    intro d
    cases d with
    | function f =>
      simp [Declaration.bare, Declaration.dump, FunctionDef.dump, Relabeling.function, Stmt.dump,
        Stmt.dumpAll_bare]
    | global v => exact v.dump_bare
  simp [dump, bare, hdump, Function.comp_def]

end Bare

theorem parse_quotable {text : String} {p : Program}
    (hp : (parse (lex text).tokens).program? = some p) : Quotable p.names := by
  have hquote : ∀ c, Lexer.isWordChar c = true → (c != '"') = true := by
    intro c hc
    refine bne_iff_ne.mpr ?_
    rintro rfl
    exact absurd hc (by decide)
  intro x hx
  obtain ⟨c, rest, hname, hletter, hrest⟩ := parse_names hp x hx
  rw [hname, List.forall_mem_cons]
  exact ⟨hquote c (by simp [Lexer.isWordChar, hletter]), fun d hd => hquote d (hrest d hd)⟩

/-- The dump of a program that was parsed shows the program but for its spans, and nothing else. -/
theorem parse_dump_iff {text text' : String} {p q : Program}
    (hp : (parse (lex text).tokens).program? = some p)
    (hq : (parse (lex text').tokens).program? = some q) : p.dump = q.dump ↔ p.bare = q.bare := by
  refine ⟨Program.dump_injective (parse_quotable hp) (parse_quotable hq), fun h => ?_⟩
  rw [← p.dump_bare, h, q.dump_bare]

theorem parse_dump_counted : ∃ p q,
    (parse (lex "int a[] = \x7b1, -2\x7d; void f() \x7b if (a[0] < 1.5) ; \x7d").tokens).program? =
      some p ∧
    (parse (lex "int a[2]=\x7b(1),-2\x7d; void f()\x7bif(a[0]<1.50);\x7d").tokens).program? =
      some q ∧ p.dump = q.dump ∧ p.bare = q.bare := by
  have hdump : ((parse (lex "int a[] = \x7b1, -2\x7d; void f() \x7b if (a[0] < 1.5) ; \x7d").tokens
      ).program?.any fun p =>
    (parse (lex "int a[2]=\x7b(1),-2\x7d; void f()\x7bif(a[0]<1.50);\x7d").tokens).program?.any
      fun q => p.dump = q.dump) = true := by decide +kernel
  obtain ⟨p, hp, hdump⟩ := (Option.any_eq_true _ _).mp hdump
  obtain ⟨q, hq, hdump⟩ := (Option.any_eq_true _ _).mp hdump
  have hdump := of_decide_eq_true hdump
  exact ⟨p, q, hp, hq, hdump, (parse_dump_iff hp hq).mp hdump⟩

end C1Lang
