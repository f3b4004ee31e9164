import C1Lang.Proofs.Parser.Bookkeeping
import C1Lang.Proofs.Parser.Storing

/-!
# The tree and the row

The two parsers run side by side (`Tracks`): what is left for the one is what the cursor of the
other shows, they read the same tokens and stop for the same problems, and no number is ever looked
up under which nothing is stored. As long as nothing has been reported, what was stored for a part
of the text are the nodes of its tree, in a row behind those that were there (`Laid`). Where
something has been reported, nodes that belong to no tree may be left behind; then only the span of
a node is known.
-/

namespace C1Lang

namespace SymbolTable

theorem size_le_mention (t : SymbolTable) (name : String) : t.size ≤ (t.mention name).size := by
  unfold size
  rcases t.mention_cases name with ⟨h, -⟩ | h
  · exact Nat.le_of_eq (by rw [h])
  · simp [h]

theorem intern_lt (t : SymbolTable) (name : String) :
    (t.intern name).1 < (t.mention name).size := by
  unfold mention intern
  cases hid : t.lookup name with
  | none => simp [size]
  | some id => exact (List.findIdx?_eq_some_iff_getElem.mp hid).1

end SymbolTable

namespace Storing

open C1Lang.Parser

namespace Store

def parser (st : Store) : State :=
  { State.ofTokens st.cursor.unread with symbols := st.symbols, diagnostics := st.diagnostics }

theorem parser_ofTokens (ts : List Token) : (ofTokens ts).parser = State.ofTokens ts := by
  unfold parser
  rw [show (ofTokens ts).cursor = Cursor.ofTokens ts from rfl, Cursor.state_ofTokens]
  rfl

theorem parser_kind (st : Store) : st.parser.kind = st.cursor.peek.kind := st.valid.stands.kind

theorem parser_span (st : Store) : st.parser.span = st.cursor.peek.span := st.valid.stands.span

/-- Where the cursor shows the end marker nothing is left, and otherwise the token that it shows is
the first one of what is left. -/
theorem parser_cases (st : Store) :
    (st.cursor.peek.kind = .eof ∧ st.parser.rest = []) ∨
    (st.cursor.peek.kind ≠ .eof ∧
      st.parser = { st.bump.parser with rest := st.cursor.peek :: st.bump.parser.rest }) := by
  by_cases heof : st.cursor.peek.kind = .eof
  · refine .inl ⟨heof, ?_⟩
    have hkind := st.parser_kind.trans heof
    cases hrest : st.parser.rest with
    | nil => rfl
    | cons t rest =>
      have hmem : t ∈ st.parser.rest := by simp [hrest]
      rw [State.kind, hrest] at hkind
      exact absurd hkind (State.ofTokens_ne_eof st.cursor.unread t hmem)
  · refine .inr ⟨heof, ?_⟩
    have hcons := st.valid.state_cons.2.2 heof
    unfold parser
    rw [hcons]
    rfl

def nodes (st : Store) : Array Node := st.cells.map Cell.toNode

def Clean (st : Store) : Prop := st.diagnostics = []

def Interned (st : Store) : Prop :=
  ∀ c ∈ st.cells, ∀ x ∈ c.symbol, x < st.symbols.size

@[simp] theorem nodes_push (st : Store) (c : Cell) :
    (st.push c).nodes = st.nodes.push c.toNode := by
  simp [nodes, push]

@[simp] theorem nodes_size (st : Store) : st.nodes.size = st.cells.size := by simp [nodes]

theorem spanAt?_push (st : Store) (c : Cell) :
    (st.push c).spanAt? st.cells.size = some c.span := by
  simp [spanAt?, push]

end Store

/-- From `st` to `st'` tokens were read. The place has changed when there are less tokens left. -/
structure Moved (st st' : Store) : Prop where
  index_le : st.cursor.index ≤ st'.cursor.index
  rest_le : st'.parser.rest.length ≤ st.parser.rest.length
  still : st'.cursor.index = st.cursor.index ↔
    st'.parser.rest.length = st.parser.rest.length

namespace Moved

variable {st st' st'' : Store}

theorem of_cursor_eq (h : st'.cursor = st.cursor) : Moved st st' := by
  have hrest : st'.parser.rest = st.parser.rest := by
    unfold Store.parser
    rw [h]
  exact ⟨by rw [h], by rw [hrest], by rw [h, hrest]; exact iff_of_true rfl rfl⟩

theorem trans (h : Moved st st') (k : Moved st' st'') : Moved st st'' := by
  obtain ⟨hindex, hrest, hstill⟩ := h
  obtain ⟨kindex, krest, kstill⟩ := k
  exact ⟨by omega, by omega, by omega⟩

theorem bump (hne : st.cursor.peek.kind ≠ .eof) : Moved st st.bump := by
  have hindex : st.cursor.index < st.bump.cursor.index := st.valid.index_lt_bump hne
  obtain ⟨heof, -⟩ | ⟨-, hcons⟩ := st.parser_cases
  · exact absurd heof hne
  · have hrest : st.parser.rest.length = st.bump.parser.rest.length + 1 := by
      rw [hcons]
      rfl
    exact ⟨by omega, by omega, by omega⟩

end Moved

structure Later (st st' : Store) : Prop where
  moved : Moved st st'
  kept : ∀ {i : Nat} {c : Cell}, st.cells[i]? = some c → st'.cells[i]? = some c
  symbols : st.symbols.size ≤ st'.symbols.size
  clean : st'.Clean → st.Clean
  interned : st.Interned → st'.Interned

namespace Later

variable {st st' st'' : Store}

theorem refl (st : Store) : Later st st := ⟨.of_cursor_eq rfl, id, Nat.le_refl _, id, id⟩

theorem trans (h : Later st st') (k : Later st' st'') : Later st st'' :=
  ⟨h.moved.trans k.moved, fun hc => k.kept (h.kept hc), Nat.le_trans h.symbols k.symbols,
    fun hc => h.clean (k.clean hc), fun hi => k.interned (h.interned hi)⟩

theorem spanAt? (h : Later st st') {id : Nat} {span : Span} (hs : st.spanAt? id = some span) :
    st'.spanAt? id = some span := by
  obtain ⟨c, hc, rfl⟩ := Option.map_eq_some_iff.mp hs
  simp [Store.spanAt?, h.kept hc]

end Later

structure Reads (st st' : Store) : Prop where
  moved : Moved st st'
  cells : st'.cells = st.cells
  symbols : st.symbols.size ≤ st'.symbols.size
  clean : st'.Clean → st.Clean

namespace Reads

variable {st st' st'' : Store}

theorem refl (st : Store) : Reads st st := ⟨.of_cursor_eq rfl, rfl, Nat.le_refl _, id⟩

theorem trans (h : Reads st st') (k : Reads st' st'') : Reads st st'' :=
  ⟨h.moved.trans k.moved, k.cells.trans h.cells, Nat.le_trans h.symbols k.symbols,
    fun hc => h.clean (k.clean hc)⟩

theorem bump (hne : st.cursor.peek.kind ≠ .eof) : Reads st st.bump :=
  ⟨.bump hne, rfl, Nat.le_refl _, id⟩

theorem record (st : Store) (d : Diagnostic) : Reads st (st.record d) :=
  ⟨.of_cursor_eq rfl, rfl, Nat.le_refl _, fun hc => absurd hc (by simp [Store.Clean, Store.record])⟩

theorem later (h : Reads st st') : Later st st' where
  moved := h.moved
  kept hc := by rwa [h.cells]
  symbols := h.symbols
  clean := h.clean
  interned hi c hc x hx := Nat.lt_of_lt_of_le (hi c (h.cells ▸ hc) x hx) h.symbols

theorem nodes (h : Reads st st') : st'.nodes = st.nodes := by simp [Store.nodes, h.cells]

end Reads

def Mentioned (st : Store) (symbol : Option Nat) : Prop :=
  ∀ x ∈ symbol, x < st.symbols.size

theorem Mentioned.none (st : Store) : Mentioned st none := by simp [Mentioned]

theorem Mentioned.later {st st' : Store} {symbol : Option Nat} (h : Mentioned st symbol)
    (k : Later st st') : Mentioned st' symbol :=
  fun x hx => Nat.lt_of_lt_of_le (h x hx) k.symbols

theorem Later.push {st : Store} {c : Cell} (h : Mentioned st c.symbol) : Later st (st.push c) where
  moved := .of_cursor_eq rfl
  kept {i d} hd := by
    have hne : i ≠ st.cells.size := Nat.ne_of_lt (Array.getElem?_eq_some_iff.mp hd).1
    simp [Store.push, Array.getElem?_push, hne, hd]
  symbols := Nat.le_refl _
  clean := id
  interned hi d hd x hx := by
    rcases Array.mem_push.mp hd with hd | rfl
    · exact hi d hd x hx
    · exact h x hx

/-- From `st` to `st'` what `add` appends was stored, if nothing has been reported by then. -/
structure Laid {β : Type} (st : Store) (add : Array Node → β × Array Node) (b : β) (st' : Store) :
    Prop where
  later : Later st st'
  nodes : st'.Clean → add st.nodes = (b, st'.nodes)

namespace Laid

variable {β : Type} {st st' st'' : Store} {add : Array Node → β × Array Node} {b : β}
  {one : Array Node → Nat × Array Node} {all : Array Node → List Nat × Array Node}
  {i : Nat} {is : List Nat}

theorem reads (h : Laid st add b st') (k : Reads st' st'') : Laid st add b st'' :=
  ⟨h.later.trans k.later, fun hc => by rw [h.nodes (k.clean hc), k.nodes]⟩

theorem after (h : Laid st' add b st'') (k : Reads st st') : Laid st add b st'' :=
  ⟨k.later.trans h.later, fun hc => by rw [← h.nodes hc, k.nodes]⟩

theorem nil (st : Store) : Laid st (fun nodes => (([] : List Nat), nodes)) [] st :=
  ⟨.refl st, fun _ => rfl⟩

theorem cons (h : Laid st one i st') (k : Laid st' all is st'') :
    Laid st (fun nodes => ((one nodes).1 :: (all (one nodes).2).1, (all (one nodes).2).2))
      (i :: is) st'' := by
  refine ⟨h.later.trans k.later, fun hc => ?_⟩
  simp only [h.nodes (k.later.clean hc), k.nodes hc]

theorem behind (h : Laid st all is st') (k : Laid st' one i st'') :
    Laid st (fun nodes => ((one (all nodes).2).1 :: (all nodes).1, (one (all nodes).2).2))
      (i :: is) st'' := by
  refine ⟨h.later.trans k.later, fun hc => ?_⟩
  simp only [h.nodes (k.later.clean hc), k.nodes hc]

theorem push {kind : NodeKind} {span : Span} {symbol : Option Nat} (h : Laid st all is st')
    (hx : Mentioned st' symbol) :
    Laid st (fun nodes => Arena.push (all nodes).2 kind span (all nodes).1) st'.cells.size
      (st'.push ⟨⟨kind, span, is⟩, symbol⟩) := by
  refine ⟨h.later.trans (.push hx), fun hc => ?_⟩
  simp [h.nodes hc, Arena.push]

theorem of_reported (h : Later st st') (hc : ¬ st'.Clean) : Laid st add b st' :=
  ⟨h, fun hc' => absurd hc' hc⟩

end Laid

structure Holds (st : Store) (add : Array Node → Nat × Array Node) (span : Span) (id : Nat)
    (st' : Store) : Prop where
  laid : Laid st add id st'
  span : st'.spanAt? id = some span

namespace Holds

variable {st st' st'' : Store} {add : Array Node → Nat × Array Node} {span : Span} {id : Nat}

theorem reads (h : Holds st add span id st') (k : Reads st' st'') : Holds st add span id st'' :=
  ⟨h.laid.reads k, k.later.spanAt? h.span⟩

theorem after (h : Holds st' add span id st'') (k : Reads st st') : Holds st add span id st'' :=
  ⟨h.laid.after k, h.span⟩

theorem of_push {kind : NodeKind} {children : List Nat} {symbol : Option Nat}
    (h : Laid st add st'.cells.size (st'.push ⟨⟨kind, span, children⟩, symbol⟩)) :
    Holds st add span st'.cells.size (st'.push ⟨⟨kind, span, children⟩, symbol⟩) :=
  ⟨h, st'.spanAt?_push _⟩

end Holds

/-- The parser of trees and the one that stores do the same from `st` on, and `done` describes
their results and the store behind them. -/
inductive Tracks {α β : Type} (p : Parser α) (q : Storing β) (st : Store)
    (done : α → β → Store → Prop) : Prop
  | ok (a : α) (b : β) (st' : Store) (left : p st.parser = .ok a st'.parser)
      (right : q st = .ok b st') (later : Later st st') (hd : done a b st')
  | error (d : Diagnostic) (st' : Store) (left : p st.parser = .error d st'.parser)
      (right : q st = .error (.problem d) st') (later : Later st st')

namespace Tracks

variable {α β γ δ : Type} {p : Parser α} {q : Storing β} {st : Store}
  {done : α → β → Store → Prop}

theorem pure {a : α} {b : β} (h : done a b st) : Tracks (Pure.pure a) (Pure.pure b) st done :=
  .ok a b st rfl rfl (.refl st) h

theorem throw (d : Diagnostic) :
    Tracks (MonadExcept.throw d : Parser α) (MonadExcept.throw (.problem d) : Storing β) st done :=
  .error d st rfl rfl (.refl st)

theorem of_step {p' : Parser α} {q' : Storing β} {st' : Store} (left : p st.parser = p' st'.parser)
    (right : q st = q' st') (later : Later st st') (h : Tracks p' q' st' done) :
    Tracks p q st done := by
  cases h with
  | ok a b st'' hp hq later' hd =>
    exact .ok a b st'' (left.trans hp) (right.trans hq) (later.trans later') hd
  | error d st'' hp hq later' =>
    exact .error d st'' (left.trans hp) (right.trans hq) (later.trans later')

theorem bind {f : α → Parser γ} {g : β → Storing δ} {done' : γ → δ → Store → Prop}
    (h : Tracks p q st done)
    (hf : ∀ a b st', Later st st' → done a b st' → Tracks (f a) (g b) st' done') :
    Tracks (p >>= f) (q >>= g) st done' := by
  cases h with
  | ok a b st' left right later hd =>
    exact .of_step (bind_ok left) (bind_ok right) later (hf a b st' later hd)
  | error d st' left right later =>
    exact .error d st' (bind_error left) (bind_error right) later

theorem map {f : α → γ} {done' : γ → β → Store → Prop} (h : Tracks p q st done)
    (hd : ∀ a b st', done a b st' → done' (f a) b st') :
    Tracks (p >>= fun a => Pure.pure (f a)) q st done' := by
  cases h with
  | ok a b st' left right later h => exact .ok (f a) b st' (bind_ok left) right later (hd a b st' h)
  | error d st' left right later => exact .error d st' (bind_error left) right later

theorem get_bind {f : Parser.State → Parser α} {g : Store → Storing β}
    (h : Tracks (f st.parser) (g st) st done) : Tracks (get >>= f) (get >>= g) st done :=
  .of_step (bind_ok rfl) (bind_ok rfl) (.refl st) h

theorem peek_bind {f : TokenKind → Parser α} {g : TokenKind → Storing β}
    (h : Tracks (f st.parser.kind) (g st.parser.kind) st done) :
    Tracks (Parser.peek >>= f) (peek >>= g) st done := by
  have hpeek : peek st = .ok st.parser.kind st := by
    rw [st.parser_kind]
    rfl
  exact .of_step (bind_ok rfl) (bind_ok hpeek) (.refl st) h

theorem peekSecond_bind {f : TokenKind → Parser α} {g : TokenKind → Storing β}
    (hne : st.parser.kind ≠ .eof)
    (h : Tracks (f (st.cursor.peekNth 1).kind) (g (st.cursor.peekNth 1).kind) st done) :
    Tracks (Parser.peekSecond >>= f) (peekSecond >>= g) st done := by
  rw [st.parser_kind] at hne
  obtain ⟨heof, -⟩ | ⟨-, hcons⟩ := st.parser_cases
  · exact absurd heof hne
  · have hahead : st.cursor.peekNth 1 = st.bump.cursor.peek := st.valid.peekNth_eq 1
    have hlook : Parser.peekSecond st.parser = .ok (st.cursor.peekNth 1).kind st.parser := by
      rw [peekSecond_eq, hahead, ← st.bump.parser_kind, State.kind_eq, congrArg State.rest hcons]
      rfl
    exact .of_step (bind_ok hlook) (bind_ok rfl) (.refl st) h

theorem remaining_bind {f : Nat → Parser α} {g : Nat → Storing β}
    (h : Tracks (f st.parser.rest.length) (g st.parser.rest.length) st done) :
    Tracks (Parser.remaining >>= f) (remaining >>= g) st done :=
  .of_step (bind_ok rfl) (bind_ok rfl) (.refl st) h

theorem fail {problem : Problem} : Tracks (Parser.fail problem) (fail problem) st done := by
  have hfail : (Storing.fail problem : Storing β) st =
      .error (.problem ⟨problem, st.parser.span⟩) st := by
    rw [st.parser_span]
    rfl
  exact .error _ st rfl hfail (.refl st)

theorem bump_bind {f : Unit → Parser α} {g : Token → Storing β} (hne : st.parser.kind ≠ .eof)
    (h : Reads st st.bump → Tracks (f ()) (g st.cursor.peek) st.bump done) :
    Tracks (advance >>= f) (bump >>= g) st done := by
  rw [st.parser_kind] at hne
  have hreads := Reads.bump hne
  obtain ⟨heof, -⟩ | ⟨-, hcons⟩ := st.parser_cases
  · exact absurd heof hne
  · have hleft : advance st.parser = .ok () st.bump.parser := by
      rw [advance_eq (congrArg State.rest hcons), hcons]
    exact .of_step (bind_ok hleft) (bind_ok rfl) hreads.later (h hreads)

section Kinds

variable {kind : TokenKind} (hk : kind ≠ .eof)

include hk

theorem accept?_cases (st : Store) :
    (accept? kind st.parser = .ok none st.parser ∧ st.cursor.peek.kind ≠ kind) ∨
    (accept? kind st.parser = .ok (some st.cursor.peek) st.bump.parser ∧
      st.cursor.peek.kind = kind ∧ st.bump.cursor.previous = st.cursor.peek ∧
      Reads st st.bump) := by
  obtain ⟨heof, hnil⟩ | ⟨hne, hcons⟩ := st.parser_cases
  · refine .inl ⟨accept?_nil hnil kind, ?_⟩
    rw [heof]
    exact hk.symm
  · have haccept := accept?_cons (congrArg State.rest hcons) kind
    by_cases heq : st.cursor.peek.kind = kind
    · rw [if_pos heq] at haccept
      refine .inr ⟨?_, heq, st.valid.stands.previous hne, .bump hne⟩
      rw [haccept, hcons]
    · rw [if_neg heq] at haccept
      exact .inl ⟨haccept, heq⟩

theorem accept? : Tracks (Parser.accept? kind) (eat kind) st
    (fun o b st' => b = o.isSome ∧ (∀ t ∈ o, st'.cursor.previous = t) ∧ Reads st st') := by
  have heat : eat kind st =
      if st.cursor.peek.kind = kind then .ok true st.bump else .ok false st := by
    have hbind : eat kind st = (if st.cursor.peek.kind = kind then
        bump >>= fun _ => Pure.pure true else Pure.pure false) st := rfl
    rw [hbind]
    split <;> rfl
  obtain ⟨hnone, hne⟩ | ⟨hsome, heq, hprevious, hreads⟩ := accept?_cases hk st
  · rw [if_neg hne] at heat
    exact .ok none false st hnone heat (.refl st) ⟨rfl, nofun, .refl st⟩
  · rw [if_pos heq] at heat
    exact .ok _ true st.bump hsome heat hreads.later
      ⟨rfl, fun t ht => hprevious.trans (Option.mem_some.mp ht), hreads⟩

theorem accept : Tracks (Parser.accept kind) (eat kind) st
    (fun a b st' => b = a ∧ Reads st st') :=
  (accept? hk).map fun _ _ _ h => ⟨h.1, h.2.2⟩

theorem accept_bind {f : Bool → Parser α} {g : Bool → Storing β}
    (h : ∀ b st', Reads st st' → Tracks (f b) (g b) st' done) :
    Tracks (Parser.accept kind >>= f) (eat kind >>= g) st done :=
  (accept hk).bind fun b _ st' _ hb => by
    obtain ⟨rfl, hr⟩ := hb
    exact h _ st' hr

theorem expect : Tracks (Parser.expect kind) (expect kind) st
    (fun t u st' => u = t ∧ st'.cursor.previous = t ∧ Reads st st') := by
  have hexpect : Storing.expect kind st = (if st.cursor.peek.kind = kind then Storing.bump
      else Storing.fail (.expectedToken (.token kind))) st := rfl
  obtain ⟨hnone, hne⟩ | ⟨hsome, heq, hprevious, hreads⟩ := accept?_cases hk st
  · rw [if_neg hne] at hexpect
    exact .of_step (bind_ok hnone) hexpect (.refl st) .fail
  · rw [if_pos heq] at hexpect
    exact .ok _ _ st.bump (bind_ok hsome) hexpect hreads.later ⟨rfl, hprevious, hreads⟩

theorem expect_bind {f : Token → Parser α} {g : Token → Storing β}
    (h : ∀ t st', Reads st st' → Tracks (f t) (g t) st' done) :
    Tracks (Parser.expect kind >>= f) (Storing.expect kind >>= g) st done :=
  (expect hk).bind fun t _ st' _ ht => by
    obtain ⟨rfl, -, hr⟩ := ht
    exact h _ st' hr

end Kinds

theorem span_bind {id : Nat} {span : Span} {g : Span → Storing β}
    (hs : st.spanAt? id = some span) (h : Tracks p (g span) st done) :
    Tracks p (spanOf id >>= g) st done := by
  refine .of_step rfl (bind_ok ?_) (.refl st) h
  simp [spanOf, hs]

theorem alloc_bind {kind : NodeKind} {span : Span} {children : List Nat} {symbol : Option Nat}
    {g : Nat → Storing β} (hx : Mentioned st symbol)
    (h : Tracks p (g st.cells.size) (st.push ⟨⟨kind, span, children⟩, symbol⟩) done) :
    Tracks p (alloc kind span children symbol >>= g) st done := by
  have hstep : alloc kind span children symbol st =
      .ok st.cells.size (st.push ⟨⟨kind, span, children⟩, symbol⟩) := rfl
  have hp : p st.parser = p (st.push ⟨⟨kind, span, children⟩, symbol⟩).parser := rfl
  exact .of_step hp (bind_ok hstep) (.push hx) h

theorem alloc {a : α} {kind : NodeKind} {span : Span} {children : List Nat} {symbol : Option Nat}
    {done : α → Nat → Store → Prop} (hx : Mentioned st symbol)
    (h : done a st.cells.size (st.push ⟨⟨kind, span, children⟩, symbol⟩)) :
    Tracks (Pure.pure a) (alloc kind span children symbol) st done :=
  .ok a _ (st.push ⟨⟨kind, span, children⟩, symbol⟩) rfl rfl (.push hx) h

end Tracks

end Storing

end C1Lang
