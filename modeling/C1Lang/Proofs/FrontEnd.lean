import C1Lang.Proofs.Compiled
import C1Lang.Proofs.Parser.Stored
import C1Lang.Proofs.Parser.Termination
import C1Lang.Proofs.Program.Shape
import C1Lang.Proofs.Token.Slices

/-!
# The front end never fails

Lexing cuts a text between characters. What parsing hands on has numbers for all of its names and
nodes, with nodes of the right kinds under each other. Lowering stops at problems only, and never
at a fault: a constant context gives constants, a place gives an address, and no remainder of
floats gets as far as an instruction. No number of a node is looked up before the node is stored.
-/

namespace C1Lang

namespace Lower

theorem expr_constant {ctx : Context} (h : ctx.constant = true) (e : Expr) (s : State) :
    (∃ v, expr ctx e s = .ok (.folded v) s) ∨ ∃ d, expr ctx e s = .error (.problem d) s := by
  have hctx : ctx.withConstant = ctx := by
    cases ctx
    subst h
    rfl
  have hends := fold_ends ctx e s
  unfold fold at hends
  rw [hctx] at hends
  unfold Ends asValue at hends
  cases hexpr : expr ctx e s with
  | error stop s' =>
    rw [bind_error hexpr] at hends
    cases stop with
    | problem d => exact .inr ⟨d, by rw [hends.2.2]⟩
    | fault f => exact hends.elim
  | ok r s' =>
    rw [bind_ok hexpr] at hends
    cases r with
    | runtime o k => exact hends.elim
    | folded v => exact .inl ⟨v, by rw [hends.2]⟩

section Steps

variable {α β : Type}

def Avoids (f : Fault) (step : Lower α) : Prop := ∀ s s', step s ≠ .error (.fault f) s'

theorem Avoids.bind {f : Fault} {step : Lower α} {next : α → Lower β} (h : Avoids f step)
    (hn : ∀ s a s', step s = .ok a s' → Avoids f (next a)) : Avoids f (step >>= next) := by
  intro s s' heq
  cases hstep : step s with
  | ok a s₁ =>
    rw [bind_ok hstep] at heq
    exact hn s a s₁ hstep s₁ s' heq
  | error e s₁ =>
    rw [bind_error hstep] at heq
    cases heq
    exact h s s' hstep

theorem Avoids.pure {f : Fault} (a : α) : Avoids f (Pure.pure a) := by
  intro s s' heq
  cases heq

end Steps

theorem compute_avoids (ty : IR.Ty) (instr : Nat → IR.Instr) :
    Avoids .floatRemainder (compute ty instr) := by
  have hbuilder : ∀ {α : Type} (change : IR.Builder → α × IR.Builder),
      Avoids .floatRemainder (onBuilder change) := by
    intro α change s s'
    unfold onBuilder
    split <;> intro heq <;> cases heq
  have hblock : ∀ change : IR.Builder → Option IR.Builder,
      Avoids .floatRemainder (onBlock change) := by
    intro change s s'
    unfold onBlock
    split
    · intro heq
      cases heq
    · dsimp only
      split <;> intro heq <;> cases heq
  exact (hbuilder _).bind fun _ _ _ _ => (hblock _).bind fun _ _ _ _ => .pure _

theorem coerce_avoids (o : IR.Operand) (source target : Kind) :
    Avoids .floatRemainder (coerce o source target) := by
  unfold coerce
  split
  · exact .pure _
  · split
    · exact .pure _
    · exact .pure _
    · split <;> exact compute_avoids _ _

theorem binary_avoids (op : BinaryOp) (span : Span) (l r : IR.Operand × Kind) :
    Avoids .floatRemainder (binary op span l r) := by
  unfold binary
  split
  · intro s s' heq
    cases heq
  · next hop =>
    have hmeet : Avoids .floatRemainder (meet l r) :=
      (coerce_avoids _ _ _).bind fun _ _ _ _ => (coerce_avoids _ _ _).bind fun _ _ _ _ => .pure _
    refine hmeet.bind fun s result s' heq => ?_
    obtain ⟨x, s₁, -, heq⟩ := bind_eq_ok heq
    obtain ⟨y, s₂, -, heq⟩ := bind_eq_ok heq
    cases heq
    -- The check that was passed leaves only kinds that have the instruction.
    have hop : ¬ (op = .mod ∧ l.2.unify r.2 = .float) := by simpa using hop
    obtain ⟨a, ha⟩ := arith?_isSome hop
    simp only [ha]
    exact (compute_avoids _ _).bind fun _ _ _ _ => .pure _

theorem expr_address_ne_folded (ctx : Context) (target : Place) (s s' : State) (v : Value) :
    expr ctx.address target.toExpr s ≠ .ok (.folded v) s' := by
  have hplace : ∀ (name : String) (span : Span)
      (index : Option (Span × Lower (IR.Operand × Kind))),
      place ctx.address name span index s ≠ .ok (.folded v) s' := by
    intro name span index heq
    unfold place at heq
    rw [if_neg (by simp [Context.address]), get_bind] at heq
    cases hlookup : s.scopes.lookup name with
    | none =>
      rw [hlookup] at heq
      cases heq
    | some b =>
      rw [hlookup] at heq
      dsimp only at heq
      by_cases hconstant : (ctx.address.access = .address && b.constant) = true
      · rw [if_pos hconstant] at heq
        cases heq
      · rw [if_neg hconstant] at heq
        obtain ⟨address, s₁, -, heq⟩ := bind_eq_ok heq
        cases heq
  cases target with
  | name x span => exact hplace _ _ _
  | element x i span => exact hplace _ _ _

end Lower

open C1Lang.Parser

theorem significant_lex_length_le (text : String) :
    (significant (lex text).tokens).length ≤ byteLength text.toList := by
  have hitems := Lexer.items_length_le 0 text.toList
  have hfound := List.length_filterMap_le Lexer.Item.token? (Lexer.items 0 text.toList)
  have hbytes := length_le_byteLength text.toList
  refine Nat.le_trans (List.length_filter_le _ _) ?_
  refine Nat.le_trans ?_ (Nat.le_trans hfound (Nat.le_trans hitems hbytes))
  simp only [lex, lexChars, List.map_append, List.takeWhile_append]
  split
  · simp [Token.wrap]
  · exact Nat.le_trans (List.Sublist.length_le (List.takeWhile_sublist _))
      (Nat.le_of_eq (List.length_map _))

/-- What parsing hands on: nodes under the nodes that take them, names that have numbers, no more
of both than tokens, and a program that is lowered without a fault. -/
structure Handed (ts : List Token) (p : Program) : Prop where
  shaped : p.arena.Shaped
  tests : ∀ (i j position : Nat) (n : Node), p.arena.nodes[i]? = some n →
    n.children[position]? = some j → Arena.kindAt? p.arena.nodes j = some .condition →
    position = 0 ∧ (n.kind = .branch ∨ n.kind = .loop)
  bodies : ∀ (i : Nat) (n : Node), p.arena.nodes[i]? = some n → n.kind = .function →
    ∃ b, n.children = [b] ∧ Arena.kindAt? p.arena.nodes b = some .block
  functions : ∀ j, Arena.kindAt? p.arena.nodes j = some .function →
    j ∈ p.arena.roots ∧ ∀ (i : Nat) (n : Node), p.arena.nodes[i]? = some n → j ∉ n.children
  names : ∀ x ∈ p.names, ∃ id, (parse ts).symbols.lookup x = some id ∧
    (parse ts).symbols.get? id = some x
  nodes : p.arena.nodes.size ≤ (significant ts).length
  symbols : (parse ts).symbols.size ≤ (significant ts).length
  lowered : ∀ name, ∃ l, lower name p = .ok l

theorem handed_of_parse {ts : List Token} {p : Program} (h : (parse ts).program? = some p) :
    Handed ts p := by
  have hshaped := p.arena_shaped
  obtain ⟨q, s, heq, hrest, ha, hknown⟩ := program_affords ts
  have hparse : parse ts = ⟨q, s.symbols, s.diagnostics⟩ := by simp only [parse, heq]
  have hq : q = p := by
    rw [hparse] at h
    unfold Parsed.program? at h
    split at h
    · exact Option.some.inj h
    · cases h
  have hroom : s.symbols.size + s.rest.length ≤ 0 + (significant ts).length := ha.room
  have hnodes := Grammar.Derives.nodes_le (derives_of_parse h) {}
  exact {
    shaped := hshaped
    tests := fun i j position n hn hj hk => hshaped.condition_first hn hj hk
    bodies := fun i n hn hk => hshaped.function_body hn hk
    functions := fun j hj => hshaped.function_root hj
    names := fun x hx => by
      rw [hparse]
      exact SymbolTable.lookup_of_mem (hknown (hq ▸ hx))
    nodes := by simpa [Program.arena] using hnodes
    symbols := by
      rw [hparse]
      dsimp only
      omega
    lowered := fun name => by
      obtain ⟨l, hl, -⟩ := lower_judged name p
      exact ⟨l, hl⟩ }

theorem compile_total (path text : String) (verify : Bool) :
    ∃ c, compile path text verify = .ok c := by
  unfold compile
  obtain ⟨l, hl, -⟩ | ⟨ds, -, hl | hl, -⟩ := Progress.ofText_cases (moduleName path) text
  · exact ⟨_, by rw [hl]; rfl⟩
  · exact ⟨_, by rw [hl]; rfl⟩
  · exact ⟨_, by rw [hl]; rfl⟩

/-- No text leads into a state that cannot be gone on from. Offsets and numbers fit into 32 bits
when the text does. Parsing that stores its nodes comes to an end, with diagnostics or without: no
number is looked up that has no node. -/
theorem front_end_safe (path text : String) (verify : Bool)
    (hbytes : byteLength text.toList < 0x100000000) :
    (∀ t ∈ (lex text).tokens, t.span.Within path text t.lexeme ∧ t.span.stop < 0x100000000) ∧
    (∀ d ∈ (lex text).diagnostics,
      d.span.stop < 0x100000000 ∧ ∃ piece, d.span.Within path text piece) ∧
    (∃ c, compile path text verify = .ok c) ∧
    (∀ p, (parse (lex text).tokens).program? = some p → p.arena.nodes.size < 0x100000000 ∧
      (parse (lex text).tokens).symbols.size < 0x100000000) ∧
    (∀ ts p, (parse ts).program? = some p → Handed ts p) ∧
    (∀ ctx e s, ctx.constant = true → (∃ v, Lower.expr ctx e s = .ok (.folded v) s) ∨
      ∃ d, Lower.expr ctx e s = .error (.problem d) s) ∧
    (∀ (ctx : Context) (target : Place) s s' v,
      Lower.expr ctx.address target.toExpr s ≠ .ok (.folded v) s') ∧
    (∀ op span l r s s', Lower.binary op span l r s ≠ .error (.fault .floatRemainder) s') ∧
    ∀ ts, ∃ roots st, Storing.program (.ofTokens ts) = .ok roots st ∧
      Storing.Found (parse ts) roots st := by
  refine ⟨fun t ht => ?_, fun d hd => ?_, compile_total path text verify, fun p hp => ?_,
    fun ts p hp => handed_of_parse hp, fun ctx e s hctx => Lower.expr_constant hctx e s,
    fun ctx target s s' v => Lower.expr_address_ne_folded ctx target s s' v,
    fun op span l r => Lower.binary_avoids op span l r, Storing.program_run⟩
  · have hwithin := lex_tokens_within hbytes path t ht
    exact ⟨hwithin, Nat.lt_of_le_of_lt hwithin.stop hbytes⟩
  · obtain ⟨piece, hwithin⟩ := lex_diagnostics_within hbytes path d hd
    exact ⟨Nat.lt_of_le_of_lt hwithin.stop hbytes, piece, hwithin⟩
  · have hhanded := handed_of_parse hp
    have hlength := significant_lex_length_le text
    exact ⟨by have := hhanded.nodes; omega, by have := hhanded.symbols; omega⟩

theorem front_end_safe_accent :
    let text := "int a; // é\nint b = 1;"
    byteLength text.toList < 0x100000000 ∧
    (∀ t ∈ (lex text).tokens, t.span.Within "a.c1" text t.lexeme ∧ t.span.stop < 0x100000000) ∧
    ∃ c, compile "a.c1" text true = .ok c := by
  have hbytes : byteLength "int a; // é\nint b = 1;".toList < 0x100000000 := by decide +kernel
  have h := front_end_safe "a.c1" "int a; // é\nint b = 1;" true hbytes
  exact ⟨hbytes, h.1, h.2.2.1⟩

end C1Lang
