import C1Lang.Proofs.Execution.Simulation
import C1Lang.Proofs.Lower.Shape

/-!
# Running code that was built

The machine stands behind the code of a builder (`stand`) in a function `F` that continues it. One
more instruction is one more step, and leaving a block is a step to the next one. Temporaries that
were written before stay as they are (`Passes`).
-/

namespace C1Lang.Execution

open IR IR.Builder Lower

def stand (b : Builder) (F : Function) (T : Temps) (s : Store) (K : List (Point × Memory)) :
    Config :=
  ⟨⟨F, b.current, b.code.length, T⟩, s, K⟩

variable {m : Module} {n : Nat} {F : Function} {T T' T'' : Temps} {s : Store}
  {K : List (Point × Memory)} {b b' b'' : Builder}

theorem step_push {i : Instr} (hb : b.Open) (hF : (b.push i).finish.Within F) :
    step m (stand b F T s K) = (perform m (stand b F T s K) i).map .inl := by
  obtain ⟨c, hc, -⟩ := (Appends.push b i).opened hb
  obtain ⟨d, hd, hcd⟩ := hF.blocks _ c hc
  have hcode : c.instructions.toList = b.code ++ [i] := by
    rw [← code_of_getElem? hc, push_code hb]
  have hi : d.instructions[b.code.length]? = some i := by
    apply getElem?_extend hcd.instructions
    rw [← Array.getElem?_toList, hcode]
    simp
  have hd' : F.blocks[b.current]? = some d := hd
  simp only [step, stand, hd', hi]

theorem step_leave {t : Terminator} {next : Nat} (hb : b.Open)
    (hF : (b.leave t next).finish.Within F) (ht : t ≠ .unreachable) :
    step m (stand b F T s K) = exit (stand b F T s K) t := by
  obtain ⟨c, hc, -⟩ := hb
  have hleft : (b.leave t next).blocks[b.current]? = some { c with terminator := t } := by
    rw [leave_getElem?, if_pos rfl, hc, Option.map_some]
  obtain ⟨d, hd, hcd⟩ := hF.blocks _ _ hleft
  obtain rfl := hcd.ended ht
  have hi : c.instructions[b.code.length]? = none := by
    rw [code_of_getElem? hc]
    simp
  have hd' : F.blocks[b.current]? = some { c with terminator := t } := hd
  simp only [step, stand, hd', hi]

theorem stand_push (hb : b.Open) (i : Instr) :
    stand (b.push i) F T s K = (stand b F T s K).advance := by
  simp only [stand, Config.advance, push_code hb, List.length_append, List.length_singleton]
  rfl

theorem stand_compute (hb : b.Open) (ty : Ty) (i : Instr) (t : Nat) (d : Datum) :
    stand (b.compute ty i) F (T.set t d) s K = (stand b F T s K).set t d := by
  simp only [stand, Config.set, Config.advance, compute_code hb, List.length_append,
    List.length_singleton]
  rfl

theorem stand_leave {next : Nat} (hw : b.Waits next) (t : Terminator) :
    stand (b.leave t next) F T s K = ⟨⟨F, next, 0, T⟩, s, K⟩ := by
  simp only [stand, hw.code]
  rfl

theorem stand_create (hb : b.Open) : stand b.createBlock.2 F T s K = stand b F T s K := by
  simp only [stand, createBlock_code hb]
  rfl

theorem goto_step {target next : Nat} (hb : b.Open)
    (hF : (b.leave (.goto target) next).finish.Within F) :
    step m (stand b F T s K) = .ok (.inl ⟨⟨F, target, 0, T⟩, s, K⟩) := by
  rw [step_leave hb hF (by simp)]
  rfl

/-- From `b` to `b'` the temporaries of `b` were left alone. -/
structure Passes (b : Builder) (T : Temps) (b' : Builder) (T' : Temps) : Prop where
  le : b.temps.size ≤ b'.temps.size
  same : ∀ t < b.temps.size, T' t = T t

theorem Passes.refl (b : Builder) (T : Temps) : Passes b T b T := ⟨Nat.le_refl _, fun _ _ => rfl⟩

theorem Passes.trans (h : Passes b T b' T') (k : Passes b' T' b'' T'') : Passes b T b'' T'' := by
  have hle := h.le
  refine ⟨Nat.le_trans hle k.le, fun t ht => ?_⟩
  rw [k.same t (by omega), h.same t ht]

theorem Passes.compute (b : Builder) (T : Temps) (ty : Ty) (i : Instr) (d : Datum) :
    Passes b T (b.compute ty i) (T.set b.temps.size d) := by
  refine ⟨((Straight.refl b).compute ty i).temps_le, fun t ht => ?_⟩
  simp [Temps.set, Nat.ne_of_lt ht]

/-- The operand stands for the datum, and will. -/
structure Shows (b : Builder) (T : Temps) (o : Operand) (d : Datum) : Prop where
  datum : datum? T o = some d
  old : ∀ t, o = .temp t → t < b.temps.size

theorem Shows.mono {o : Operand} {d : Datum} (h : Shows b T o d) (hp : Passes b T b' T') :
    Shows b' T' o d := by
  refine ⟨?_, fun t ht => Nat.lt_of_lt_of_le (h.old t ht) hp.le⟩
  cases o with
  | temp t => exact (hp.same t (h.old t rfl)).trans h.datum
  | slot i => exact h.datum
  | global i => exact h.datum
  | const c => cases c <;> exact h.datum

theorem Shows.fresh (b : Builder) (T : Temps) (ty : Ty) (i : Instr) (d : Datum) :
    Shows (b.compute ty i) (T.set b.temps.size d) (.temp b.temps.size) d := by
  refine ⟨by simp [datum?, Temps.set], fun t ht => ?_⟩
  cases ht
  simp [Builder.compute, Builder.push, Builder.addTemp]

theorem Shows.const (b : Builder) (T : Temps) (v : Value) :
    Shows b T (.const v.toConst) (.value v) := by
  refine ⟨?_, fun t ht => by cases ht⟩
  cases v <;> rfl

theorem Shows.storage (b : Builder) (T : Temps) (x : Storage) :
    Shows b T x.operand (.address ⟨x, 0⟩) := by
  cases x <;> exact ⟨rfl, fun t ht => by cases ht⟩

theorem Shows.value {o : Operand} {v : Value} (h : Shows b T o (.value v)) :
    (stand b F T s K).value o = .ok v := by
  simp [Config.value, stand, h.datum]

theorem Shows.flag {o : Operand} {f : Bool} (h : Shows b T o (.flag f)) :
    (stand b F T s K).flag o = .ok f := by
  simp [Config.flag, stand, h.datum]

theorem Shows.address {o : Operand} {a : Address} (h : Shows b T o (.address a)) :
    (stand b F T s K).address o = .ok a := by
  simp [Config.address, stand, h.datum]

theorem branch_step {o : Operand} {i j next : Nat} {f : Bool} (hb : b.Open)
    (hF : (b.leave (.branch o i j) next).finish.Within F) (ho : Shows b T o (.flag f)) :
    step m (stand b F T s K) = .ok (.inl ⟨⟨F, if f then i else j, 0, T⟩, s, K⟩) := by
  rw [step_leave hb hF (by simp)]
  simp only [exit, ho.flag]
  rfl

def Lands (F : Function) (s : Store) (K : List (Point × Memory)) (b : Builder) (T : Temps)
    (b' : Builder) (o : Operand) (d : Datum) (c : Config) : Prop :=
  ∃ T', c = stand b' F T' s K ∧ Passes b T b' T' ∧ Shows b' T' o d

theorem Lands.after {o : Operand} {d : Datum} {c : Config}
    (h : Lands F s K b' T' b'' o d c) (hp : Passes b T b' T') : Lands F s K b T b'' o d c := by
  obtain ⟨T'', hc, hp', ho⟩ := h
  exact ⟨T'', hc, hp.trans hp', ho⟩

theorem compute_follows {α : Type} {ty : Ty} {i : Instr} {r : Except Halt α} {g : α → Datum}
    (hb : b.Open) (hF : (b.compute ty i).finish.Within F)
    (hp : perform m (stand b F T s K) i =
      r.map fun a => (stand b F T s K).set b.temps.size (g a))
    (hr : r ≠ .error .exhausted) (hr' : r ≠ .error .stuck) :
    Follows m n (stand b F T s K) r fun a c =>
      r = .ok a ∧ Lands F s K b T (b.compute ty i) (.temp b.temps.size) (g a) c := by
  have hopen : (b.addTemp ty).2.Open := hb
  have hs : step m (stand b F T s K) = (perform m (stand b F T s K) i).map .inl :=
    step_push (b := (b.addTemp ty).2) hopen hF
  rw [hp] at hs
  cases r with
  | ok a =>
    exact ⟨_, .one hs, rfl, _, (stand_compute hb ty i _ _).symm, .compute b T ty i _,
      .fresh b T ty i _⟩
  | error e =>
    cases e with
    | trap => exact ⟨_, .refl, hs⟩
    | exhausted => exact absurd rfl hr
    | stuck => exact absurd rfl hr'

end C1Lang.Execution
