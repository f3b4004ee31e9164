import C1Lang.Proofs.IR.Reach
import C1Lang.Proofs.IR.Typing

/-!
# Constructing a function

`Built m b waiting b'` says what a lowering may do to the function that is being built: allocate
slots, append typed instructions to the current block, create blocks, and leave the current block
for one of those that wait, on a way that leads to one of them. Two things follow by induction over
the steps. A block that was ended stays as it is and every block that was started is linked to the
first one (`Built.frame`), and all code keeps the typing rules (`Built.sound`). So a finished
function has no defects (`functionDefects_eq_nil`).
-/

namespace C1Lang.IR

namespace Builder

def code (b : Builder) : List Instr := (b.blocks[b.current]?.map (·.instructions.toList)).getD []

/-- Whether a write to the current block would be a rewrite. -/
def ended (b : Builder) : Bool := b.terminated?.getD false

def push (b : Builder) (i : Instr) : Builder :=
  { b with
    blocks := b.blocks.modify b.current fun c =>
      { c with instructions := c.instructions.push i }
    rewrites := b.rewrites + b.ended.toNat }

def compute (b : Builder) (ty : Ty) (i : Instr) : Builder := (b.addTemp ty).2.push i

def leave (b : Builder) (t : Terminator) (next : Nat) : Builder :=
  { b with
    blocks := b.blocks.modify b.current fun c => { c with terminator := t }
    current := next
    rewrites := b.rewrites + b.ended.toNat }

def Open (b : Builder) : Prop :=
  ∃ c, b.blocks[b.current]? = some c ∧ c.terminator = .unreachable

theorem Open.lt {b : Builder} (h : b.Open) : b.current < b.blocks.size :=
  (Array.getElem?_eq_some_iff.mp h.choose_spec.1).1

theorem terminated?_of_lt {b : Builder} (h : b.current < b.blocks.size) :
    b.terminated? = some b.ended := by
  simp [ended, terminated?, h]

theorem emit?_of_lt {b : Builder} (h : b.current < b.blocks.size) (i : Instr) :
    b.emit? i = some (b.push i) := by
  simp only [emit?, modifyCurrent?, terminated?_of_lt h, push]

theorem terminate?_of_lt {b : Builder} (h : b.current < b.blocks.size) (t : Terminator) :
    b.terminate? t = some (b.leave t b.current) := by
  simp only [terminate?, modifyCurrent?, terminated?_of_lt h, leave]

theorem push_getElem? (b : Builder) (i : Instr) (id : Nat) :
    (b.push i).blocks[id]? = if id = b.current then
      b.blocks[id]?.map fun c => { c with instructions := c.instructions.push i }
    else b.blocks[id]? := by
  simp only [push, Array.getElem?_modify, eq_comm]

theorem leave_getElem? (b : Builder) (t : Terminator) (next id : Nat) :
    (b.leave t next).blocks[id]? = if id = b.current then
      b.blocks[id]?.map fun c => { c with terminator := t }
    else b.blocks[id]? := by
  simp only [leave, Array.getElem?_modify, eq_comm]

theorem createBlock_getElem? (b : Builder) (id : Nat) :
    b.createBlock.2.blocks[id]? = if id = b.blocks.size then
      some { label := label b.blocks.size } else b.blocks[id]? := by
  simp only [createBlock, Array.getElem?_push]

@[simp] theorem push_size (b : Builder) (i : Instr) : (b.push i).blocks.size = b.blocks.size := by
  simp [push]

@[simp] theorem leave_size (b : Builder) (t : Terminator) (next : Nat) :
    (b.leave t next).blocks.size = b.blocks.size := by
  simp [leave]

@[simp] theorem createBlock_size (b : Builder) :
    b.createBlock.2.blocks.size = b.blocks.size + 1 := by
  simp [createBlock]

theorem code_of_getElem? {b : Builder} {c : Block} (h : b.blocks[b.current]? = some c) :
    b.code = c.instructions.toList := by
  simp [code, h]

theorem push_code_of_lt {b : Builder} (h : b.current < b.blocks.size) (i : Instr) :
    (b.push i).code = b.code ++ [i] := by
  have hc := Array.getElem?_eq_getElem h
  have hi := b.push_getElem? i b.current
  rw [if_pos rfl, hc, Option.map_some] at hi
  rw [code_of_getElem? hc, code_of_getElem? (b := b.push i) hi, Array.toList_push]

theorem compute_code_of_lt {b : Builder} (h : b.current < b.blocks.size) (ty : Ty) (i : Instr) :
    (b.compute ty i).code = b.code ++ [i] :=
  push_code_of_lt (b := (b.addTemp ty).2) h i

theorem push_code {b : Builder} (h : b.Open) (i : Instr) : (b.push i).code = b.code ++ [i] :=
  push_code_of_lt h.lt i

theorem compute_code {b : Builder} (h : b.Open) (ty : Ty) (i : Instr) :
    (b.compute ty i).code = b.code ++ [i] :=
  compute_code_of_lt h.lt ty i

theorem createBlock_getElem?_of_some {b : Builder} {id : Nat} {c : Block}
    (hc : b.blocks[id]? = some c) : b.createBlock.2.blocks[id]? = some c := by
  have hlt := (Array.getElem?_eq_some_iff.mp hc).1
  rw [createBlock_getElem?, if_neg (by omega), hc]

theorem Open.create {b : Builder} (h : b.Open) : b.createBlock.2.Open := by
  obtain ⟨c, hc, ht⟩ := h
  exact ⟨c, createBlock_getElem?_of_some hc, ht⟩

theorem createBlock_code {b : Builder} (h : b.Open) : b.createBlock.2.code = b.code := by
  obtain ⟨c, hc, -⟩ := h
  rw [code_of_getElem? hc, code_of_getElem? (b := b.createBlock.2)
    (createBlock_getElem?_of_some hc)]

end Builder

open Builder

theorem addTemp_getElem? (b : Builder) (ty : Ty) :
    (b.addTemp ty).2.finish.temps[b.temps.size]? = some ty := by
  simp [Builder.addTemp, Builder.finish]

theorem Edge.mono {f g : Function} (h : f.Within g) {i j : Nat} (he : Edge f.blocks i j) :
    Edge g.blocks i j := by
  obtain ⟨b, hb, hj⟩ := he
  obtain ⟨c, hc, hbc⟩ := h.blocks i b hb
  have ht : b.terminator ≠ .unreachable := by
    intro hu
    simp [hu, Terminator.successors] at hj
  exact ⟨c, hc, by rw [hbc.ended ht]; exact hj⟩

/-- From `b` on, lowering has built `b'`. The blocks `waiting` were created and not entered yet. -/
inductive Built (m : Module) (b : Builder) : List Nat → Builder → Prop
  | start : Built m b [] b
  | slot {waiting : List Nat} {b' : Builder} (name : String) (ty : Ty) :
      Built m b waiting b' → Built m b waiting (b'.addLocal name ty).2
  | compute {waiting : List Nat} {b' : Builder} {ty : Ty} {i : Instr} :
      Built m b waiting b' → i.dest? = some b'.temps.size →
      i.Typed m (b'.addTemp ty).2.finish → (∀ t, .temp t ∈ i.operands → t ∈ writes b'.code) →
      Built m b waiting (b'.compute ty i)
  | perform {waiting : List Nat} {b' : Builder} {i : Instr} :
      Built m b waiting b' → i.dest? = none → i.Typed m b'.finish →
      (∀ t, .temp t ∈ i.operands → t ∈ writes b'.code) → Built m b waiting (b'.push i)
  | create {waiting : List Nat} {b' : Builder} :
      Built m b waiting b' → Built m b (b'.blocks.size :: waiting) b'.createBlock.2
  | leave {waiting : List Nat} {b' : Builder} {t : Terminator} {next : Nat} :
      Built m b waiting b' → next ∈ waiting → t.Sound m b'.finish b'.code →
      (∃ target ∈ t.successors, ∃ id ∈ waiting, Linked b'.blocks target id) →
      (next ∈ t.successors ∨ Linked b'.blocks b.current next) →
      Built m b (waiting.erase next) (b'.leave t next)

structure Appends (b b' : Builder) : Prop where
  locals : b.locals.toList <+: b'.locals.toList
  temps : b.temps.toList <+: b'.temps.toList
  size : b'.blocks.size = b.blocks.size
  current : b'.current = b.current
  others : ∀ id, id ≠ b.current → b'.blocks[id]? = b.blocks[id]?
  own : ∀ c, b.blocks[b.current]? = some c → ∃ c', b'.blocks[b.current]? = some c' ∧
    c.instructions.toList <+: c'.instructions.toList ∧ c'.terminator = c.terminator

theorem Appends.refl (b : Builder) : Appends b b :=
  ⟨List.prefix_rfl, List.prefix_rfl, rfl, rfl, fun _ _ => rfl,
    fun c hc => ⟨c, hc, List.prefix_rfl, rfl⟩⟩

theorem Appends.trans {a b c : Builder} (h : Appends a b) (k : Appends b c) : Appends a c := by
  refine ⟨h.locals.trans k.locals, h.temps.trans k.temps, k.size.trans h.size,
    k.current.trans h.current, fun id hid => ?_, fun d hd => ?_⟩
  · rw [k.others id (by rw [h.current]; exact hid), h.others id hid]
  · obtain ⟨d', hd', hp, ht⟩ := h.own d hd
    obtain ⟨e, he, hp', ht'⟩ := k.own d' (by rw [h.current]; exact hd')
    exact ⟨e, by rw [← h.current]; exact he, hp.trans hp', ht'.trans ht⟩

theorem Appends.opened {b b' : Builder} (h : Appends b b') (hb : b.Open) : b'.Open := by
  obtain ⟨c, hc, ht⟩ := hb
  obtain ⟨c', hc', -, ht'⟩ := h.own c hc
  exact ⟨c', by rw [h.current]; exact hc', ht'.trans ht⟩

theorem Appends.slot (b : Builder) (name : String) (ty : Ty) :
    Appends b (b.addLocal name ty).2 :=
  ⟨by simp [addLocal], List.prefix_rfl, rfl, rfl, fun _ _ => rfl,
    fun c hc => ⟨c, hc, List.prefix_rfl, rfl⟩⟩

theorem Appends.temp (b : Builder) (ty : Ty) : Appends b (b.addTemp ty).2 :=
  ⟨List.prefix_rfl, by simp [addTemp], rfl, rfl, fun _ _ => rfl,
    fun c hc => ⟨c, hc, List.prefix_rfl, rfl⟩⟩

theorem Appends.push (b : Builder) (i : Instr) : Appends b (b.push i) := by
  refine ⟨List.prefix_rfl, List.prefix_rfl, b.push_size i, rfl, fun id hid => ?_, fun c hc => ?_⟩
  · rw [push_getElem?, if_neg hid]
  · refine ⟨{ c with instructions := c.instructions.push i }, ?_, by simp, rfl⟩
    rw [push_getElem?, if_pos rfl, hc, Option.map_some]

theorem Appends.compute (b : Builder) (ty : Ty) (i : Instr) : Appends b (b.compute ty i) :=
  (Appends.temp b ty).trans (.push _ i)

theorem Appends.code {b b' : Builder} (h : Appends b b') (hb : b.Open) : b.code <+: b'.code := by
  obtain ⟨c, hc, -⟩ := hb
  obtain ⟨c', hc', hp, -⟩ := h.own c hc
  rw [code_of_getElem? hc, code_of_getElem? (b := b') (by rw [h.current]; exact hc')]
  exact hp

structure Frame (b : Builder) (waiting : List Nat) (b' : Builder) : Prop where
  locals : b.locals.toList <+: b'.locals.toList
  temps : b.temps.toList <+: b'.temps.toList
  size_le : b.blocks.size ≤ b'.blocks.size
  kept : ∀ id, id < b.blocks.size → id ≠ b.current → b'.blocks[id]? = b.blocks[id]?
  own : ∀ c, b.blocks[b.current]? = some c →
    ∃ c', b'.blocks[b.current]? = some c' ∧ c.instructions.toList <+: c'.instructions.toList
  current : b'.current = b.current ∨ b.blocks.size ≤ b'.current
  opened : b'.Open
  nodup : waiting.Nodup
  pending : ∀ id ∈ waiting, b.blocks.size ≤ id ∧ id ≠ b'.current ∧
    ∃ c, b'.blocks[id]? = some c ∧ c.instructions = #[] ∧ c.terminator = .unreachable
  ended : ∀ id c, id = b.current ∨ b.blocks.size ≤ id → id ≠ b'.current → id ∉ waiting →
    b'.blocks[id]? = some c → c.terminator ≠ .unreachable
  linked : ∀ id, id = b'.current ∨ b.blocks.size ≤ id ∧ id < b'.blocks.size ∧ id ∉ waiting →
    Linked b'.blocks b.current id

theorem Frame.start {b : Builder} (hb : b.Open) : Frame b [] b where
  locals := List.prefix_rfl
  temps := List.prefix_rfl
  size_le := Nat.le_refl _
  kept _ _ _ := rfl
  own c hc := ⟨c, hc, List.prefix_rfl⟩
  current := .inl rfl
  opened := hb
  nodup := List.nodup_nil
  pending id hid := by cases hid
  ended id c hid hne _ hc := by
    have hlt := (Array.getElem?_eq_some_iff.mp hc).1
    omega
  linked id hid := by
    obtain rfl : id = b.current := by omega
    exact .refl

theorem Linked.mono {f g : Function} (h : f.Within g) {i j : Nat} (hl : Linked f.blocks i j) :
    Linked g.blocks i j :=
  Relation.ReflTransGen.mono (fun _ _ => Edge.mono h) _ _ hl

theorem Appends.within {b b' : Builder} (h : Appends b b') (hb : b.Open) :
    b.finish.Within b'.finish := by
  refine ⟨h.locals, h.temps, fun id c hc => ?_⟩
  by_cases hid : id = b.current
  · subst hid
    obtain ⟨c', hc', hp, -⟩ := h.own c hc
    obtain ⟨d, hd, ht⟩ := hb
    obtain rfl : c = d := Option.some.inj (hc.symm.trans hd)
    exact ⟨c', hc', hp, fun hn => absurd ht hn⟩
  · exact ⟨c, (h.others id hid).trans hc, .refl c⟩

theorem Frame.append {b b' b'' : Builder} {waiting : List Nat} (h : Frame b waiting b')
    (ha : Appends b' b'') : Frame b waiting b'' where
  locals := h.locals.trans ha.locals
  temps := h.temps.trans ha.temps
  size_le := ha.size ▸ h.size_le
  kept id hid hne := by
    rw [ha.others id (by have := h.current; omega), h.kept id hid hne]
  own c hc := by
    obtain ⟨c', hc', hp⟩ := h.own c hc
    by_cases hcur : b.current = b'.current
    · obtain ⟨c'', hc'', hp', -⟩ := ha.own c' (hcur ▸ hc')
      exact ⟨c'', hcur ▸ hc'', hp.trans hp'⟩
    · exact ⟨c', (ha.others _ hcur).trans hc', hp⟩
  current := by rw [ha.current]; exact h.current
  opened := ha.opened h.opened
  nodup := h.nodup
  pending id hid := by
    obtain ⟨hle, hne, c, hc, hrest⟩ := h.pending id hid
    exact ⟨hle, by rw [ha.current]; exact hne, c, (ha.others id hne).trans hc, hrest⟩
  ended id c hid hne hw hc := by
    rw [ha.current] at hne
    exact h.ended id c hid hne hw ((ha.others id hne).symm.trans hc)
  linked id hid := by
    rw [ha.current, ha.size] at hid
    exact (h.linked id hid).mono (ha.within h.opened)

theorem within_createBlock (b : Builder) : b.finish.Within b.createBlock.2.finish :=
  ⟨List.prefix_rfl, List.prefix_rfl,
    fun _ c hc => ⟨c, createBlock_getElem?_of_some hc, .refl c⟩⟩

theorem Frame.create {b b' : Builder} {waiting : List Nat} (h : Frame b waiting b') :
    Frame b (b'.blocks.size :: waiting) b'.createBlock.2 := by
  have hsize := h.size_le
  have hopen := h.opened.lt
  exact {
    locals := h.locals
    temps := h.temps
    size_le := by rw [createBlock_size]; omega
    kept := fun id hid hne => by
      rw [createBlock_getElem?, if_neg (by omega), h.kept id hid hne]
    own := fun c hc => by
      obtain ⟨c', hc', hp⟩ := h.own c hc
      exact ⟨c', createBlock_getElem?_of_some hc', hp⟩
    current := h.current
    opened := h.opened.create
    nodup := by
      refine List.nodup_cons.mpr ⟨fun hmem => ?_, h.nodup⟩
      obtain ⟨-, -, c, hc, -⟩ := h.pending _ hmem
      simp at hc
    pending := fun id hid => by
      rcases List.mem_cons.mp hid with rfl | hid
      · refine ⟨hsize, (Nat.ne_of_lt hopen).symm, { label := label b'.blocks.size }, ?_, rfl, rfl⟩
        rw [createBlock_getElem?, if_pos rfl]
      · obtain ⟨hle, hne, c, hc, hrest⟩ := h.pending id hid
        exact ⟨hle, hne, c, createBlock_getElem?_of_some hc, hrest⟩
    ended := fun id c hid hne hw hc => by
      simp only [List.mem_cons, not_or] at hw
      rw [createBlock_getElem?, if_neg hw.1] at hc
      exact h.ended id c hid hne hw.2 hc
    linked := fun id hid => by
      refine (h.linked id ?_).mono (within_createBlock b')
      rcases hid with hid | ⟨hle, hlt, hw⟩
      · exact .inl hid
      · simp only [List.mem_cons, not_or, createBlock_size] at hw hlt
        exact .inr ⟨hle, by omega, hw.2⟩ }

theorem within_leave {b : Builder} (hb : b.Open) (t : Terminator) (next : Nat) :
    b.finish.Within (b.leave t next).finish := by
  refine ⟨List.prefix_rfl, List.prefix_rfl, fun id c hc => ?_⟩
  by_cases hid : id = b.current
  · obtain ⟨d, hd, ht⟩ := hb
    subst hid
    obtain rfl : c = d := Option.some.inj (hc.symm.trans hd)
    refine ⟨{ c with terminator := t }, ?_, List.prefix_rfl, fun hn => absurd ht hn⟩
    show (b.leave t next).blocks[b.current]? = _
    rw [leave_getElem?, if_pos rfl, hd, Option.map_some]
  · refine ⟨c, ?_, .refl c⟩
    show (b.leave t next).blocks[id]? = _
    rw [leave_getElem?, if_neg hid]
    exact hc

theorem Frame.leave {b b' : Builder} {waiting : List Nat} {t : Terminator} {next : Nat}
    (h : Frame b waiting b') (hn : next ∈ waiting) (ht : t.successors ≠ [])
    (hl : next ∈ t.successors ∨ Linked b'.blocks b.current next) :
    Frame b (waiting.erase next) (b'.leave t next) := by
  obtain ⟨hle, hne, c, hc, -, hct⟩ := h.pending next hn
  have hwithin := within_leave h.opened t next
  have hother : ∀ {id : Nat}, id ≠ b'.current →
      (b'.leave t next).blocks[id]? = b'.blocks[id]? := by
    intro id hid
    rw [leave_getElem?, if_neg hid]
  have hcur : ∀ {d : Block}, b'.blocks[b'.current]? = some d →
      (b'.leave t next).blocks[b'.current]? = some { d with terminator := t } := by
    intro d hd
    rw [leave_getElem?, if_pos rfl, hd, Option.map_some]
  have hmem : ∀ {id : Nat}, id ∉ waiting.erase next → id ≠ next → id ∉ waiting :=
    fun hid hne hw => hid ((List.mem_erase_of_ne hne).mpr hw)
  have hnext : Linked (b'.leave t next).blocks b.current next := by
    rcases hl with hs | hl
    · obtain ⟨d, hd, -⟩ := h.opened
      exact .tail ((h.linked _ (.inl rfl)).mono hwithin) ⟨_, hcur hd, hs⟩
    · exact hl.mono hwithin
  exact {
    locals := h.locals
    temps := h.temps
    size_le := by rw [leave_size]; exact h.size_le
    kept := fun id hid hne' => by
      rw [hother (by have := h.current; omega), h.kept id hid hne']
    own := fun d hd => by
      obtain ⟨d', hd', hp⟩ := h.own d hd
      by_cases hid : b.current = b'.current
      · exact ⟨{ d' with terminator := t }, hid ▸ hcur (hid ▸ hd'), hp⟩
      · exact ⟨d', (hother hid).trans hd', hp⟩
    current := .inr hle
    opened := ⟨c, (hother hne).trans hc, hct⟩
    nodup := h.nodup.erase next
    pending := fun id hid => by
      obtain ⟨hidn, hid⟩ := (List.Nodup.mem_erase_iff h.nodup).mp hid
      obtain ⟨hle', hne', d, hd, hrest⟩ := h.pending id hid
      exact ⟨hle', hidn, d, (hother hne').trans hd, hrest⟩
    ended := fun id d hid hne' hw hd => by
      by_cases hidc : id = b'.current
      · subst hidc
        obtain ⟨e, he, -⟩ := h.opened
        rw [hcur he] at hd
        cases hd
        intro heq
        subst heq
        exact ht rfl
      · rw [hother hidc] at hd
        exact h.ended id d hid hidc (hmem hw hne') hd
    linked := fun id hid => by
      by_cases hidn : id = next
      · exact hidn ▸ hnext
      · refine (h.linked id ?_).mono hwithin
        rcases hid with hid | ⟨hle', hlt, hw⟩
        · exact absurd hid hidn
        · exact .inr ⟨hle', by simpa using hlt, hmem hw hidn⟩ }

theorem Built.frame {m : Module} {b b' : Builder} {waiting : List Nat} (hb : b.Open)
    (h : Built m b waiting b') : Frame b waiting b' := by
  induction h with
  | start => exact .start hb
  | slot name ty _ ih => exact ih.append (.slot _ name ty)
  | compute _ _ _ _ ih => exact ih.append (.compute _ _ _)
  | perform _ _ _ _ ih => exact ih.append (.push _ _)
  | create _ ih => exact ih.create
  | leave _ hn _ hd hl ih =>
    obtain ⟨target, ht, -⟩ := hd
    exact ih.leave hn (List.ne_nil_of_mem ht) hl

theorem Built.name {m : Module} {b b' : Builder} {waiting : List Nat}
    (h : Built m b waiting b') : b'.name = b.name := by
  induction h with
  | start => rfl
  | slot _ _ _ ih => exact ih
  | compute _ _ _ _ ih => exact ih
  | perform _ _ _ _ ih => exact ih
  | create _ ih => exact ih
  | leave _ _ _ _ _ ih => exact ih

/-- Every block keeps the rules; one that is still open has no way out yet. -/
def Builder.Sound (m : Module) (b : Builder) : Prop :=
  ∀ (id : Nat) (c : Block), b.blocks[id]? = some c → Code m b.finish c.instructions.toList ∧
    (c.terminator ≠ .unreachable → c.terminator.Sound m b.finish c.instructions.toList)

theorem Builder.Sound.mono {m : Module} {b b' : Builder} (h : b.Sound m)
    (hw : b.finish.Within b'.finish) {id : Nat} {c : Block} (hc : b.blocks[id]? = some c) :
    Code m b'.finish c.instructions.toList ∧
      (c.terminator ≠ .unreachable → c.terminator.Sound m b'.finish c.instructions.toList) := by
  obtain ⟨hcode, hterm⟩ := h id c hc
  exact ⟨hcode.mono (.refl m) hw, fun hn => (hterm hn).mono (.refl m) hw⟩

theorem Builder.Sound.push {m : Module} {b : Builder} {i : Instr} (h : b.Sound m) (hb : b.Open)
    (hi : i.Typed m b.finish) (hr : ∀ t, .temp t ∈ i.operands → t ∈ writes b.code) :
    (b.push i).Sound m := by
  have hw := (Appends.push b i).within hb
  intro id c hc
  by_cases hid : id = b.current
  · obtain ⟨d, hd, ht⟩ := hb
    subst hid
    rw [push_getElem?, if_pos rfl, hd, Option.map_some] at hc
    cases hc
    rw [code_of_getElem? hd] at hr
    refine ⟨?_, fun hn => absurd ht hn⟩
    rw [Array.toList_push]
    exact .snoc (h.mono hw hd).1 (hi.mono (.refl m) hw) hr
  · rw [push_getElem?, if_neg hid] at hc
    exact h.mono hw hc

theorem Builder.Sound.leave {m : Module} {b : Builder} {t : Terminator} {next : Nat}
    (h : b.Sound m) (hb : b.Open) (ht : t.Sound m b.finish b.code) :
    (b.leave t next).Sound m := by
  have hw := within_leave hb t next
  intro id c hc
  by_cases hid : id = b.current
  · obtain ⟨d, hd, -⟩ := hb
    subst hid
    rw [leave_getElem?, if_pos rfl, hd, Option.map_some] at hc
    cases hc
    rw [code_of_getElem? hd] at ht
    exact ⟨(h.mono hw hd).1, fun _ => ht.mono (.refl m) hw⟩
  · rw [leave_getElem?, if_neg hid] at hc
    exact h.mono hw hc

theorem Builder.Sound.create {m : Module} {b : Builder} (h : b.Sound m) :
    b.createBlock.2.Sound m := by
  intro id c hc
  rw [createBlock_getElem?] at hc
  split at hc
  · cases hc
    exact ⟨.nil, fun hn => absurd rfl hn⟩
  · exact h.mono (within_createBlock b) hc

theorem Built.sound {m : Module} {b b' : Builder} {waiting : List Nat} (hb : b.Open)
    (hs : b.Sound m) (h : Built m b waiting b') : b'.Sound m := by
  induction h with
  | start => exact hs
  | @slot _ b₁ name ty h ih =>
    intro id c hc
    exact ih.mono ((Appends.slot b₁ name ty).within (h.frame hb).opened) hc
  | @compute _ b₁ ty i h _ ht hr ih =>
    have hopen := (h.frame hb).opened
    have htemp : (b₁.addTemp ty).2.Sound m := fun id c hc =>
      ih.mono ((Appends.temp b₁ ty).within hopen) hc
    exact htemp.push hopen ht hr
  | perform h _ ht hr ih => exact ih.push (h.frame hb).opened ht hr
  | create _ ih => exact ih.create
  | leave h _ ht _ _ ih => exact ih.leave (h.frame hb).opened ht

theorem Built.within {m : Module} {b b' : Builder} {waiting : List Nat} (hb : b.Open)
    (h : Built m b waiting b') : b.finish.Within b'.finish := by
  induction h with
  | start => exact .refl _
  | slot name ty h ih => exact ih.trans ((Appends.slot _ name ty).within (h.frame hb).opened)
  | compute h _ _ _ ih => exact ih.trans ((Appends.compute _ _ _).within (h.frame hb).opened)
  | perform h _ _ _ ih => exact ih.trans ((Appends.push _ _).within (h.frame hb).opened)
  | create _ ih => exact ih.trans (within_createBlock _)
  | leave h _ _ _ _ ih => exact ih.trans (within_leave (h.frame hb).opened _ _)

theorem Built.trans {m : Module} {b b' b'' : Builder} {waiting more : List Nat} (hb : b.Open)
    (h : Built m b waiting b') (k : Built m b' more b'') : Built m b (more ++ waiting) b'' := by
  induction k with
  | start => exact h
  | slot name ty _ ih => exact ih.slot name ty
  | compute _ hd ht hr ih => exact ih.compute hd ht hr
  | perform _ hd ht hr ih => exact ih.perform hd ht hr
  | create _ ih => exact ih.create
  | leave k hn ht hd hl ih =>
    rw [← List.erase_append_left _ hn]
    obtain ⟨target, htarget, id, hid, hlinked⟩ := hd
    refine ih.leave (List.mem_append_left _ hn) ht
      ⟨target, htarget, id, List.mem_append_left _ hid, hlinked⟩ (hl.imp_right fun hl => ?_)
    exact (((h.frame hb).linked _ (.inl rfl)).mono (k.within (h.frame hb).opened)).trans hl

structure Function.Sound (m : Module) (f : Function) : Prop where
  blocks : ∀ c ∈ f.blocks, c.Sound m f
  linked : ∀ id < f.blocks.size, Linked f.blocks f.entry id

theorem Function.Sound.mono {m n : Module} {f : Function} (hm : m.Within n) (h : f.Sound m) :
    f.Sound n :=
  ⟨fun c hc => (h.blocks c hc).mono hm (.refl f), h.linked⟩

theorem Function.Sound.functionDefects_eq_nil {m : Module} {f : Function} (h : f.Sound m) :
    m.functionDefects f = [] := by
  have hb : m.blocksDefects f [] f.blocks.toList = [] :=
    Module.blocksDefects_eq_nil (fun c hc => h.blocks c (Array.mem_toList_iff.mp hc)) []
  simp [Module.functionDefects, hb, Module.reachDefects_eq_nil h.linked]

theorem Builder.start_open (name : String) : (start name).Open :=
  ⟨{ label := label 0 }, rfl, rfl⟩

theorem Builder.start_sound (m : Module) (name : String) : (start name).Sound m := by
  intro id c hc
  obtain ⟨rfl, rfl⟩ : id = 0 ∧ c = { label := label 0 } := by
    cases id with
    | zero => exact ⟨rfl, (Option.some.inj hc).symm⟩
    | succ id => simp [start] at hc
  exact ⟨.nil, fun hn => absurd rfl hn⟩

theorem Built.finish_sound {m : Module} {name : String} {b : Builder}
    (h : Built m (Builder.start name) [] b) : (b.leave .ret b.current).finish.Sound m := by
  have hb := Builder.start_open name
  have hf := h.frame hb
  have hs : (b.leave .ret b.current).Sound m :=
    (h.sound hb (Builder.start_sound m name)).leave hf.opened .ret
  refine ⟨fun c hc => ?_, fun id hid => ?_⟩
  · obtain ⟨id, hlt, rfl⟩ := Array.mem_iff_getElem.mp hc
    have hget : (b.leave .ret b.current).blocks[id]? = _ := Array.getElem?_eq_getElem hlt
    obtain ⟨hcode, hterm⟩ := hs id _ hget
    refine ⟨hcode, hterm ?_⟩
    by_cases hid : id = b.current
    · obtain ⟨d, hd, -⟩ := hf.opened
      subst hid
      rw [leave_getElem?, if_pos rfl, hd, Option.map_some] at hget
      rw [← Option.some.inj hget]
      exact Terminator.noConfusion
    · rw [leave_getElem?, if_neg hid] at hget
      have hstarted : id = (Builder.start name).current ∨
          (Builder.start name).blocks.size ≤ id := by
        simp only [Builder.start, List.size_toArray, List.length_singleton]
        omega
      exact hf.ended id _ hstarted hid List.not_mem_nil hget
  · replace hid : id < b.blocks.size := by simpa [Builder.finish] using hid
    by_cases h0 : id = 0
    · subst h0
      exact .refl
    · refine (hf.linked id (.inr ⟨?_, hid, List.not_mem_nil⟩)).mono
        (within_leave hf.opened .ret b.current)
      simp only [Builder.start, List.size_toArray, List.length_singleton]
      omega

end C1Lang.IR
