import C1Lang.IR.Printer
import C1Lang.Proofs.IR.Assembly

/-!
# Modules that have a text

Only an instruction whose result does not exist has no text. The typing rules ask for the result,
so that a module that keeps them has a text.
-/

namespace C1Lang.IR

theorem mapM_isSome {α β : Type} {f : α → Option β} {l : List α}
    (h : ∀ a ∈ l, (f a).isSome = true) : (l.mapM f).isSome = true := by
  induction l with
  | nil => rfl
  | cons a rest ih =>
    obtain ⟨b, hb⟩ := Option.isSome_iff_exists.mp (h a List.mem_cons_self)
    obtain ⟨bs, hbs⟩ := Option.isSome_iff_exists.mp (ih fun x hx => h x (List.mem_cons_of_mem a hx))
    simp [List.mapM_cons, hb, hbs]

def Function.Results (f : Function) : Prop :=
  ∀ b ∈ f.blocks, ∀ i ∈ b.instructions, ∀ d, i.dest? = some d → d < f.temps.size

namespace Module

variable {m : Module} {f : Function}

theorem instrText?_isSome {i : Instr} (h : ∀ d, i.dest? = some d → d < f.temps.size) :
    (m.instrText? f i).isSome = true := by
  cases i with
  | load d => simp [instrText?, Array.getElem?_eq_getElem (h d rfl)]
  | store => rfl
  | elementPtr => rfl
  | binary d => simp [instrText?, Array.getElem?_eq_getElem (h d rfl)]
  | unary d op => cases op <;> simp [instrText?, Array.getElem?_eq_getElem (h d rfl)]
  | compare => rfl
  | cast d => simp [instrText?, Array.getElem?_eq_getElem (h d rfl)]
  | call => rfl

theorem blockText?_isSome {b : Block} (id : Nat)
    (h : ∀ i ∈ b.instructions, (m.instrText? f i).isSome = true) :
    (m.blockText? f id b).isSome = true := by
  have hlines := mapM_isSome fun i hi => h i (Array.mem_toList_iff.mp hi)
  obtain ⟨lines, hlines⟩ := Option.isSome_iff_exists.mp hlines
  simp [blockText?, hlines]

theorem functionText?_isSome (h : f.defined = true → f.Results) :
    (m.functionText? f).isSome = true := by
  cases hd : f.defined with
  | false => simp [functionText?, hd]
  | true =>
    have hblock : ∀ x ∈ f.blocks.toList.zipIdx, (m.blockText? f x.2 x.1).isSome = true := by
      intro x hx
      have hmem : x.1 ∈ f.blocks := Array.mem_toList_iff.mp (List.fst_mem_of_mem_zipIdx hx)
      exact blockText?_isSome x.2 fun i hi => instrText?_isSome (h hd x.1 hmem i hi)
    obtain ⟨blocks, hblocks⟩ := Option.isSome_iff_exists.mp (mapM_isSome hblock)
    simp [functionText?, hd, hblocks]

theorem text?_isSome (h : ∀ f ∈ m.functions, f.defined = true → f.Results) :
    m.text?.isSome = true := by
  have hfunctions : (m.functions.toList.mapM m.functionText?).isSome = true :=
    mapM_isSome fun f hf => functionText?_isSome (h f (Array.mem_toList_iff.mp hf))
  obtain ⟨functions, hfunctions⟩ := Option.isSome_iff_exists.mp hfunctions
  simp [text?, hfunctions]

end Module

theorem Code.typed {m : Module} {f : Function} {code : List Instr} (h : Code m f code) :
    ∀ i ∈ code, i.Typed m f := by
  induction h with
  | nil => exact fun i hi => absurd hi List.not_mem_nil
  | snoc _ ht _ ih =>
    intro i hi
    rcases List.mem_append.mp hi with hi | hi
    · exact ih i hi
    · exact List.mem_singleton.mp hi ▸ ht

theorem Function.Sound.results {m : Module} {f : Function} (h : f.Sound m) : f.Results :=
  fun b hb i hi _ hd => ((h.blocks b hb).code.typed i (Array.mem_toList_iff.mpr hi)).dest hd

theorem Module.Sound.text?_isSome {m : Module} (h : m.Sound) : m.text?.isSome = true :=
  Module.text?_isSome fun f hf hd => (h.bodies f hf hd).results

end C1Lang.IR
