import Niladic.Proofs.Evaluation
import Niladic.Proofs.Listings
import Niladic.Proofs.Lockstep
import Niladic.Proofs.Soundness

namespace Niladic

open Text

theorem forall₂_getElem? {α β : Type} {R : α → β → Prop} {xs : List α} {ys : List β}
    (h : List.Forall₂ R xs ys) {i : Nat} {x : α} (hx : xs[i]? = some x) :
    ∃ y, ys[i]? = some y ∧ R x y := by
  induction h generalizing i with
  | nil => simp at hx
  | @cons x₀ y₀ xs ys hxy _ ih =>
      cases i with
      | zero =>
          cases hx
          exact ⟨y₀, rfl, hxy⟩
      | succ i => exact ih hx

namespace Code

variable {code : Code} {u v : ValueId} {l : Line} {r : String}

theorem IsInstruction.slot_of_isPointer (h : code.IsInstruction v) (hv : code.IsPointer v) :
    code.operation? v = some .slot := by
  rcases Machine.isPointer_cases hv with ⟨g, hg⟩ | hslot
  · cases h.of_operation hg
  · exact hslot

theorem IsInstruction.mem (h : code.IsInstruction v) {body : List ValueId}
    (hv : code.Loose v ∨ v ∈ body) : v ∈ body := by
  rcases hv with (⟨x, hx⟩ | ⟨g, -, hg, -⟩) | hmem
  · cases h.of_operation hx
  · cases h.of_operation hg
  · exact hmem

def Visible (code : Code) (v : ValueId) : Prop :=
  code.IsNumber v ∨ code.operation? v = some .slot

theorem Says.result_of_visible (h : code.Says v l) (hv : code.Visible v)
    (hr : code.operandText? v = some r) : l.result = some r := by
  have silent {op : Operation} (hop : code.operation? v = some op)
      (hnumber : code.isNumeric? v = some false) (hslot : op ≠ .slot) : False := by
    rcases hv with hv | hv
    · rw [IsNumber, hnumber] at hv
      cases hv
    · rw [hop] at hv
      exact hslot (Option.some.inj hv)
  cases h with
  | arith hop ht | slot hop ht | load hop ht | callNumber hop ht => exact ht.symm.trans hr
  | store hop | ret hop | retVoid hop =>
      exact (silent hop (by simp [isNumeric?, hop]) (by simp)).elim
  | callVoid hop hf hreturns =>
      exact (silent hop (by simp [isNumeric?, hop, hf, hreturns]) (by simp)).elim

theorem Says.not_silent (h : code.Says v l) (hr : l.result = some r) :
    code.operandText? v = some r ∧
      ∃ op, code.operation? v = some op ∧ op.isInstruction = true ∧ ¬ code.Silent op := by
  cases h with
  | arith hop ht | slot hop ht | load hop ht =>
      cases hr
      exact ⟨ht, _, hop, rfl, id⟩
  | callNumber hop ht hf hreturns =>
      cases hr
      refine ⟨ht, _, hop, rfl, ?_⟩
      rintro ⟨function, hf', hvoid⟩
      rw [hf] at hf'
      cases hf'
      rw [hreturns] at hvoid
      cases hvoid
  | store | callVoid | ret | retVoid => cases hr

theorem Says.callee (h : code.Says v l) {returns : Returns} {name : String}
    (hl : l.phrase = .call returns name) : ∃ callee function,
      code.operation? v = some (.call callee) ∧ code.func? callee = some function ∧
      function.name = name := by
  cases h with
  | callVoid hop hf | callNumber hop _ hf =>
      cases hl
      exact ⟨_, _, hop, hf, rfl⟩
  | _ => cases hl

theorem Sound.admits (h : code.Sound) {b : BlockId} {block : Block} {op : Operation}
    (hb : code.block? b = some block) (hv : v ∈ block.body.toList)
    (hop : code.operation? v = some op) : code.Admits ⟨b.index⟩ op := by
  obtain ⟨op', hop', hadmits⟩ := h.admitted hb hv
  rw [hop] at hop'
  cases hop'
  exact hadmits

theorem Sound.operand_place (h : code.Sound) {b : BlockId} {block : Block} {op : Operation}
    (hb : code.block? b = some block) (hv : v ∈ block.body.toList)
    (hop : code.operation? v = some op) (hu : u ∈ op.operands) :
    code.Loose u ∨ u ∈ block.body.toList := by
  have howner := h.owned hb
  refine h.ordered.loose_or_mem hb (fun hb' hsame => ?_) ?_
  · rw [h.owned hb', howner] at hsame
    exact congrArg BlockId.mk (FuncId.mk.inj hsame)
  · rw [howner]
    exact (h.closed hb).localOperands v hv op hop u hu

end Code

def Block.Abreast (block block' : Block) (u u' : ValueId) : Prop :=
  ∃ i : Nat, block.body.toList[i]? = some u ∧ block'.body.toList[i]? = some u'

theorem Block.Abreast.eq_iff {block block' : Block} {u v u' v' : ValueId}
    (hnodup : block.body.toList.Nodup) (hnodup' : block'.body.toList.Nodup)
    (hu : block.Abreast block' u u') (hv : block.Abreast block' v v') : u = v ↔ u' = v' := by
  obtain ⟨i, hi, hi'⟩ := hu
  obtain ⟨j, hj, hj'⟩ := hv
  constructor
  · rintro rfl
    have hij := (List.getElem?_inj (List.getElem?_eq_some_iff.mp hi).1 hnodup).mp (hi.trans hj.symm)
    rw [hij, hj'] at hi'
    exact (Option.some.inj hi').symm
  · rintro rfl
    have hij := (List.getElem?_inj (List.getElem?_eq_some_iff.mp hi').1 hnodup').mp
      (hi'.trans hj'.symm)
    rw [hij, hj] at hi
    exact (Option.some.inj hi).symm

namespace Compiler

open Code

variable {c c' : Compiler}

theorem Legible.eq_of_result (h : c.Legible) {b : BlockId} {block : Block} {u v : ValueId}
    {k l : Line} {r : String} (hb : c.draft.code.block? b = some block)
    (hu : u ∈ block.body.toList) (hv : v ∈ block.body.toList) (hk : c.draft.code.Says u k)
    (hl : c.draft.code.Says v l) (hkr : k.result = some r) (hlr : l.result = some r) : u = v := by
  have named {w : ValueId} {m : Line} (hw : w ∈ block.body.toList) (hm : c.draft.code.Says w m)
      (hmr : m.result = some r) :
      ∃ value, c.draft.code.value? w = some value ∧ value.name ≠ "" ∧ r = "%" ++ value.name := by
    obtain ⟨ht, op, hop, hinstruction, hsilent⟩ := hm.not_silent hmr
    obtain ⟨value, hvalue, -, rfl⟩ := IsInstruction.operandText ⟨op, hop, hinstruction⟩ ht
    obtain ⟨value', hvalue', hnamed⟩ := h.labelled.named hb hw
    rw [hvalue] at hvalue'
    cases hvalue'
    have hname : value.name ≠ "" := by
      rcases hnamed with ⟨-, hvoid⟩ | ⟨base, n, hbase, hlabel, -⟩
      · rw [operation_of_value hvalue] at hop
        rw [Option.some.inj hop] at hvoid
        exact absurd hvoid hsilent
      · rw [hlabel]
        exact label_ne_empty hbase n
    exact ⟨value, hvalue, hname, by rw [shownName, if_neg (by simpa using hname)]⟩
  obtain ⟨x, hx, hne, hrx⟩ := named hu hk hkr
  obtain ⟨y, hy, -, hry⟩ := named hv hl hlr
  have hsame : x.name = y.name := by
    rw [hrx] at hry
    simpa [← String.toList_inj] using hry
  exact h.labelled.apart hb hu hv hx hy hsame hne

structure Twins (c c' : Compiler) : Prop where
  readable : c.Readable
  readable' : c'.Readable
  sound : c.draft.code.Sound
  sound' : c'.draft.code.Sound
  globals : c.draft.code.globals.toList.map (fun global => (global.name, global.initial)) =
    c'.draft.code.globals.toList.map (fun global => (global.name, global.initial))
  functions : ∃ ps, List.Forall₂ c.draft.code.Shows c.draft.code.functions.toList ps ∧
    List.Forall₂ c'.draft.code.Shows c'.draft.code.functions.toList ps

structure SameBlock (c c' : Compiler) (b : BlockId) (block block' : Block) : Prop where
  here : c.draft.code.block? b = some block
  there : c'.draft.code.block? b = some block'
  lines : ∃ ls, List.Forall₂ c.draft.code.Says block.body.toList ls ∧
    List.Forall₂ c'.draft.code.Says block'.body.toList ls

namespace Twins

theorem func (h : Twins c c') {f : FuncId} {function : Func}
    (hf : c.draft.code.func? f = some function) :
    ∃ function', c'.draft.code.func? f = some function' ∧ function'.name = function.name ∧
      function'.returns = function.returns ∧
      ∃ block block', SameBlock c c' ⟨f.index⟩ block block' := by
  obtain ⟨ps, hps, hps'⟩ := h.functions
  have hi : c.draft.code.functions.toList[f.index]? = some function := by
    rwa [Array.getElem?_toList]
  obtain ⟨p, hp, hshows⟩ := forall₂_getElem? hps hi
  obtain ⟨function', hi', hshows'⟩ := forall₂_getElem? hps'.flip hp
  have hf' : c'.draft.code.func? f = some function' := by
    rwa [func?, ← Array.getElem?_toList]
  refine ⟨function', hf', hshows'.name.symm.trans hshows.name,
    hshows'.returns.symm.trans hshows.returns, ?_⟩
  obtain ⟨b, block, hblocks, hb, hlines⟩ := hshows.body
  obtain ⟨b', block', hblocks', hb', hlines'⟩ := hshows'.body
  rw [h.sound.owns hf] at hblocks
  rw [h.sound'.owns hf'] at hblocks'
  simp only [Array.mk.injEq, List.cons.injEq, and_true] at hblocks hblocks'
  subst hblocks hblocks'
  exact ⟨block, block', hb, hb', p.body, hlines, hlines'⟩

theorem func_eq (h : Twins c c') {f f' : FuncId} {function function' : Func}
    (hf : c.draft.code.func? f = some function) (hf' : c'.draft.code.func? f' = some function')
    (hname : function.name = function'.name) : f = f' := by
  obtain ⟨other, hother, hsame, -⟩ := h.func hf
  exact h.readable'.legible.coherent.functions_list.name_inj hother hf' (hsame.trans hname)

theorem global_eq (h : Twins c c') {g g' : GlobalId} {global global' : Global}
    (hg : c.draft.code.global? g = some global) (hg' : c'.draft.code.global? g' = some global')
    (hname : global.name = global'.name) : g = g' := by
  have hpair := congrArg (·[g.index]?) h.globals
  simp only [List.getElem?_map, Array.getElem?_toList] at hpair
  rw [show c.draft.code.globals[g.index]? = some global from hg, Option.map_some] at hpair
  obtain ⟨other, hother, hsame⟩ := Option.map_eq_some_iff.mp hpair.symm
  exact h.readable'.legible.coherent.globals_list.name_inj (x := g) hother hg'
    ((Prod.mk.inj hsame).1.trans hname)

end Twins

section

variable {b : BlockId} {block block' : Block} {u u' : ValueId}

structure SameOperand (c c' : Compiler) (block block' : Block) (u u' : ValueId) : Prop where
  place : c.draft.code.Loose u ∨ u ∈ block.body.toList
  place' : c'.draft.code.Loose u' ∨ u' ∈ block'.body.toList
  text : ∃ t, c.draft.code.operandText? u = some t ∧ c'.draft.code.operandText? u' = some t

theorem SameBlock.abreast (hblock : SameBlock c c' b block block') (h : c.Legible)
    (hu : u ∈ block.body.toList) (hu' : u' ∈ block'.body.toList)
    (hvisible : c.draft.code.Visible u) (hvisible' : c'.draft.code.Visible u') {t : String}
    (ht : c.draft.code.operandText? u = some t) (ht' : c'.draft.code.operandText? u' = some t) :
    block.Abreast block' u u' := by
  obtain ⟨ls, hls, hls'⟩ := hblock.lines
  obtain ⟨i, hi⟩ := List.mem_iff_getElem?.mp hu
  obtain ⟨k, -, hk⟩ := forall₂_getElem? hls hi
  obtain ⟨j, hj⟩ := List.mem_iff_getElem?.mp hu'
  obtain ⟨l, hl, hsays'⟩ := forall₂_getElem? hls' hj
  -- The instruction here that has the line of `u'` has its result too, so it is `u`.
  obtain ⟨w, hw, hsays⟩ := forall₂_getElem? hls.flip hl
  have hsame : u = w := h.eq_of_result hblock.here hu (List.mem_of_getElem? hw) hk hsays
    (hk.result_of_visible hvisible ht) (hsays'.result_of_visible hvisible' ht')
  exact ⟨j, hsame ▸ hw, hj⟩

theorem literal_ne_append (mark : Char) (hmark : mark ∈ [',', '\n', '%', '@']) (x : Float)
    (name : String) : Number.literal x ≠ mark.toString ++ name := by
  intro heq
  refine Number.not_mem_literal hmark x ?_
  rw [heq]
  simp

theorem Twins.operand_cases (h : Twins c c') (hblock : SameBlock c c' b block block')
    (hu : SameOperand c c' block block' u u')
    (hkind : c.draft.code.IsNumber u ∨ c.draft.code.IsPointer u)
    (hkind' : c'.draft.code.IsNumber u' ∨ c'.draft.code.IsPointer u') :
    (∃ x, c.draft.code.operation? u = some (.const x) ∧
      c'.draft.code.operation? u' = some (.const x)) ∨
    (∃ g, c.draft.code.operation? u = some (.address g) ∧
      c'.draft.code.operation? u' = some (.address g)) ∨
    (c.draft.code.IsInstruction u ∧ c'.draft.code.IsInstruction u' ∧
      block.Abreast block' u u') := by
  have visible {code : Code} {w : ValueId} (hw : code.IsInstruction w)
      (hkind : code.IsNumber w ∨ code.IsPointer w) : code.Visible w :=
    hkind.imp_right hw.slot_of_isPointer
  obtain ⟨t, ht, ht'⟩ := hu.text
  rcases operandText_cases ht with ⟨x, hop, htext⟩ | ⟨g, global, hop, hg, htext⟩ |
      ⟨value, hvalue, hinstruction, htext⟩ <;>
    rcases operandText_cases ht' with ⟨x', hop', htext'⟩ | ⟨g', global', hop', hg', htext'⟩ |
      ⟨value', hvalue', hinstruction', htext'⟩ <;>
    have heq := htext.symm.trans htext'
  · rw [Number.literal_injective heq] at hop
    exact .inl ⟨x', hop, hop'⟩
  · exact absurd heq (literal_ne_append '@' (by decide) x _)
  · exact absurd heq (literal_ne_append '%' (by decide) x _)
  · exact absurd heq.symm (literal_ne_append '@' (by decide) x' _)
  · have hname : global.name = global'.name := by simpa [← String.toList_inj] using heq
    rw [h.global_eq hg hg' hname] at hop
    exact .inr (.inl ⟨g', hop, hop'⟩)
  · simp [← String.toList_inj] at heq
  · exact absurd heq.symm (literal_ne_append '%' (by decide) x' _)
  · simp [← String.toList_inj] at heq
  · have hinstructs : c.draft.code.IsInstruction u :=
      ⟨_, operation_of_value hvalue, hinstruction⟩
    have hinstructs' : c'.draft.code.IsInstruction u' :=
      ⟨_, operation_of_value hvalue', hinstruction'⟩
    exact .inr (.inr ⟨hinstructs, hinstructs', hblock.abreast h.readable.legible
      (hinstructs.mem hu.place) (hinstructs'.mem hu.place') (visible hinstructs hkind)
      (visible hinstructs' hkind') ht ht'⟩)

end

end Compiler

namespace Machine

open Niladic.Action Code Compiler

structure FramesAgree (block block' : Block) (frame frame' : Frame) : Prop where
  values : ∀ {u u'}, block.Abreast block' u u' → frame.values[u]? = frame'.values[u']?
  slots : ∀ {u u'}, block.Abreast block' u u' → frame.slots[u]? = frame'.slots[u']?

def isDepth : Stop → Bool
  | .error (.backend (.trapped (.depth ..))) => true
  | _ => false

def Aside (stop stop' : Stop) : Prop := isDepth stop = false ∧ isDepth stop' = false

inductive Effect.Twin (code : Code) (block block' : Block) : Effect → Effect → Prop
  | define (x : Float) : Twin code block block' (.define x) (.define x)
  | allocate : Twin code block block' .allocate .allocate
  | setGlobal (g : GlobalId) (x : Float) : Twin code block block' (.setGlobal g x) (.setGlobal g x)
  | setSlot {p p' : ValueId} (hp : block.Abreast block' p p') (x : Float) :
      Twin code block block' (.setSlot p x) (.setSlot p' x)
  | call {callee : FuncId} {function : Func} (hf : code.func? callee = some function) :
      Twin code block block' (.call callee) (.call callee)
  | leave (result : Option Float) : Twin code block block' (.leave result) (.leave result)

section

variable {code : Code} {v left right value pointer : ValueId}

theorem operand_of_instruction (hv : code.IsInstruction v) (frame : Frame) :
    operand code frame v = frame.values[v]?.elim (trap (.undefined v)) Except.ok := by
  obtain ⟨op, hop, hinstruction⟩ := hv
  unfold operand
  rw [hop]
  cases op with
  | const => cases hinstruction
  | _ => cases frame.values[v]? <;> rfl

variable (cells : Array Float) (frame : Frame)

theorem effect_of_arith {op : Operator} (hop : code.operation? v = some (.arith op left right)) :
    effect code cells frame v = (do
      let x ← operand code frame left
      let y ← operand code frame right
      .ok (.define (op.apply x y)) : Except Stop Effect) := by
  unfold effect
  rw [hop]
  rfl

theorem effect_of_load (hop : code.operation? v = some (.load pointer)) :
    effect code cells frame v = read code cells frame pointer >>= fun x => .ok (.define x) := by
  unfold effect
  rw [hop]
  rfl

theorem effect_of_store (hop : code.operation? v = some (.store value pointer)) :
    effect code cells frame v = operand code frame value >>= write code cells frame pointer := by
  unfold effect
  rw [hop]
  rfl

theorem effect_of_ret (hop : code.operation? v = some (.ret (some value))) :
    effect code cells frame v = operand code frame value >>= fun x => .ok (.leave (some x)) := by
  unfold effect
  rw [hop]
  rfl

theorem effect_of_retVoid (hop : code.operation? v = some (.ret none)) :
    effect code cells frame v = .ok (.leave none) := by
  unfold effect
  rw [hop]
  rfl

end

section

variable {c c' : Compiler} {b : BlockId} {block block' : Block} {frame frame' : Frame}
  {u u' v v' : ValueId}

theorem getElem?_insert_abreast (h : Twins c c') (hblock : SameBlock c c' b block block')
    (hv : block.Abreast block' v v') (hu : block.Abreast block' u u')
    {map map' : Std.HashMap ValueId Float} (hmap : map[u]? = map'[u']?) (x : Float) :
    (map.insert v x)[u]? = (map'.insert v' x)[u']? := by
  have hsame := hv.eq_iff (nodup_body h.readable.legible.coherent hblock.here)
    (nodup_body h.readable'.legible.coherent hblock.there) hu
  rw [Std.HashMap.getElem?_insert, Std.HashMap.getElem?_insert, hmap]
  by_cases heq : v = u
  · rw [if_pos (by simpa using heq), if_pos (by simpa using hsame.mp heq)]
  · rw [if_neg (by simpa using heq), if_neg (by simpa using fun heq' => heq (hsame.mpr heq'))]

theorem FramesAgree.define (hframe : FramesAgree block block' frame frame') (h : Twins c c')
    (hblock : SameBlock c c' b block block') (hv : block.Abreast block' v v') (x : Float) :
    FramesAgree block block' (frame.advance.define v x) (frame'.advance.define v' x) where
  values hu := getElem?_insert_abreast h hblock hv hu (hframe.values hu) x
  slots := hframe.slots

theorem FramesAgree.setSlot (hframe : FramesAgree block block' frame frame') (h : Twins c c')
    (hblock : SameBlock c c' b block block') (hv : block.Abreast block' v v') (x : Float) :
    FramesAgree block block' (frame.advance.setSlot v x) (frame'.advance.setSlot v' x) where
  values := hframe.values
  slots hu := getElem?_insert_abreast h hblock hv hu (hframe.slots hu) x

theorem FramesAgree.receive (hframe : FramesAgree block block' frame frame') (h : Twins c c')
    (hblock : SameBlock c c' b block block') (hv : block.Abreast block' v v')
    (result : Option Float) : FramesAgree block block' (frame.advance.receive (some v) result)
      (frame'.advance.receive (some v') result) := by
  cases result with
  | none => exact ⟨hframe.values, hframe.slots⟩
  | some x => exact hframe.define h hblock hv x

theorem operand_twin (h : Twins c c') (hblock : SameBlock c c' b block block')
    (hframe : FramesAgree block block' frame frame') (hu : SameOperand c c' block block' u u')
    (hnumber : c.draft.code.IsNumber u) (hnumber' : c'.draft.code.IsNumber u') :
    Matched Aside Eq (operand c.draft.code frame u) (operand c'.draft.code frame' u') := by
  rcases h.operand_cases hblock hu (.inl hnumber) (.inl hnumber') with
    ⟨x, hop, hop'⟩ | ⟨g, hop, -⟩ | ⟨hinstructs, hinstructs', habreast⟩
  · rw [operand_const hop, operand_const hop']
    exact .ok rfl
  · simp [IsNumber, isNumeric?, hop] at hnumber
  · rw [operand_of_instruction hinstructs, operand_of_instruction hinstructs',
      hframe.values habreast]
    cases frame'.values[u']? with
    | none => exact .error ⟨rfl, rfl⟩
    | some x => exact .ok rfl

theorem pointer_cases (h : Twins c c') (hblock : SameBlock c c' b block block')
    (hu : SameOperand c c' block block' u u') (hpointer : c.draft.code.IsPointer u)
    (hpointer' : c'.draft.code.IsPointer u') :
    (∃ g, c.draft.code.operation? u = some (.address g) ∧
      c'.draft.code.operation? u' = some (.address g)) ∨
    (c.draft.code.operation? u = some .slot ∧ c'.draft.code.operation? u' = some .slot ∧
      block.Abreast block' u u') := by
  rcases h.operand_cases hblock hu (.inr hpointer) (.inr hpointer') with
    ⟨x, hop, -⟩ | hglobal | ⟨hinstructs, hinstructs', habreast⟩
  · rcases isPointer_cases hpointer with ⟨g, hg⟩ | hslot
    · rw [hop] at hg
      cases hg
    · rw [hop] at hslot
      cases hslot
  · exact .inl hglobal
  · exact .inr ⟨hinstructs.slot_of_isPointer hpointer, hinstructs'.slot_of_isPointer hpointer',
      habreast⟩

theorem read_twin (h : Twins c c') (hblock : SameBlock c c' b block block')
    (hframe : FramesAgree block block' frame frame') (hu : SameOperand c c' block block' u u')
    (hpointer : c.draft.code.IsPointer u) (hpointer' : c'.draft.code.IsPointer u')
    (cells : Array Float) :
    Matched Aside Eq (read c.draft.code cells frame u) (read c'.draft.code cells frame' u') := by
  unfold read
  rcases pointer_cases h hblock hu hpointer hpointer' with ⟨g, hop, hop'⟩ | ⟨hop, hop', habreast⟩
  · simp only [hop, hop', resolve, bind, Except.bind]
    cases cells[g.index]? with
    | none => exact .error ⟨rfl, rfl⟩
    | some x => exact .ok rfl
  · simp only [hop, hop', resolve, bind, Except.bind, hframe.slots habreast]
    cases frame'.slots[u']? with
    | none => exact .error ⟨rfl, rfl⟩
    | some x => exact .ok rfl

theorem write_twin (h : Twins c c') (hblock : SameBlock c c' b block block')
    (hframe : FramesAgree block block' frame frame') (hu : SameOperand c c' block block' u u')
    (hpointer : c.draft.code.IsPointer u) (hpointer' : c'.draft.code.IsPointer u')
    (cells : Array Float) (x : Float) :
    Matched Aside (Effect.Twin c.draft.code block block') (write c.draft.code cells frame u x)
      (write c'.draft.code cells frame' u' x) := by
  unfold write
  rcases pointer_cases h hblock hu hpointer hpointer' with ⟨g, hop, hop'⟩ | ⟨hop, hop', habreast⟩
  · simp only [hop, hop', resolve, bind, Except.bind]
    split
    · exact .ok (.setGlobal g x)
    · exact .error ⟨rfl, rfl⟩
  · have hslot : frame.slots.contains u = frame'.slots.contains u' := by
      rw [Std.HashMap.contains_eq_isSome_getElem?, Std.HashMap.contains_eq_isSome_getElem?,
        hframe.slots habreast]
    simp only [hop, hop', resolve, bind, Except.bind, hslot]
    split
    · exact .ok (.setSlot habreast x)
    · exact .error ⟨rfl, rfl⟩

theorem effect_twin (h : Twins c c') (hblock : SameBlock c c' b block block')
    (hframe : FramesAgree block block' frame frame') (hv : v ∈ block.body.toList)
    (hv' : v' ∈ block'.body.toList) {l : Line} (hl : c.draft.code.Says v l)
    (hl' : c'.draft.code.Says v' l) (cells : Array Float) :
    Matched Aside (Effect.Twin c.draft.code block block') (effect c.draft.code cells frame v)
      (effect c'.draft.code cells frame' v') := by
  have admits {op : Operation} : c.draft.code.operation? v = some op →
      c.draft.code.Admits ⟨b.index⟩ op := h.sound.admits hblock.here hv
  have admits' {op : Operation} : c'.draft.code.operation? v' = some op →
      c'.draft.code.Admits ⟨b.index⟩ op := h.sound'.admits hblock.there hv'
  have same {op op' : Operation} {u u' : ValueId} {t : String}
      (hop : c.draft.code.operation? v = some op) (hop' : c'.draft.code.operation? v' = some op')
      (hu : u ∈ op.operands) (hu' : u' ∈ op'.operands) (ht : c.draft.code.operandText? u = some t)
      (ht' : c'.draft.code.operandText? u' = some t) : SameOperand c c' block block' u u' :=
    ⟨h.sound.operand_place hblock.here hv hop hu, h.sound'.operand_place hblock.there hv' hop' hu',
      t, ht, ht'⟩
  have called {returns : Returns} {name : String} (hphrase : l.phrase = .call returns name) :
      Matched Aside (Effect.Twin c.draft.code block block') (effect c.draft.code cells frame v)
        (effect c'.draft.code cells frame' v') := by
    obtain ⟨callee, function, hop, hf, hname⟩ := hl.callee hphrase
    obtain ⟨callee', function', hop', hf', hname'⟩ := hl'.callee hphrase
    rw [effect_call frame cells hop, effect_call frame' cells hop',
      ← h.func_eq hf hf' (hname.trans hname'.symm)]
    exact .ok (.call hf)
  -- The line says what both instructions do.
  cases hl with
  | arith hop _ hx hy =>
      cases hl' with
      | arith hop' _ hx' hy' =>
          have hleft := operand_twin h hblock hframe (same hop hop' (.head _) (.head _) hx hx')
            (admits hop).1 (admits' hop').1
          have hright := operand_twin h hblock hframe
            (same hop hop' (.tail _ (.head _)) (.tail _ (.head _)) hy hy')
            (admits hop).2 (admits' hop').2
          rw [effect_of_arith cells frame hop, effect_of_arith cells frame' hop']
          refine hleft.bind ?_
          rintro x _ rfl
          refine hright.bind ?_
          rintro y _ rfl
          exact .ok (.define _)
  | slot hop =>
      cases hl' with
      | slot hop' =>
          rw [effect_slot frame cells hop, effect_slot frame' cells hop']
          exact .ok .allocate
  | load hop _ hp =>
      cases hl' with
      | load hop' _ hp' =>
          have hread := read_twin h hblock hframe (same hop hop' (.head _) (.head _) hp hp')
            (admits hop) (admits' hop') cells
          rw [effect_of_load cells frame hop, effect_of_load cells frame' hop']
          refine hread.bind ?_
          rintro x _ rfl
          exact .ok (.define x)
  | store hop hx hp =>
      cases hl' with
      | store hop' hx' hp' =>
          have hvalue := operand_twin h hblock hframe (same hop hop' (.head _) (.head _) hx hx')
            (admits hop).1 (admits' hop').1
          rw [effect_of_store cells frame hop, effect_of_store cells frame' hop']
          refine hvalue.bind ?_
          rintro x _ rfl
          exact write_twin h hblock hframe
            (same hop hop' (.tail _ (.head _)) (.tail _ (.head _)) hp hp')
            (admits hop).2 (admits' hop').2 cells x
  | callVoid | callNumber => exact called rfl
  | ret hop hx =>
      cases hl' with
      | ret hop' hx' =>
          have hvalue := operand_twin h hblock hframe (same hop hop' (.head _) (.head _) hx hx')
            (admits hop).2 (admits' hop').2
          rw [effect_of_ret cells frame hop, effect_of_ret cells frame' hop']
          refine hvalue.bind ?_
          rintro x _ rfl
          exact .ok (.leave (some x))
  | retVoid hop =>
      cases hl' with
      | retVoid hop' =>
          rw [effect_of_retVoid cells frame hop, effect_of_retVoid cells frame' hop']
          exact .ok (.leave none)

end

inductive EndsAlike : EStateM.Result Stop (Logged Memory) (Option Float) →
    EStateM.Result Stop (Logged Memory) (Option Float) → Prop
  | ok (result : Option Float) {m m' : Logged Memory} (h : m.state.cells = m'.state.cells) :
      EndsAlike (.ok result m) (.ok result m')
  | deep (stop : Stop) {m m' : Logged Memory} (h : m.state.cells = m'.state.cells) :
      EndsAlike (.error stop m) (.error stop m')
  | aside {stop stop' : Stop} (h : Aside stop stop') (m m' : Logged Memory) :
      EndsAlike (.error stop m) (.error stop' m')

def Alike (x x' : Run) : Prop :=
  ∀ m m', m.state.cells = m'.state.cells → EndsAlike (x m) (x' m')

theorem Alike.bind {x x' : Run} {g g' : Option Float → Run} (hx : Alike x x')
    (hg : ∀ result, Alike (g result) (g' result)) : Alike (x >>= g) (x' >>= g') := by
  intro m m' hm
  have hends := hx m m' hm
  generalize hxm : x m = r, hxm' : x' m' = r' at hends
  cases hends with
  | ok result h =>
      rw [bind_of_ok hxm, bind_of_ok hxm']
      exact hg result _ _ h
  | deep stop h =>
      rw [bind_of_error hxm, bind_of_error hxm']
      exact .deep stop h
  | aside h n n' =>
      rw [bind_of_error hxm, bind_of_error hxm']
      exact .aside h n n'

section

variable {c c' : Compiler} {b : BlockId} {block block' : Block} {frame frame' : Frame}
  {call call' : ValueId → FuncId → Run}

def CallsAlike (code : Code) (call call' : ValueId → FuncId → Run) : Prop :=
  ∀ v v' callee function, code.func? callee = some function → Alike (call v callee) (call' v' callee)

theorem proceed_alike (h : Twins c c') (hblock : SameBlock c c' b block block')
    (hcall : CallsAlike c.draft.code call call') {next next' : Frame → Run}
    (hnext : ∀ f f', FramesAgree block block' f f' → Alike (next f) (next' f')) {v v' : ValueId}
    (hv : block.Abreast block' v v') (hframe : FramesAgree block block' frame frame')
    {e e' : Effect} (he : e.Twin c.draft.code block block' e') :
    Alike (proceed call next v frame e) (proceed call' next' v' frame' e') := by
  cases he with
  | define x => exact hnext _ _ (hframe.define h hblock hv x)
  | allocate => exact hnext _ _ (hframe.setSlot h hblock hv _)
  | setGlobal g x =>
      intro m m' hm
      exact hnext frame.advance frame'.advance ⟨hframe.values, hframe.slots⟩
        { m with state.cells := m.state.cells.setIfInBounds g.index x }
        { m' with state.cells := m'.state.cells.setIfInBounds g.index x } (by simp only [hm])
  | setSlot hp x => exact hnext _ _ (hframe.setSlot h hblock hp x)
  | call hf =>
      exact (hcall v v' _ _ hf).bind fun result => hnext _ _ (hframe.receive h hblock hv result)
  | leave result => exact fun m m' hm => .ok result hm

theorem isDepth_fallOff (code : Code) (frame : Frame) : isDepth (fallOff code frame) = false := by
  unfold fallOff
  split <;> rfl

def Paired (c c' : Compiler) (block block' : Block) (v v' : ValueId) : Prop :=
  block.Abreast block' v v' ∧ ∃ l, c.draft.code.Says v l ∧ c'.draft.code.Says v' l

theorem paired_of_sameBlock (hblock : SameBlock c c' b block block') :
    List.Forall₂ (Paired c c' block block') block.body.toList block'.body.toList := by
  obtain ⟨ls, hls, hls'⟩ := hblock.lines
  have hlength := hls.length_eq.trans hls'.length_eq.symm
  rw [List.forall₂_iff_get]
  refine ⟨hlength, fun i hi hi' => ?_⟩
  have hv : block.body.toList[i]? = some (block.body.toList.get ⟨i, hi⟩) := by simp
  have hv' : block'.body.toList[i]? = some (block'.body.toList.get ⟨i, hi'⟩) := by simp
  obtain ⟨l, hl, hsays⟩ := forall₂_getElem? hls hv
  obtain ⟨l', hl', hsays'⟩ := forall₂_getElem? hls' hv'
  rw [hl] at hl'
  cases hl'
  exact ⟨⟨i, hv, hv'⟩, l, hsays, hsays'⟩

theorem runBody_alike (h : Twins c c') (hblock : SameBlock c c' b block block')
    (hcall : CallsAlike c.draft.code call call') {vs vs' : List ValueId}
    (hvs : List.Forall₂ (Paired c c' block block') vs vs')
    (hframe : FramesAgree block block' frame frame') :
    Alike (runBody c.draft.code call vs frame) (runBody c'.draft.code call' vs' frame') := by
  induction hvs generalizing frame frame' with
  | nil =>
      intro m m' hm
      exact .aside ⟨isDepth_fallOff _ _, isDepth_fallOff _ _⟩ m m'
  | @cons v v' vs vs' hpair _ ih =>
      obtain ⟨hv, l, hl, hl'⟩ := hpair
      obtain ⟨i, hi, hi'⟩ := hv
      intro m m' hm
      have he := effect_twin h hblock hframe (List.mem_of_getElem? hi) (List.mem_of_getElem? hi') hl
        hl' m.state.cells
      generalize heffect : effect c.draft.code m.state.cells frame v = r,
        heffect' : effect c'.draft.code m.state.cells frame' v' = r' at he
      rw [hm] at heffect'
      cases he with
      | ok he =>
          rw [runBody_cons_ok heffect, runBody_cons_ok heffect']
          exact proceed_alike h hblock hcall (fun f f' => ih) ⟨i, hi, hi'⟩ hframe he _ _ hm
      | error hstop =>
          rw [runBody_cons_error heffect, runBody_cons_error heffect']
          exact .aside hstop _ _

theorem runEntered_alike (h : Twins c c') (hcall : CallsAlike c.draft.code call call') {f : FuncId}
    {function : Func} (hf : c.draft.code.func? f = some function) (site site' : Option ValueId) :
    Alike (runEntered c.draft.code call f site) (runEntered c'.draft.code call' f site') := by
  intro m m' hm
  obtain ⟨function', hf', -, -, block, block', hblock⟩ := h.func hf
  rw [runEntered_eq hf (h.sound.owns hf) hblock.here,
    runEntered_eq hf' (h.sound'.owns hf') hblock.there]
  exact runBody_alike h hblock hcall (paired_of_sameBlock hblock) ⟨by simp, by simp⟩ _ _ hm

theorem nested_alike (h : Twins c c') (limit frames : Nat) :
    CallsAlike c.draft.code (nested c.draft.code limit frames) (nested c'.draft.code limit frames) := by
  induction frames using frames_induction limit with
  | deep frames hlimit =>
      intro v v' callee function hf m m' hm
      obtain ⟨function', hf', hname, -⟩ := h.func hf
      have hstop : tooDeep c'.draft.code limit callee = tooDeep c.draft.code limit callee := by
        simp only [tooDeep, hf, hf', hname]
      rw [nested_of_not_lt hlimit, nested_of_not_lt hlimit, hstop]
      exact .deep _ hm
  | call frames hlimit ih =>
      intro v v' callee function hf
      rw [nested_of_lt hlimit, nested_of_lt hlimit]
      exact runEntered_alike h ih hf (some v) (some v')

theorem callFunction_alike (h : Twins c c') (limit : Nat) {f : FuncId} {function : Func}
    (hf : c.draft.code.func? f = some function) :
    Alike (callFunction c.draft.code limit f) (callFunction c'.draft.code limit f) := by
  rw [callFunction_eq, callFunction_eq]
  exact runEntered_alike h (nested_alike h limit 1) hf none none

end

end Machine

end Niladic
