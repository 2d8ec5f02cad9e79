import Niladic.Compiler.Generate
import Niladic.Proofs.Drafting
import Niladic.Proofs.Registering

namespace Niladic.Compiler

open Niladic.Action

def fresh (config : Config) (root : Option Tree) (name : String) (depth : Nat) : Compiler :=
  { root, config, draft := { code := { name }, depth } }

theorem ofConfig_eq_fresh (config : Config) (root : Option Tree) :
    ofConfig config root = fresh config root config.name config.depth := rfl

def withGlobal (c : Compiler) (n : String) : Compiler :=
  { c with
    draft := { c.draft with code := c.draft.code.withGlobal n }
    globals := c.globals.insert n ⟨c.draft.code.globals.size⟩ }

def withFunction (c : Compiler) (n : String) (returns : Returns) : Compiler :=
  { c with
    draft := { c.draft with code := c.draft.code.withFunction n returns }
    functions := c.functions.insert n ⟨c.draft.code.functions.size⟩ }

def withProcedure (c : Compiler) (n : String) (returns : Returns) : Compiler :=
  { c with
    draft := { c.draft with code := c.draft.code.withProcedure n returns }
    functions := c.functions.insert n ⟨c.draft.code.functions.size⟩
    blocks := c.blocks.enroll n "entry" ⟨c.draft.code.blocks.size⟩ }

section

variable (c : Compiler) (n : String) (returns : Returns)

@[simp] theorem withGlobal_code :
    (c.withGlobal n).draft.code = c.draft.code.withGlobal n := rfl

@[simp] theorem withGlobal_globals :
    (c.withGlobal n).globals = c.globals.insert n ⟨c.draft.code.globals.size⟩ := rfl

@[simp] theorem withGlobal_functions : (c.withGlobal n).functions = c.functions := rfl

@[simp] theorem withProcedure_code :
    (c.withProcedure n returns).draft.code = c.draft.code.withProcedure n returns := rfl

@[simp] theorem withProcedure_functions :
    (c.withProcedure n returns).functions =
      c.functions.insert n ⟨c.draft.code.functions.size⟩ := rfl

@[simp] theorem withProcedure_globals : (c.withProcedure n returns).globals = c.globals := rfl

@[simp] theorem withProcedure_blocks :
    (c.withProcedure n returns).blocks =
      c.blocks.enroll n "entry" ⟨c.draft.code.blocks.size⟩ := rfl

end

structure Coherent (c : Compiler) : Prop where
  ordered : c.draft.code.Ordered
  owns : ∀ {f function}, c.draft.code.func? f = some function → function.blocks = #[⟨f.index⟩]
  owned : ∀ {b block}, c.draft.code.block? b = some block →
    block.owner = ⟨b.index⟩ ∧ block.name = "entry"
  paired : c.draft.code.blocks.size = c.draft.code.functions.size
  functions_iff : ∀ {n f}, c.functions.get? n = some f ↔
    ∃ function, c.draft.code.func? f = some function ∧ function.name = n
  globals_iff : ∀ {n g}, c.globals.get? n = some g ↔
    ∃ global, c.draft.code.global? g = some global ∧ global.name = n
  apart : ∀ {n f g}, c.functions.get? n = some f → c.globals.get? n = some g → False
  blocks_iff : ∀ {n m b}, c.blocks.get? n m = some b ↔
    m = "entry" ∧ c.functions.get? n = some ⟨b.index⟩
  numbers : ∀ {f function}, c.draft.code.func? f = some function → function.returns = .number →
    function.name = c.config.entry
  kinds : c.functions.kind = .function ∧ c.globals.kind = .global

theorem fresh_coherent (config : Config) (root : Option Tree) (name : String) (depth : Nat) :
    (fresh config root name depth).Coherent where
  ordered := Code.ordered_empty name
  owns h := by simp [fresh, Code.func?] at h
  owned h := by simp [fresh, Code.block?] at h
  paired := rfl
  functions_iff := by simp [fresh, Code.func?, Registry.get?]
  globals_iff := by simp [fresh, Code.global?, Registry.get?]
  apart h := by simp [fresh, Registry.get?] at h
  blocks_iff := by simp [fresh, Scopes.get?_empty, Registry.get?]
  numbers h := by simp [fresh, Code.func?] at h
  kinds := ⟨rfl, rfl⟩

namespace Coherent

variable {c : Compiler}

theorem functions_list (h : c.Coherent) : c.functions.Lists c.draft.code.func? Func.name :=
  fun _ _ => h.functions_iff

theorem globals_list (h : c.Coherent) : c.globals.Lists c.draft.code.global? Global.name :=
  fun _ _ => h.globals_iff

theorem findFunction?_eq (h : c.Coherent) (n : String) :
    c.draft.code.findFunction? n = c.functions.get? n :=
  h.functions_list.findIdx?_eq (fun _ => rfl) n

theorem findGlobal?_eq (h : c.Coherent) (n : String) :
    c.draft.code.findGlobal? n = c.globals.get? n :=
  h.globals_list.findIdx?_eq (fun _ => rfl) n

theorem block_of_func (h : c.Coherent) {f : FuncId} {function : Func}
    (hf : c.draft.code.func? f = some function) :
    ∃ block, c.draft.code.block? ⟨f.index⟩ = some block := by
  have hlt : f.index < c.draft.code.blocks.size := by
    rw [h.paired]
    exact Code.func_lt hf
  exact ⟨_, Array.getElem?_eq_getElem hlt⟩

theorem func_of_block (h : c.Coherent) {b : BlockId} {block : Block}
    (hb : c.draft.code.block? b = some block) :
    ∃ function, c.draft.code.func? ⟨b.index⟩ = some function := by
  have hlt : b.index < c.draft.code.functions.size := by
    rw [← h.paired]
    exact Code.block_lt hb
  exact ⟨_, Array.getElem?_eq_getElem hlt⟩

theorem no_block (h : c.Coherent) {n : String} (hf : c.functions.get? n = none) :
    c.blocks.get? n "entry" = none := by
  cases hget : c.blocks.get? n "entry" with
  | none => rfl
  | some b =>
      have hb := (h.blocks_iff.mp hget).2
      rw [hf] at hb
      cases hb

theorem withConst (h : c.Coherent) (x : Float) :
    Coherent { c with draft := { c.draft with code := c.draft.code.withConst x } } where
  ordered := h.ordered.withConst x
  owns hf := h.owns hf
  owned hb := h.owned hb
  paired := h.paired
  functions_iff := h.functions_iff
  globals_iff := h.globals_iff
  apart hf hg := h.apart hf hg
  blocks_iff := h.blocks_iff
  numbers hf hreturns := h.numbers hf hreturns
  kinds := h.kinds

theorem appended (h : c.Coherent) {b : BlockId} {block : Block} {op : Operation}
    (hb : c.draft.code.block? b = some block) (hop : c.draft.code.Admits block.owner op)
    (name : String) :
    Coherent { c with draft := c.draft.appended b block.owner name op } where
  ordered := h.ordered.withInstruction hb hop _
  owns hf := h.owns hf
  owned {b' block'} hb' := by
    by_cases hne : b' = b
    · subst hne
      have hself := Code.block?_withInstruction_self hb (c.draft.nextName block.owner name) op
      change (c.draft.code.withInstruction b' _ op).block? b' = some block' at hb'
      rw [hself] at hb'
      have howned := h.owned hb
      cases hb'
      exact howned
    · exact h.owned ((Code.block?_withInstruction_of_ne hne _ op).symm.trans hb')
  paired := by
    change (c.draft.code.blocks.modify _ _).size = _
    rw [Array.size_modify]
    exact h.paired
  functions_iff := h.functions_iff
  globals_iff := h.globals_iff
  apart hf hg := h.apart hf hg
  blocks_iff := h.blocks_iff
  numbers hf hreturns := h.numbers hf hreturns
  kinds := h.kinds

theorem emits (h : c.Coherent) {d : Draft} (hd : c.draft.Emits d) :
    Coherent { c with draft := d } := by
  cases hd with
  | idle => exact h
  | const x => exact h.withConst x
  | instruction hc hb hop name => exact h.appended hb hop name

theorem withGlobal (h : c.Coherent) {n : String} (hf : c.functions.get? n = none)
    (hg : c.globals.get? n = none) : (c.withGlobal n).Coherent where
  ordered := h.ordered.withGlobal n
  owns hf := h.owns hf
  owned hb := h.owned hb
  paired := h.paired
  functions_iff := h.functions_iff
  globals_iff {n' g} := by
    have hnew := (Code.global?_withGlobal n ⟨c.draft.code.globals.size⟩).trans (if_pos rfl)
    have hfresh := Array.getElem?_eq_none (Nat.le_refl c.draft.code.globals.size)
    refine h.globals_list.insert hfresh hnew (fun x hne => ?_) hg n' g
    rw [Code.global?_withGlobal, if_neg]
    intro hindex
    exact hne (congrArg GlobalId.mk hindex)
  apart {n' f g} hf' hg' := by
    rw [withGlobal_globals, Registry.get?_insert] at hg'
    split at hg'
    next heq =>
      subst heq
      rw [withGlobal_functions, hf] at hf'
      cases hf'
    next => exact h.apart hf' hg'
  blocks_iff := h.blocks_iff
  numbers hf hreturns := h.numbers hf hreturns
  kinds := h.kinds

theorem openScope (h : c.Coherent) (n : String) :
    Coherent { c with blocks := c.blocks.openScope n } where
  ordered := h.ordered
  owns hf := h.owns hf
  owned hb := h.owned hb
  paired := h.paired
  functions_iff := h.functions_iff
  globals_iff := h.globals_iff
  apart hf hg := h.apart hf hg
  blocks_iff {n' m b} := by
    rw [Scopes.get?_openScope]
    exact h.blocks_iff
  numbers hf hreturns := h.numbers hf hreturns
  kinds := h.kinds

theorem of_same {c' : Compiler} (h : c.Coherent) (hcode : c'.draft.code = c.draft.code)
    (hfunctions : c'.functions = c.functions) (hblocks : c'.blocks = c.blocks)
    (hglobals : c'.globals = c.globals) (hconfig : c'.config = c.config) : c'.Coherent := by
  constructor
  · rw [hcode]
    exact h.ordered
  · rw [hcode]
    exact h.owns
  · rw [hcode]
    exact h.owned
  · rw [hcode]
    exact h.paired
  · rw [hcode, hfunctions]
    exact h.functions_iff
  · rw [hcode, hglobals]
    exact h.globals_iff
  · rw [hfunctions, hglobals]
    exact h.apart
  · rw [hblocks, hfunctions]
    exact h.blocks_iff
  · rw [hcode, hconfig]
    exact h.numbers
  · rw [hfunctions, hglobals]
    exact h.kinds

theorem withProcedure (h : c.Coherent) {n : String} {returns : Returns}
    (hf : c.functions.get? n = none) (hg : c.globals.get? n = none)
    (hentry : returns = .number → n = c.config.entry) : (c.withProcedure n returns).Coherent where
  ordered := (h.ordered.withFunction n returns).withBlock _ _
  owns {f function} hfunction := by
    rw [withProcedure_code, Code.func?_withProcedure] at hfunction
    split at hfunction
    next hi =>
      cases hfunction
      rw [hi, h.paired]
    next => exact h.owns hfunction
  owned {b block} hb := by
    rw [withProcedure_code, Code.block?_withProcedure] at hb
    split at hb
    next hi =>
      cases hb
      rw [hi, h.paired]
      exact ⟨rfl, rfl⟩
    next => exact h.owned hb
  paired := by
    simp [withProcedure_code, Code.withProcedure, Code.withBlock, Code.withFunction, h.paired]
  functions_iff {n' f} := by
    have hfresh := Array.getElem?_eq_none (Nat.le_refl c.draft.code.functions.size)
    have hnew := (Code.func?_withProcedure n returns ⟨c.draft.code.functions.size⟩).trans
      (if_pos rfl)
    refine h.functions_list.insert hfresh hnew (fun x hne => ?_) hf n' f
    rw [Code.func?_withProcedure, if_neg]
    intro hindex
    exact hne (congrArg FuncId.mk hindex)
  globals_iff := h.globals_iff
  apart {n' f g} hf' hg' := by
    rw [withProcedure_functions, Registry.get?_insert] at hf'
    split at hf'
    next heq =>
      subst heq
      rw [withProcedure_globals, hg] at hg'
      cases hg'
    next => exact h.apart hf' hg'
  blocks_iff {n' m b} := by
    rw [withProcedure_blocks, withProcedure_functions, Scopes.get?_enroll, Registry.get?_insert]
    obtain ⟨i⟩ := b
    by_cases hname : n' = n
    · subst hname
      by_cases hm : m = "entry"
      · rw [if_pos ⟨rfl, hm⟩, if_pos rfl]
        simp [hm, h.paired]
      · rw [if_neg (fun hand => hm hand.2), h.blocks_iff]
        simp [hm]
    · rw [if_neg (fun hand => hname hand.1), if_neg hname]
      exact h.blocks_iff
  numbers {f function} hfunction hreturns := by
    rw [withProcedure_code, Code.func?_withProcedure] at hfunction
    split at hfunction
    · cases hfunction
      exact hentry hreturns
    · exact h.numbers hfunction hreturns
  kinds := h.kinds

theorem returning_withProcedure (h : c.Coherent) (n : String) (returns : Returns) :
    (c.draft.code.withProcedure n returns).Returning ⟨c.draft.code.blocks.size⟩ returns :=
  ⟨⟨n, returns, #[⟨c.draft.code.blocks.size⟩]⟩,
    by rw [Code.func?_withProcedure, if_pos h.paired], rfl⟩

end Coherent

end Niladic.Compiler
