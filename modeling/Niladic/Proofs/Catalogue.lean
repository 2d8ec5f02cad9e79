import Niladic.Proofs.Freezing

namespace Niladic.Compiler

open Niladic.Action

structure Catalogued (c : Compiler) : Prop where
  functions : ∀ {n f}, c.functions.get? n = some f ↔
    ∃ function, c.draft.code.func? f = some function ∧ function.name = n
  globals : ∀ {n g}, c.globals.get? n = some g ↔
    ∃ global, c.draft.code.global? g = some global ∧ global.name = n
  apart : ∀ {f function g global}, c.draft.code.func? f = some function →
    c.draft.code.global? g = some global → function.name ≠ global.name
  owns : ∀ {f function}, c.draft.code.func? f = some function →
    ∃ b block, function.blocks = #[b] ∧ c.draft.code.block? b = some block ∧
      block.name = "entry" ∧ block.owner = f ∧ c.blocks.get? function.name "entry" = some b
  owned : ∀ {b block}, c.draft.code.block? b = some block →
    ∃ function, c.draft.code.func? block.owner = some function ∧ function.blocks = #[b]
  blocks : ∀ {n m b}, c.blocks.get? n m = some b → m = "entry" ∧
    ∃ f function, c.draft.code.func? f = some function ∧ function.name = n ∧ function.blocks = #[b]

namespace Coherent

variable {c : Compiler}

theorem owns_one (h : c.Coherent) {f : FuncId} {function : Func}
    (hf : c.draft.code.func? f = some function) :
    ∃ b block, function.blocks = #[b] ∧ c.draft.code.block? b = some block ∧
      block.name = "entry" ∧ block.owner = f ∧ c.blocks.get? function.name "entry" = some b := by
  obtain ⟨block, hb⟩ := h.block_of_func hf
  obtain ⟨howner, hname⟩ := h.owned hb
  have hregistered := h.functions_iff.mpr ⟨function, hf, rfl⟩
  exact ⟨⟨f.index⟩, block, h.owns hf, hb, hname, howner, h.blocks_iff.mpr ⟨rfl, hregistered⟩⟩

theorem owned_by_one (h : c.Coherent) {b : BlockId} {block : Block}
    (hb : c.draft.code.block? b = some block) :
    ∃ function, c.draft.code.func? block.owner = some function ∧ function.blocks = #[b] := by
  obtain ⟨function, hf⟩ := h.func_of_block hb
  rw [(h.owned hb).1]
  exact ⟨function, hf, h.owns hf⟩

theorem block_registered (h : c.Coherent) {n m : String} {b : BlockId}
    (hb : c.blocks.get? n m = some b) : m = "entry" ∧
      ∃ f function, c.draft.code.func? f = some function ∧ function.name = n ∧
        function.blocks = #[b] := by
  obtain ⟨hname, hregistered⟩ := h.blocks_iff.mp hb
  obtain ⟨function, hf, hn⟩ := h.functions_iff.mp hregistered
  exact ⟨hname, ⟨b.index⟩, function, hf, hn, h.owns hf⟩

theorem catalogued (h : c.Coherent) : c.Catalogued where
  functions := h.functions_iff
  globals := h.globals_iff
  apart {_ function _ global} hf hg hname := h.apart (h.functions_iff.mpr ⟨function, hf, rfl⟩)
    (h.globals_iff.mpr ⟨global, hg, hname.symm⟩)
  owns := h.owns_one
  owned := h.owned_by_one
  blocks := h.block_registered

end Coherent

theorem reached_registries_agree_with_code {config : Config} {root : Option Tree} {name : String}
    {depth : Nat} {log : Log} {s : Logged Compiler}
    (h : Reaches ⟨log, fresh config root name depth⟩ s) :
    s.state.Catalogued ∧ ∀ n f, (Registry.find functionPart n).outcome s = .ok f ↔
      s.state.draft.code.findFunction? n = some f := by
  have hcoherent := (h.advances (fresh_coherent ..)).coherent
  refine ⟨hcoherent.catalogued, fun n f => ?_⟩
  rw [Registry.find_outcome_iff, hcoherent.findFunction?_eq]
  rfl

-- A global stands in the way of the second procedure, and a procedure in that of the second global.
theorem clashing_registries_agree_with_code :
    ∃ s, Command.runAll [.enter, .lower (.procedure "p" (.body [.assign "x" (.number 2.0)])),
        .lower (.procedure "x" (.body [])), .within ⟨1⟩ [.lower (.assign "p" (.number 3.0))] none,
        .generate] ⟨#[], fresh {} (some (.program [.procedure "q" (.body []), .call "r"])) "m" 3⟩ =
          .ok () s ∧
      s.state.functions.size = 3 ∧ s.state.globals.size = 1 ∧ s.state.Catalogued ∧
      ∀ n f, (Registry.find functionPart n).outcome s = .ok f ↔
        s.state.draft.code.findFunction? n = some f := by
  have houtcome : Action.outcome (do
      Command.runAll [.enter, .lower (.procedure "p" (.body [.assign "x" (.number 2.0)])),
        .lower (.procedure "x" (.body [])), .within ⟨1⟩ [.lower (.assign "p" (.number 3.0))] none,
        .generate]
      let c := (← get).state
      return decide (c.functions.size = 3 ∧ c.globals.size = 1))
      ⟨#[], fresh {} (some (.program [.procedure "q" (.body []), .call "r"])) "m" 3⟩ =
        .ok true := by
    decide +kernel
  obtain ⟨t, h⟩ := of_outcome_ok houtcome
  obtain ⟨_, s, hrun, h⟩ := bind_eq_ok h
  rw [bind_of_ok (get_apply s), pure_apply] at h
  injection h with hsizes
  obtain ⟨hfunctions, hglobals⟩ := of_decide_eq_true hsizes
  exact ⟨s, hrun, hfunctions, hglobals,
    reached_registries_agree_with_code (Reaches.start.runAll hrun)⟩

end Niladic.Compiler
