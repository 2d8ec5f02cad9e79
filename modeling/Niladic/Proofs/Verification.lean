import Niladic.Proofs.Confinement

namespace Niladic

namespace Operation

def callee? : Operation → Option FuncId
  | .call callee => some callee
  | _ => none

def global? : Operation → Option GlobalId
  | .address g => some g
  | _ => none

end Operation

namespace Code

structure Resolved (code : Code) : Prop where
  blocks : ∀ function ∈ code.functions.toList, ∀ b ∈ function.blocks.toList,
    b.index < code.blocks.size
  owners : ∀ block ∈ code.blocks.toList, block.owner.index < code.functions.size
  bodies : ∀ block ∈ code.blocks.toList, ∀ v ∈ block.body.toList, v.index < code.values.size
  places : ∀ value ∈ code.values.toList, ∀ b ∈ value.block, b.index < code.blocks.size
  operands : ∀ value ∈ code.values.toList, ∀ u ∈ value.operation.operands,
    u.index < code.values.size
  callees : ∀ value ∈ code.values.toList, ∀ f ∈ value.operation.callee?,
    f.index < code.functions.size
  globals : ∀ value ∈ code.values.toList, ∀ g ∈ value.operation.global?,
    g.index < code.globals.size
  addresses : ∀ global ∈ code.globals.toList, global.address.index < code.values.size

instance (code : Code) : Decidable code.Resolved :=
  decidable_of_iff
    ((∀ function ∈ code.functions.toList, ∀ b ∈ function.blocks.toList,
        b.index < code.blocks.size) ∧
      (∀ block ∈ code.blocks.toList, block.owner.index < code.functions.size) ∧
      (∀ block ∈ code.blocks.toList, ∀ v ∈ block.body.toList, v.index < code.values.size) ∧
      (∀ value ∈ code.values.toList, ∀ b ∈ value.block, b.index < code.blocks.size) ∧
      (∀ value ∈ code.values.toList, ∀ u ∈ value.operation.operands, u.index < code.values.size) ∧
      (∀ value ∈ code.values.toList, ∀ f ∈ value.operation.callee?,
        f.index < code.functions.size) ∧
      (∀ value ∈ code.values.toList, ∀ g ∈ value.operation.global?, g.index < code.globals.size) ∧
      ∀ global ∈ code.globals.toList, global.address.index < code.values.size)
    ⟨fun ⟨hblocks, howners, hbodies, hplaces, hoperands, hcallees, hglobals, haddresses⟩ =>
        ⟨hblocks, howners, hbodies, hplaces, hoperands, hcallees, hglobals, haddresses⟩,
      fun h => ⟨h.blocks, h.owners, h.bodies, h.places, h.operands, h.callees, h.globals,
        h.addresses⟩⟩

variable {code : Code} {f : FuncId} {function : Func} {b : BlockId} {v : ValueId}

theorem Resolved.callee (h : code.Resolved) {callee : FuncId}
    (hop : code.operation? v = some (.call callee)) :
    ∃ function, code.func? callee = some function := by
  obtain ⟨value, hvalue, hcall⟩ := value_of_operation hop
  have hmem : value ∈ code.values.toList := by simpa using Array.mem_of_getElem? hvalue
  have hlt := h.callees value hmem callee (by simp [hcall, Operation.callee?])
  exact ⟨_, Array.getElem?_eq_getElem hlt⟩

theorem Resolved.address (h : code.Resolved) {g : GlobalId}
    (hop : code.operation? v = some (.address g)) : g.index < code.globals.size := by
  obtain ⟨value, hvalue, haddress⟩ := value_of_operation hop
  have hmem : value ∈ code.values.toList := by simpa using Array.mem_of_getElem? hvalue
  exact h.globals value hmem g (by simp [haddress, Operation.global?])

theorem Resolved.admits (h : code.Resolved) (hf : code.func? f = some function)
    (hcheck : code.checkInstruction f function v = .ok ()) :
    ∃ op, code.operation? v = some op ∧ code.Admits f op := by
  unfold checkInstruction at hcheck
  rw [bind_ok_iff] at hcheck
  obtain ⟨op, hop, hcheck⟩ := hcheck
  rw [checked_ok_iff] at hop
  refine ⟨op, hop, ?_⟩
  cases op with
  | const x => cases hcheck
  | address g => cases hcheck
  | arith op left right =>
      rw [seq_ok_iff, checkNumeric_ok_iff, checkNumeric_ok_iff] at hcheck
      exact ⟨hcheck.1.2, hcheck.2.2⟩
  | slot => trivial
  | load pointer => exact (checkPointer_ok_iff.mp hcheck).2
  | store value pointer =>
      rw [seq_ok_iff, checkNumeric_ok_iff, checkPointer_ok_iff] at hcheck
      exact ⟨hcheck.1.2, hcheck.2.2⟩
  | call callee => exact h.callee hop
  | ret value =>
      cases value with
      | none =>
          cases hreturns : function.returns with
          | void => exact ⟨function, hf, hreturns⟩
          | number => simp [hreturns] at hcheck
      | some value =>
          cases hreturns : function.returns with
          | void => simp [hreturns] at hcheck
          | number =>
              simp only [hreturns, checkNumeric_ok_iff] at hcheck
              exact ⟨⟨function, hf, hreturns⟩, hcheck.2⟩

theorem Resolved.runnable (h : code.Resolved) (hcheck : code.check = .ok ()) : code.Runnable where
  entered {f function b} hf hfirst := by
    have hmem : b ∈ function.blocks.toList := by simpa using Array.mem_of_getElem? hfirst
    have hblock := check_ok_iff_blocks.mp hcheck f function hf b hmem
    obtain ⟨block, hb, -, hinstructions⟩ := checkBlock_ok_iff_instructions.mp hblock
    have hadmits (v : ValueId) (hv : v ∈ block.body.toList) :
        ∃ op, code.operation? v = some op ∧ code.Admits f op := h.admits hf (hinstructions v hv)
    exact ⟨block, hb, (checkBlock_ok_iff hb hf hadmits).mp hblock, hadmits⟩
  addressed hp := h.address hp

end Code

namespace Machine

open Niladic.Action Code

variable {code : Code} {limit : Nat} {P : Trap → Prop}

inductive Blocked (code : Code) (limit : Nat) : Trap → Prop
  | noBody {f : FuncId} {function : Func} (hf : code.func? f = some function)
      (hblocks : function.blocks = #[]) : Blocked code limit (.noBody function.name)
  | depth {f : FuncId} {function : Func} (hf : code.func? f = some function) :
      Blocked code limit (.depth limit function.name)

inductive Early : Trap → Prop
  | undefined (v : ValueId) : Early (.undefined v)
  | read (p : ValueId) : Early (.readEarly p)
  | written (p : ValueId) : Early (.writtenEarly p)

theorem Missing.early {frame : Frame} {u : ValueId} {t : Trap} (h : Missing code frame u t) :
    Early t := by
  cases h with
  | undefined => exact .undefined u
  | readEarly => exact .read u
  | writtenEarly => exact .written u

theorem trapsOnly_of_check (h : code.Resolved) (hcheck : code.check = .ok ()) (limit : Nat) :
    TrapsOnly code limit fun t => Blocked code limit t ∨ Early t where
  runnable := h.runnable hcheck
  depth hf := .inl (.depth hf)
  noBody hf hfirst := .inl (.noBody hf (by simpa using hfirst))
  missing _ _ _ _ _ _ _ hmissing := .inr hmissing.early

def runEach : List String → Action (Logged Machine) (List (Except Error Float))
  | [] => return []
  | entry :: rest => do
      let result ← attempt (run entry)
      let results ← runEach rest
      return result :: results

theorem runEach_answers (h : TrapsOnly code limit P) (entries : List String) (log : Log)
    {memory : Memory} (hcells : memory.cells.size = code.globals.size) :
    ∃ results final, runEach entries ⟨log, code, limit, memory⟩ = .ok results final ∧
      List.Forall₂ (Answers code P) entries results := by
  induction entries generalizing log memory with
  | nil => exact ⟨[], _, rfl, .nil⟩
  | cons entry rest ih =>
      obtain ⟨result, log', memory', hrun, hanswers, hcells'⟩ := run_answers h entry log hcells
      obtain ⟨results, final, hrest, hall⟩ := ih log' hcells'
      refine ⟨result :: results, final, ?_, .cons hanswers hall⟩
      rw [runEach, bind_of_ok hrun, bind_of_ok hrest]
      rfl

end Machine

def Code.runEach {σ : Type} (code : Code) (limit : Nat) (entries : List String) :
    Action (Logged σ) (List (Except Error Float)) :=
  Machine.booted code limit (Machine.runEach entries)

namespace Machine

open Niladic.Action

theorem checked_runs_trap_only_when_blocked_or_early {code : Code} (hresolved : code.Resolved)
    (hcheck : code.check = .ok ()) (limit : Nat) (entries : List String) {σ : Type}
    (l : Logged σ) : ∃ results, (code.runEach limit entries).outcome l = .ok results ∧
      List.Forall₂ (Answers code fun t => Blocked code limit t ∨ Early t) entries results := by
  have hcells : (blank code).cells.size = code.globals.size := by simp [blank]
  obtain ⟨results, final, hrun, hall⟩ := runEach_answers
    (trapsOnly_of_check hresolved hcheck limit) entries (l.log.push (.machineReady code.name)) hcells
  exact ⟨results, outcome_of_ok (booted_of_ok hrun), hall⟩

-- The sum in `run` uses a number that is loaded only after it, and `later` has no block.
def unordered : Code where
  name := "unordered"
  functions := #[⟨"run", .number, #[⟨0⟩]⟩, ⟨"step", .void, #[⟨1⟩]⟩, ⟨"later", .number, #[]⟩]
  blocks := #[⟨"entry", ⟨0⟩, #[⟨2⟩, ⟨3⟩, ⟨4⟩, ⟨5⟩]⟩, ⟨"entry", ⟨1⟩, #[⟨6⟩, ⟨7⟩]⟩]
  values := #[⟨"g", .address ⟨0⟩, none⟩, ⟨"", .const 1.0, none⟩, ⟨"", .call ⟨1⟩, some ⟨0⟩⟩,
    ⟨"sum", .arith .add ⟨4⟩ ⟨1⟩, some ⟨0⟩⟩, ⟨"g.load", .load ⟨0⟩, some ⟨0⟩⟩,
    ⟨"", .ret (some ⟨3⟩), some ⟨0⟩⟩, ⟨"", .store ⟨1⟩ ⟨0⟩, some ⟨1⟩⟩, ⟨"", .ret none, some ⟨1⟩⟩]
  globals := #[⟨"g", 0.0, true, ⟨0⟩⟩]

theorem unordered_runs_trap_only_when_blocked_or_early :
    unordered.Resolved ∧ unordered.check = .ok () ∧ ∃ results,
      (unordered.runEach 8 ["run", "step", "later", "run"]).outcome (⟨#[], ()⟩ : Logged Unit) =
        .ok results ∧
      List.Forall₂ (Answers unordered fun t => Blocked unordered 8 t ∨ Early t)
        ["run", "step", "later", "run"] results := by
  have hresolved : unordered.Resolved := by decide
  have hcheck : unordered.check = .ok () := by decide
  exact ⟨hresolved, hcheck, checked_runs_trap_only_when_blocked_or_early hresolved hcheck 8 _ _⟩

end Machine

end Niladic
