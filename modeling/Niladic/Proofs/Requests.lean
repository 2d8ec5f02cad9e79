import Niladic.Proofs.Drafting
import Niladic.Proofs.Verification

namespace Niladic

namespace Code

structure Housed (code : Code) : Prop where
  ordered : code.Ordered
  listed : ∀ {b block}, code.block? b = some block →
    ∃ function, code.func? block.owner = some function ∧ b ∈ function.blocks.toList
  owned : ∀ {f function b}, code.func? f = some function → b ∈ function.blocks.toList →
    ∃ block, code.block? b = some block ∧ block.owner = f

theorem housed_empty (name : String) : Housed { name } where
  ordered := ordered_empty name
  listed h := by simp [block?] at h
  owned h := by simp [func?] at h

namespace Housed

variable {code : Code}

theorem withConst (h : code.Housed) (x : Float) : (code.withConst x).Housed where
  ordered := h.ordered.withConst x
  listed hb := h.listed hb
  owned hf hb := h.owned hf hb

theorem withGlobal (h : code.Housed) (name : String) : (code.withGlobal name).Housed where
  ordered := h.ordered.withGlobal name
  listed hb := h.listed hb
  owned hf hb := h.owned hf hb

theorem withInstruction (h : code.Housed) {b : BlockId} {block : Block} {op : Operation}
    (hb : code.block? b = some block) (hop : code.Admits block.owner op) (name : String) :
    (code.withInstruction b name op).Housed where
  ordered := h.ordered.withInstruction hb hop name
  listed {b' block'} hb' := by
    rw [block?_withInstruction] at hb'
    split at hb'
    next heq =>
      subst heq
      have hlisted := h.listed hb
      rw [hb] at hb'
      cases hb'
      exact hlisted
    next => exact h.listed hb'
  owned {f function b'} hf hb' := by
    obtain ⟨block', hblock', howner⟩ := h.owned hf hb'
    obtain ⟨block'', hblock'', -, howner', -⟩ :=
      (extends_withInstruction code b name op).block hblock'
    exact ⟨block'', hblock'', howner'.trans howner⟩

theorem withFunction (h : code.Housed) (name : String) (returns : Returns) :
    (code.withFunction name returns).Housed where
  ordered := h.ordered.withFunction name returns
  listed {b block} hb := by
    obtain ⟨function, hf, hmem⟩ := h.listed hb
    obtain ⟨function', hf', -, -, hblocks⟩ := (extends_withFunction code name returns).func hf
    exact ⟨function', hf', hblocks.subset hmem⟩
  owned {f function b} hf hb := by
    rw [func?_withFunction] at hf
    split at hf
    · cases hf
      simp at hb
    · exact h.owned hf hb

theorem withBlock (h : code.Housed) (name : String) {f : FuncId}
    (hf : f.index < code.functions.size) : (code.withBlock name f).Housed where
  ordered := h.ordered.withBlock name f
  listed {b block} hb := by
    rw [block?_withBlock] at hb
    split at hb
    next hnew =>
      cases hb
      have hfunction : code.func? f = some _ := Array.getElem?_eq_getElem hf
      rw [func?_withBlock, if_pos rfl, hfunction]
      refine ⟨_, rfl, ?_⟩
      obtain ⟨i⟩ := b
      subst hnew
      simp
    next =>
      obtain ⟨function, hfunction, hmem⟩ := h.listed hb
      obtain ⟨function', hfunction', -, -, hblocks⟩ := (extends_withBlock code name f).func hfunction
      exact ⟨function', hfunction', hblocks.subset hmem⟩
  owned {f' function b} hf' hb := by
    have hold {function : Func} (hfunction : code.func? f' = some function)
        (hmem : b ∈ function.blocks.toList) :
        ∃ block, (code.withBlock name f).block? b = some block ∧ block.owner = f' := by
      obtain ⟨block, hblock, howner⟩ := h.owned hfunction hmem
      obtain ⟨block', hblock', -, howner', -⟩ := (extends_withBlock code name f).block hblock
      exact ⟨block', hblock', howner'.trans howner⟩
    rw [func?_withBlock] at hf'
    split at hf'
    next heq =>
      subst heq
      obtain ⟨function', hfunction', rfl⟩ := Option.map_eq_some_iff.mp hf'
      simp only [Array.toList_push, List.mem_append, List.mem_singleton] at hb
      rcases hb with hb | rfl
      · exact hold hfunction' hb
      · exact ⟨_, by rw [block?_withBlock, if_pos rfl], rfl⟩
    next => exact hold hf' hb

end Housed

end Code

namespace Draft

open Niladic.Action

variable {d d' : Draft}

inductive Grows (d : Draft) : Draft → Prop
  | emits {d' : Draft} (h : d.Emits d') : Grows d d'
  | moved (cursor : Option BlockId) : Grows d { d with cursor }
  | function {name : String} (hf : d.code.findFunction? name = none)
      (hg : d.code.findGlobal? name = none) (returns : Returns) :
      Grows d { d with code := d.code.withFunction name returns }
  | block {f : FuncId} (hf : f.index < d.code.functions.size) (name : String) :
      Grows d { d with code := d.code.withBlock name f }
  | global {name : String} (hg : d.code.findGlobal? name = none)
      (hf : d.code.findFunction? name = none) : Grows d { d with code := d.code.withGlobal name }

theorem Grows.housed (h : d.Grows d') (hd : d.code.Housed) : d'.code.Housed := by
  cases h with
  | emits h =>
      cases h with
      | idle => exact hd
      | const x => exact hd.withConst x
      | instruction hc hb hop name => exact hd.withInstruction hb hop _
  | moved cursor => exact hd
  | function hf hg returns => exact hd.withFunction _ returns
  | block hf name => exact hd.withBlock name hf
  | global hg hf => exact hd.withGlobal _

theorem function_grows (name : String) (returns : Returns) :
    Relates Grows (function name returns) := by
  intro d
  rcases function_cases name returns d with ⟨hf, hg⟩ | ⟨e, heq⟩
  · rw [function_eq hf hg]
    exact .function hf hg returns
  · rw [heq]
    exact .emits .idle

theorem block_grows (name : String) (f : FuncId) : Relates Grows (Draft.block name f) := by
  intro d
  rcases block_cases name f d with hf | ⟨e, heq⟩
  · rw [block_eq hf]
    exact .block hf name
  · rw [heq]
    exact .emits .idle

theorem global_grows (name : String) : Relates Grows (global name) := by
  intro d
  rcases global_cases name d with ⟨hg, hf⟩ | ⟨e, heq⟩
  · rw [global_eq hg hf]
    exact .global hg hf
  · rw [heq]
    exact .emits .idle

theorem grows_of_emits {α : Type} {x : Action Draft α} (h : Relates Emits x) : Relates Grows x :=
  .intro (fun _ _ _ hx => .emits (h.of_ok hx)) (fun _ _ _ hx => .emits (h.of_error hx))

inductive Request where
  | function (name : String) (returns : Returns)
  | block (name : String) (f : FuncId)
  | global (name : String)
  | position (b : BlockId)
  | clear
  | const (x : Float)
  | pointer (g : GlobalId)
  | slot (name : String)
  | arith (op : Operator) (left right : ValueId)
  | load (pointer : ValueId) (name : String)
  | store (value pointer : ValueId)
  | call (f : FuncId)
  | ret (value : ValueId)
  | retVoid

namespace Request

def run : Request → Action Draft Unit
  | .function name returns => discard (Draft.function name returns)
  | .block name f => discard (Draft.block name f)
  | .global name => discard (Draft.global name)
  | .position b => Draft.position b
  | .clear => Draft.clear
  | .const x => discard (Draft.const x)
  | .pointer g => discard (Draft.pointer g)
  | .slot name => discard (Draft.slot name)
  | .arith op left right => discard (Draft.arith op left right)
  | .load p name => discard (Draft.load p name)
  | .store value p => Draft.store value p
  | .call f => discard (Draft.call f)
  | .ret value => Draft.ret value
  | .retVoid => Draft.retVoid

def runAll : List Request → Action Draft Unit
  | [] => pure ()
  | request :: rest => do
      discard (attempt request.run)
      runAll rest

theorem run_grows (request : Request) : Relates Grows request.run := by
  cases request with
  | function name returns => exact (function_grows name returns).discard
  | block name f => exact (block_grows name f).discard
  | global name => exact (global_grows name).discard
  | position b => exact fun _ => .moved (some b)
  | clear => exact fun _ => .moved none
  | const x => exact (grows_of_emits (const_emits x)).discard
  | pointer g => exact (grows_of_emits (pointer_emits g)).discard
  | slot name => exact (grows_of_emits (slot_emits name)).discard
  | arith op left right => exact (grows_of_emits (arith_emits op left right)).discard
  | load p name => exact (grows_of_emits (load_emits p name)).discard
  | store value p => exact grows_of_emits (store_emits value p)
  | call f => exact (grows_of_emits (call_emits f)).discard
  | ret value => exact grows_of_emits (ret_emits value)
  | retVoid => exact grows_of_emits retVoid_emits

theorem runAll_keeps {Inv : Draft → Prop} (hstep : ∀ {d d'}, Grows d d' → Inv d → Inv d')
    (requests : List Request) : Relates (fun d d' => Inv d → Inv d') (runAll requests) := by
  induction requests with
  | nil => exact Relates.pure (fun _ => id) ()
  | cons request rest ih =>
      have hrequest : Relates (fun d d' => Inv d → Inv d') request.run :=
        .intro (fun _ _ _ hx => hstep (request.run_grows.of_ok hx))
          (fun _ _ _ hx => hstep (request.run_grows.of_error hx))
      exact Relates.bind (fun h h' => h' ∘ h) hrequest.attempt.discard fun _ => ih

end Request

end Draft

namespace Machine

open Niladic.Action Code

theorem runnable_of_housed {code : Code} (h : code.Housed) (hcheck : code.check = .ok ()) :
    code.Runnable where
  entered {f function b} hf hfirst := by
    have hmem : b ∈ function.blocks.toList := by simpa using Array.mem_of_getElem? hfirst
    obtain ⟨block, hb, howner⟩ := h.owned hf hmem
    have hadmits (v : ValueId) (hv : v ∈ block.body.toList) :
        ∃ op, code.operation? v = some op ∧ code.Admits f op := by
      obtain ⟨op, hop, hadmits, -⟩ := h.ordered.admitted hb hv
      rw [howner] at hadmits
      exact ⟨op, hop, hadmits⟩
    have hblock := check_ok_iff_blocks.mp hcheck f function hf b hmem
    exact ⟨block, hb, (checkBlock_ok_iff hb hf hadmits).mp hblock, hadmits⟩
  addressed hp := h.ordered.addressed_lt hp

theorem sole_block {code : Code} (h : code.Housed)
    (hsingle : ∀ f function, code.func? f = some function → function.blocks.size ≤ 1)
    {b b' : BlockId} {block block' : Block} (hb : code.block? b = some block)
    (hb' : code.block? b' = some block') (howner : block'.owner = block.owner) : b' = b := by
  obtain ⟨function, hf, hmem⟩ := h.listed hb
  obtain ⟨function', hf', hmem'⟩ := h.listed hb'
  rw [howner, hf] at hf'
  cases hf'
  have hsize := hsingle _ _ hf
  obtain ⟨i, hi, rfl⟩ := List.getElem_of_mem hmem
  obtain ⟨j, hj, rfl⟩ := List.getElem_of_mem hmem'
  rw [Array.length_toList] at hi hj
  have hindex : j = i := by omega
  subst hindex
  rfl

theorem trapsOnly_of_housed {code : Code} (h : code.Housed) (hcheck : code.check = .ok ())
    (hsingle : ∀ f function, code.func? f = some function → function.blocks.size ≤ 1)
    (limit : Nat) : TrapsOnly code limit (Blocked code limit) where
  runnable := runnable_of_housed h hcheck
  depth hf := .depth hf
  noBody hf hfirst := .noBody hf (by simpa using hfirst)
  missing {f function b block done v rest op u t frame} hf hfirst hb hbody hframe hop hu hmissing := by
    have hmem : b ∈ function.blocks.toList := by simpa using Array.mem_of_getElem? hfirst
    obtain ⟨block', hb', howner⟩ := h.owned hf hmem
    obtain ⟨block'', hb'', hclosed, -⟩ := (runnable_of_housed h hcheck).entered hf hfirst
    rw [hb] at hb' hb''
    cases hb'
    cases hb''
    rw [← howner] at hclosed
    have hbefore := h.ordered.operand_before hb (sole_block h hsingle hb) hclosed hbody hop hu
    exact absurd hmissing (hframe.not_missing hbefore)

theorem drafted_runs_trap_only_when_blocked {name : String} {depth : Nat}
    {requests : List Draft.Request} {d : Draft}
    (hsession : Draft.Request.runAll requests { code := { name }, depth } = .ok () d)
    (hsingle : ∀ f function, d.code.func? f = some function → function.blocks.size ≤ 1)
    (hcheck : d.code.check = .ok ()) (limit : Nat) (entry : String) {σ : Type} (l : Logged σ) :
    ∃ result, (attempt (d.code.run limit entry)).outcome l = .ok result ∧
      Answers d.code (Blocked d.code limit) entry result := by
  have hkeeps := Draft.Request.runAll_keeps (fun h => h.housed) requests
  have hhoused : d.code.Housed := hkeeps.of_ok hsession (housed_empty name)
  exact booted_answers (trapsOnly_of_housed hhoused hcheck hsingle limit) entry l

def interleaved : List Draft.Request :=
  [.function "half" .number, .function "run" .number, .block "entry" ⟨0⟩, .block "entry" ⟨1⟩,
    .position ⟨1⟩, .call ⟨0⟩, .position ⟨0⟩, .const 1.0, .const 2.0, .retVoid, .arith .div ⟨1⟩ ⟨2⟩,
    .ret ⟨3⟩, .position ⟨1⟩, .arith .add ⟨0⟩ ⟨0⟩, .ret ⟨5⟩]

theorem interleaved_runs_trap_only_when_blocked :
    ∃ d, Draft.Request.runAll interleaved { code := { name := "m" }, depth := 8 } = .ok () d ∧
      (∀ f function, d.code.func? f = some function → function.blocks.size ≤ 1) ∧
      d.code.check = .ok () ∧
      ∃ result, (attempt (d.code.run 8 "run")).outcome (⟨#[], ()⟩ : Logged Unit) = .ok result ∧
        Answers d.code (Blocked d.code 8) "run" result := by
  have houtcome : Action.outcome (do
      Draft.Request.runAll interleaved
      let d ← get
      return (d.code.functions.toList.all fun function => decide (function.blocks.size ≤ 1),
        d.code.check)) { code := { name := "m" }, depth := 8 } = .ok (true, .ok ()) := by
    decide +kernel
  obtain ⟨_, h⟩ := of_outcome_ok houtcome
  obtain ⟨_, d, hsession, h⟩ := bind_eq_ok h
  rw [bind_of_ok (get_apply d)] at h
  injection h with hpair
  obtain ⟨hall, hcheck⟩ := Prod.mk.inj hpair
  have hsingle (f : FuncId) (function : Func) (hf : d.code.func? f = some function) :
      function.blocks.size ≤ 1 := by
    have hmem : function ∈ d.code.functions.toList := by simpa using Array.mem_of_getElem? hf
    simpa using List.all_eq_true.mp hall function hmem
  exact ⟨d, hsession, hsingle, hcheck,
    drafted_runs_trap_only_when_blocked hsession hsingle hcheck 8 "run" ⟨#[], ()⟩⟩

end Machine

end Niladic
