import Mathlib.Data.List.Nodup
import Niladic.Proofs.Sessions
import Niladic.Proofs.Shape

namespace Niladic

structure Names where
  functions : List String
  globals : List String

namespace Names

def addGlobal (names : Names) (n : String) : Except Error Names :=
  if n ∈ names.globals then .ok names
  else if n ∈ names.functions then .error (.duplicate .function n)
  else .ok { names with globals := n :: names.globals }

def addFunction (names : Names) (n : String) : Except Error Names :=
  if n ∈ names.functions then .error (.duplicate .function n)
  else if n ∈ names.globals then .error (.duplicate .global n)
  else .ok { names with functions := n :: names.functions }

end Names

namespace Tree

def require (holds : Bool) (e : Error) : Except Error Unit := if holds then .ok () else .error e

theorem require_ok_iff {holds : Bool} {e : Error} : require holds e = .ok () ↔ holds = true := by
  cases holds <;> simp [require]

theorem require_seq_ok_iff {α : Type} {holds : Bool} {e : Error} {g : Unit → Except Error α}
    {a : α} : (require holds e >>= g) = .ok a ↔ holds = true ∧ g () = .ok a := by
  rw [seq_ok_iff, require_ok_iff]

theorem require_seq_error_iff {α : Type} {holds : Bool} {e e' : Error}
    {g : Unit → Except Error α} : (require holds e >>= g) = .error e' ↔
      (holds = false ∧ e = e') ∨ (holds = true ∧ g () = .error e') := by
  rw [seq_error_iff, require_ok_iff]
  cases holds <;> simp [require]

mutual

def accept (names : Names) : Tree → Except Error Names
  | .number _ => .ok names
  | .binary op left right => do
      let names ← accept names left
      require left.isNumeric (.backend (.operandKind op left.leaves))
      let names ← accept names right
      require right.isNumeric (.backend (.operandKind op right.leaves))
      return names
  | .assign name value => do
      let names ← names.addGlobal name
      let names ← accept names value
      require value.isNumeric (.backend (.assignedKind name value.leaves))
      return names
  | .body items => acceptAll names items
  | .procedure name inner => do
      let names ← names.addFunction name
      require (inner.kind == .body) (.structural (.bodyKind name inner.kind))
      accept names inner
  | .call name => do
      require (names.functions.contains name) (.notFound .function name)
      return names
  | .program _ => .error (.unsupported .program)

def acceptAll (names : Names) : List Tree → Except Error Names
  | [] => .ok names
  | item :: rest => do
      let names ← accept names item
      acceptAll names rest

end

structure Takes (names names' : Names) (defs : List (String × Tree)) : Prop where
  functions : names'.functions = (defs.map Prod.fst).reverse ++ names.functions
  nodup : names.functions.Nodup → names'.functions.Nodup

namespace Takes

variable {names names' names'' : Names} {defs defs' : List (String × Tree)}

theorem of_same (h : names'.functions = names.functions) : Takes names names' [] :=
  ⟨h, fun hnodup => by rwa [h]⟩

theorem append (h : Takes names names' defs) (h' : Takes names' names'' defs') :
    Takes names names'' (defs ++ defs') where
  functions := by
    rw [h'.functions, h.functions, List.map_append, List.reverse_append, List.append_assoc]
  nodup hnodup := h'.nodup (h.nodup hnodup)

theorem of_addGlobal {n : String} (h : names.addGlobal n = .ok names') : Takes names names' [] := by
  unfold Names.addGlobal at h
  split at h
  · cases h
    exact .of_same rfl
  · split at h
    · cases h
    · cases h
      exact .of_same rfl

theorem of_addFunction {n : String} (inner : Tree) (h : names.addFunction n = .ok names') :
    Takes names names' [(n, inner)] := by
  unfold Names.addFunction at h
  split at h
  · cases h
  next hfree =>
    split at h
    · cases h
    · cases h
      exact ⟨rfl, fun hnodup => List.nodup_cons.mpr ⟨hfree, hnodup⟩⟩

end Takes

mutual

theorem accept_takes : ∀ {t : Tree} {names names' : Names}, t.accept names = .ok names' →
    Takes names names' t.definitions
  | .number _, _, _, h => by
      rw [accept] at h
      cases h
      exact .of_same rfl
  | .binary _ left right, _, _, h => by
      rw [accept, bind_ok_iff] at h
      obtain ⟨names₁, hleft, h⟩ := h
      rw [require_seq_ok_iff, bind_ok_iff] at h
      obtain ⟨-, names₂, hright, h⟩ := h
      rw [require_seq_ok_iff] at h
      cases h.2
      rw [definitions]
      exact (accept_takes hleft).append (accept_takes hright)
  | .assign _ value, _, _, h => by
      rw [accept, bind_ok_iff] at h
      obtain ⟨names₁, hglobal, h⟩ := h
      rw [bind_ok_iff] at h
      obtain ⟨names₂, hvalue, h⟩ := h
      rw [require_seq_ok_iff] at h
      cases h.2
      rw [definitions]
      exact (Takes.of_addGlobal hglobal).append (accept_takes hvalue)
  | .body items, _, _, h => by
      rw [accept] at h
      rw [definitions]
      exact acceptAll_takes h
  | .procedure _ inner, _, _, h => by
      rw [accept, bind_ok_iff] at h
      obtain ⟨names₁, hfunction, h⟩ := h
      rw [require_seq_ok_iff] at h
      rw [definitions]
      exact (Takes.of_addFunction inner hfunction).append (accept_takes h.2)
  | .call _, _, _, h => by
      rw [accept, require_seq_ok_iff] at h
      cases h.2
      exact .of_same rfl
  | .program _, _, _, h => by
      rw [accept] at h
      cases h

theorem acceptAll_takes : ∀ {items : List Tree} {names names' : Names},
    acceptAll names items = .ok names' → Takes names names' (definitionsAll items)
  | [], _, _, h => by
      rw [acceptAll] at h
      cases h
      exact .of_same rfl
  | item :: rest, _, _, h => by
      rw [acceptAll, bind_ok_iff] at h
      obtain ⟨names₁, hitem, hrest⟩ := h
      rw [definitionsAll]
      exact (accept_takes hitem).append (acceptAll_takes hrest)

end

/-- The check of a root, where the entry function is there from the start. The result variable is
needed last, and the last item must not be a body. -/
def acceptRoot (config : Config) : Option Tree → Except Error Unit
  | none => .error (.structural .noRoot)
  | some (.program []) => .error (.structural .noItems)
  | some (.program (item :: rest)) => do
      let names ← acceptAll ⟨[config.entry], []⟩ (item :: rest)
      let _ ← names.addGlobal config.result
      require ((item :: rest).getLast?.map leaves != some .void) (.structural .voidResult)
  | some root => .error (.structural (.rootKind root.kind))

theorem definitions_of_acceptRoot {config : Config} {items : List Tree}
    (h : acceptRoot config (some (.program items)) = .ok ()) :
    ((definitionsAll items).map Prod.fst).Nodup ∧
      config.entry ∉ (definitionsAll items).map Prod.fst := by
  cases items with
  | nil => cases h
  | cons item rest =>
      rw [acceptRoot, bind_ok_iff] at h
      obtain ⟨names, hitems, -⟩ := h
      have htakes := acceptAll_takes hitems
      have hnodup := htakes.nodup (List.nodup_singleton config.entry)
      rw [htakes.functions] at hnodup
      obtain ⟨hdefs, -, hapart⟩ := List.nodup_append.mp hnodup
      refine ⟨List.nodup_reverse.mp hdefs, fun hmem => ?_⟩
      exact hapart _ (List.mem_reverse.mpr hmem) _ (List.mem_singleton_self _) rfl

end Tree

namespace Compiler

open Niladic.Action Code

structure Ready (names : Names) (s : Logged Compiler) (b : BlockId) : Prop where
  coherent : s.state.Coherent
  functions : ∀ n, n ∈ names.functions ↔ ∃ f, s.state.functions.get? n = some f
  globals : ∀ n, n ∈ names.globals ↔ ∃ g, s.state.globals.get? n = some g
  cursor : s.state.draft.cursor = some b
  block : ∃ block, s.state.draft.code.block? b = some block

structure Lowers (s s' : Logged Compiler) (names : Names) (b : BlockId) (vs : List ValueId)
    (defs : List (String × Tree)) : Prop where
  ready : Ready names s' b
  written : Written s.state.draft.code s'.state.draft.code b vs defs

variable {names names' : Names} {s s' s'' : Logged Compiler} {b : BlockId}
  {vs ws : List ValueId} {defs defs' : List (String × Tree)}

theorem Ready.block_lt (h : Ready names s b) : b.index < s.state.draft.code.blocks.size := by
  obtain ⟨block, hb⟩ := h.block
  exact Code.block_lt hb

theorem Ready.no_function {n : String} (h : Ready names s b) (hn : n ∉ names.functions) :
    s.state.functions.get? n = none := by
  rw [Option.eq_none_iff_forall_ne_some]
  exact fun f hf => hn ((h.functions n).mpr ⟨f, hf⟩)

theorem Ready.no_global {n : String} (h : Ready names s b) (hn : n ∉ names.globals) :
    s.state.globals.get? n = none := by
  rw [Option.eq_none_iff_forall_ne_some]
  exact fun g hg => hn ((h.globals n).mpr ⟨g, hg⟩)

theorem Lowers.trans {names'' : Names} (h : Lowers s s' names' b vs defs)
    (h' : Lowers s' s'' names'' b ws defs') (hb : Ready names s b) :
    Lowers s s'' names'' b (vs ++ ws) (defs ++ defs') :=
  ⟨h'.ready, h.written.trans h'.written hb.block_lt⟩

theorem Ready.emits {d : Draft} (h : Ready names s b) (hd : s.state.draft.Emits d) :
    Ready names { s with state.draft := d } b := by
  obtain ⟨block, hb⟩ := h.block
  obtain ⟨block', hb', -⟩ := hd.code.block hb
  exact ⟨h.coherent.emits hd, h.functions, h.globals, hd.cursor.trans h.cursor, block', hb'⟩

theorem Ready.appended {α : Type} {x : Action Draft α} {a : α} {f : FuncId} {name : String}
    {op : Operation} (h : Ready names s b) (hemits : Relates Draft.Emits x)
    (hx : x s.state.draft = .ok a (s.state.draft.appended b f name op)) :
    ∃ s', drafting x s = .ok a s' ∧
      Lowers s s' names b [⟨s.state.draft.code.values.size⟩] [] ∧
      s'.state.draft.code.operation? ⟨s.state.draft.code.values.size⟩ = some op := by
  refine ⟨_, drafting_of_ok hx, ⟨h.emits (hemits.of_ok hx), .instruction b _ op⟩, ?_⟩
  exact operation?_withInstruction_self ..

theorem Ready.counted (h : Ready names s b) (log : Log) (statistics : Statistics) :
    Ready names ⟨log, { s.state with statistics }⟩ b :=
  ⟨h.coherent.of_same rfl rfl rfl rfl rfl, h.functions, h.globals, h.cursor, h.block⟩

def announced (t : Tree) (s : Logged Compiler) : Logged Compiler :=
  ⟨s.log.push (.lowering t.kind),
    { s.state with statistics := s.state.statistics.addNode t.kind }⟩

theorem Ready.announced (h : Ready names s b) (t : Tree) : Ready names (announced t s) b :=
  h.counted _ _

theorem globalNamed_accepted {n : String} (h : Ready names s b)
    (hadd : names.addGlobal n = .ok names') : ∃ g s', globalNamed n s = .ok g s' ∧
      Lowers s s' names' b [] [] ∧
      ∃ global, s'.state.draft.code.global? g = some global ∧ global.name = n := by
  unfold Names.addGlobal at hadd
  split at hadd
  next hknown =>
    cases hadd
    obtain ⟨g, hg⟩ := (h.globals n).mp hknown
    exact ⟨g, s, globalNamed_known hg, ⟨h, .of_blocks (.refl _) rfl⟩, h.coherent.globals_iff.mp hg⟩
  next hknown =>
    split at hadd
    · cases hadd
    next hfree =>
      cases hadd
      have hf := h.no_function hfree
      have hg := h.no_global hknown
      obtain ⟨log, heq⟩ := globalNamed_new h.coherent hf hg
      refine ⟨_, _, heq, ⟨⟨(h.coherent.withGlobal hf hg).of_same rfl rfl rfl rfl rfl, h.functions,
        Registry.mem_insert h.globals n _, h.cursor, h.block⟩, ?_⟩, ?_⟩
      · exact .of_blocks (extends_withGlobal _ n) rfl
      · exact ⟨_, by rw [withGlobal_code, global?_withGlobal, if_pos rfl], rfl⟩

theorem globalNamed_refused {n : String} {e : Error} (h : Ready names s b)
    (hadd : names.addGlobal n = .error e) : globalNamed n s = .error (.error e) s := by
  unfold Names.addGlobal at hadd
  split at hadd
  · cases hadd
  next hglobal =>
    split at hadd
    next hfunction =>
      cases hadd
      obtain ⟨f, hf⟩ := (h.functions n).mp hfunction
      exact globalNamed_clash h.coherent hf (h.no_global hglobal)
    · cases hadd

theorem Ready.moved {b' : BlockId} {block : Block} (h : Ready names s b')
    (hb : s.state.draft.code.block? b = some block) :
    Ready names { s with state.draft.cursor := some b } b :=
  ⟨h.coherent.of_same rfl rfl rfl rfl rfl, h.functions, h.globals, rfl, block, hb⟩

theorem declareProcedure_accepted {n : String} (h : Ready names s b)
    (hadd : names.addFunction n = .ok names') : ∃ f s', declareProcedure n s =
      .ok (f, ⟨s.state.draft.code.blocks.size⟩) s' ∧
      s'.state.draft.code = s.state.draft.code.withProcedure n .void ∧
      s'.state.draft.cursor = some b ∧
      Ready names' { s' with state.draft.cursor := some ⟨s.state.draft.code.blocks.size⟩ }
        ⟨s.state.draft.code.blocks.size⟩ := by
  unfold Names.addFunction at hadd
  split at hadd
  · cases hadd
  next hfunction =>
    split at hadd
    · cases hadd
    next hglobal =>
      cases hadd
      have hf := h.no_function hfunction
      have hg := h.no_global hglobal
      obtain ⟨log, heq⟩ := declareProcedure_new h.coherent hf hg
      have hcoherent : (s.state.withProcedure n .void).Coherent :=
        h.coherent.withProcedure hf hg nofun
      refine ⟨_, _, heq, rfl, h.cursor, ⟨?_, ?_, h.globals, rfl, ?_⟩⟩
      · exact hcoherent.of_same rfl rfl rfl rfl rfl
      · exact Registry.mem_insert h.functions n _
      · exact ⟨_, by rw [withProcedure_code, block?_withProcedure, if_pos rfl]⟩

theorem declareProcedure_refused {n : String} {e : Error} (h : Ready names s b)
    (hadd : names.addFunction n = .error e) :
    ∃ s', declareProcedure n s = .error (.error e) s' := by
  unfold Names.addFunction at hadd
  split at hadd
  next hfunction =>
    cases hadd
    obtain ⟨f, hf⟩ := (h.functions n).mp hfunction
    obtain ⟨log, heq⟩ := declareProcedure_taken h.coherent hf
    exact ⟨_, heq⟩
  next hfunction =>
    split at hadd
    next hglobal =>
      cases hadd
      obtain ⟨g, hg⟩ := (h.globals n).mp hglobal
      obtain ⟨log, heq⟩ := declareProcedure_clash h.coherent (h.no_function hfunction) hg
      exact ⟨_, heq⟩
    · cases hadd

theorem lower_number (x : Float) (s : Logged Compiler) : lower (.number x) s =
    (do return .value (← drafting (Draft.const x)) : Compile Lowered) (announced (.number x) s) := by
  rw [lower]
  rfl

theorem lower_binary (op : Operator) (left right : Tree) (s : Logged Compiler) :
    lower (.binary op left right) s = (do
      let x ← expectOperand op (← lower left)
      let y ← expectOperand op (← lower right)
      return .value (← drafting (Draft.arith op x y)) : Compile Lowered)
        (announced (.binary op left right) s) := by
  rw [lower]
  rfl

theorem lower_assign (name : String) (value : Tree) (s : Logged Compiler) :
    lower (.assign name value) s = (do
      let g ← globalNamed name
      let x ← expectAssigned name (← lower value)
      let pointer ← drafting (Draft.pointer g)
      drafting (Draft.store x pointer)
      return .global g : Compile Lowered) (announced (.assign name value) s) := by
  rw [lower]
  rfl

theorem lower_body (items : List Tree) (s : Logged Compiler) : lower (.body items) s = (do
    let anchor ← drafting (Draft.slot "anchor")
    discard (lowerItems anchor none items)
    return .void : Compile Lowered) (announced (.body items) s) := by
  rw [lower]
  rfl

def lowerInner (name : String) (inner : Tree) : Compile Unit := do
  expectBody name inner
  discard (lower inner)
  drafting Draft.retVoid

theorem lower_procedure (name : String) (inner : Tree) (s : Logged Compiler) :
    lower (.procedure name inner) s = (do
      let (f, b) ← declareProcedure name
      within b (lowerInner name inner)
      count Statistics.addProcedure
      return .function f : Compile Lowered) (announced (.procedure name inner) s) := by
  rw [lower]
  rfl

theorem lower_call (name : String) (s : Logged Compiler) :
    lower (.call name) s = lowerCall name (announced (.call name) s) := by
  rw [lower]
  rfl

theorem Lowers.of_announced {t : Tree} (h : Lowers (announced t s) s' names b vs defs) :
    Lowers s s' names b vs defs :=
  ⟨h.ready, h.written⟩

def Accepted (t : Tree) : Prop := ∀ {names names' : Names} {s : Logged Compiler} {b : BlockId},
  Ready names s b → t.accept names = .ok names' → ∃ l s' vs, lower t s = .ok l s' ∧
    Lowers s s' names' b vs t.definitions ∧ Performs s'.state.draft.code t l vs

theorem expectOperand_value (op : Operator) (x : ValueId) (s : Logged Compiler) :
    expectOperand op (.value x) s = .ok x s := rfl

theorem expectAssigned_value (name : String) (x : ValueId) (s : Logged Compiler) :
    expectAssigned name (.value x) s = .ok x s := rfl

theorem number_accepted (x : Float) : Accepted (.number x) := by
  intro names names' s b h haccept
  rw [Tree.accept] at haccept
  cases haccept
  have hconst := Draft.const_eq (d := (announced (.number x) s).state.draft) x
  have hready := (h.announced (.number x)).emits (.const x)
  refine ⟨.value ⟨s.state.draft.code.values.size⟩, _, [], ?_,
    ⟨hready, .of_blocks (extends_withConst _ x) rfl⟩, .number (operation?_withConst_self x)⟩
  rw [lower_number, bind_of_ok (drafting_of_ok hconst)]
  rfl

theorem binary_accepted {op : Operator} {left right : Tree} (hleft : Accepted left)
    (hright : Accepted right) : Accepted (.binary op left right) := by
  intro names names' s b h haccept
  rw [Tree.accept, bind_ok_iff] at haccept
  obtain ⟨names₁, haccept₁, haccept⟩ := haccept
  rw [Tree.require_seq_ok_iff, bind_ok_iff] at haccept
  obtain ⟨hnumeric₁, names₂, haccept₂, haccept⟩ := haccept
  rw [Tree.require_seq_ok_iff] at haccept
  obtain ⟨hnumeric₂, hnames⟩ := haccept
  cases hnames
  have hstart := h.announced (.binary op left right)
  obtain ⟨l, s₁, vs, hlower₁, hlowers₁, hperforms₁⟩ := hleft hstart haccept₁
  obtain ⟨r, s₂, ws, hlower₂, hlowers₂, hperforms₂⟩ := hright hlowers₁.ready haccept₂
  obtain ⟨x, rfl⟩ := hperforms₁.value_of_numeric hnumeric₁
  obtain ⟨y, rfl⟩ := hperforms₂.value_of_numeric hnumeric₂
  have hperforms₁ := hperforms₁.mono hlowers₂.written.extended
  obtain ⟨block, hb⟩ := hlowers₂.ready.block
  obtain ⟨s₃, hlower₃, hlowers₃, hz⟩ := hlowers₂.ready.appended (Draft.arith_emits op x y)
    (Draft.arith_eq hlowers₂.ready.cursor hb hperforms₁.isNumber hperforms₂.isNumber op)
  have hlowers := (hlowers₁.trans (hlowers₂.trans hlowers₃ hlowers₁.ready) hstart).of_announced
  have hcode := hlowers₃.written.extended
  rw [List.append_nil] at hlowers
  rw [Tree.definitions]
  refine ⟨_, s₃, _, ?_, hlowers, .binary (hperforms₁.mono hcode) (hperforms₂.mono hcode) hz⟩
  rw [lower_binary, bind_of_ok hlower₁, bind_of_ok (expectOperand_value op x s₁),
    bind_of_ok hlower₂, bind_of_ok (expectOperand_value op y s₂), bind_of_ok hlower₃]
  rfl

theorem assign_accepted {name : String} {value : Tree} (hvalue : Accepted value) :
    Accepted (.assign name value) := by
  intro names names' s b h haccept
  rw [Tree.accept, bind_ok_iff] at haccept
  obtain ⟨names₁, haccept₁, haccept⟩ := haccept
  rw [bind_ok_iff] at haccept
  obtain ⟨names₂, haccept₂, haccept⟩ := haccept
  rw [Tree.require_seq_ok_iff] at haccept
  obtain ⟨hnumeric, hnames⟩ := haccept
  cases hnames
  have hstart := h.announced (.assign name value)
  obtain ⟨g, s₁, hglobal₁, hlowers₁, global, hg, hname⟩ := globalNamed_accepted hstart haccept₁
  obtain ⟨l, s₂, vs, hlower₂, hlowers₂, hperforms₂⟩ := hvalue hlowers₁.ready haccept₂
  obtain ⟨x, rfl⟩ := hperforms₂.value_of_numeric hnumeric
  have hg := hlowers₂.written.extended.global hg
  have haddress := hlowers₂.ready.coherent.ordered.addressed hg
  obtain ⟨block, hb⟩ := hlowers₂.ready.block
  obtain ⟨s₃, hlower₃, hlowers₃, hz⟩ := hlowers₂.ready.appended
    (Draft.store_emits x global.address)
    (Draft.store_eq hlowers₂.ready.cursor hb hperforms₂.isNumber ⟨_, haddress, rfl⟩)
  have hpointer : drafting (Draft.pointer g) s₂ = .ok global.address s₂ :=
    drafting_of_ok (Draft.pointer_eq hg)
  have hlowers := (hlowers₁.trans (hlowers₂.trans hlowers₃ hlowers₁.ready) hstart).of_announced
  have hcode := hlowers₃.written.extended
  rw [Tree.definitions]
  rw [List.nil_append, List.nil_append, List.append_nil] at hlowers
  refine ⟨_, s₃, _, ?_, hlowers, .assign (hperforms₂.mono hcode) (hcode.global hg) hname
    (hcode.operation haddress) hz⟩
  rw [lower_assign, bind_of_ok hglobal₁, bind_of_ok hlower₂,
    bind_of_ok (expectAssigned_value name x s₂), bind_of_ok hpointer, bind_of_ok hlower₃]
  rfl

theorem call_accepted (name : String) : Accepted (.call name) := by
  intro names names' s b h haccept
  rw [Tree.accept, Tree.require_seq_ok_iff, List.contains_iff_mem] at haccept
  obtain ⟨hknown, hnames⟩ := haccept
  cases hnames
  have hstart := h.announced (.call name)
  obtain ⟨f, hget⟩ := (hstart.functions name).mp hknown
  obtain ⟨function, hf, hname⟩ := hstart.coherent.functions_iff.mp hget
  have hfind := hstart.coherent.findFunction?_eq name
  rw [hget] at hfind
  obtain ⟨block, hb⟩ := hstart.block
  obtain ⟨s₁, hlower₁, hlowers₁, hv⟩ := hstart.appended (Draft.call_emits f)
    (Draft.call_eq hstart.cursor hb hf)
  obtain ⟨function', hf', hname', -⟩ := hlowers₁.written.extended.func hf
  have hnoted : Lowers s _ names b _ [] :=
    ⟨hlowers₁.ready.counted (s₁.log.push (.callRecorded name)) s₁.state.statistics.addCall,
      hlowers₁.written⟩
  rw [Tree.definitions]
  refine ⟨_, _, _, ?_, hnoted, .call hf' (hname'.trans hname) hv⟩
  rw [lower_call, lowerCall, bind_of_ok (code_apply _), hfind]
  exact (bind_of_ok hlower₁).trans rfl

theorem anchorItem_number {anchor x : ValueId} {item : Tree} (h : Ready names s b)
    (hitem : item.isNumeric = true) (hx : s.state.draft.code.IsNumber x)
    (hanchor : s.state.draft.code.operation? anchor = some .slot) :
    ∃ z s', anchorItem anchor item (.value x) s = .ok () s' ∧ Lowers s s' names b [z] [] ∧
      s'.state.draft.code.operation? z = some (.store x anchor) := by
  obtain ⟨block, hb⟩ := h.block
  obtain ⟨s₁, hstore, hlowers, hz⟩ := h.appended (Draft.store_emits x anchor)
    (Draft.store_eq h.cursor hb hx ⟨_, hanchor, rfl⟩)
  refine ⟨_, _, ?_,
    ⟨hlowers.ready.counted s₁.log s₁.state.statistics.addAnchor, hlowers.written⟩, hz⟩
  unfold anchorItem
  rw [hitem]
  exact (bind_of_ok hstore).trans rfl

theorem anchorItem_other {anchor : ValueId} {item : Tree} {l : Lowered}
    (hitem : item.isNumeric = false) (s : Logged Compiler) :
    anchorItem anchor item l s = .ok () s := by
  unfold anchorItem
  rw [hitem]
  rfl

def AcceptedAll (items : List Tree) : Prop :=
  ∀ {names names' : Names} {s : Logged Compiler} {b : BlockId} {anchor : ValueId}
    (last : Option Lowered), Ready names s b → Tree.acceptAll names items = .ok names' →
    s.state.draft.code.operation? anchor = some .slot →
    ∃ result s' vs, lowerItems anchor last items s = .ok result s' ∧
      Lowers s s' names' b vs (Tree.definitionsAll items) ∧
      PerformsAll s'.state.draft.code anchor items vs ∧
      result.map Lowered.kind = (items.getLast?.map Tree.leaves).or (last.map Lowered.kind)

theorem nil_accepted : AcceptedAll [] := by
  intro names names' s b anchor last h haccept hanchor
  rw [Tree.acceptAll] at haccept
  cases haccept
  refine ⟨last, s, [], by rw [lowerItems]; rfl, ⟨h, .of_blocks (.refl _) rfl⟩, .nil, rfl⟩

theorem getLast?_leaves (item : Tree) (rest : List Tree) (last : Option LoweredKind) :
    ((item :: rest).getLast?.map Tree.leaves).or last =
      (rest.getLast?.map Tree.leaves).or (some item.leaves) := by
  rw [List.getLast?_cons]
  cases rest.getLast? <;> rfl

theorem item_accepted {item : Tree} {anchor : ValueId} (hitem : Accepted item) (h : Ready names s b)
    (haccept : item.accept names = .ok names')
    (hanchor : s.state.draft.code.operation? anchor = some .slot) :
    ∃ l s₁ s₂ vs, lower item s = .ok l s₁ ∧ anchorItem anchor item l s₁ = .ok () s₂ ∧
      Lowers s s₂ names' b vs item.definitions ∧ l.kind = item.leaves ∧
      ∀ {code rest ws}, Extends s₂.state.draft.code code → PerformsAll code anchor rest ws →
        PerformsAll code anchor (item :: rest) (vs ++ ws) := by
  obtain ⟨l, s₁, vs, hlower, hlowers₁, hperforms⟩ := hitem h haccept
  cases hnumeric : item.isNumeric with
  | true =>
      obtain ⟨x, rfl⟩ := hperforms.value_of_numeric hnumeric
      obtain ⟨z, s₂, hanchored, hlowers₂, hz⟩ := anchorItem_number hlowers₁.ready hnumeric
        hperforms.isNumber (hlowers₁.written.extended.operation hanchor)
      have hlowers := hlowers₁.trans hlowers₂ h
      rw [List.append_nil] at hlowers
      refine ⟨_, s₁, s₂, _, hlower, hanchored, hlowers, hperforms.kind, fun hcode hrest => ?_⟩
      rw [List.append_assoc]
      exact .number hnumeric (hperforms.mono (hlowers₂.written.extended.trans hcode))
        (hcode.operation hz) hrest
  | false =>
      exact ⟨l, s₁, s₁, vs, hlower, anchorItem_other hnumeric s₁, hlowers₁, hperforms.kind,
        fun hcode hrest => .other hnumeric (hperforms.mono hcode) hrest⟩

theorem cons_accepted {item : Tree} {rest : List Tree} (hitem : Accepted item)
    (hrest : AcceptedAll rest) : AcceptedAll (item :: rest) := by
  intro names names' s b anchor last h haccept hanchor
  rw [Tree.acceptAll, bind_ok_iff] at haccept
  obtain ⟨names₁, haccept₁, haccept₂⟩ := haccept
  obtain ⟨l, s₁, s₂, vs, hlower₁, hanchored, hlowers₁, hkind, hperforms₁⟩ :=
    item_accepted hitem h haccept₁ hanchor
  obtain ⟨result, s₃, ws, hlower₃, hlowers₃, hperforms₃, hresult⟩ :=
    hrest (some l) hlowers₁.ready haccept₂ (hlowers₁.written.extended.operation hanchor)
  rw [Tree.definitionsAll]
  refine ⟨result, s₃, _, ?_, hlowers₁.trans hlowers₃ h,
    hperforms₁ hlowers₃.written.extended hperforms₃, ?_⟩
  · rw [lowerItems, bind_of_ok hlower₁, bind_of_ok hanchored]
    exact hlower₃
  · rw [hresult, getLast?_leaves, Option.map_some, hkind]

theorem body_accepted {items : List Tree} (hitems : AcceptedAll items) :
    Accepted (.body items) := by
  intro names names' s b h haccept
  rw [Tree.accept] at haccept
  have hstart := h.announced (.body items)
  obtain ⟨block, hb⟩ := hstart.block
  obtain ⟨s₁, hslot, hlowers₁, hanchor⟩ := hstart.appended (Draft.slot_emits "anchor")
    (Draft.slot_eq hstart.cursor hb "anchor")
  obtain ⟨result, s₂, vs, hlower₂, hlowers₂, hperforms₂, -⟩ :=
    hitems none hlowers₁.ready haccept hanchor
  rw [Tree.definitions]
  refine ⟨.void, s₂, _, ?_, (hlowers₁.trans hlowers₂ hstart).of_announced,
    .body (hlowers₂.written.extended.operation hanchor) hperforms₂⟩
  rw [lower_body, bind_of_ok hslot, bind_of_ok (discard_of_ok hlower₂)]
  rfl

theorem expectBody_of_body {name : String} {inner : Tree} (h : inner.kind = .body)
    (s : Logged Compiler) : expectBody name inner s = .ok () s := by
  cases inner with
  | body items => rfl
  | _ => cases h

theorem lowerInner_accepted (name : String) {inner : Tree} (hinner : Accepted inner)
    (h : Ready names s b) (haccept : inner.accept names = .ok names') (hkind : inner.kind = .body)
    (hreturns : s.state.draft.code.Returning ⟨b.index⟩ .void) :
    ∃ s' vs last, lowerInner name inner s = .ok () s' ∧
      Lowers s s' names' b (vs ++ [last]) inner.definitions ∧
      Performs s'.state.draft.code inner .void vs ∧
      s'.state.draft.code.operation? last = some (.ret none) := by
  obtain ⟨l, s₁, vs, hlower₁, hlowers₁, hperforms₁⟩ := hinner h haccept
  obtain ⟨block, hb⟩ := hlowers₁.ready.block
  have hreturns₁ := hlowers₁.written.extended.returning hreturns
  rw [← (hlowers₁.ready.coherent.owned hb).1] at hreturns₁
  obtain ⟨s₂, hret, hlowers₂, hlast⟩ := hlowers₁.ready.appended Draft.retVoid_emits
    (Draft.retVoid_eq hlowers₁.ready.cursor hb hreturns₁)
  have hlowers := hlowers₁.trans hlowers₂ h
  rw [List.append_nil] at hlowers
  have hvoid : l = .void := by
    cases hperforms₁ with
    | body => rfl
    | _ => cases hkind
  subst hvoid
  refine ⟨s₂, vs, _, ?_, hlowers, hperforms₁.mono hlowers₂.written.extended, hlast⟩
  rw [lowerInner, bind_of_ok (expectBody_of_body hkind s), bind_of_ok (discard_of_ok hlower₁)]
  exact hret

theorem procedure_accepted {name : String} {inner : Tree} (hinner : Accepted inner) :
    Accepted (.procedure name inner) := by
  intro names names' s b h haccept
  rw [Tree.accept, bind_ok_iff] at haccept
  obtain ⟨names₁, haccept₁, haccept⟩ := haccept
  rw [Tree.require_seq_ok_iff, beq_iff_eq] at haccept
  obtain ⟨hkind, haccept₂⟩ := haccept
  have hstart := h.announced (.procedure name inner)
  obtain ⟨f, s₁, hdeclare, hcode₁, hcursor₁, hready₁⟩ := declareProcedure_accepted hstart haccept₁
  have hreturns : s₁.state.draft.code.Returning ⟨s.state.draft.code.blocks.size⟩ .void := by
    rw [hcode₁]
    exact hstart.coherent.returning_withProcedure name .void
  obtain ⟨s₂, vs, last, hlower₂, hlowers₂, hperforms₂, hlast⟩ :=
    lowerInner_accepted name hinner hready₁ haccept₂ hkind hreturns
  have hwritten := hlowers₂.written
  rw [hcode₁] at hwritten
  have hprocedure : Written s.state.draft.code s₂.state.draft.code b [] _ :=
    Written.procedure hstart.coherent.paired hwritten hperforms₂ hlast
  obtain ⟨block, hb⟩ := hstart.block
  obtain ⟨block', hb', -⟩ := hprocedure.extended.block hb
  have hready := (hlowers₂.ready.moved hb').counted s₂.log s₂.state.statistics.addProcedure
  rw [Tree.definitions]
  refine ⟨.function f, _, [], ?_, ⟨hready, hprocedure⟩, .procedure⟩
  rw [lower_procedure, bind_of_ok hdeclare]
  refine (bind_of_ok (within_of_ok hlower₂)).trans ?_
  rw [hcursor₁]
  rfl

mutual

theorem lower_accepted : ∀ t, Accepted t
  | .number x => number_accepted x
  | .binary _ left right => binary_accepted (lower_accepted left) (lower_accepted right)
  | .assign _ value => assign_accepted (lower_accepted value)
  | .body items => body_accepted (lowerItems_accepted items)
  | .procedure _ inner => procedure_accepted (lower_accepted inner)
  | .call name => call_accepted name
  | .program _ => fun _ haccept => by cases haccept

theorem lowerItems_accepted : ∀ items, AcceptedAll items
  | [] => nil_accepted
  | item :: rest => cons_accepted (lower_accepted item) (lowerItems_accepted rest)

end

def Refused (t : Tree) : Prop := ∀ {names : Names} {s : Logged Compiler} {b : BlockId} {e : Error},
  Ready names s b → t.accept names = .error e → ∃ s', lower t s = .error (.error e) s'

theorem leaves_ne_value {t : Tree} (h : t.isNumeric = false) : t.leaves ≠ .value := by
  cases t with
  | number | binary => cases h
  | program | assign | body | procedure | call => nofun

theorem expectOperand_other {l : Lowered} (h : l.kind ≠ .value) (op : Operator)
    (s : Logged Compiler) : ∃ s', expectOperand op l s =
      .error (.error (.backend (.operandKind op l.kind))) s' := by
  cases l with
  | value v => exact (h rfl).elim
  | _ => exact ⟨_, Logged.reject_apply ..⟩

theorem expectAssigned_other {l : Lowered} (h : l.kind ≠ .value) (name : String)
    (s : Logged Compiler) : ∃ s', expectAssigned name l s =
      .error (.error (.backend (.assignedKind name l.kind))) s' := by
  cases l with
  | value v => exact (h rfl).elim
  | _ => exact ⟨_, Logged.reject_apply ..⟩

theorem expectBody_other {inner : Tree} (h : inner.kind ≠ .body) (name : String)
    (s : Logged Compiler) : ∃ s', expectBody name inner s =
      .error (.error (.structural (.bodyKind name inner.kind))) s' := by
  cases inner with
  | body items => exact (h rfl).elim
  | _ => exact ⟨_, Logged.reject_apply ..⟩

theorem binary_refused {op : Operator} {left right : Tree} (hleft : Refused left)
    (hright : Refused right) : Refused (.binary op left right) := by
  intro names s b e h haccept
  have hstart := h.announced (.binary op left right)
  simp only [lower_binary]
  rw [Tree.accept, bind_error_iff] at haccept
  rcases haccept with haccept | ⟨names₁, haccept₁, haccept⟩
  · obtain ⟨s₁, hlower₁⟩ := hleft hstart haccept
    exact ⟨s₁, bind_of_error hlower₁⟩
  obtain ⟨l, s₁, vs, hlower₁, hlowers₁, hperforms₁⟩ := lower_accepted left hstart haccept₁
  rw [bind_of_ok hlower₁]
  rw [Tree.require_seq_error_iff] at haccept
  rcases haccept with ⟨hnumeric, rfl⟩ | ⟨hnumeric, haccept⟩
  · have hother := leaves_ne_value hnumeric
    rw [← hperforms₁.kind] at hother ⊢
    obtain ⟨s₂, hexpect⟩ := expectOperand_other hother op s₁
    exact ⟨s₂, bind_of_error hexpect⟩
  obtain ⟨x, rfl⟩ := hperforms₁.value_of_numeric hnumeric
  rw [bind_of_ok (expectOperand_value op x s₁)]
  rw [bind_error_iff] at haccept
  rcases haccept with haccept | ⟨names₂, haccept₂, haccept⟩
  · obtain ⟨s₂, hlower₂⟩ := hright hlowers₁.ready haccept
    exact ⟨s₂, bind_of_error hlower₂⟩
  obtain ⟨r, s₂, ws, hlower₂, hlowers₂, hperforms₂⟩ :=
    lower_accepted right hlowers₁.ready haccept₂
  rw [bind_of_ok hlower₂]
  rw [Tree.require_seq_error_iff] at haccept
  rcases haccept with ⟨hnumeric, rfl⟩ | ⟨-, haccept⟩
  · have hother := leaves_ne_value hnumeric
    rw [← hperforms₂.kind] at hother ⊢
    obtain ⟨s₃, hexpect⟩ := expectOperand_other hother op s₂
    exact ⟨s₃, bind_of_error hexpect⟩
  · cases haccept

theorem assign_refused {name : String} {value : Tree} (hvalue : Refused value) :
    Refused (.assign name value) := by
  intro names s b e h haccept
  have hstart := h.announced (.assign name value)
  simp only [lower_assign]
  rw [Tree.accept, bind_error_iff] at haccept
  rcases haccept with haccept | ⟨names₁, haccept₁, haccept⟩
  · exact ⟨_, bind_of_error (globalNamed_refused hstart haccept)⟩
  obtain ⟨g, s₁, hglobal₁, hlowers₁, -⟩ := globalNamed_accepted hstart haccept₁
  rw [bind_of_ok hglobal₁]
  rw [bind_error_iff] at haccept
  rcases haccept with haccept | ⟨names₂, haccept₂, haccept⟩
  · obtain ⟨s₂, hlower₂⟩ := hvalue hlowers₁.ready haccept
    exact ⟨s₂, bind_of_error hlower₂⟩
  obtain ⟨l, s₂, vs, hlower₂, hlowers₂, hperforms₂⟩ :=
    lower_accepted value hlowers₁.ready haccept₂
  rw [bind_of_ok hlower₂]
  rw [Tree.require_seq_error_iff] at haccept
  rcases haccept with ⟨hnumeric, rfl⟩ | ⟨-, haccept⟩
  · have hother := leaves_ne_value hnumeric
    rw [← hperforms₂.kind] at hother ⊢
    obtain ⟨s₃, hexpect⟩ := expectAssigned_other hother name s₂
    exact ⟨s₃, bind_of_error hexpect⟩
  · cases haccept

theorem call_refused (name : String) : Refused (.call name) := by
  intro names s b e h haccept
  have hstart := h.announced (.call name)
  rw [Tree.accept, Tree.require_seq_error_iff] at haccept
  rcases haccept with ⟨hunknown, rfl⟩ | ⟨-, haccept⟩
  · have hget : (announced (.call name) s).state.functions.get? name = none := by
      refine hstart.no_function fun hmem => ?_
      rw [List.contains_iff_mem.mpr hmem] at hunknown
      cases hunknown
    have hfind := hstart.coherent.findFunction?_eq name
    rw [hget] at hfind
    rw [lower_call, lowerCall, bind_of_ok (code_apply _), hfind]
    exact ⟨_, Logged.reject_apply ..⟩
  · cases haccept

theorem procedure_refused {name : String} {inner : Tree} (hinner : Refused inner) :
    Refused (.procedure name inner) := by
  intro names s b e h haccept
  have hstart := h.announced (.procedure name inner)
  simp only [lower_procedure]
  rw [Tree.accept, bind_error_iff] at haccept
  rcases haccept with haccept | ⟨names₁, haccept₁, haccept⟩
  · obtain ⟨s₁, hdeclare⟩ := declareProcedure_refused hstart haccept
    exact ⟨s₁, bind_of_error hdeclare⟩
  obtain ⟨f, s₁, hdeclare, -, -, hready₁⟩ := declareProcedure_accepted hstart haccept₁
  rw [bind_of_ok hdeclare]
  suffices hlower : ∃ s₂, lowerInner name inner
      { s₁ with state.draft.cursor := some ⟨s.state.draft.code.blocks.size⟩ } =
        .error (.error e) s₂ by
    obtain ⟨s₂, hlower⟩ := hlower
    exact ⟨_, bind_of_error (within_of_error hlower)⟩
  rw [lowerInner]
  rw [Tree.require_seq_error_iff] at haccept
  rcases haccept with ⟨hkind, rfl⟩ | ⟨hkind, haccept⟩
  · rw [beq_eq_false_iff_ne] at hkind
    obtain ⟨s₂, hexpect⟩ := expectBody_other hkind name _
    exact ⟨s₂, bind_of_error hexpect⟩
  · rw [beq_iff_eq] at hkind
    rw [bind_of_ok (expectBody_of_body hkind _)]
    obtain ⟨s₂, hlower⟩ := hinner hready₁ haccept
    exact ⟨s₂, bind_of_error (discard_of_error hlower)⟩

def RefusedAll (items : List Tree) : Prop :=
  ∀ {names : Names} {s : Logged Compiler} {b : BlockId} {anchor : ValueId} {e : Error}
    (last : Option Lowered), Ready names s b → Tree.acceptAll names items = .error e →
    s.state.draft.code.operation? anchor = some .slot →
    ∃ s', lowerItems anchor last items s = .error (.error e) s'

theorem cons_refused {item : Tree} {rest : List Tree} (hitem : Refused item)
    (hrest : RefusedAll rest) : RefusedAll (item :: rest) := by
  intro names s b anchor e last h haccept hanchor
  rw [lowerItems]
  rw [Tree.acceptAll, bind_error_iff] at haccept
  rcases haccept with haccept | ⟨names₁, haccept₁, haccept₂⟩
  · obtain ⟨s₁, hlower₁⟩ := hitem h haccept
    exact ⟨s₁, bind_of_error hlower₁⟩
  obtain ⟨l, s₁, s₂, vs, hlower₁, hanchored, hlowers₁, -, -⟩ :=
    item_accepted (lower_accepted item) h haccept₁ hanchor
  rw [bind_of_ok hlower₁, bind_of_ok hanchored]
  exact hrest (some l) hlowers₁.ready haccept₂ (hlowers₁.written.extended.operation hanchor)

theorem body_refused {items : List Tree} (hitems : RefusedAll items) : Refused (.body items) := by
  intro names s b e h haccept
  rw [Tree.accept] at haccept
  have hstart := h.announced (.body items)
  obtain ⟨block, hb⟩ := hstart.block
  obtain ⟨s₁, hslot, hlowers₁, hanchor⟩ := hstart.appended (Draft.slot_emits "anchor")
    (Draft.slot_eq hstart.cursor hb "anchor")
  obtain ⟨s₂, hlower₂⟩ := hitems none hlowers₁.ready haccept hanchor
  rw [lower_body, bind_of_ok hslot]
  exact ⟨s₂, bind_of_error (discard_of_error hlower₂)⟩

mutual

theorem lower_refused : ∀ t, Refused t
  | .number _ => fun _ haccept => by cases haccept
  | .binary _ left right => binary_refused (lower_refused left) (lower_refused right)
  | .assign _ value => assign_refused (lower_refused value)
  | .body items => body_refused (lowerItems_refused items)
  | .procedure _ inner => procedure_refused (lower_refused inner)
  | .call name => call_refused name
  | .program items => fun _ haccept => by
      cases haccept
      rw [lower]
      exact ⟨_, rfl⟩

theorem lowerItems_refused : ∀ items, RefusedAll items
  | [] => fun _ _ haccept _ => by cases haccept
  | item :: rest => cons_refused (lower_refused item) (lowerItems_refused rest)

end

end Compiler

end Niladic
