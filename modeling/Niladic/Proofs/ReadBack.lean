import Mathlib.Data.List.Forall2
import Niladic.Proofs.Freezing
import Niladic.Proofs.Grammar
import Niladic.Proofs.Lowering

namespace Niladic

namespace Tree

def nodes : Tree → List Tree
  | .binary op left right => left.nodes ++ (right.nodes ++ [.binary op left right])
  | t => [t]

def isBinary : Tree → Bool
  | .binary .. => true
  | _ => false

def operatorsFrom (n : Nat) (nodes : List Tree) : List ValueId :=
  ((nodes.zipIdx n).filter fun entry => entry.1.isBinary).map fun entry => ⟨entry.2⟩

theorem operatorsFrom_append (n : Nat) (nodes nodes' : List Tree) :
    operatorsFrom n (nodes ++ nodes') =
      operatorsFrom n nodes ++ operatorsFrom (n + nodes.length) nodes' := by
  simp [operatorsFrom, List.zipIdx_append]

end Tree

namespace Code

open Niladic.Tree

variable {code code' code'' : Code} {b : BlockId} {v : ValueId} {e : Tree}

def expression? (code : Code) (v : ValueId) : Option Tree :=
  match code.operation? v with
  | some (.const x) => some (.number x)
  | some (.arith op left right) =>
      if _ : left.index < v.index ∧ right.index < v.index then do
        let l ← code.expression? left
        let r ← code.expression? right
        return .binary op l r
      else none
  | _ => none
termination_by v.index
decreasing_by all_goals omega

theorem expression?_of_const {x : Float} (h : code.operation? v = some (.const x)) :
    code.expression? v = some (.number x) := by
  rw [expression?, h]

theorem expression?_of_arith {op : Operator} {left right : ValueId} {l r : Tree}
    (h : code.operation? v = some (.arith op left right)) (hleft : left.index < v.index)
    (hright : right.index < v.index) (hl : code.expression? left = some l)
    (hr : code.expression? right = some r) : code.expression? v = some (.binary op l r) := by
  rw [expression?, h]
  simp [hleft, hright, hl, hr]

inductive Reads (code : Code) : ValueId → Tree → Prop
  | const {v : ValueId} {x : Float} (h : code.operation? v = some (.const x)) :
      Reads code v (.number x)
  | arith {v left right : ValueId} {op : Operator} {l r : Tree}
      (h : code.operation? v = some (.arith op left right)) (hleft : left.index < v.index)
      (hright : right.index < v.index) (hl : Reads code left l) (hr : Reads code right r) :
      Reads code v (.binary op l r)

theorem expression?_eq_some_iff : code.expression? v = some e ↔ code.Reads v e := by
  constructor
  · fun_induction expression? code v generalizing e with
    | case1 v x hop =>
        intro h
        cases h
        exact .const hop
    | case2 v op left right hop hlt ihl ihr =>
        intro h
        obtain ⟨l, hl, h⟩ := Option.bind_eq_some_iff.mp h
        obtain ⟨r, hr, h⟩ := Option.bind_eq_some_iff.mp h
        cases h
        exact .arith hop hlt.1 hlt.2 (ihl hl) (ihr hr)
    | case3 v op left right hop hlt =>
        intro h
        cases h
    | case4 v _ _ =>
        intro h
        cases h
  · intro h
    induction h with
    | const h => exact expression?_of_const h
    | arith h hleft hright _ _ ihl ihr => exact expression?_of_arith h hleft hright ihl ihr

theorem Reads.mono (h : code.Reads v e) (hcode : code.Extends code') : code'.Reads v e := by
  induction h with
  | const h => exact .const (hcode.operation h)
  | arith h hleft hright _ _ ihl ihr => exact .arith (hcode.operation h) hleft hright ihl ihr

theorem Extends.expression (hcode : code.Extends code') (h : code.expression? v = some e) :
    code'.expression? v = some e :=
  expression?_eq_some_iff.mpr ((expression?_eq_some_iff.mp h).mono hcode)

theorem isNumber_of_expression? (h : code.expression? v = some e) : code.IsNumber v := by
  unfold IsNumber isNumeric?
  cases expression?_eq_some_iff.mp h with
  | const hop => rw [hop]
  | arith hop => rw [hop]

theorem index_lt_of_expression? (h : code.expression? v = some e) :
    v.index < code.values.size := by
  obtain ⟨value, hvalue⟩ := value_of_isNumber (isNumber_of_expression? h)
  exact value_lt hvalue

def StandsFor (b : BlockId) (value : Value) : Tree → Prop
  | .number x => value.operation = .const x ∧ value.block = none
  | .binary op _ _ => (∃ left right, value.operation = .arith op left right) ∧ value.block = some b
  | _ => False

/-- Nodes were laid down one by one: each has a value of its own that reads back as the node, the
operators were appended to the block, and nothing else was done. -/
structure Lays (b : BlockId) (nodes : List Tree) (code code' : Code) : Prop where
  name : code'.name = code.name
  functions : code'.functions = code.functions
  globals : code'.globals = code.globals
  values : ∃ added, code'.values.toList = code.values.toList ++ added ∧
    List.Forall₂ (StandsFor b) added nodes
  blocks : ∀ b', code'.block? b' =
    if b' = b then (code.block? b).map fun block =>
      { block with body := block.body ++ (operatorsFrom code.values.size nodes).toArray }
    else code.block? b'
  reads : ∀ {i node}, nodes[i]? = some node →
    code'.expression? ⟨code.values.size + i⟩ = some node

namespace Lays

variable {nodes nodes' : List Tree}

theorem size (h : Lays b nodes code code') :
    code'.values.size = code.values.size + nodes.length := by
  obtain ⟨added, hvalues, hadded⟩ := h.values
  have hlength := congrArg List.length hvalues
  rw [List.length_append, hadded.length_eq] at hlength
  simpa using hlength

theorem block (h : Lays b nodes code code') {block : Block} (hb : code.block? b = some block) :
    code'.block? b = some
      { block with body := block.body ++ (operatorsFrom code.values.size nodes).toArray } := by
  rw [h.blocks, if_pos rfl, hb]
  rfl

theorem grown (h : Lays b nodes code code') : code.Extends code' where
  func {f function} hf := by
    refine ⟨function, ?_, rfl, rfl, List.prefix_rfl⟩
    rw [func?, h.functions]
    exact hf
  block {b' block} hb := by
    rw [h.blocks]
    split
    next heq =>
      subst heq
      rw [hb]
      exact ⟨_, rfl, rfl, rfl, by simp⟩
    next => exact ⟨block, hb, rfl, rfl, List.prefix_rfl⟩
  value {v value} hv := by
    obtain ⟨added, hvalues, -⟩ := h.values
    have hlt := value_lt hv
    rw [value?, ← Array.getElem?_toList] at hv ⊢
    rw [hvalues, List.getElem?_append_left (by simpa using hlt)]
    exact hv
  global {g global} hg := by
    rw [global?, h.globals]
    exact hg

theorem append (h : Lays b nodes code code') (h' : Lays b nodes' code' code'') :
    Lays b (nodes ++ nodes') code code'' where
  name := h'.name.trans h.name
  functions := h'.functions.trans h.functions
  globals := h'.globals.trans h.globals
  values := by
    obtain ⟨added, hvalues, hadded⟩ := h.values
    obtain ⟨added', hvalues', hadded'⟩ := h'.values
    refine ⟨added ++ added', ?_, List.rel_append hadded hadded'⟩
    rw [hvalues', hvalues, List.append_assoc]
  blocks b' := by
    rw [h'.blocks, h.blocks, h.blocks, h.size, operatorsFrom_append]
    split
    · rw [if_pos rfl, Option.map_map]
      congr 1
      funext block
      simp
    · rfl
  reads {i node} hi := by
    rcases Nat.lt_or_ge i nodes.length with hlt | hge
    · rw [List.getElem?_append_left hlt] at hi
      exact h'.grown.expression (h.reads hi)
    · rw [List.getElem?_append_right hge] at hi
      have hreads := h'.reads hi
      rwa [h.size, Nat.add_assoc, Nat.add_sub_cancel' hge] at hreads

end Lays

theorem lays_of_one {node : Tree} {value : Value} (hname : code'.name = code.name)
    (hfunctions : code'.functions = code.functions) (hglobals : code'.globals = code.globals)
    (hvalues : code'.values = code.values.push value) (hvalue : StandsFor b value node)
    (hblocks : ∀ b', code'.block? b' =
      if b' = b then (code.block? b).map fun block =>
        { block with body := block.body ++ (operatorsFrom code.values.size [node]).toArray }
      else code.block? b')
    (hreads : code'.expression? ⟨code.values.size⟩ = some node) : Lays b [node] code code' where
  name := hname
  functions := hfunctions
  globals := hglobals
  values := ⟨[value], by simp [hvalues], .cons hvalue .nil⟩
  blocks := hblocks
  reads {i node'} hi := by
    rw [List.getElem?_singleton] at hi
    split at hi
    next hzero =>
      cases hi
      rw [hzero]
      exact hreads
    next => cases hi

theorem lays_withConst (b : BlockId) (x : Float) : Lays b [.number x] code (code.withConst x) := by
  refine lays_of_one rfl rfl rfl rfl ⟨rfl, rfl⟩ (fun b' => ?_)
    (expression?_of_const (operation?_withConst_self x))
  have hnone : (operatorsFrom code.values.size [.number x]).toArray = #[] := rfl
  simp only [hnone, Array.append_empty]
  split
  next heq =>
    rw [heq]
    change code.block? b = _
    cases code.block? b <;> rfl
  next => rfl

theorem lays_withInstruction (op : Operator) {left right : ValueId} {l r : Tree}
    (hl : code.expression? left = some l) (hr : code.expression? right = some r) (b : BlockId)
    (name : String) :
    Lays b [.binary op l r] code (code.withInstruction b name (.arith op left right)) := by
  have hgrown := extends_withInstruction code b name (.arith op left right)
  refine lays_of_one rfl rfl rfl rfl ⟨⟨left, right, rfl⟩, rfl⟩ (fun b' => ?_) ?_
  · rw [block?_withInstruction]
    rfl
  · exact expression?_of_arith (operation?_withInstruction_self ..) (index_lt_of_expression? hl)
      (index_lt_of_expression? hr) (hgrown.expression hl) (hgrown.expression hr)

end Code

namespace Compiler

open Niladic.Action Code

variable {s s' : Logged Compiler}

theorem lower_expression {e : Tree} (he : e.IsExpression) {b : BlockId} {block : Block}
    (hcursor : s.state.draft.cursor = some b) (hblock : s.state.draft.code.block? b = some block) :
    ∃ v s', lower e s = .ok (.value v) s' ∧ s'.state.draft.cursor = some b ∧
      s.state.draft.code.Lays b e.nodes s'.state.draft.code ∧
      s'.state.draft.code.expression? v = some e := by
  induction he generalizing s block with
  | number x =>
      have hconst := Draft.const_eq (d := (announced (.number x) s).state.draft) x
      refine ⟨⟨s.state.draft.code.values.size⟩, { announced (.number x) s with
        state.draft.code := s.state.draft.code.withConst x }, ?_, hcursor, lays_withConst b x,
        expression?_of_const (operation?_withConst_self x)⟩
      rw [lower_number, bind_of_ok (drafting_of_ok hconst)]
      rfl
  | @binary op left right _ _ ihl ihr =>
      obtain ⟨x, s₁, hlower₁, hcursor₁, hlays₁, hx⟩ :=
        ihl (s := announced (.binary op left right) s) hcursor hblock
      obtain ⟨y, s₂, hlower₂, hcursor₂, hlays₂, hy⟩ := ihr hcursor₁ (hlays₁.block hblock)
      -- The left operand was read before the right one was laid down, and is used after it.
      have hx := hlays₂.grown.expression hx
      have hblock₂ := hlays₂.block (hlays₁.block hblock)
      have harith := Draft.arith_eq hcursor₂ hblock₂ (isNumber_of_expression? hx)
        (isNumber_of_expression? hy) op
      have hlower : lower (.binary op left right) s = .ok (.value ⟨s₂.state.draft.code.values.size⟩)
          { s₂ with
            state.draft := s₂.state.draft.appended b block.owner op.resultName
              (.arith op x y) } := by
        rw [lower_binary, bind_of_ok hlower₁, bind_of_ok (expectOperand_value op x s₁),
          bind_of_ok hlower₂, bind_of_ok (expectOperand_value op y s₂),
          bind_of_ok (drafting_of_ok harith)]
        rfl
      have hlays₃ := lays_withInstruction op hx hy b
      exact ⟨_, _, hlower, hcursor₂, hlays₁.append (hlays₂.append (hlays₃ _)),
        (hlays₃ _).reads (i := 0) rfl⟩

theorem lowered_expressions_read_back {config : Config} {root : Option Tree} {name : String}
    {depth : Nat} {log : Log} {e : Tree} {b : BlockId} {block : Block}
    (hbefore : Reaches ⟨log, fresh config root name depth⟩ s)
    (hcursor : s.state.draft.cursor = some b) (hblock : s.state.draft.code.block? b = some block)
    (he : e.IsExpression) :
    ∃ v s', lower e s = .ok (.value v) s' ∧
      s.state.draft.code.Lays b e.nodes s'.state.draft.code ∧
      ∀ s'', Reaches s' s'' → s''.state.draft.code.expression? v = some e := by
  obtain ⟨v, s', hlower, -, hlays, hread⟩ := lower_expression he hcursor hblock
  refine ⟨v, s', hlower, hlays, fun s'' hafter => ?_⟩
  have hcoherent := (hbefore.advances (fresh_coherent ..)).coherent
  have hcoherent' := ((lower_advances e).of_ok hlower hcoherent).coherent
  exact (hafter.advances hcoherent').code.expression hread

def quotient : Tree :=
  .binary .div (.binary .add (.number 1.0) (.number 1.0)) (.binary .add (.number 1.0) (.number 1.0))

theorem lowered_quotient_reads_back :
    ∃ s v s', Command.runAll [.enter, .lower (.binary .mul
        (.binary .sub (.number 2.0) (.number 1.0)) (.call "p"))] ⟨#[], fresh {} none "m" 3⟩ =
          .ok () s ∧
      lower quotient s = .ok (.value v) s' ∧
      s.state.draft.code.Lays ⟨0⟩ quotient.nodes s'.state.draft.code ∧
      ∀ s'', Reaches s' s'' → s''.state.draft.code.expression? v = some quotient := by
  have houtcome : Action.outcome (do
      Command.runAll [.enter, .lower (.binary .mul (.binary .sub (.number 2.0) (.number 1.0))
        (.call "p"))]
      return (← cursor, (← code).block? ⟨0⟩)) ⟨#[], fresh {} none "m" 3⟩ =
        .ok (some ⟨0⟩, some ⟨"entry", ⟨0⟩, #[⟨0⟩, ⟨3⟩]⟩) := by
    decide +kernel
  obtain ⟨t, h⟩ := of_outcome_ok houtcome
  obtain ⟨_, s, hrun, h⟩ := bind_eq_ok h
  rw [bind_of_ok (cursor_apply s), bind_of_ok (code_apply s), pure_apply] at h
  injection h with hpair
  obtain ⟨hcursor, hblock⟩ := Prod.mk.inj hpair
  have hsum : Tree.IsExpression (.binary .add (.number 1.0) (.number 1.0)) :=
    .binary .add (.number 1.0) (.number 1.0)
  obtain ⟨v, s', hlowered⟩ := lowered_expressions_read_back (Reaches.start.runAll hrun) hcursor
    hblock (.binary .div hsum hsum)
  exact ⟨s, v, s', hrun, hlowered⟩

end Compiler

end Niladic
