import Niladic.Proofs.Checking

namespace Niladic

namespace Tree

def leaves : Tree → LoweredKind
  | .number _ | .binary .. => .value
  | .assign .. => .global
  | .procedure .. => .function
  | .call _ => .call
  | .body _ | .program _ => .void

mutual

def definitions : Tree → List (String × Tree)
  | .number _ | .call _ => []
  | .binary _ left right => left.definitions ++ right.definitions
  | .assign _ value => value.definitions
  | .body items | .program items => definitionsAll items
  | .procedure name inner => (name, inner) :: inner.definitions

def definitionsAll : List Tree → List (String × Tree)
  | [] => []
  | item :: rest => item.definitions ++ definitionsAll rest

end

mutual

def assigned : Tree → List String
  | .number _ | .call _ => []
  | .binary _ left right => left.assigned ++ right.assigned
  | .assign name value => name :: value.assigned
  | .body items | .program items => assignedAll items
  | .procedure _ inner => inner.assigned

def assignedAll : List Tree → List String
  | [] => []
  | item :: rest => item.assigned ++ assignedAll rest

end

end Tree

namespace Code

mutual

inductive Performs (code : Code) : Tree → Lowered → List ValueId → Prop
  | number {x v} (hv : code.operation? v = some (.const x)) :
      Performs code (.number x) (.value v) []
  | binary {op left right x y z vs ws} (hleft : Performs code left (.value x) vs)
      (hright : Performs code right (.value y) ws)
      (hz : code.operation? z = some (.arith op x y)) :
      Performs code (.binary op left right) (.value z) (vs ++ (ws ++ [z]))
  | assign {name value x g global p z vs} (hvalue : Performs code value (.value x) vs)
      (hglobal : code.global? g = some global) (hname : global.name = name)
      (hp : code.operation? p = some (.address g))
      (hz : code.operation? z = some (.store x p)) :
      Performs code (.assign name value) (.global g) (vs ++ [z])
  | body {items anchor vs} (hanchor : code.operation? anchor = some .slot)
      (hitems : PerformsAll code anchor items vs) : Performs code (.body items) .void (anchor :: vs)
  | procedure {name inner f} : Performs code (.procedure name inner) (.function f) []
  | call {name f function v} (hf : code.func? f = some function) (hname : function.name = name)
      (hv : code.operation? v = some (.call f)) : Performs code (.call name) (.call v) [v]

inductive PerformsAll (code : Code) : ValueId → List Tree → List ValueId → Prop
  | nil {anchor} : PerformsAll code anchor [] []
  | number {anchor item rest x z vs ws} (hnumeric : item.isNumeric = true)
      (hitem : Performs code item (.value x) vs) (hz : code.operation? z = some (.store x anchor))
      (hrest : PerformsAll code anchor rest ws) :
      PerformsAll code anchor (item :: rest) (vs ++ z :: ws)
  | other {anchor item rest l vs ws} (hnumeric : item.isNumeric = false)
      (hitem : Performs code item l vs) (hrest : PerformsAll code anchor rest ws) :
      PerformsAll code anchor (item :: rest) (vs ++ ws)

end

variable {code code' code'' : Code}

mutual

theorem Performs.mono (hcode : Extends code code') {l : Lowered} {vs : List ValueId} :
    ∀ {t : Tree}, Performs code t l vs → Performs code' t l vs
  | _, .number hv => .number (hcode.operation hv)
  | _, .binary hleft hright hz =>
      .binary (hleft.mono hcode) (hright.mono hcode) (hcode.operation hz)
  | _, .assign hvalue hglobal hname hp hz =>
      .assign (hvalue.mono hcode) (hcode.global hglobal) hname (hcode.operation hp)
        (hcode.operation hz)
  | _, .body hanchor hitems => .body (hcode.operation hanchor) (hitems.mono hcode)
  | _, .procedure => .procedure
  | _, .call hf hname hv => by
      obtain ⟨function', hf', hname', -⟩ := hcode.func hf
      exact .call hf' (hname'.trans hname) (hcode.operation hv)

theorem PerformsAll.mono (hcode : Extends code code') {anchor : ValueId} {vs : List ValueId} :
    ∀ {items : List Tree}, PerformsAll code anchor items vs → PerformsAll code' anchor items vs
  | _, .nil => .nil
  | _, .number hnumeric hitem hz hrest =>
      .number hnumeric (hitem.mono hcode) (hcode.operation hz) (hrest.mono hcode)
  | _, .other hnumeric hitem hrest => .other hnumeric (hitem.mono hcode) (hrest.mono hcode)

end

def Uses (code : Code) (known vs : List ValueId) : Prop :=
  ∀ v ∈ vs, ∃ op, code.operation? v = some op ∧ op.isTerminator = false ∧
    ∀ u ∈ op.operands, code.Loose u ∨ u ∈ known

theorem Uses.mono {known known' vs : List ValueId} (h : code.Uses known vs)
    (hknown : known ⊆ known') : code.Uses known' vs := by
  intro v hv
  obtain ⟨op, hop, hterminator, hoperands⟩ := h v hv
  exact ⟨op, hop, hterminator, fun u hu => (hoperands u hu).imp_right fun hu => hknown hu⟩

theorem Uses.append {known vs ws : List ValueId} (hvs : code.Uses known vs)
    (hws : code.Uses known ws) : code.Uses known (vs ++ ws) := by
  intro v hv
  rcases List.mem_append.mp hv with hv | hv
  · exact hvs v hv
  · exact hws v hv

theorem uses_singleton {known : List ValueId} {v : ValueId} {op : Operation}
    (hv : code.operation? v = some op) (hterminator : op.isTerminator = false)
    (hoperands : ∀ u ∈ op.operands, code.Loose u ∨ u ∈ known) : code.Uses known [v] := by
  intro w hw
  rw [List.mem_singleton] at hw
  subst hw
  exact ⟨op, hv, hterminator, hoperands⟩

theorem Performs.value_cases {x : ValueId} {vs : List ValueId} {t : Tree}
    (h : Performs code t (.value x) vs) : code.Loose x ∨ x ∈ vs := by
  cases h with
  | number hv => exact .inl (.inl ⟨_, hv⟩)
  | binary hleft hright hz => exact .inr (by simp)

theorem uses_pair {known : List ValueId} {v x y : ValueId} {op : Operation}
    (hv : code.operation? v = some op) (hterminator : op.isTerminator = false)
    (hoperands : op.operands = [x, y]) (hx : code.Loose x ∨ x ∈ known)
    (hy : code.Loose y ∨ y ∈ known) : code.Uses known [v] := by
  refine uses_singleton hv hterminator fun u hu => ?_
  rw [hoperands] at hu
  rcases List.mem_pair.mp hu with rfl | rfl
  · exact hx
  · exact hy

mutual

theorem Performs.uses {l : Lowered} {vs : List ValueId} :
    ∀ {t : Tree}, Performs code t l vs → code.Uses vs vs
  | .number x, h => by
      cases h
      exact fun v hv => absurd hv List.not_mem_nil
  | .binary op left right, h => by
      cases h with
      | @binary _ _ _ x y z vs ws hleft hright hz =>
          refine (hleft.uses.mono (by simp)).append ((hright.uses.mono (by simp)).append
            (uses_pair hz rfl rfl ?_ ?_))
          · exact hleft.value_cases.imp_right fun hx => by simp [hx]
          · exact hright.value_cases.imp_right fun hy => by simp [hy]
  | .assign name value, h => by
      cases h with
      | @assign _ _ x g global p z vs hvalue hglobal hname hp hz =>
          refine (hvalue.uses.mono (by simp)).append
            (uses_pair hz rfl rfl ?_ ?_)
          · exact hvalue.value_cases.imp_right fun hx => by simp [hx]
          · exact .inl (.inr ⟨g, global, hp, hglobal⟩)
  | .body items, h => by
      cases h with
      | body hanchor hitems =>
          exact (uses_singleton hanchor rfl fun u hu => absurd hu List.not_mem_nil).append hitems.uses
  | .procedure name inner, h => by
      cases h
      exact fun v hv => absurd hv List.not_mem_nil
  | .call name, h => by
      cases h with
      | call hf hname hv => exact uses_singleton hv rfl fun u hu => absurd hu List.not_mem_nil
  | .program items, h => by cases h

theorem PerformsAll.uses {anchor : ValueId} {vs : List ValueId} :
    ∀ {items : List Tree}, PerformsAll code anchor items vs → code.Uses (anchor :: vs) vs
  | [], h => by
      cases h
      exact fun v hv => absurd hv List.not_mem_nil
  | item :: rest, h => by
      cases h with
      | @number _ _ _ x z vs ws hnumeric hitem hz hrest =>
          refine (hitem.uses.mono ?_).append
            ((uses_pair hz rfl rfl ?_ ?_).append (hrest.uses.mono ?_))
          · exact fun v hv => by simp [hv]
          · exact hitem.value_cases.imp_right fun hx => by simp [hx]
          · exact .inr (by simp)
          · intro v hv
            rcases List.mem_cons.mp hv with rfl | hv
            · simp
            · simp [hv]
      | @other _ _ _ l vs ws hnumeric hitem hrest =>
          refine (hitem.uses.mono ?_).append (hrest.uses.mono ?_)
          · exact fun v hv => by simp [hv]
          · intro v hv
            rcases List.mem_cons.mp hv with rfl | hv
            · simp
            · simp [hv]

end

theorem Performs.kind {l : Lowered} {vs : List ValueId} {t : Tree} (h : Performs code t l vs) :
    l.kind = t.leaves := by
  cases h <;> rfl

theorem Performs.value_of_numeric {l : Lowered} {vs : List ValueId} {t : Tree}
    (h : Performs code t l vs) (ht : t.isNumeric = true) : ∃ x, l = .value x := by
  cases h with
  | number | binary => exact ⟨_, rfl⟩
  | assign | body | procedure | call => cases ht

theorem Performs.isNumber {x : ValueId} {vs : List ValueId} {t : Tree}
    (h : Performs code t (.value x) vs) : code.IsNumber x := by
  cases h with
  | number hv => simp [IsNumber, isNumeric?, hv]
  | binary _ _ hz => simp [IsNumber, isNumeric?, hz]

theorem Ordered.closed (h : code.Ordered) {b : BlockId} {block : Block} {vs : List ValueId}
    {last : ValueId} {op : Operation} (hb : code.block? b = some block)
    (hbody : block.body.toList = vs ++ [last]) (hvs : code.Uses (vs ++ [last]) vs)
    (hlast : code.operation? last = some op) (hterminator : op.isTerminator = true)
    (hoperands : ∀ u ∈ op.operands, code.Loose u ∨ u ∈ vs ++ [last]) :
    code.Closed block.owner block.body.toList := by
  have hlocal {u : ValueId} (hu : code.Loose u ∨ u ∈ vs ++ [last]) : code.Local block.owner u := by
    rcases hu with hloose | hmem
    · exact h.local_of_loose hloose
    · exact h.local_of_mem hb (hbody ▸ hmem)
  constructor
  · refine ⟨vs, last, hbody, ⟨op, hlast, hterminator⟩, fun v hv => ?_⟩
    obtain ⟨op', hop', hnot, -⟩ := hvs v hv
    exact ⟨op', hop', hnot⟩
  · intro v hv op' hop' u hu
    rw [hbody, List.mem_append, List.mem_singleton] at hv
    rcases hv with hv | rfl
    · obtain ⟨op'', hop'', -, hoperands'⟩ := hvs v hv
      rw [hop'] at hop''
      cases hop''
      exact hlocal (hoperands' u hu)
    · rw [hlast] at hop'
      cases hop'
      exact hlocal (hoperands u hu)

inductive Procedure (code : Code) (name : String) (inner : Tree) (b : BlockId) : Prop
  | intro {function : Func} {block : Block} {vs : List ValueId} {last : ValueId}
      (hf : code.func? ⟨b.index⟩ = some function) (hname : function.name = name)
      (hb : code.block? b = some block) (hbody : block.body.toList = vs ++ [last])
      (hinner : Performs code inner .void vs) (hlast : code.operation? last = some (.ret none))

theorem Procedure.mono {name : String} {inner : Tree} {b : BlockId} (h : Procedure code name inner b)
    (hcode : Extends code code')
    (hblock : ∀ {block}, code.block? b = some block → code'.block? b = some block) :
    Procedure code' name inner b := by
  cases h with
  | intro hf hname hb hbody hinner hlast =>
      obtain ⟨function', hf', hname', -⟩ := hcode.func hf
      exact .intro hf' (hname'.trans hname) (hblock hb) hbody (hinner.mono hcode)
        (hcode.operation hlast)

/-- `code'` has the instructions `vs` more at the end of block `b`, and blocks for the procedures
`defs`. All other blocks are as they were. -/
structure Written (code code' : Code) (b : BlockId) (vs : List ValueId)
    (defs : List (String × Tree)) : Prop where
  extended : Extends code code'
  body : ∀ {block}, code.block? b = some block → ∃ block', code'.block? b = some block' ∧
    block'.body.toList = block.body.toList ++ vs
  others : ∀ {b' block}, b' ≠ b → code.block? b' = some block → code'.block? b' = some block
  defined : ∀ d ∈ defs, ∃ b', code.blocks.size ≤ b'.index ∧ Procedure code' d.1 d.2 b'
  added : ∀ b' : BlockId, code.blocks.size ≤ b'.index → b'.index < code'.blocks.size →
    ∃ d ∈ defs, Procedure code' d.1 d.2 b'

theorem Extends.blocks_le (h : Extends code code') : code.blocks.size ≤ code'.blocks.size := by
  by_contra hlt
  have hsome : code.block? ⟨code'.blocks.size⟩ = some _ :=
    Array.getElem?_eq_getElem (Nat.not_le.mp hlt)
  obtain ⟨block', hb', -⟩ := h.block hsome
  exact absurd (block_lt hb') (Nat.lt_irrefl _)

namespace Written

variable {b : BlockId} {vs ws : List ValueId} {defs defs' : List (String × Tree)}

theorem of_blocks (hcode : Extends code code') (hblocks : code'.blocks = code.blocks) :
    Written code code' b [] [] where
  extended := hcode
  body hb := by
    rw [block?, hblocks]
    exact ⟨_, hb, by simp⟩
  others _ hb := by
    rw [block?, hblocks]
    exact hb
  defined _ hd := absurd hd List.not_mem_nil
  added b' hle hlt := by
    rw [hblocks] at hlt
    omega

theorem instruction (b : BlockId) (name : String) (op : Operation) :
    Written code (code.withInstruction b name op) b [⟨code.values.size⟩] [] where
  extended := extends_withInstruction ..
  body hb' := ⟨_, block?_withInstruction_self hb' name op, by simp⟩
  others hne hb' := by
    rw [block?_withInstruction_of_ne hne]
    exact hb'
  defined _ hd := absurd hd List.not_mem_nil
  added b' hle hlt := by
    simp only [withInstruction, Array.size_modify] at hlt
    omega

theorem keeps (h : Written code code' b vs defs) {name : String} {inner : Tree} {b' : BlockId}
    (hne : b' ≠ b) (hp : Procedure code name inner b') : Procedure code' name inner b' :=
  hp.mono h.extended (h.others hne)

theorem trans (h : Written code code' b vs defs) (h' : Written code' code'' b ws defs')
    (hb : b.index < code.blocks.size) : Written code code'' b (vs ++ ws) (defs ++ defs') where
  extended := h.extended.trans h'.extended
  body hblock := by
    obtain ⟨block', hb', hbody⟩ := h.body hblock
    obtain ⟨block'', hb'', hbody'⟩ := h'.body hb'
    exact ⟨block'', hb'', by rw [hbody', hbody, List.append_assoc]⟩
  others hne hblock := h'.others hne (h.others hne hblock)
  defined d hd := by
    rcases List.mem_append.mp hd with hd | hd
    · obtain ⟨b', hle, hp⟩ := h.defined d hd
      refine ⟨b', hle, h'.keeps ?_ hp⟩
      rintro rfl
      omega
    · obtain ⟨b', hle, hp⟩ := h'.defined d hd
      exact ⟨b', Nat.le_trans h.extended.blocks_le hle, hp⟩
  added b' hle hlt := by
    by_cases hold : b'.index < code'.blocks.size
    · obtain ⟨d, hd, hp⟩ := h.added b' hle hold
      refine ⟨d, List.mem_append_left _ hd, h'.keeps ?_ hp⟩
      rintro rfl
      omega
    · obtain ⟨d, hd, hp⟩ := h'.added b' (Nat.not_lt.mp hold) hlt
      exact ⟨d, List.mem_append_right _ hd, hp⟩

theorem procedure {name : String} {inner : Tree} {last : ValueId}
    (hpaired : code.blocks.size = code.functions.size)
    (h : Written (code.withProcedure name .void) code' ⟨code.blocks.size⟩ (vs ++ [last]) defs)
    (hinner : Performs code' inner .void vs) (hlast : code'.operation? last = some (.ret none)) :
    Written code code' b [] ((name, inner) :: defs) := by
  have hsize : (code.withProcedure name .void).blocks.size = code.blocks.size + 1 := by
    simp [withProcedure, withBlock, withFunction]
  have hself : Procedure code' name inner ⟨code.blocks.size⟩ := by
    have hf : (code.withProcedure name .void).func? ⟨code.blocks.size⟩ =
        some ⟨name, .void, #[⟨code.blocks.size⟩]⟩ := by
      rw [func?_withProcedure, if_pos hpaired]
    have hnew : (code.withProcedure name .void).block? ⟨code.blocks.size⟩ =
        some ⟨"entry", ⟨code.functions.size⟩, #[]⟩ := by
      rw [block?_withProcedure, if_pos rfl]
    obtain ⟨function', hf', hname, -⟩ := h.extended.func hf
    obtain ⟨block', hb', hbody⟩ := h.body hnew
    exact .intro hf' hname hb' (by simpa using hbody) hinner hlast
  have hothers {b' : BlockId} {block : Block} (hb' : code.block? b' = some block) :
      code'.block? b' = some block := by
    have hlt := block_lt hb'
    refine h.others ?_ ?_
    · rintro rfl
      exact absurd hlt (Nat.lt_irrefl _)
    · rw [block?_withProcedure, if_neg (Nat.ne_of_lt hlt)]
      exact hb'
  refine ⟨(extends_withProcedure ..).trans h.extended, fun hblock => ⟨_, hothers hblock, by simp⟩,
    fun _ hblock => hothers hblock, fun d hd => ?_, fun b' hle hlt => ?_⟩
  · rcases List.mem_cons.mp hd with rfl | hd
    · exact ⟨_, Nat.le_refl _, hself⟩
    · obtain ⟨b', hle, hp⟩ := h.defined d hd
      exact ⟨b', by omega, hp⟩
  · by_cases hnew : b'.index = code.blocks.size
    · obtain ⟨i⟩ := b'
      subst hnew
      exact ⟨(name, inner), List.mem_cons_self, hself⟩
    · obtain ⟨d, hd, hp⟩ := h.added b' (by omega) hlt
      exact ⟨d, List.mem_cons_of_mem _ hd, hp⟩

end Written

end Code

end Niladic
