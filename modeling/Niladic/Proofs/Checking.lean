import Niladic.Proofs.Coherence

namespace Niladic.Code

theorem checked_ok_iff {α : Type} {o : Option α} {a : α} : checked o = .ok a ↔ o = some a := by
  cases o <;> simp [checked]

theorem forM_ok_iff {α : Type} {xs : List α} {g : α → Check Unit} :
    xs.forM g = .ok () ↔ ∀ x ∈ xs, g x = .ok () := by
  induction xs with
  | nil => simp [List.forM, pure, Except.pure]
  | cons x xs ih =>
      change (g x >>= fun _ => xs.forM g) = .ok () ↔ _
      rw [seq_ok_iff, List.forall_mem_cons, ih]

variable {code : Code} {f : FuncId} {function : Func} {v : ValueId}

def Local (code : Code) (f : FuncId) (v : ValueId) : Prop :=
  code.owner? v = some none ∨ code.owner? v = some (some f)

def Loose (code : Code) (u : ValueId) : Prop :=
  (∃ x, code.operation? u = some (.const x)) ∨
    ∃ g global, code.operation? u = some (.address g) ∧ code.global? g = some global

theorem Ordered.local_of_loose (h : code.Ordered) (hv : code.Loose v) : code.Local f v := by
  have hblock {value : Value} (hvalue : code.value? v = some value) : value.block = none := by
    cases hb : value.block with
    | none => rfl
    | some b =>
        obtain ⟨block, -, -, hadmits, -⟩ := h.listed hvalue hb
        have hop := operation_of_value hvalue
        rcases hv with ⟨x, hx⟩ | ⟨g, global, hg, -⟩
        · rw [hx] at hop
          rw [← Option.some.inj hop] at hadmits
          exact hadmits.elim
        · rw [hg] at hop
          rw [← Option.some.inj hop] at hadmits
          exact hadmits.elim
  obtain ⟨op, hop⟩ : ∃ op, code.operation? v = some op := by
    rcases hv with ⟨x, hx⟩ | ⟨g, global, hg, -⟩
    · exact ⟨_, hx⟩
    · exact ⟨_, hg⟩
  obtain ⟨value, hvalue, -⟩ := value_of_operation hop
  exact .inl (by simp [owner?, hvalue, hblock hvalue])

theorem Ordered.local_of_mem (h : code.Ordered) {b : BlockId} {block : Block}
    (hb : code.block? b = some block) (hv : v ∈ block.body.toList) : code.Local block.owner v := by
  obtain ⟨value, hvalue, hblock⟩ := h.placed hb hv
  exact .inr (by simp [owner?, hvalue, hblock, hb])

theorem checkLocal_ok_iff : code.checkLocal f function v = .ok () ↔ code.Local f v := by
  unfold checkLocal Local
  rw [bind_ok_iff]
  simp only [checked_ok_iff]
  constructor
  · rintro ⟨owner, howner, hcheck⟩
    cases owner with
    | none => exact .inl howner
    | some owner =>
        by_cases hf : owner = f
        · exact .inr (hf ▸ howner)
        · simp only [if_neg hf, bind_ok_iff] at hcheck
          obtain ⟨other, -, hother⟩ := hcheck
          cases hother
  · rintro (hnone | howner)
    · exact ⟨none, hnone, rfl⟩
    · exact ⟨some f, howner, if_pos rfl⟩

theorem checkNumeric_ok_iff :
    code.checkNumeric f function v = .ok () ↔ code.Local f v ∧ code.IsNumber v := by
  unfold checkNumeric
  rw [seq_ok_iff, checkLocal_ok_iff]
  simp only [bind_ok_iff, checked_ok_iff]
  refine and_congr_right fun _ => ?_
  constructor
  · rintro ⟨numeric, hnumeric, hcheck⟩
    cases numeric with
    | true => exact hnumeric
    | false => cases hcheck
  · intro hnumeric
    exact ⟨true, hnumeric, rfl⟩

theorem checkPointer_ok_iff :
    code.checkPointer f function v = .ok () ↔ code.Local f v ∧ code.IsPointer v := by
  unfold checkPointer
  rw [seq_ok_iff, checkLocal_ok_iff]
  simp only [bind_ok_iff, checked_ok_iff]
  refine and_congr_right fun _ => exists_congr fun op => and_congr_right fun _ => ?_
  cases op.isPointer <;> simp

theorem checkInstruction_ok_iff {op : Operation} (hop : code.operation? v = some op)
    (hf : code.func? f = some function) (hadmits : code.Admits f op) :
    code.checkInstruction f function v = .ok () ↔ ∀ u ∈ op.operands, code.Local f u := by
  unfold checkInstruction
  rw [bind_ok_iff]
  simp only [checked_ok_iff, hop, Option.some.injEq, exists_eq_left']
  cases op with
  | const x => exact hadmits.elim
  | address g => exact hadmits.elim
  | arith op left right =>
      simp [seq_ok_iff, checkNumeric_ok_iff, Operation.operands, hadmits.1, hadmits.2]
  | slot => simp [Operation.operands]
  | load pointer =>
      have hpointer : code.IsPointer pointer := hadmits
      simp [checkPointer_ok_iff, Operation.operands, hpointer]
  | store value pointer =>
      simp [seq_ok_iff, checkNumeric_ok_iff, checkPointer_ok_iff, Operation.operands, hadmits.1,
        hadmits.2]
  | call callee => simp [Operation.operands]
  | ret value =>
      cases value with
      | none =>
          obtain ⟨function', hf', hreturns⟩ := hadmits
          rw [hf] at hf'
          cases hf'
          simp [hreturns, Operation.operands]
      | some value =>
          obtain ⟨⟨function', hf', hreturns⟩, hvalue⟩ := hadmits
          rw [hf] at hf'
          cases hf'
          simp [hreturns, Operation.operands, checkNumeric_ok_iff, hvalue]

theorem hasTerminator_false_iff {vs : List ValueId} : code.hasTerminator vs = .ok false ↔
    ∀ v ∈ vs, ∃ op, code.operation? v = some op ∧ op.isTerminator = false := by
  induction vs with
  | nil => simp [hasTerminator]
  | cons v vs ih =>
      rw [hasTerminator, bind_ok_iff, List.forall_mem_cons]
      simp only [checked_ok_iff]
      constructor
      · rintro ⟨op, hop, hrest⟩
        cases hterminator : op.isTerminator with
        | true => simp [hterminator] at hrest
        | false =>
            simp only [hterminator, Bool.false_eq_true, if_false] at hrest
            exact ⟨⟨op, hop, hterminator⟩, ih.mp hrest⟩
      · rintro ⟨⟨op, hop, hterminator⟩, hrest⟩
        refine ⟨op, hop, ?_⟩
        simp only [hterminator, Bool.false_eq_true, if_false]
        exact ih.mpr hrest

structure Closed (code : Code) (f : FuncId) (body : List ValueId) : Prop where
  ended : ∃ front last, body = front ++ [last] ∧
    (∃ op, code.operation? last = some op ∧ op.isTerminator = true) ∧
    ∀ v ∈ front, ∃ op, code.operation? v = some op ∧ op.isTerminator = false
  localOperands : ∀ v ∈ body, ∀ op, code.operation? v = some op → ∀ u ∈ op.operands, code.Local f u

theorem Closed.isTerminator {done rest : List ValueId} (h : code.Closed f (done ++ v :: rest))
    {op : Operation} (hop : code.operation? v = some op) : op.isTerminator = rest.isEmpty := by
  obtain ⟨front, last, hbody, ⟨op', hop', hlast⟩, hfront⟩ := h.ended
  rcases List.eq_nil_or_concat' rest with rfl | ⟨middle, w, rfl⟩
  · obtain ⟨-, hv⟩ := List.append_inj' hbody rfl
    cases hv
    rw [hop] at hop'
    cases hop'
    exact hlast
  · rw [← List.cons_append, ← List.append_assoc] at hbody
    obtain ⟨rfl, -⟩ := List.append_inj' hbody rfl
    obtain ⟨op', hop', hnot⟩ := hfront v (by simp)
    rw [hop] at hop'
    cases hop'
    rw [hnot]
    cases middle <;> rfl

theorem checkBlock_ok_iff_instructions {b : BlockId} : code.checkBlock f function b = .ok () ↔
    ∃ block, code.block? b = some block ∧
      (∃ front last, block.body.toList = front ++ [last] ∧
        (∃ op, code.operation? last = some op ∧ op.isTerminator = true) ∧
        ∀ v ∈ front, ∃ op, code.operation? v = some op ∧ op.isTerminator = false) ∧
      ∀ v ∈ block.body.toList, code.checkInstruction f function v = .ok () := by
  unfold checkBlock
  rw [bind_ok_iff]
  simp only [checked_ok_iff]
  refine exists_congr fun block => and_congr_right fun _ => ?_
  rw [← forM_ok_iff]
  generalize block.body.toList = body
  rcases List.eq_nil_or_concat' body with rfl | ⟨front, last, rfl⟩
  · simp
  · simp only [List.getLast?_concat, List.dropLast_concat, bind_ok_iff, checked_ok_iff]
    constructor
    · rintro ⟨op, hop, hcheck⟩
      cases hlast : op.isTerminator with
      | false => simp [hlast] at hcheck
      | true =>
          simp only [hlast, Bool.not_true, Bool.false_eq_true, if_false, bind_ok_iff] at hcheck
          obtain ⟨early, hearly, hcheck⟩ := hcheck
          cases early with
          | true => simp at hcheck
          | false =>
              simp only [Bool.false_eq_true, if_false] at hcheck
              exact ⟨⟨front, last, rfl, ⟨op, hop, hlast⟩, hasTerminator_false_iff.mp hearly⟩,
                hcheck⟩
    · rintro ⟨⟨front', last', hbody, ⟨op, hop, hlast⟩, hfront⟩, hinstructions⟩
      obtain ⟨rfl, hlasts⟩ := List.append_inj' hbody rfl
      cases hlasts
      refine ⟨op, hop, ?_⟩
      simp only [hlast, Bool.not_true, Bool.false_eq_true, if_false, bind_ok_iff]
      exact ⟨false, hasTerminator_false_iff.mpr hfront, hinstructions⟩

theorem checkBlock_ok_iff {b : BlockId} {block : Block} (hb : code.block? b = some block)
    (hf : code.func? f = some function)
    (hadmits : ∀ v ∈ block.body.toList, ∃ op, code.operation? v = some op ∧ code.Admits f op) :
    code.checkBlock f function b = .ok () ↔ code.Closed f block.body.toList := by
  have hinstructions : (∀ v ∈ block.body.toList, code.checkInstruction f function v = .ok ()) ↔
      ∀ v ∈ block.body.toList, ∀ op, code.operation? v = some op →
        ∀ u ∈ op.operands, code.Local f u := by
    refine forall₂_congr fun v hv => ?_
    obtain ⟨op, hop, hadmitted⟩ := hadmits v hv
    rw [checkInstruction_ok_iff hop hf hadmitted]
    simp only [hop, Option.some.injEq, forall_eq']
  rw [checkBlock_ok_iff_instructions]
  simp only [hb, Option.some.injEq, exists_eq_left', hinstructions]
  exact ⟨fun ⟨hended, hoperands⟩ => ⟨hended, hoperands⟩,
    fun hclosed => ⟨hclosed.ended, hclosed.localOperands⟩⟩

theorem check_ok_iff_blocks : code.check = .ok () ↔ ∀ f function, code.func? f = some function →
    ∀ b ∈ function.blocks.toList, code.checkBlock f function b = .ok () := by
  unfold check
  rw [forM_ok_iff]
  constructor
  · intro hcheck f function hf b hb
    have hfunction := hcheck f.index (List.mem_range.mpr (func_lt hf))
    unfold checkFunction at hfunction
    rw [bind_ok_iff] at hfunction
    obtain ⟨function', hf', hblocks⟩ := hfunction
    rw [checked_ok_iff, hf] at hf'
    cases hf'
    exact forM_ok_iff.mp hblocks b hb
  · intro hblocks i hi
    have hf : code.func? ⟨i⟩ = some _ := Array.getElem?_eq_getElem (List.mem_range.mp hi)
    unfold checkFunction
    rw [bind_ok_iff]
    exact ⟨_, checked_ok_iff.mpr hf, forM_ok_iff.mpr (hblocks ⟨i⟩ _ hf)⟩

end Niladic.Code

namespace Niladic.Compiler.Coherent

open Code

variable {c : Compiler}

theorem check_ok_iff (h : c.Coherent) : c.draft.code.check = .ok () ↔
    ∀ b block, c.draft.code.block? b = some block →
      c.draft.code.Closed ⟨b.index⟩ block.body.toList := by
  have hclosed_iff {b : BlockId} {block : Block} {function : Func}
      (hb : c.draft.code.block? b = some block)
      (hf : c.draft.code.func? ⟨b.index⟩ = some function) :
      c.draft.code.checkBlock ⟨b.index⟩ function b = .ok () ↔
        c.draft.code.Closed ⟨b.index⟩ block.body.toList := by
    refine checkBlock_ok_iff hb hf fun v hv => ?_
    obtain ⟨op, hop, hadmitted, -⟩ := h.ordered.admitted hb hv
    rw [(h.owned hb).1] at hadmitted
    exact ⟨op, hop, hadmitted⟩
  rw [check_ok_iff_blocks]
  constructor
  · intro hcheck b block hb
    obtain ⟨function, hf⟩ := h.func_of_block hb
    exact (hclosed_iff hb hf).mp (hcheck _ _ hf b (by simp [h.owns hf]))
  · intro hclosed f function hf b hb
    have hsole : b = ⟨f.index⟩ := by simpa [h.owns hf] using hb
    subst hsole
    obtain ⟨block, hblock⟩ := h.block_of_func hf
    exact (hclosed_iff hblock hf).mpr (hclosed _ block hblock)

end Niladic.Compiler.Coherent
