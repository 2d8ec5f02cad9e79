import Niladic.Proofs.Representation

namespace Niladic

def Flaw.isPrecluded : Flaw → Bool
  | .notInstruction _ | .notNumeric _ | .notPointer _ | .missingValue | .unexpectedValue => true
  | .emptyBlock _ | .unterminated _ | .earlyTerminator _ | .foreignOperand .. => false

def Finding.isPrecluded : Finding → Bool
  | .flaw _ found => found.isPrecluded
  | .badHandle => true

namespace Code

variable {code : Code} {f : FuncId} {function : Func} {v : ValueId}

def IsReturn (code : Code) (v : ValueId) : Prop :=
  ∃ value, code.operation? v = some (.ret value)

structure Finished (code : Code) : Prop where
  ended : ∀ {b block}, code.block? b = some block → ∃ front last,
    block.body.toList = front ++ [last] ∧ code.IsReturn last ∧ ∀ v ∈ front, ¬ code.IsReturn v
  domestic : ∀ {b block v op u op'}, code.block? b = some block → v ∈ block.body.toList →
    code.operation? v = some op → u ∈ op.operands → code.operation? u = some op' →
    op'.isInstruction = true → ∃ b' block', code.block? b' = some block' ∧
      u ∈ block'.body.toList ∧ block'.owner = block.owner

theorem isReturn_iff {op : Operation} (hop : code.operation? v = some op) :
    code.IsReturn v ↔ op.isTerminator = true := by
  unfold IsReturn
  rw [hop]
  cases op <;> simp [Operation.isTerminator]

theorem Housed.check_ok_iff_closed (h : code.Housed) : code.check = .ok () ↔
    ∀ b block, code.block? b = some block → code.Closed block.owner block.body.toList := by
  have hclosed_iff {b : BlockId} {block : Block} {function : Func} (hb : code.block? b = some block)
      (hf : code.func? block.owner = some function) :
      code.checkBlock block.owner function b = .ok () ↔
        code.Closed block.owner block.body.toList := by
    refine checkBlock_ok_iff hb hf fun v hv => ?_
    obtain ⟨op, hop, hadmits, -⟩ := h.ordered.admitted hb hv
    exact ⟨op, hop, hadmits⟩
  rw [check_ok_iff_blocks]
  constructor
  · intro hcheck b block hb
    obtain ⟨function, hf, hmem⟩ := h.listed hb
    exact (hclosed_iff hb hf).mp (hcheck _ _ hf b hmem)
  · intro hclosed f function hf b hmem
    obtain ⟨block, hb, rfl⟩ := h.owned hf hmem
    exact (hclosed_iff hb hf).mpr (hclosed b block hb)

theorem Ordered.local_iff (h : code.Ordered) {op : Operation} (hop : code.operation? v = some op) :
    code.Local f v ↔ (op.isInstruction = true → ∃ b block, code.block? b = some block ∧
      v ∈ block.body.toList ∧ block.owner = f) := by
  obtain ⟨value, hvalue, rfl⟩ := value_of_operation hop
  cases hplace : value.block with
  | none =>
      have hloose : value.operation.isInstruction = false := by
        rcases (h.loose_iff hvalue).mp hplace with ⟨x, hx⟩ | ⟨g, hg⟩
        · rw [hx]
          rfl
        · rw [hg]
          rfl
      simp [Local, owner?, hvalue, hplace, hloose]
  | some b =>
      obtain ⟨block, hb, hmem, hadmits, -⟩ := h.listed hvalue hplace
      have howner : code.owner? v = some (some block.owner) := by simp [owner?, hvalue, hplace, hb]
      constructor
      · rintro (hnone | hsome) -
        · rw [howner] at hnone
          cases hnone
        · rw [howner] at hsome
          cases hsome
          exact ⟨b, block, hb, hmem, rfl⟩
      · intro hown
        obtain ⟨b', block', hb', hmem', rfl⟩ := hown (isInstruction_of_admits hadmits)
        exact h.local_of_mem hb' hmem'

theorem Ordered.closed_iff (h : code.Ordered) {b : BlockId} {block : Block}
    (hb : code.block? b = some block) : code.Closed block.owner block.body.toList ↔
      (∃ front last, block.body.toList = front ++ [last] ∧ code.IsReturn last ∧
        ∀ v ∈ front, ¬ code.IsReturn v) ∧
      ∀ {v op u op'}, v ∈ block.body.toList → code.operation? v = some op → u ∈ op.operands →
        code.operation? u = some op' → op'.isInstruction = true → ∃ b' block',
          code.block? b' = some block' ∧ u ∈ block'.body.toList ∧ block'.owner = block.owner := by
  constructor
  · intro hclosed
    refine ⟨?_, fun hv hop hu hop' => (h.local_iff hop').mp (hclosed.localOperands _ hv _ hop _ hu)⟩
    obtain ⟨front, last, hbody, ⟨op, hop, hlast⟩, hfront⟩ := hclosed.ended
    refine ⟨front, last, hbody, (isReturn_iff hop).mpr hlast, fun v hv hreturn => ?_⟩
    obtain ⟨op', hop', hnot⟩ := hfront v hv
    rw [(isReturn_iff hop').mp hreturn] at hnot
    cases hnot
  · rintro ⟨⟨front, last, hbody, hlast, hfront⟩, hoperands⟩
    have hoperation (v : ValueId) (hv : v ∈ block.body.toList) :
        ∃ op, code.operation? v = some op := by
      obtain ⟨op, hop, -⟩ := h.admitted hb hv
      exact ⟨op, hop⟩
    refine ⟨⟨front, last, hbody, ?_, fun v hv => ?_⟩, fun v hv op hop u hu => ?_⟩
    · obtain ⟨op, hop⟩ := hoperation last (by simp [hbody])
      exact ⟨op, hop, (isReturn_iff hop).mp hlast⟩
    · obtain ⟨op, hop⟩ := hoperation v (by simp [hbody, hv])
      refine ⟨op, hop, Bool.eq_false_iff.mpr fun hreturn => ?_⟩
      exact hfront v hv ((isReturn_iff hop).mpr hreturn)
    · -- An operand was made before its user, so it is in the table.
      obtain ⟨value, hvalue, rfl⟩ := value_of_operation hop
      have hlt := h.operands_lt hvalue u hu
      have hlt' := Nat.lt_trans hlt (value_lt hvalue)
      have hu' : code.value? u = some _ := Array.getElem?_eq_getElem hlt'
      exact (h.local_iff (operation_of_value hu')).mpr
        (hoperands hv hop hu (operation_of_value hu'))

theorem Housed.check_ok_iff_finished (h : code.Housed) : code.check = .ok () ↔ code.Finished := by
  rw [h.check_ok_iff_closed]
  constructor
  · intro hclosed
    exact ⟨fun hb => ((h.ordered.closed_iff hb).mp (hclosed _ _ hb)).1,
      fun hb => ((h.ordered.closed_iff hb).mp (hclosed _ _ hb)).2⟩
  · intro hfinished b block hb
    exact (h.ordered.closed_iff hb).mpr ⟨hfinished.ended hb, hfinished.domestic hb⟩

def Spares {α : Type} (r : Check α) : Prop :=
  ∀ finding, r = .error finding → finding.isPrecluded = false

namespace Spares

variable {α β : Type}

theorem ok (a : α) : Spares (.ok a) := by
  intro finding h
  cases h

theorem error {finding : Finding} (h : finding.isPrecluded = false) :
    Spares (.error finding : Check α) := by
  intro finding' h'
  cases h'
  exact h

theorem bind {x : Check α} {g : α → Check β} (hx : Spares x) (hg : ∀ a, x = .ok a → Spares (g a)) :
    Spares (x >>= g) := by
  intro finding h
  rcases bind_error_iff.mp h with h | ⟨a, ha, h⟩
  · exact hx finding h
  · exact hg a ha finding h

theorem checked {o : Option α} {a : α} (h : o = some a) : Spares (checked o) := by
  rw [h]
  exact ok a

theorem forM {xs : List α} {g : α → Check Unit} (h : ∀ x ∈ xs, Spares (g x)) :
    Spares (xs.forM g) := by
  induction xs with
  | nil => exact ok ()
  | cons x xs ih =>
      obtain ⟨hx, hxs⟩ := List.forall_mem_cons.mp h
      exact hx.bind fun _ _ => ih hxs

end Spares

theorem Housed.checkLocal_spares (h : code.Housed) {value : Value}
    (hv : code.value? v = some value) : Spares (code.checkLocal f function v) := by
  cases hplace : value.block with
  | none =>
      have howner : code.owner? v = some none := by simp [owner?, hv, hplace]
      unfold checkLocal
      rw [howner]
      exact .ok ()
  | some b =>
      obtain ⟨block, hb, -⟩ := h.ordered.listed hv hplace
      obtain ⟨other, hother, -⟩ := h.listed hb
      have howner : code.owner? v = some (some block.owner) := by simp [owner?, hv, hplace, hb]
      unfold checkLocal
      rw [howner]
      refine Spares.bind (.checked rfl) fun owner howner' => ?_
      cases howner'
      dsimp only
      split
      · exact .ok ()
      · exact Spares.bind (.checked hother) fun _ _ => .error rfl

theorem Housed.checkNumeric_spares (h : code.Housed) (hv : code.IsNumber v) :
    Spares (code.checkNumeric f function v) := by
  obtain ⟨value, hvalue⟩ := value_of_isNumber hv
  refine (h.checkLocal_spares hvalue).bind fun _ _ =>
    Spares.bind (.checked hv) fun numeric hnumeric => ?_
  rw [checked_ok_iff, show code.isNumeric? v = some true from hv] at hnumeric
  cases hnumeric
  exact .ok ()

theorem Housed.checkPointer_spares (h : code.Housed) (hv : code.IsPointer v) :
    Spares (code.checkPointer f function v) := by
  obtain ⟨value, hvalue⟩ := value_of_isPointer hv
  obtain ⟨op, hop, hpointer⟩ := hv
  refine (h.checkLocal_spares hvalue).bind fun _ _ =>
    Spares.bind (.checked hop) fun op' hop' => ?_
  rw [checked_ok_iff, hop] at hop'
  cases hop'
  rw [if_pos hpointer]
  exact .ok ()

theorem Housed.checkInstruction_spares (h : code.Housed) (hf : code.func? f = some function)
    {op : Operation} (hop : code.operation? v = some op) (hadmits : code.Admits f op) :
    Spares (code.checkInstruction f function v) := by
  refine Spares.bind (.checked hop) fun op' hop' => ?_
  rw [checked_ok_iff, hop] at hop'
  cases hop'
  cases op with
  | const x => exact hadmits.elim
  | address g => exact hadmits.elim
  | arith op left right =>
      exact (h.checkNumeric_spares hadmits.1).bind fun _ _ => h.checkNumeric_spares hadmits.2
  | slot => exact .ok ()
  | load pointer => exact h.checkPointer_spares hadmits
  | store value pointer =>
      exact (h.checkNumeric_spares hadmits.1).bind fun _ _ => h.checkPointer_spares hadmits.2
  | call callee => exact .ok ()
  | ret value =>
      have hsame {returns : Returns} (hreturning : code.Returning f returns) :
          function.returns = returns := by
        obtain ⟨function', hf', hreturns⟩ := hreturning
        rw [hf] at hf'
        cases hf'
        exact hreturns
      cases value with
      | none =>
          dsimp only
          rw [hsame hadmits]
          exact .ok ()
      | some value =>
          dsimp only
          rw [hsame hadmits.1]
          exact h.checkNumeric_spares hadmits.2

theorem hasTerminator_spares {vs : List ValueId}
    (h : ∀ v ∈ vs, ∃ op, code.operation? v = some op) : Spares (code.hasTerminator vs) := by
  induction vs with
  | nil => exact .ok false
  | cons v vs ih =>
      obtain ⟨⟨op, hop⟩, hvs⟩ := List.forall_mem_cons.mp h
      rw [hasTerminator]
      refine Spares.bind (.checked hop) fun op _ => ?_
      split
      · exact .ok true
      · exact ih hvs

theorem Housed.checkBlock_spares (h : code.Housed) {b : BlockId} {block : Block}
    (hb : code.block? b = some block) (hf : code.func? block.owner = some function) :
    Spares (code.checkBlock block.owner function b) := by
  have hoperation (v : ValueId) (hv : v ∈ block.body.toList) :
      ∃ op, code.operation? v = some op ∧ code.Admits block.owner op := by
    obtain ⟨op, hop, hadmits, -⟩ := h.ordered.admitted hb hv
    exact ⟨op, hop, hadmits⟩
  unfold checkBlock
  refine Spares.bind (.checked hb) fun block' hblock' => ?_
  rw [checked_ok_iff, hb] at hblock'
  cases hblock'
  split
  next => exact .error rfl
  next last hlast =>
    obtain ⟨op, hop, -⟩ := hoperation last (List.mem_of_getLast? hlast)
    refine Spares.bind (.checked hop) fun op _ => ?_
    split
    · exact .error rfl
    · refine (hasTerminator_spares fun v hv => ?_).bind fun early _ => ?_
      · obtain ⟨op, hop, -⟩ := hoperation v (List.dropLast_subset _ hv)
        exact ⟨op, hop⟩
      · split
        · exact .error rfl
        · refine .forM fun v hv => ?_
          obtain ⟨op, hop, hadmits⟩ := hoperation v hv
          exact h.checkInstruction_spares hf hop hadmits

theorem Housed.check_spares (h : code.Housed) : Spares code.check := by
  refine .forM fun i hi => ?_
  have hf : code.func? ⟨i⟩ = some _ := Array.getElem?_eq_getElem (List.mem_range.mp hi)
  refine Spares.bind (.checked hf) fun function hfunction => .forM fun b hmem => ?_
  rw [checked_ok_iff] at hfunction
  obtain ⟨block, hb, howner⟩ := h.owned hfunction hmem
  rw [← howner] at hfunction ⊢
  exact h.checkBlock_spares hb hfunction

theorem verify_outcome_ok_iff {σ : Type} {l : Logged σ} :
    code.verify.outcome l = .ok () ↔ code.check = .ok () := by
  unfold verify
  cases hcheck : code.check with
  | ok _ => exact iff_of_true rfl rfl
  | error finding =>
      refine iff_of_false (fun h => ?_) (fun h => ?_)
      · cases finding <;> cases h
      · cases h

theorem check_of_verify_error {σ : Type} {l : Logged σ} {stop : Stop}
    (h : code.verify.outcome l = .error stop) : ∃ finding, code.check = .error finding ∧
      (finding = .badHandle ∨ ∃ function flaw, finding = .flaw function flaw ∧
        stop = .error (.backend (.flawed function flaw))) := by
  unfold verify at h
  cases hcheck : code.check with
  | ok _ =>
      rw [hcheck] at h
      cases h
  | error finding =>
      rw [hcheck] at h
      refine ⟨finding, rfl, ?_⟩
      cases finding with
      | badHandle => exact .inl rfl
      | flaw function flaw =>
          cases h
          exact .inr ⟨function, flaw, rfl, rfl⟩

end Code

namespace Draft

/-- What a session leaves passes the check just where its blocks are finished. Where it fails, what
is found was not to be seen when the instructions were appended. -/
theorem sessions_pass_check_iff_finished {σ : Type} (name : String) (depth : Nat)
    (requests : List Request) (l : Logged σ) :
    ∃ given d, Request.session [] requests { code := { name }, depth } = .ok given d ∧
      (d.code.verify.outcome l = .ok () ↔ d.code.Finished) ∧
      ∀ stop, d.code.verify.outcome l = .error stop → ∃ function flaw,
        stop = .error (.backend (.flawed function flaw)) ∧ flaw.isPrecluded = false := by
  obtain ⟨given, d, hsession, hsound⟩ := (start_sound name depth).session requests
  have hhoused := hsound.distinct.housed
  refine ⟨given, d, hsession, ?_, fun stop hstop => ?_⟩
  · rw [Code.verify_outcome_ok_iff]
    exact hhoused.check_ok_iff_finished
  · obtain ⟨finding, hfinding, hcases⟩ := Code.check_of_verify_error hstop
    have hspared := hhoused.check_spares finding hfinding
    rcases hcases with rfl | ⟨function, flaw, rfl, rfl⟩
    · cases hspared
    · exact ⟨function, flaw, rfl, hspared⟩

-- A function returns the sum that another one has: nothing is refused, and the check finds it.
example : Action.outcome (do
    discard (Request.session [] [.function "f" .number, .function "g" .number, .block "entry" ⟨0⟩,
      .block "entry" ⟨1⟩, .const 1.0, .position ⟨0⟩, .arith .add ⟨0⟩ ⟨0⟩, .ret ⟨1⟩, .position ⟨1⟩,
      .ret ⟨1⟩])
    return (← get).code.check) { code := { name := "m" } } =
      .ok (.error (.flaw "g" (.foreignOperand ⟨1⟩ "f"))) := by
  decide +kernel

end Draft

end Niladic
