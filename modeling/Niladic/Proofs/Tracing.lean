import Niladic.Proofs.Acceptance
import Niladic.Proofs.Recursion

/-!
What a program does to its variables, read off its tree: it gives numbers to them in an order that no
store has a part in, and perhaps ends early. A run of its code does the same to the cells that it
finds, so that running it again changes nothing.
-/

namespace Niladic

abbrev Store := String → Float

def Store.set (store : Store) (name : String) (x : Float) : Store :=
  fun n => if n = name then x else store n

namespace Store

def record (store : Store) (writes : List (String × Float)) : Store :=
  writes.foldl (fun store write => store.set write.1 write.2) store

variable {store store' : Store} {writes : List (String × Float)}

theorem record_append (store : Store) (writes writes' : List (String × Float)) :
    store.record (writes ++ writes') = (store.record writes).record writes' :=
  List.foldl_append

theorem record_of_not_mem {n : String} (h : n ∉ writes.map Prod.fst) :
    store.record writes n = store n := by
  induction writes generalizing store with
  | nil => rfl
  | cons write writes ih =>
      rw [List.map_cons, List.mem_cons, not_or] at h
      obtain ⟨hne, hrest⟩ := h
      change (store.set write.1 write.2).record writes n = store n
      rw [ih hrest, set, if_neg hne]

theorem record_congr (h : ∀ n, n ∉ writes.map Prod.fst → store n = store' n) :
    store.record writes = store'.record writes := by
  induction writes generalizing store store' with
  | nil => exact funext fun n => h n List.not_mem_nil
  | cons write writes ih =>
      refine ih fun n hn => ?_
      simp only [set]
      split
      · rfl
      next hne => exact h n (by simp [hne, hn])

theorem record_record (store : Store) (writes : List (String × Float)) :
    (store.record writes).record writes = store.record writes :=
  record_congr fun _ => record_of_not_mem

end Store

inductive Halt where
  | tooDeep (callee : String)
  | stuck
deriving DecidableEq, Repr

structure Trace where
  writes : List (String × Float) := []
  halt : Option Halt := none

def Trace.andThen (first next : Trace) : Trace :=
  match first.halt with
  | none => ⟨first.writes ++ next.writes, next.halt⟩
  | some _ => first

namespace Tree

def value? : Tree → Option Float
  | .number x => some x
  | .binary op left right => do
      let x ← left.value?
      let y ← right.value?
      return op.apply x y
  | _ => none

mutual

def trace (call : String → Trace) : Tree → Trace
  | .number _ | .binary .. | .procedure .. => {}
  | .assign name value =>
      match value.value? with
      | some x => { writes := [(name, x)] }
      | none => { halt := some .stuck }
  | .body items => traceAll call items
  | .call name => call name
  | .program _ => { halt := some .stuck }

def traceAll (call : String → Trace) : List Tree → Trace
  | [] => {}
  | item :: rest => (trace call item).andThen (traceAll call rest)

end

def traceAt (entry : String) (limit : Nat) (items : List Tree) (frames : Nat) (name : String) :
    Trace :=
  if frames < limit then
    if name = entry then traceAll (traceAt entry limit items (frames + 1)) items
    else
      match (definitionsAll items).lookup name with
      | some inner => trace (traceAt entry limit items (frames + 1)) inner
      | none => { halt := some .stuck }
  else { halt := some (.tooDeep name) }
termination_by limit - frames

def traceRun (entry : String) (limit : Nat) (items : List Tree) : Trace :=
  traceAll (traceAt entry limit items 1) items

end Tree

namespace Machine

open Niladic.Action Code Niladic.Tree

variable {code : Code} {limit : Nat} {call : ValueId → FuncId → Run}

def Mirrors (code : Code) (cells : Array Float) (store : Store) : Prop :=
  cells.size = code.globals.size ∧
    ∀ {g global}, code.global? g = some global → cells[g.index]? = some (store global.name)

def Follows (code : Code) (limit : Nat) (store : Store) {α : Type} :
    Trace → EStateM.Result Stop (Logged Memory) α → Prop
  | ⟨writes, none⟩, .ok _ m => Mirrors code m.state.cells (store.record writes)
  | ⟨writes, some (.tooDeep name)⟩, .error stop m =>
      stop = .error (.backend (.trapped (.depth limit name))) ∧
        Mirrors code m.state.cells (store.record writes)
  | _, _ => False

theorem Follows.cases {α : Type} {store : Store} {trace : Trace}
    {r : EStateM.Result Stop (Logged Memory) α} (h : Follows code limit store trace r) :
    (∃ writes a m, trace = ⟨writes, none⟩ ∧ r = .ok a m ∧
      Mirrors code m.state.cells (store.record writes)) ∨
    ∃ writes name m, trace = ⟨writes, some (.tooDeep name)⟩ ∧
      r = .error (.error (.backend (.trapped (.depth limit name)))) m ∧
      Mirrors code m.state.cells (store.record writes) := by
  obtain ⟨writes, halt⟩ := trace
  cases halt with
  | none =>
      cases r with
      | ok a m => exact .inl ⟨writes, a, m, rfl, rfl, h⟩
      | error stop m => exact h.elim
  | some halt =>
      cases halt with
      | tooDeep name =>
          cases r with
          | ok a m => exact h.elim
          | error stop m =>
              obtain ⟨rfl, hcells⟩ := h
              exact .inr ⟨writes, name, m, rfl, rfl, hcells⟩
      | stuck => cases r <;> exact h.elim

theorem values_define_of_ne {frame : Frame} {u v : ValueId} (h : ¬ u = v) (x : Float) :
    (frame.advance.define v x).values[u]? = frame.values[u]? := by
  change (frame.values.insert v x)[u]? = _
  rw [Std.HashMap.getElem?_insert, if_neg]
  simpa using Ne.symm h

theorem contains_setSlot {frame : Frame} {u v : ValueId} {x : Float}
    (h : u = v ∨ frame.slots.contains u = true) :
    (frame.advance.setSlot v x).slots.contains u = true := by
  change (frame.slots.insert v x).contains u = true
  rw [Std.HashMap.contains_insert]
  rcases h with rfl | h <;> simp [*]

/-- Executing `vs` leads from one frame and memory to another, whatever comes after `vs`. Only `vs`
are defined on the way. -/
structure Executes (code : Code) (call : ValueId → FuncId → Run) (vs : List ValueId)
    (frame : Frame) (m : Logged Memory) (frame' : Frame) (m' : Logged Memory) : Prop where
  run : ∀ rest, runBody code call (vs ++ rest) frame m = runBody code call rest frame' m'
  values : ∀ u ∉ vs, frame'.values[u]? = frame.values[u]?
  slots : ∀ u, frame.slots.contains u = true → frame'.slots.contains u = true

namespace Executes

variable {vs ws : List ValueId} {frame frame' frame'' : Frame} {m m' m'' : Logged Memory}

theorem nil (frame : Frame) (m : Logged Memory) : Executes code call [] frame m frame m :=
  ⟨fun _ => rfl, fun _ _ => rfl, fun _ h => h⟩

theorem append (h : Executes code call vs frame m frame' m')
    (h' : Executes code call ws frame' m' frame'' m'') :
    Executes code call (vs ++ ws) frame m frame'' m'' where
  run rest := by rw [List.append_assoc, h.run, h'.run]
  values u hu := by
    rw [List.mem_append, not_or] at hu
    rw [h'.values u hu.2, h.values u hu.1]
  slots u hu := h'.slots u (h.slots u hu)

theorem define {v : ValueId} {x : Float}
    (h : effect code m.state.cells frame v = .ok (.define x)) :
    Executes code call [v] frame m (frame.advance.define v x) (ticked m) where
  run rest := runBody_cons_ok h call rest
  values _ hu := values_define_of_ne (List.mem_singleton.not.mp hu) x
  slots _ hu := hu

theorem allocate {v : ValueId} (h : effect code m.state.cells frame v = .ok .allocate) :
    Executes code call [v] frame m (frame.advance.setSlot v 0.0) (ticked m) where
  run rest := runBody_cons_ok h call rest
  values _ _ := rfl
  slots _ hu := contains_setSlot (.inr hu)

theorem setGlobal {v : ValueId} {g : GlobalId} {x : Float}
    (h : effect code m.state.cells frame v = .ok (.setGlobal g x)) :
    Executes code call [v] frame m frame.advance
      { ticked m with state.cells := m.state.cells.setIfInBounds g.index x } where
  run rest := runBody_cons_ok h call rest
  values _ _ := rfl
  slots _ hu := hu

theorem setSlot {v p : ValueId} {x : Float}
    (h : effect code m.state.cells frame v = .ok (.setSlot p x)) :
    Executes code call [v] frame m (frame.advance.setSlot p x) (ticked m) where
  run rest := runBody_cons_ok h call rest
  values _ _ := rfl
  slots _ hu := contains_setSlot (.inr hu)

theorem called {v : ValueId} {f : FuncId} {result : Option Float}
    (h : effect code m.state.cells frame v = .ok (.call f))
    (hcall : call v f (ticked m) = .ok result m') :
    Executes code call [v] frame m (frame.advance.receive (some v) result) m' where
  run rest := (runBody_cons_ok h call rest).trans (bind_of_ok hcall)
  values u hu := by
    cases result with
    | none => rfl
    | some x => exact values_define_of_ne (List.mem_singleton.not.mp hu) x
  slots _ hu := by
    cases result <;> exact hu

end Executes

def Simulated (code : Code) (limit : Nat) (call : ValueId → FuncId → Run) (vs : List ValueId)
    (frame : Frame) (m : Logged Memory) (store : Store) : Trace → Prop
  | ⟨writes, none⟩ => ∃ frame' m', Executes code call vs frame m frame' m' ∧
      Mirrors code m'.state.cells (store.record writes)
  | ⟨writes, some (.tooDeep name)⟩ => ∀ rest, ∃ m', runBody code call (vs ++ rest) frame m =
      .error (.error (.backend (.trapped (.depth limit name)))) m' ∧
        Mirrors code m'.state.cells (store.record writes)
  | ⟨_, some .stuck⟩ => False

namespace Simulated

variable {vs ws : List ValueId} {frame frame' : Frame} {m m' : Logged Memory} {store : Store}
  {trace next : Trace}

theorem after (h : Executes code call vs frame m frame' m')
    (h' : Simulated code limit call ws frame' m' store trace) :
    Simulated code limit call (vs ++ ws) frame m store trace := by
  obtain ⟨writes, halt⟩ := trace
  cases halt with
  | none =>
      obtain ⟨frame'', m'', hexecutes, hmirrors⟩ := h'
      exact ⟨frame'', m'', h.append hexecutes, hmirrors⟩
  | some halt =>
      cases halt with
      | tooDeep name =>
          intro rest
          rw [List.append_assoc, h.run]
          exact h' rest
      | stuck => exact h'

theorem recorded {writes : List (String × Float)}
    (h : Simulated code limit call vs frame m (store.record writes) trace) :
    Simulated code limit call vs frame m store ⟨writes ++ trace.writes, trace.halt⟩ := by
  obtain ⟨writes', halt⟩ := trace
  cases halt with
  | none => simpa only [Simulated, Store.record_append] using h
  | some halt =>
      cases halt with
      | tooDeep name => simpa only [Simulated, Store.record_append] using h
      | stuck => exact h

theorem andThen (h : Simulated code limit call vs frame m store trace)
    (hnext : ∀ frame' m', Executes code call vs frame m frame' m' →
      Mirrors code m'.state.cells (store.record trace.writes) →
      Simulated code limit call ws frame' m' (store.record trace.writes) next) :
    Simulated code limit call (vs ++ ws) frame m store (trace.andThen next) := by
  obtain ⟨writes, halt⟩ := trace
  cases halt with
  | none =>
      obtain ⟨frame', m', hexecutes, hmirrors⟩ := h
      exact (after hexecutes (hnext frame' m' hexecutes hmirrors)).recorded
  | some halt =>
      cases halt with
      | tooDeep name =>
          intro rest
          rw [List.append_assoc]
          exact h (ws ++ rest)
      | stuck => exact h

theorem run (h : Simulated code limit call vs frame m store trace) (rest : List ValueId) :
    (∃ writes frame' m', trace = ⟨writes, none⟩ ∧
      Mirrors code m'.state.cells (store.record writes) ∧
      runBody code call (vs ++ rest) frame m = runBody code call rest frame' m') ∨
    ∃ writes name m', trace = ⟨writes, some (.tooDeep name)⟩ ∧
      Mirrors code m'.state.cells (store.record writes) ∧
      runBody code call (vs ++ rest) frame m =
        .error (.error (.backend (.trapped (.depth limit name)))) m' := by
  obtain ⟨writes, halt⟩ := trace
  cases halt with
  | none =>
      obtain ⟨frame', m', hexecutes, hmirrors⟩ := h
      exact .inl ⟨writes, frame', m', rfl, hmirrors, hexecutes.run rest⟩
  | some halt =>
      cases halt with
      | tooDeep name =>
          obtain ⟨m', hm', hmirrors⟩ := h rest
          exact .inr ⟨writes, name, m', rfl, hmirrors, hm'⟩
      | stuck => exact h.elim

end Simulated

theorem operand_const {frame : Frame} {v : ValueId} {x : Float}
    (h : code.operation? v = some (.const x)) : operand code frame v = .ok x := by
  simp [operand, h, resolve, bind, Except.bind]

theorem operand_defined {frame : Frame} {v : ValueId} {op : Operation} {x : Float}
    (hop : code.operation? v = some op) (hconst : ∀ y, op ≠ .const y)
    (hvalue : frame.values[v]? = some x) : operand code frame v = .ok x := by
  unfold operand
  rw [hop]
  cases op with
  | const y => exact (hconst y rfl).elim
  | _ => simp [resolve, bind, Except.bind, hvalue]

theorem operand_congr {frame frame' : Frame} {v : ValueId}
    (h : frame'.values[v]? = frame.values[v]?) : operand code frame' v = operand code frame v := by
  unfold operand
  rw [h]

theorem effect_arith (frame : Frame) (cells : Array Float) {op : Operator} {z left right : ValueId}
    {x y : Float} (hz : code.operation? z = some (.arith op left right))
    (hx : operand code frame left = .ok x) (hy : operand code frame right = .ok y) :
    effect code cells frame z = .ok (.define (op.apply x y)) := by
  simp [effect, hz, resolve, bind, Except.bind, hx, hy]

theorem Performs.const_or_mem {t : Tree} {v : ValueId} {vs : List ValueId}
    (h : Performs code t (.value v) vs) :
    (∃ x, code.operation? v = some (.const x)) ∨ v ∈ vs := by
  cases h with
  | number hv => exact .inl ⟨_, hv⟩
  | binary _ _ _ => exact .inr (by simp)

theorem number_executes (call : ValueId → FuncId → Run) :
    ∀ {t : Tree} {v : ValueId} {vs : List ValueId},
    Performs code t (.value v) vs → vs.Nodup → ∀ (frame : Frame) (m : Logged Memory),
    ∃ x frame' m', t.value? = some x ∧ Executes code call vs frame m frame' m' ∧
      operand code frame' v = .ok x ∧ m'.state.cells = m.state.cells
  | .number x, v, vs, h, _, frame, m => by
      cases h with
      | number hv => exact ⟨x, frame, m, rfl, .nil frame m, operand_const hv, rfl⟩
  | .binary op left right, v, vs, h, hnodup, frame, m => by
      cases h with
      | @binary _ _ _ a b z vs ws hleft hright hz =>
          obtain ⟨hvs, hrest, hapart⟩ := List.nodup_append.mp hnodup
          obtain ⟨hws, -, -⟩ := List.nodup_append.mp hrest
          obtain ⟨x, frame₁, m₁, hx, hexecutes₁, hoperand₁, hcells₁⟩ :=
            number_executes call hleft hvs frame m
          obtain ⟨y, frame₂, m₂, hy, hexecutes₂, hoperand₂, hcells₂⟩ :=
            number_executes call hright hws frame₁ m₁
          have hoperand : operand code frame₂ a = .ok x := by
            rcases Performs.const_or_mem hleft with ⟨c, hc⟩ | hmem
            · rw [operand_const hc] at hoperand₁ ⊢
              exact hoperand₁
            · rw [operand_congr (hexecutes₂.values a fun hws => ?_)]
              · exact hoperand₁
              · exact hapart a hmem a (List.mem_append_left _ hws) rfl
          have heffect := effect_arith _ m₂.state.cells hz hoperand hoperand₂
          refine ⟨op.apply x y, _, _, ?_, hexecutes₁.append (hexecutes₂.append (.define heffect)),
            operand_defined hz nofun ?_, hcells₂.trans hcells₁⟩
          · simp [Tree.value?, hx, hy]
          · exact Std.HashMap.getElem?_insert_self
  | .assign _ _, _, _, h, _, _, _ => by cases h
  | .body _, _, _, h, _, _, _ => by cases h
  | .procedure _ _, _, _, h, _, _, _ => by cases h
  | .call _, _, _, h, _, _, _ => by cases h
  | .program _, _, _, h, _, _, _ => by cases h

theorem effect_store_global {frame : Frame} {cells : Array Float} {z v p : ValueId} {g : GlobalId}
    {x : Float} (hz : code.operation? z = some (.store v p))
    (hp : code.operation? p = some (.address g)) (hx : operand code frame v = .ok x)
    (hg : g.index < cells.size) : effect code cells frame z = .ok (.setGlobal g x) := by
  simp [effect, write, hz, hp, resolve, bind, Except.bind, hx, hg]

theorem effect_store_slot (frame : Frame) (cells : Array Float) {z v p : ValueId} {x : Float}
    (hz : code.operation? z = some (.store v p)) (hp : code.operation? p = some .slot)
    (hx : operand code frame v = .ok x) (hslot : frame.slots.contains p = true) :
    effect code cells frame z = .ok (.setSlot p x) := by
  simp [effect, write, hz, hp, resolve, bind, Except.bind, hx, hslot]

theorem effect_slot (frame : Frame) (cells : Array Float) {v : ValueId}
    (hv : code.operation? v = some .slot) : effect code cells frame v = .ok .allocate := by
  simp [effect, hv, resolve, bind, Except.bind]

theorem effect_call (frame : Frame) (cells : Array Float) {v : ValueId} {f : FuncId}
    (hv : code.operation? v = some (.call f)) : effect code cells frame v = .ok (.call f) := by
  simp [effect, hv, resolve, bind, Except.bind]

def Distinct (code : Code) : Prop := ∀ {g g' global global'}, code.global? g = some global →
  code.global? g' = some global' → global.name = global'.name → g = g'

theorem Mirrors.set {cells : Array Float} {store : Store} {g : GlobalId} {global : Global}
    (h : Mirrors code cells store) (hdistinct : Distinct code)
    (hg : code.global? g = some global) (x : Float) :
    Mirrors code (cells.setIfInBounds g.index x) (store.set global.name x) := by
  refine ⟨by simpa using h.1, fun {g' global'} hg' => ?_⟩
  rw [Array.getElem?_setIfInBounds]
  by_cases hsame : g.index = g'.index
  · obtain ⟨i⟩ := g
    obtain ⟨j⟩ := g'
    cases hsame
    rw [hg] at hg'
    cases hg'
    have hlt : i < cells.size := by
      rw [h.1]
      exact global_lt hg
    simp [hlt, Store.set]
  · have hname : global'.name ≠ global.name := fun heq =>
      hsame (congrArg GlobalId.index (hdistinct hg hg' heq.symm))
    rw [if_neg hsame, Store.set, if_neg hname]
    exact h.2 hg'

section

variable {procedures : String → Trace}

def CallsSimulated (code : Code) (limit : Nat) (call : ValueId → FuncId → Run)
    (procedures : String → Trace) : Prop :=
  ∀ v f {function m store}, code.func? f = some function → Mirrors code m.state.cells store →
    Follows code limit store (procedures function.name) (call v f m)

def TreeSimulated (code : Code) (limit : Nat) (call : ValueId → FuncId → Run)
    (procedures : String → Trace) (t : Tree) : Prop :=
  ∀ {l vs frame m store}, Performs code t l vs → vs.Nodup → Mirrors code m.state.cells store →
    Simulated code limit call vs frame m store (trace procedures t)

def ItemsSimulated (code : Code) (limit : Nat) (call : ValueId → FuncId → Run)
    (procedures : String → Trace) (items : List Tree) : Prop :=
  ∀ {anchor vs frame m store}, PerformsAll code anchor items vs → vs.Nodup →
    code.operation? anchor = some .slot → frame.slots.contains anchor = true →
    Mirrors code m.state.cells store →
    Simulated code limit call vs frame m store (traceAll procedures items)

theorem trace_of_numeric {t : Tree} (h : t.isNumeric = true) : trace procedures t = {} := by
  cases t with
  | number | binary => rw [trace]
  | program | assign | body | procedure | call => cases h

theorem binary_simulated (op : Operator) (left right : Tree) :
    TreeSimulated code limit call procedures (.binary op left right) := by
  intro l vs frame m store h hnodup hstore
  obtain ⟨v, rfl⟩ := h.value_of_numeric rfl
  obtain ⟨x, frame', m', -, hexecutes, -, hcells⟩ := number_executes call h hnodup frame m
  rw [trace]
  exact ⟨frame', m', hexecutes, by rw [hcells]; exact hstore⟩

theorem assign_simulated (hdistinct : Distinct code) (name : String) (value : Tree) :
    TreeSimulated code limit call procedures (.assign name value) := by
  intro l vs frame m store h hnodup hstore
  cases h with
  | @assign _ _ v g global p z vs hvalue hg hname hp hz =>
      obtain ⟨x, frame', m', hx, hexecutes, hoperand, hcells⟩ :=
        number_executes call hvalue (List.nodup_append.mp hnodup).1 frame m
      rw [← hcells] at hstore
      have hlt : g.index < m'.state.cells.size := by
        rw [hstore.1]
        exact global_lt hg
      have heffect := effect_store_global hz hp hoperand hlt
      rw [trace, hx]
      subst hname
      exact ⟨_, _, hexecutes.append (.setGlobal heffect), hstore.set hdistinct hg x⟩

theorem body_simulated {items : List Tree}
    (hitems : ItemsSimulated code limit call procedures items) :
    TreeSimulated code limit call procedures (.body items) := by
  intro l vs frame m store h hnodup hstore
  cases h with
  | @body _ anchor vs hanchor hperforms =>
      rw [trace]
      exact .after (.allocate (effect_slot _ _ hanchor)) (hitems hperforms
        (List.nodup_cons.mp hnodup).2 hanchor (contains_setSlot (.inl rfl)) hstore)

theorem call_simulated (hcall : CallsSimulated code limit call procedures) (name : String) :
    TreeSimulated code limit call procedures (.call name) := by
  intro l vs frame m store h hnodup hstore
  cases h with
  | @call _ f function v hf hname hv =>
      have hfollows := hcall v f (m := ticked m) hf hstore
      have heffect := effect_call frame m.state.cells hv
      rw [trace, ← hname]
      rcases hfollows.cases with ⟨writes, result, m', htrace, hrun, hcells⟩ |
        ⟨writes, name', m', htrace, hrun, hcells⟩
      · rw [htrace]
        exact ⟨_, m', .called heffect hrun, hcells⟩
      · rw [htrace]
        exact fun rest =>
          ⟨m', (runBody_cons_ok heffect call rest).trans (bind_of_error hrun), hcells⟩

theorem cons_simulated {item : Tree} {rest : List Tree}
    (hitem : TreeSimulated code limit call procedures item)
    (hrest : ItemsSimulated code limit call procedures rest) :
    ItemsSimulated code limit call procedures (item :: rest) := by
  intro anchor vs frame m store h hnodup hanchor hslot hstore
  rw [traceAll]
  cases h with
  | @number _ _ _ v z vs ws hnumeric hperforms hz hperformsRest =>
      obtain ⟨hvs, hrestNodup, -⟩ := List.nodup_append.mp hnodup
      obtain ⟨x, frame', m', -, hexecutes, hoperand, hcells⟩ :=
        number_executes call hperforms hvs frame m
      have hslot' := hexecutes.slots anchor hslot
      have heffect := effect_store_slot _ m'.state.cells hz hanchor hoperand hslot'
      have hanchored := hexecutes.append (.setSlot heffect)
      rw [← hcells] at hstore
      rw [trace_of_numeric hnumeric, List.append_cons]
      exact .after hanchored (hrest hperformsRest (List.nodup_cons.mp hrestNodup).2 hanchor
        (contains_setSlot (.inr hslot')) hstore)
  | @other _ _ _ l vs ws hnumeric hperforms hperformsRest =>
      obtain ⟨hvs, hrestNodup, -⟩ := List.nodup_append.mp hnodup
      refine (hitem hperforms hvs hstore).andThen fun frame' m' hexecutes hstore' => ?_
      exact hrest hperformsRest hrestNodup hanchor (hexecutes.slots anchor hslot) hstore'

mutual

theorem trace_simulated (hdistinct : Distinct code)
    (hcall : CallsSimulated code limit call procedures) :
    ∀ t, TreeSimulated code limit call procedures t
  | .number x => fun h _ hstore => by
      cases h
      exact ⟨_, _, .nil _ _, hstore⟩
  | .binary op left right => binary_simulated op left right
  | .assign name value => assign_simulated hdistinct name value
  | .body items => body_simulated (traceAll_simulated hdistinct hcall items)
  | .procedure name inner => fun h _ hstore => by
      cases h
      exact ⟨_, _, .nil _ _, hstore⟩
  | .call name => call_simulated hcall name
  | .program items => fun h _ _ => by cases h

theorem traceAll_simulated (hdistinct : Distinct code)
    (hcall : CallsSimulated code limit call procedures) :
    ∀ items, ItemsSimulated code limit call procedures items
  | [] => fun h _ _ _ hstore => by
      cases h
      exact ⟨_, _, .nil _ _, hstore⟩
  | item :: rest => cons_simulated (trace_simulated hdistinct hcall item)
      (traceAll_simulated hdistinct hcall rest)

end

end

section

variable {c : Compiler} {config : Config} {items : List Tree} {procedures : String → Trace}

theorem nodup_body (hc : c.Coherent) {b : BlockId} {block : Block}
    (hb : c.draft.code.block? b = some block) : block.body.toList.Nodup :=
  (hc.ordered.ascending hb).imp fun hlt heq => by
    rw [heq] at hlt
    exact absurd hlt (Nat.lt_irrefl _)

theorem distinct_of_coherent (hc : c.Coherent) : Distinct c.draft.code :=
  fun hg hg' hname => hc.globals_list.name_inj hg hg' hname

theorem procedure_follows (hc : c.Coherent)
    (hcall : CallsSimulated c.draft.code limit call procedures) {name : String} {inner : Tree}
    {b : BlockId} {block : Block} (h : Procedure c.draft.code name inner b)
    (hb : c.draft.code.block? b = some block) (frame : Frame) (m : Logged Memory) {store : Store}
    (hstore : Mirrors c.draft.code m.state.cells store) :
    Follows c.draft.code limit store (trace procedures inner)
      (runBody c.draft.code call block.body.toList frame m) := by
  cases h with
  | @intro _ _ vs last _ _ hb' hbody hinner hlast =>
      rw [hb] at hb'
      cases hb'
      have hnodup := nodup_body hc hb
      rw [hbody] at hnodup ⊢
      have hsimulated :
          Simulated c.draft.code limit call vs frame m store (trace procedures inner) :=
        trace_simulated (distinct_of_coherent hc) hcall inner hinner (List.nodup_append.mp hnodup).1
          hstore
      rcases hsimulated.run [last] with ⟨writes, frame', m', htrace, hcells, hrun⟩ |
        ⟨writes, name', m', htrace, hcells, hrun⟩
      · have heffect : effect c.draft.code m'.state.cells frame' last = .ok (.leave none) := by
          simp [effect, hlast, resolve, bind, Except.bind]
        rw [htrace, hrun, runBody_cons_ok heffect]
        exact hcells
      · rw [htrace, hrun]
        exact ⟨rfl, hcells⟩

theorem runBody_load_ret {code : Code} {value pointer last : ValueId} {g : GlobalId} {x : Float}
    (hvalue : code.operation? value = some (.load pointer))
    (hpointer : code.operation? pointer = some (.address g))
    (hlast : code.operation? last = some (.ret (some value))) {m : Logged Memory}
    (hx : m.state.cells[g.index]? = some x) (frame : Frame) :
    runBody code call [value, last] frame m = .ok (some x) (ticked (ticked m)) := by
  have hload : effect code m.state.cells frame value = .ok (.define x) := by
    simp [effect, read, hvalue, hpointer, resolve, bind, Except.bind, hx]
  have hoperand : operand code (frame.advance.define value x) value = .ok x :=
    operand_defined hvalue (fun _ hconst => by cases hconst) Std.HashMap.getElem?_insert_self
  have hleave : effect code (ticked m).state.cells (frame.advance.define value x) last =
      .ok (.leave (some x)) := by
    simp [effect, hlast, resolve, bind, Except.bind, hoperand]
  exact ((Executes.define hload).run [last]).trans (runBody_cons_ok hleave call [])

theorem entry_follows (hc : c.Coherent)
    (hcall : CallsSimulated c.draft.code limit call procedures)
    (h : Compiled c.draft.code config items) {block : Block}
    (hb : c.draft.code.block? ⟨0⟩ = some block) (frame : Frame) (m : Logged Memory) {store : Store}
    (hstore : Mirrors c.draft.code m.state.cells store) :
    Follows c.draft.code limit store (traceAll procedures items)
      (runBody c.draft.code call block.body.toList frame m) ∧
    ∀ {result m'}, runBody c.draft.code call block.body.toList frame m = .ok result m' →
      result = some (store.record (traceAll procedures items).writes config.result) := by
  cases h with
  | @intro _ _ global vs anchor pointer value last g _ _ _ hb' hbody hanchor hitems hg hresult
      hpointer hvalue hlast _ _ =>
      rw [hb] at hb'
      cases hb'
      have hnodup := nodup_body hc hb
      rw [hbody] at hnodup ⊢
      have hrest := (List.nodup_cons.mp hnodup).2
      have hsimulated := Simulated.after (.allocate (effect_slot frame _ hanchor))
        (traceAll_simulated (distinct_of_coherent hc) hcall items hitems
          (List.nodup_append.mp hrest).1 hanchor (contains_setSlot (.inl rfl)) hstore)
      rcases hsimulated.run [value, last] with ⟨writes, frame', m', htrace, hcells, hrun⟩ |
        ⟨writes, name, m', htrace, hcells, hrun⟩
      · replace hrun : runBody c.draft.code call (anchor :: (vs ++ [value, last])) frame m =
            .ok (some (store.record writes global.name)) (ticked (ticked m')) :=
          hrun.trans (runBody_load_ret hvalue hpointer hlast (hcells.2 hg) frame')
        rw [htrace, hrun]
        refine ⟨hcells, fun heq => ?_⟩
        cases heq
        rw [hresult]
      · replace hrun :
            runBody c.draft.code call (anchor :: (vs ++ [value, last])) frame m = _ := hrun
        rw [htrace, hrun]
        exact ⟨⟨rfl, hcells⟩, fun heq => by cases heq⟩

theorem lookup_of_mem {defs : List (String × Tree)} {name : String} {inner : Tree}
    (hnodup : (defs.map Prod.fst).Nodup) (h : (name, inner) ∈ defs) :
    defs.lookup name = some inner := by
  induction defs with
  | nil => cases h
  | cons d defs ih =>
      obtain ⟨hd, hdefs⟩ := List.nodup_cons.mp hnodup
      rw [List.lookup_cons]
      rcases List.mem_cons.mp h with rfl | h
      · simp
      · have hne : name ≠ d.1 := by
          rintro rfl
          exact hd (List.mem_map.mpr ⟨_, h, rfl⟩)
        rw [beq_eq_false_iff_ne.mpr hne]
        exact ih hdefs h

theorem compiled_cases (hc : c.Coherent) (h : Compiled c.draft.code config items) {f : FuncId}
    {function : Func} (hf : c.draft.code.func? f = some function) :
    (f = ⟨0⟩ ∧ function.name = config.entry) ∨ (function.name ≠ config.entry ∧
      ∃ inner, (function.name, inner) ∈ definitionsAll items ∧
        Procedure c.draft.code function.name inner ⟨f.index⟩) := by
  cases h with
  | intro hf₀ hname₀ _ _ _ _ _ _ _ _ _ _ _ hadded =>
      by_cases hzero : f.index = 0
      · obtain ⟨i⟩ := f
        subst hzero
        rw [hf₀] at hf
        cases hf
        exact .inl ⟨rfl, hname₀⟩
      · right
        have hlt : f.index < c.draft.code.blocks.size := by
          rw [hc.paired]
          exact func_lt hf
        obtain ⟨⟨name, inner⟩, hd, hprocedure⟩ := hadded ⟨f.index⟩ (Nat.pos_of_ne_zero hzero) hlt
        have hname : function.name = name := by
          cases hprocedure with
          | intro hf' hname' _ _ _ _ =>
              rw [hf] at hf'
              cases hf'
              exact hname'
        subst hname
        refine ⟨fun hentry => hzero ?_, inner, hd, hprocedure⟩
        exact congrArg FuncId.index (hc.functions_list.name_inj hf hf₀ (hentry.trans hname₀.symm))

theorem nested_simulated (hc : c.Coherent) (h : Compiled c.draft.code config items)
    (hnodup : ((definitionsAll items).map Prod.fst).Nodup) (limit frames : Nat) :
    CallsSimulated c.draft.code limit (nested c.draft.code limit frames)
      (traceAt config.entry limit items frames) := by
  -- The limit is the same in the code as in the tree.
  induction frames using frames_induction limit with
  | deep frames hlimit =>
      intro v f function m store hf hstore
      rw [traceAt, nested_of_not_lt hlimit, if_neg hlimit]
      refine ⟨?_, hstore⟩
      simp [tooDeep, hf]
  | call frames hlimit hcall =>
      intro v f function m store hf hstore
      obtain ⟨block, hb⟩ := hc.block_of_func hf
      rw [traceAt, nested_of_lt hlimit, if_pos hlimit, runEntered_eq hf (hc.owns hf) hb]
      rcases compiled_cases hc h hf with ⟨rfl, hname⟩ | ⟨hname, inner, hd, hprocedure⟩
      · rw [if_pos hname]
        exact (entry_follows hc hcall h hb _
          { m with log := m.log.push (.entering function.name) } hstore).1
      · rw [if_neg hname, lookup_of_mem hnodup hd]
        exact procedure_follows hc hcall hprocedure hb _ _ hstore

theorem mirrors_blank (hc : c.Coherent) :
    Mirrors c.draft.code (blank c.draft.code).cells fun _ => 0.0 := by
  refine ⟨by simp [blank], fun {g global} hg => ?_⟩
  have hglobal : c.draft.code.globals[g.index]? = some global := hg
  simp [blank, hglobal, hc.ordered.zeroed hg]

inductive Concludes (code : Code) (limit : Nat) (result : String) (store : Store) :
    Option Halt → EStateM.Result Stop (Logged Machine) Float → Prop
  | number {log : Log} {memory : Memory} (h : Mirrors code memory.cells store) :
      Concludes code limit result store none (.ok (store result) ⟨log, code, limit, memory⟩)
  | depth {name : String} {log : Log} {memory : Memory} (h : Mirrors code memory.cells store) :
      Concludes code limit result store (some (.tooDeep name))
        (.error (.error (.backend (.trapped (.depth limit name)))) ⟨log, code, limit, memory⟩)

theorem run_concludes (hc : c.Coherent) (h : Compiled c.draft.code config items)
    (hnodup : ((definitionsAll items).map Prod.fst).Nodup) (limit : Nat) (log : Log)
    {memory : Memory} {store : Store} (hstore : Mirrors c.draft.code memory.cells store) :
    Concludes c.draft.code limit config.result
      (store.record (traceRun config.entry limit items).writes)
      (traceRun config.entry limit items).halt
      (run config.entry ⟨log, c.draft.code, limit, memory⟩) := by
  have hcall := nested_simulated hc h hnodup limit 1
  obtain ⟨function, hf, hname, hreturns⟩ := h.entry
  obtain ⟨block, hb⟩ := hc.block_of_func hf
  have hfind : c.draft.code.findFunction? config.entry = some ⟨0⟩ := by
    rw [hc.findFunction?_eq]
    exact hc.functions_iff.mpr ⟨function, hf, hname⟩
  have hrun : callFunction c.draft.code limit ⟨0⟩ ⟨log, memory⟩ =
      runBody c.draft.code (nested c.draft.code limit 1) block.body.toList
        { func := ⟨0⟩, block := ⟨0⟩ } ⟨log.push (.entering function.name), memory⟩ := by
    rw [callFunction_eq]
    exact runEntered_eq hf (hc.owns hf) hb
  obtain ⟨hfollows, hresult⟩ := entry_follows hc hcall h hb { func := ⟨0⟩, block := ⟨0⟩ }
    ⟨log.push (.entering function.name), memory⟩ hstore
  rw [← hrun] at hfollows hresult
  rw [← traceRun] at hfollows hresult
  rcases hfollows.cases with ⟨writes, result, m, htrace, hend, hcells⟩ |
    ⟨writes, name, m, htrace, hend, hcells⟩
  · rw [hresult hend] at hend
    rw [run_number_ok hfind hf hreturns hend, htrace]
    exact .number hcells
  · rw [run_number_error hfind hf hreturns hend, htrace]
    exact .depth hcells

theorem globalValue?_of_mirrors (hc : c.Coherent) {memory : Memory} {store : Store}
    (h : Mirrors c.draft.code memory.cells store) (limit : Nat) (n : String) :
    globalValue? ⟨c.draft.code, limit, memory⟩ n =
      (c.draft.code.findGlobal? n).map fun _ => store n := by
  unfold globalValue?
  cases hfind : c.draft.code.findGlobal? n with
  | none => rfl
  | some g =>
      rw [hc.findGlobal?_eq] at hfind
      obtain ⟨global, hg, rfl⟩ := hc.globals_iff.mp hfind
      exact h.2 hg

namespace Concludes

variable {c' : Compiler} {result : String} {store : Store} {halt : Option Halt}

theorem alike (hc : c.Coherent) (hc' : c'.Coherent)
    (hnames : ∀ n, (c.draft.code.findGlobal? n).isSome = (c'.draft.code.findGlobal? n).isSome)
    {r r' : EStateM.Result Stop (Logged Machine) Float}
    (h : Concludes c.draft.code limit result store halt r)
    (h' : Concludes c'.draft.code limit result store halt r') : AnswersAlike limit r r' := by
  have hglobals {memory memory' : Memory} (hcells : Mirrors c.draft.code memory.cells store)
      (hcells' : Mirrors c'.draft.code memory'.cells store) (n : String) :
      globalValue? ⟨c.draft.code, limit, memory⟩ n =
        globalValue? ⟨c'.draft.code, limit, memory'⟩ n := by
    rw [globalValue?_of_mirrors hc hcells, globalValue?_of_mirrors hc' hcells']
    have hname := hnames n
    cases hfind : c.draft.code.findGlobal? n <;> cases hfind' : c'.draft.code.findGlobal? n <;>
      simp_all
  cases h with
  | number hcells =>
      cases h' with
      | number hcells' => exact .number _ (hglobals hcells hcells')
  | depth hcells =>
      cases h' with
      | depth hcells' => exact .depth _ (hglobals hcells hcells')

theorem final {entry : String} {l : Logged Machine}
    (h : Concludes code limit result store halt (run entry l)) : ∃ log memory,
      (run entry).final l = ⟨log, code, limit, memory⟩ ∧ Mirrors code memory.cells store := by
  generalize hrun : run entry l = r at h
  cases h with
  | number hcells => exact ⟨_, _, final_of_ok hrun, hcells⟩
  | depth hcells => exact ⟨_, _, final_of_error hrun, hcells⟩

end Concludes

def rerun (entry : String) : Nat → Logged Machine → Logged Machine
  | 0, l => l
  | n + 1, l => (run entry).final (rerun entry n l)

theorem rerun_mirrors (hc : c.Coherent) (h : Compiled c.draft.code config items)
    (hnodup : ((definitionsAll items).map Prod.fst).Nodup) (limit n : Nat) (log : Log) :
    ∃ log' memory store,
      rerun config.entry n ⟨log, c.draft.code, limit, blank c.draft.code⟩ =
        ⟨log', c.draft.code, limit, memory⟩ ∧
      Mirrors c.draft.code memory.cells store ∧
      store.record (traceRun config.entry limit items).writes =
        Store.record (fun _ => 0.0) (traceRun config.entry limit items).writes := by
  induction n with
  | zero => exact ⟨log, _, _, rfl, mirrors_blank hc, rfl⟩
  | succ n ih =>
      obtain ⟨log', memory, store, hmachine, hstore, hrecord⟩ := ih
      obtain ⟨log'', memory', hfinal, hstore'⟩ :=
        (run_concludes hc h hnodup limit log' hstore).final
      rw [hrecord] at hstore'
      exact ⟨log'', memory', _, by rw [rerun, hmachine, hfinal], hstore', Store.record_record ..⟩

end

end Machine

namespace Compiler

open Niladic.Action Niladic.Tree

/-- Runs of generated code on one machine all return the same number, or the limit stops all of them
at the same call, and all leave the same numbers in the globals. -/
theorem reruns_answer_alike {config : Config} {root : Option Tree} {name : String} {depth : Nat}
    {log : Log} {s : Logged Compiler}
    (h : generate ⟨log, fresh config root name depth⟩ = .ok () s) (limit n : Nat) (log' : Log) :
    Machine.AnswersAlike limit
      (Machine.run config.entry
        ⟨log', s.state.draft.code, limit, Machine.blank s.state.draft.code⟩)
      (Machine.run config.entry (Machine.rerun config.entry n
        ⟨log', s.state.draft.code, limit, Machine.blank s.state.draft.code⟩)) := by
  obtain ⟨items, rfl⟩ := root_of_generate_fresh h
  obtain ⟨haccept, hcompiled⟩ := generate_fresh_ok h
  obtain ⟨hnodup, -⟩ := definitions_of_acceptRoot haccept
  have hc := (generate_advances.of_ok h (fresh_coherent ..)).coherent
  obtain ⟨log'', memory, store, hmachine, hstore, hrecord⟩ :=
    Machine.rerun_mirrors hc hcompiled hnodup limit n log'
  have hconcludes := Machine.run_concludes hc hcompiled hnodup limit log'' hstore
  rw [hrecord] at hconcludes
  rw [hmachine]
  exact (Machine.run_concludes hc hcompiled hnodup limit log' (Machine.mirrors_blank hc)).alike hc hc
    (fun _ => rfl) hconcludes

theorem endless_reruns_answer_alike :
    ∃ s, generate ⟨#[], fresh {} (some (.program [.assign "x" (.number 1), .procedure "p" (.body
        [.assign "x" (.number 2), .call "run"]), .call "p"])) "m" 4⟩ = .ok () s ∧
      Machine.AnswersAlike 4
        (Machine.run "run" ⟨#[], s.state.draft.code, 4, Machine.blank s.state.draft.code⟩)
        (Machine.run "run" (Machine.rerun "run" 2
          ⟨#[], s.state.draft.code, 4, Machine.blank s.state.draft.code⟩)) := by
  have houtcome : generate.outcome ⟨#[], fresh {} (some (.program [.assign "x" (.number 1),
      .procedure "p" (.body [.assign "x" (.number 2), .call "run"]), .call "p"])) "m" 4⟩ =
        .ok () := by
    decide +kernel
  obtain ⟨s, h⟩ := of_outcome_ok houtcome
  exact ⟨s, h, reruns_answer_alike h 4 2 #[]⟩

end Compiler

end Niladic
