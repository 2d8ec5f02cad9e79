import Niladic.CommandLine.Run
import Niladic.Proofs.Evaluation
import Niladic.Proofs.Parsing
import Niladic.Proofs.Soundness

namespace Niladic

namespace Tree

structure Plain (t : Tree) : Prop where
  numeric : t.isNumeric = true
  accepted : ∀ names, t.accept names = .ok names
  nameless : t.definitions = [] ∧ t.assigned = []

theorem plain_number (x : Float) : Plain (.number x) where
  numeric := rfl
  accepted _ := by rw [accept]
  nameless := ⟨by rw [definitions], by rw [assigned]⟩

theorem Plain.binary {left right : Tree} (hleft : left.Plain) (hright : right.Plain)
    (op : Operator) : Plain (.binary op left right) where
  numeric := rfl
  accepted names := by
    rw [accept, hleft.accepted, hleft.numeric]
    change (accept names right >>= _) = _
    rw [hright.accepted, hright.numeric]
    rfl
  nameless := by
    rw [definitions, assigned, hleft.nameless.1, hleft.nameless.2, hright.nameless.1,
      hright.nameless.2]
    exact ⟨rfl, rfl⟩

theorem IsExpression.plain {t : Tree} (h : t.IsExpression) : t.Plain := by
  induction h with
  | number x => exact plain_number x
  | binary op _ _ hleft hright => exact hleft.binary hright op

theorem Plain.leaves {t : Tree} (h : t.Plain) : t.leaves = .value := by
  cases t with
  | number | binary => rfl
  | _ => cases h.numeric

inductive Misnamed : Error → Prop
  | duplicate (kind : SymbolKind) (name : String) : Misnamed (.duplicate kind name)
  | unknown (name : String) : Misnamed (.notFound .function name)

theorem misnamed_of_addGlobal {names : Names} {n : String} {e : Error}
    (h : names.addGlobal n = .error e) : Misnamed e := by
  unfold Names.addGlobal at h
  split at h
  · cases h
  · split at h
    · cases h
      exact .duplicate _ _
    · cases h

theorem misnamed_of_addFunction {names : Names} {n : String} {e : Error}
    (h : names.addFunction n = .error e) : Misnamed e := by
  unfold Names.addFunction at h
  split at h
  · cases h
    exact .duplicate _ _
  · split at h
    · cases h
      exact .duplicate _ _
    · cases h

end Tree

namespace Grammar

open Niladic.Tree

theorem Expr.plain (e : Expr) : e.tree.Plain := e.isExpression.plain

theorem Item.leaves_ne_void (item : Item) : item.tree.leaves ≠ .void := by
  cases item with
  | expr value => simp [Item.tree, value.plain.leaves]
  | _ => simp [Item.tree, Tree.leaves]

mutual

theorem Item.misnamed : ∀ (item : Item) {names : Names} {e : Error},
    item.tree.accept names = .error e → Misnamed e
  | .procedure name items, names, e, h => by
      rw [Item.tree, accept, bind_error_iff] at h
      rcases h with h | ⟨names', -, h⟩
      · exact misnamed_of_addFunction h
      · rw [require_seq_error_iff] at h
        rcases h with ⟨hkind, -⟩ | ⟨-, h⟩
        · cases hkind
        · rw [accept] at h
          exact misnamedAll items h
  | .save value name, names, e, h => by
      rw [Item.tree, accept, bind_error_iff] at h
      rcases h with h | ⟨names', -, h⟩
      · exact misnamed_of_addGlobal h
      · rw [value.plain.accepted, value.plain.numeric] at h
        cases h
  | .call name, names, e, h => by
      rw [Item.tree, accept, require_seq_error_iff] at h
      rcases h with ⟨-, rfl⟩ | ⟨-, h⟩
      · exact .unknown name
      · cases h
  | .expr value, names, e, h => by
      rw [Item.tree, value.plain.accepted] at h
      cases h

theorem misnamedAll : ∀ (items : List Item) {names : Names} {e : Error},
    acceptAll names (treeAll items) = .error e → Misnamed e
  | [], names, e, h => by
      rw [treeAll, acceptAll] at h
      cases h
  | item :: rest, names, e, h => by
      rw [treeAll, acceptAll, bind_error_iff] at h
      rcases h with h | ⟨names', -, h⟩
      · exact item.misnamed h
      · exact misnamedAll rest h

end

theorem treeAll_eq_map (items : List Item) : treeAll items = items.map Item.tree := by
  induction items with
  | nil => rfl
  | cons item rest ih => rw [treeAll, ih, List.map_cons]

theorem getLast?_leaves_ne_void (items : List Item) :
    (treeAll items).getLast?.map Tree.leaves ≠ some .void := by
  rw [treeAll_eq_map, List.getLast?_map, Option.map_map]
  intro h
  obtain ⟨item, -, hvoid⟩ := Option.map_eq_some_iff.mp h
  exact item.leaves_ne_void hvoid

theorem misnamed_of_acceptRoot {config : Config} {item : Item} {rest : List Item} {e : Error}
    (h : acceptRoot config (some (.program (treeAll (item :: rest)))) = .error e) :
    Misnamed e := by
  rw [treeAll, acceptRoot_program, acceptItems, bind_error_iff] at h
  rcases h with h | ⟨names, -, h⟩
  · exact misnamedAll (item :: rest) h
  · rw [bind_error_iff] at h
    rcases h with h | ⟨names', -, h⟩
    · exact misnamed_of_addGlobal h
    · have hlast := getLast?_leaves_ne_void (item :: rest)
      rw [treeAll, ← bne_iff_ne] at hlast
      rw [hlast] at h
      cases h

end Grammar

namespace Source

open Niladic.Action

variable {σ : Type} {text : String} {l l' : Logged σ}

theorem tokenize_ok {tokens : List Placed} (h : tokenize text l = .ok tokens l') :
    Token.ofText text = .ok tokens := by
  unfold tokenize at h
  cases htokens : Token.ofText text with
  | error e =>
      simp only [htokens] at h
      cases h
  | ok tokens' =>
      simp only [htokens] at h
      cases h
      rfl

theorem parse_ok {t : Tree} (h : parse text l = .ok t l') :
    ∃ tokens items, Token.ofText text = .ok tokens ∧ Grammar.tokensAll items = word tokens ∧
      t = .program (Grammar.treeAll items) := by
  obtain ⟨tokens, l₁, htokenize, htokens⟩ := bind_eq_ok h
  cases htree : Tree.ofTokens tokens with
  | error e =>
      simp only [parseTokens, htree] at htokens
      cases htokens
  | ok t' =>
      simp only [parseTokens, htree] at htokens
      cases htokens
      obtain ⟨items, hword, -, rfl⟩ :=
        Reading.run_start_eq_ok_iff.mp (Reading.readAll_eq_ok_iff.mp htree)
      exact ⟨tokens, items, tokenize_ok htokenize, hword, rfl⟩

theorem parse_error {stop : Stop} (h : parse text l = .error stop l') :
    ∃ e, stop = .error (.source e) := by
  rcases bind_eq_error h with h | ⟨tokens, l₁, -, h⟩
  · cases htokens : Token.ofText text with
    | ok tokens =>
        simp only [tokenize, htokens] at h
        cases h
    | error e =>
        simp only [tokenize, htokens] at h
        cases h
        exact ⟨e, rfl⟩
  · cases htree : Tree.ofTokens tokens with
    | ok t =>
        simp only [parseTokens, htree] at h
        cases h
    | error e =>
        simp only [parseTokens, htree] at h
        cases h
        exact ⟨e, rfl⟩

end Source

namespace Compiler

open Niladic.Action Niladic.Tree

theorem runProgram_evaluates {config : Config} {items : List Tree} {log : Log} {s : Logged Compiler}
    (h : generate ⟨log, ofConfig config (some (.program items))⟩ = .ok () s) :
    (∃ store, evaluate config items = .ok store ∧
      runProgram.outcome s = .ok (Number.toResult (store config.result))) ∨
    ∃ callee, evaluate config items = .error (.tooDeep callee) ∧
      runProgram.outcome s = .error (.error (.backend (.trapped (.depth config.depth callee)))) := by
  rw [ofConfig_eq_fresh] at h
  obtain ⟨haccept, hcompiled⟩ := generate_fresh_ok h
  have hlater := generate_advances.of_ok h (fresh_coherent ..)
  obtain ⟨l, houtcome⟩ := runProgram_outcome (generated_of_generate h)
  rw [hlater.config, hlater.depth] at houtcome
  rcases Machine.run_compiled hlater.coherent hcompiled (definitions_of_acceptRoot haccept).1 l with
    ⟨store, heval, hrun⟩ | ⟨callee, heval, hrun⟩
  · exact .inl ⟨store, heval, by rw [houtcome]; exact congrArg _ hrun⟩
  · exact .inr ⟨callee, heval, by rw [houtcome]; exact congrArg _ hrun⟩

theorem generate_run_evaluates {items : List Tree} (log : Log)
    (h : acceptRoot {} (some (.program items)) = .ok ()) :
    ∃ s, generate ⟨log, ofConfig {} (some (.program items))⟩ = .ok () s ∧
      ((∃ store, evaluate {} items = .ok store ∧
        runProgram.outcome s = .ok (Number.toResult (store "ret"))) ∨
      ∃ callee, evaluate {} items = .error (.tooDeep callee) ∧
        runProgram.outcome s = .error (.error (.backend (.trapped (.depth 100000 callee))))) := by
  obtain ⟨s, -, hgenerate, -⟩ := generate_fresh_accepted
    ({} : Config).name ({} : Config).depth log h
  rw [← ofConfig_eq_fresh] at hgenerate
  exact ⟨s, hgenerate, runProgram_evaluates hgenerate⟩

end Compiler

namespace CommandLine

open Niladic.Action Niladic.Tree

inductive Foreseen : Except Stop Tree → Except Stop Int → Prop
  | answer {items : List Tree} {store : Store}
      (haccept : acceptRoot {} (some (.program items)) = .ok ())
      (heval : evaluate {} items = .ok store) :
      Foreseen (.ok (.program items)) (.ok (Number.toResult (store "ret")))
  | unreadable (e : SourceError) :
      Foreseen (.error (.error (.source e))) (.error (.error (.source e)))
  | noItems : Foreseen (.ok (.program [])) (.error (.error (.structural .noItems)))
  | duplicate {items : List Tree} {kind : SymbolKind} {name : String}
      (haccept : acceptRoot {} (some (.program items)) = .error (.duplicate kind name)) :
      Foreseen (.ok (.program items)) (.error (.error (.duplicate kind name)))
  | unknown {items : List Tree} {name : String}
      (haccept : acceptRoot {} (some (.program items)) = .error (.notFound .function name)) :
      Foreseen (.ok (.program items)) (.error (.error (.notFound .function name)))
  | tooDeep {items : List Tree} {callee : String}
      (haccept : acceptRoot {} (some (.program items)) = .ok ())
      (heval : evaluate {} items = .error (.tooDeep callee)) :
      Foreseen (.ok (.program items))
        (.error (.error (.backend (.trapped (.depth 100000 callee)))))

theorem Foreseen.structural_iff {parsed : Except Stop Tree} {result : Except Stop Int}
    (h : Foreseen parsed result) :
    (∃ fault, result = .error (.error (.structural fault))) ↔ parsed = .ok (.program []) := by
  cases h with
  | noItems => exact ⟨fun _ => rfl, fun _ => ⟨_, rfl⟩⟩
  | unreadable e =>
      constructor
      · rintro ⟨fault, ⟨⟩⟩
      · intro hparsed
        cases hparsed
  | answer haccept | duplicate haccept | unknown haccept | tooDeep haccept =>
      -- An empty program is never accepted, and is refused for having no items.
      constructor
      · rintro ⟨fault, ⟨⟩⟩
      · intro hparsed
        cases hparsed
        cases haccept

theorem result_ofResult (output : String) (x : Compile Int) (s : Logged Compiler) :
    (Report.ofResult output (x s)).result = x.outcome s := by
  unfold outcome
  cases x s <;> rfl

section

variable {m : Type → Type} [Monad m] {source : String} {log : Log} {t : Tree} {l : Logged Unit}
  {s : Logged Compiler} {stop : Stop}

theorem runSource_unreadable (host : Host m) (input : Option String) (verbose : Nat)
    (hparse : Source.parse source ⟨log, ()⟩ = .error stop l) :
    runSource host { input, verbose } source log = pure ⟨.error stop, "", l.log⟩ := by
  have hstart : start { input, verbose } source ⟨log, ()⟩ = .error stop l := bind_of_error hparse
  unfold runSource
  rw [hstart]

theorem start_parsed (input : Option String) (verbose : Nat)
    (hparse : Source.parse source ⟨log, ()⟩ = .ok t l) :
    start { input, verbose } source ⟨log, ()⟩ = .ok (Compiler.ofConfig {} (some t)) l :=
  bind_of_ok hparse

theorem runSource_refused (host : Host m) (input : Option String) (verbose : Nat)
    (hparse : Source.parse source ⟨log, ()⟩ = .ok t l)
    (hgenerate : Compiler.generate ⟨l.log, Compiler.ofConfig {} (some t)⟩ = .error stop s) :
    runSource host { input, verbose } source log = pure ⟨.error stop, "", s.log⟩ := by
  have hbuild : build { input, verbose } ⟨l.log, Compiler.ofConfig {} (some t)⟩ =
      .error stop s := bind_of_error hgenerate
  unfold runSource
  rw [start_parsed input verbose hparse]
  dsimp only
  rw [hbuild]

theorem runSource_generated (host : Host m) (input : Option String) (verbose : Nat)
    (hparse : Source.parse source ⟨log, ()⟩ = .ok t l)
    (hgenerate : Compiler.generate ⟨l.log, Compiler.ofConfig {} (some t)⟩ = .ok () s) :
    runSource host { input, verbose } source log =
      pure (Report.ofResult "" (Compiler.runProgram s)) := by
  have hbuild : build { input, verbose } ⟨l.log, Compiler.ofConfig {} (some t)⟩ = .ok "" s :=
    bind_of_ok hgenerate
  unfold runSource
  rw [start_parsed input verbose hparse]
  dsimp only
  rw [hbuild]
  rfl

end

theorem runSource_ends_as_foreseen {m : Type → Type} [Monad m] (host : Host m)
    (input : Option String) (verbose : Nat) (source : String) (log : Log) :
    ∃ report, runSource host { input, verbose } source log = pure report ∧
      Foreseen ((Source.parse source).outcome (⟨log, ()⟩ : Logged Unit)) report.result ∧
      ((∃ fault, report.result = .error (.error (.structural fault))) ↔
        (Source.parse source).outcome (⟨log, ()⟩ : Logged Unit) = .ok (.program [])) := by
  suffices h : ∃ report, runSource host { input, verbose } source log = pure report ∧
      Foreseen ((Source.parse source).outcome (⟨log, ()⟩ : Logged Unit)) report.result by
    obtain ⟨report, hrun, hforeseen⟩ := h
    exact ⟨report, hrun, hforeseen, hforeseen.structural_iff⟩
  cases hparse : Source.parse source (⟨log, ()⟩ : Logged Unit) with
  | error stop l =>
      obtain ⟨e, rfl⟩ := Source.parse_error hparse
      rw [outcome_of_error hparse]
      exact ⟨_, runSource_unreadable host input verbose hparse, .unreadable e⟩
  | ok t l =>
      obtain ⟨-, items, -, -, rfl⟩ := Source.parse_ok hparse
      rw [outcome_of_ok hparse]
      cases haccept : acceptRoot {} (some (.program (Grammar.treeAll items))) with
      | error e =>
          obtain ⟨s, hgenerate⟩ := Compiler.generate_fresh_refused
            ({} : Config).name ({} : Config).depth l.log haccept
          rw [← Compiler.ofConfig_eq_fresh] at hgenerate
          refine ⟨_, runSource_refused host input verbose hparse hgenerate, ?_⟩
          cases items with
          | nil =>
              cases haccept
              exact .noItems
          | cons item rest =>
              cases Grammar.misnamed_of_acceptRoot haccept with
              | duplicate kind name => exact .duplicate haccept
              | unknown name => exact .unknown haccept
      | ok _ =>
          obtain ⟨s, hgenerate, hrun⟩ := Compiler.generate_run_evaluates l.log haccept
          refine ⟨_, runSource_generated host input verbose hparse hgenerate, ?_⟩
          rw [result_ofResult]
          rcases hrun with ⟨store, heval, hrun⟩ | ⟨callee, heval, hrun⟩
          · rw [hrun]
            exact .answer haccept heval
          · rw [hrun]
            exact .tooDeep haccept heval

end CommandLine

end Niladic
