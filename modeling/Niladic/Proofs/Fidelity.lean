import Niladic.Compiler.Output
import Niladic.Proofs.Outcomes
import Niladic.Proofs.Twins

namespace Niladic

open Text

namespace Token

def Clean : Token → Prop
  | .name text => Plain text
  | _ => True

theorem plain_word {w : List Char} (h : ∀ c ∈ w, isWordPart c = true) : Plain (String.ofList w) := by
  intro c hc hmark
  rw [String.toList_ofList] at hc
  have hpart := h c hc
  simp only [List.mem_cons, List.not_mem_nil, or_false] at hmark
  rcases hmark with rfl | rfl | rfl <;> exact absurd hpart (by decide)

theorem clean_ofWord {w : List Char} (h : ∀ c ∈ w, isWordPart c = true) : (ofWord w).Clean := by
  unfold ofWord
  split
  · trivial
  · exact plain_word h

theorem clean_ofSymbol? {c : Char} {token : Token} (h : ofSymbol? c = some token) : token.Clean := by
  unfold ofSymbol? at h
  split at h
  · cases h
    trivial
  · cases h
    trivial
  · obtain ⟨op, -, rfl⟩ := Option.map_eq_some_iff.mp h
    trivial

theorem isWordPart_of_isWordStart {c : Char} (h : isWordStart c = true) : isWordPart c = true := by
  simp only [isWordStart, isWordPart, Bool.or_eq_true] at h ⊢
  exact h.imp_left .inl

theorem clean_cut {c : Char} {rest : List Char} {token : Token} {more : Nat}
    (h : cut c rest = .ok ⟨some token, more⟩) : token.Clean := by
  unfold cut at h
  split at h
  · cases h
  split at h
  · cases h
  split at h
  next hsymbol =>
    cases h
    exact clean_ofSymbol? hsymbol
  split at h
  · dsimp only at h
    split at h
    · cases h
      trivial
    · cases h
  split at h
  next hstart =>
    cases h
    refine clean_ofWord (List.forall_mem_cons.mpr ⟨isWordPart_of_isWordStart hstart, ?_⟩)
    exact fun d hd => List.mem_takeWhile_imp hd
  · cases h

theorem scan_clean {found tokens : List Placed} {cs : List Char} {position : Position}
    (h : scan found cs position = .ok tokens) (hfound : ∀ p ∈ found, p.token.Clean) :
    ∀ p ∈ tokens, p.token.Clean := by
  fun_induction scan found cs position with
  | case1 found position =>
      cases h
      intro p hp
      rcases List.mem_cons.mp (List.mem_reverse.mp hp) with rfl | hp
      · trivial
      · exact hfound p hp
  | case2 found position c rest fault hcut => cases h
  | case3 found position c rest more hcut next ih => exact ih h hfound
  | case4 found position c rest more next token hcut ih =>
      exact ih h (List.forall_mem_cons.mpr ⟨clean_cut hcut, hfound⟩)

end Token

namespace Grammar

mutual

theorem Item.name_mem : ∀ item : Item,
    (∀ d ∈ item.tree.definitions, Token.name d.1 ∈ item.tokens) ∧
      ∀ n ∈ item.tree.assigned, Token.name n ∈ item.tokens
  | .procedure name items => by
      obtain ⟨hdefs, hassigned⟩ := name_mem_all items
      simp only [Item.tree, Tree.definitions, Tree.assigned, Item.tokens]
      refine ⟨fun d hd => ?_, fun n hn => ?_⟩
      · rcases List.mem_cons.mp hd with rfl | hd
        · simp
        · simp [hdefs d hd]
      · simp [hassigned n hn]
  | .save value name => by
      simp only [Item.tree, Tree.definitions, Tree.assigned, value.plain.nameless]
      simp [Item.tokens]
  | .call name => by simp [Item.tree, Tree.definitions, Tree.assigned]
  | .expr value => by simp [Item.tree, value.plain.nameless]

theorem name_mem_all : ∀ items : List Item,
    (∀ d ∈ Tree.definitionsAll (treeAll items), Token.name d.1 ∈ tokensAll items) ∧
      ∀ n ∈ Tree.assignedAll (treeAll items), Token.name n ∈ tokensAll items
  | [] => by simp [treeAll, Tree.definitionsAll, Tree.assignedAll]
  | item :: rest => by
      obtain ⟨hdefs, hassigned⟩ := item.name_mem
      obtain ⟨hdefs', hassigned'⟩ := name_mem_all rest
      simp only [treeAll, Tree.definitionsAll, Tree.assignedAll, tokensAll, List.mem_append]
      exact ⟨fun d hd => hd.imp (hdefs d) (hdefs' d), fun n hn => hn.imp (hassigned n) (hassigned' n)⟩

end

end Grammar

theorem Source.parse_clean {σ : Type} {text : String} {l l' : Logged σ} {t : Tree}
    (h : parse text l = .ok t l') : ∃ items, t = .program items ∧
      (∀ d ∈ Tree.definitionsAll items, Plain d.1) ∧ ∀ n ∈ Tree.assignedAll items, Plain n := by
  obtain ⟨tokens, items, htokens, hword, rfl⟩ := parse_ok h
  have hclean : ∀ n, Token.name n ∈ Grammar.tokensAll items → Plain n := by
    intro n hn
    rw [hword] at hn
    obtain ⟨p, hp, hname⟩ := List.mem_map.mp ((List.takeWhile_sublist _).mem hn)
    have htoken := Token.scan_clean htokens (by simp) p hp
    rwa [hname] at htoken
  obtain ⟨hdefs, hassigned⟩ := Grammar.name_mem_all items
  exact ⟨_, rfl, fun d hd => hclean d.1 (hdefs d hd), fun n hn => hclean n (hassigned n hn)⟩

theorem Source.parse_of_word {σ : Type} {text : String} {w : List Token} {t : Tree}
    (hword : (Token.ofText text).toOption.map word = some w)
    (hrun : Reading.start.run w = .ok t) (l : Logged σ) : ∃ l', parse text l = .ok t l' := by
  obtain ⟨tokens, htokens, rfl⟩ := Option.map_eq_some_iff.mp hword
  have hscan : Token.ofText text = .ok tokens := by
    cases hscan : Token.ofText text with
    | error e =>
        rw [hscan] at htokens
        cases htokens
    | ok tokens' =>
        rw [hscan] at htokens
        cases htokens
        rfl
  have htree : Tree.ofTokens tokens = .ok t := Reading.readAll_eq_ok_iff.mpr hrun
  have htokenize : tokenize text l =
      .ok tokens { l with log := l.log.push (.tokenized tokens.length) } := by
    unfold tokenize
    rw [hscan]
    rfl
  unfold parse
  rw [Action.bind_of_ok htokenize, parseTokens, htree]
  exact ⟨_, rfl⟩

theorem exists_mapM {α β : Type} {g : α → Option β} {xs : List α}
    (h : ∀ x ∈ xs, ∃ y, g x = some y) : ∃ ys, xs.mapM g = some ys := by
  induction xs with
  | nil => exact ⟨[], rfl⟩
  | cons x xs ih =>
      obtain ⟨⟨y, hy⟩, hrest⟩ := List.forall_mem_cons.mp h
      obtain ⟨ys, hys⟩ := ih hrest
      exact ⟨y :: ys, by simp [hy, hys]⟩

namespace Code

variable {code : Code}

theorem Ordered.exists_operandText (h : code.Ordered) {v : ValueId} {value : Value}
    (hv : code.value? v = some value) : ∃ t, code.operandText? v = some t := by
  unfold operandText?
  cases hop : value.operation with
  | address g =>
      have hlt := h.addressed_lt (hop ▸ operation_of_value hv)
      have hg : code.global? g = some code.globals[g.index] := Array.getElem?_eq_getElem hlt
      simp only [hv, hop, hg]
      exact ⟨_, rfl⟩
  | _ =>
      simp only [hv, hop]
      exact ⟨_, rfl⟩

theorem Sound.exists_instructionLines (h : code.Sound) {b : BlockId} {block : Block} {v : ValueId}
    (hb : code.block? b = some block) (hv : v ∈ block.body.toList) :
    ∃ ls, code.instructionLines? v = some ls := by
  have placed {u : ValueId} (hu : u ∈ block.body.toList) : ∃ t, code.operandText? u = some t := by
    obtain ⟨value, hvalue, -⟩ := h.ordered.placed hb hu
    exact h.ordered.exists_operandText hvalue
  obtain ⟨op, hop, hadmits⟩ := h.admitted hb hv
  have text {u : ValueId} (hu : u ∈ op.operands) : ∃ t, code.operandText? u = some t := by
    rcases h.operand_place hb hv hop hu with (⟨x, hx⟩ | ⟨g, global, hg, -⟩) | hmem
    · obtain ⟨value, hvalue, -⟩ := value_of_operation hx
      exact h.ordered.exists_operandText hvalue
    · obtain ⟨value, hvalue, -⟩ := value_of_operation hg
      exact h.ordered.exists_operandText hvalue
    · exact placed hmem
  obtain ⟨r, hr⟩ := placed hv
  unfold instructionLines?
  simp only [hr, hop, Option.bind_eq_bind, Option.bind_some]
  cases op with
  | const | address => exact hadmits.elim
  | arith op left right =>
      obtain ⟨x, hx⟩ := text (.head _)
      obtain ⟨y, hy⟩ := text (.tail _ (.head _))
      simp only [hx, hy, Option.bind_some]
      exact ⟨_, rfl⟩
  | slot => exact ⟨_, rfl⟩
  | load pointer =>
      obtain ⟨p, hp⟩ := text (.head _)
      simp only [hp, Option.bind_some]
      exact ⟨_, rfl⟩
  | store value pointer =>
      obtain ⟨x, hx⟩ := text (.head _)
      obtain ⟨p, hp⟩ := text (.tail _ (.head _))
      simp only [hx, hp, Option.bind_some]
      exact ⟨_, rfl⟩
  | call callee =>
      obtain ⟨function, hf⟩ := hadmits
      simp only [hf, Option.bind_some]
      cases function.returns <;> exact ⟨_, rfl⟩
  | ret value =>
      cases value with
      | none => exact ⟨_, rfl⟩
      | some value =>
          obtain ⟨x, hx⟩ := text (.head _)
          simp only [hx, Option.bind_some]
          exact ⟨_, rfl⟩

theorem Sound.exists_listing (h : code.Sound) : ∃ t, code.listing? = some t := by
  have hfunctions : ∀ function ∈ code.functions.toList,
      ∃ ls, code.functionLines? function = some ls := by
    intro function hmem
    obtain ⟨f, hf⟩ := exists_func hmem
    obtain ⟨block, hb⟩ := h.filled hf
    obtain ⟨ls, hls⟩ := exists_mapM fun v => h.exists_instructionLines (v := v) hb
    simp only [functionLines?, h.owns hf, blockLines?, List.mapM_cons, List.mapM_nil, hb, hls,
      Option.bind_eq_bind, Option.bind_some]
    exact ⟨_, rfl⟩
  obtain ⟨lss, hlss⟩ := exists_mapM hfunctions
  simp only [listing?, lines?, hlss, Option.bind_eq_bind, Option.bind_some]
  exact ⟨_, rfl⟩

end Code

namespace Machine

open Niladic.Action Code

variable {c c' : Compiler}

theorem findGlobal?_twin (h : c.Twins c') (n : String) :
    c.draft.code.findGlobal? n = c'.draft.code.findGlobal? n := by
  have names (code : Code) : code.findGlobal? n = ((code.globals.toList.map
      fun global => (global.name, global.initial)).findIdx? (·.1 == n)).map GlobalId.mk := by
    rw [findGlobal?, List.findIdx?_map]
    obtain ⟨globals⟩ := code.globals
    simp [Function.comp_def]
  rw [names, names, h.globals]

theorem blank_twin (h : c.Twins c') : (blank c.draft.code).cells = (blank c'.draft.code).cells := by
  have hinitial : c.draft.code.globals.toList.map Global.initial =
      c'.draft.code.globals.toList.map Global.initial := by
    simpa [Function.comp_def] using congrArg (List.map Prod.snd) h.globals
  rw [← Array.toList_inj]
  simpa [blank] using hinitial

theorem findFunction?_twin (h : c.Twins c') {entry : String} {f : FuncId} {function : Func}
    (hf : c.draft.code.func? f = some function) (hname : function.name = entry) :
    c.draft.code.findFunction? entry = some f ∧ c'.draft.code.findFunction? entry = some f := by
  obtain ⟨function', hf', hname', -⟩ := h.func hf
  have hc := h.readable.legible.coherent
  have hc' := h.readable'.legible.coherent
  rw [hc.findFunction?_eq, hc'.findFunction?_eq]
  exact ⟨hc.functions_iff.mpr ⟨function, hf, hname⟩,
    hc'.functions_iff.mpr ⟨function', hf', hname'.trans hname⟩⟩

theorem run_twin (h : c.Twins c') {entry : String} {f : FuncId} {function : Func}
    (hf : c.draft.code.func? f = some function) (hname : function.name = entry)
    (hreturns : function.returns = .number) (limit : Nat) (log log' : Log) :
    AnswersAlike limit (run entry ⟨log, c.draft.code, limit, blank c.draft.code⟩)
      (run entry ⟨log', c'.draft.code, limit, blank c'.draft.code⟩) := by
  obtain ⟨hfind, hfind'⟩ := findFunction?_twin h hf hname
  obtain ⟨function', hf', -, hreturns', -⟩ := h.func hf
  rw [hreturns] at hreturns'
  have hglobals {m m' : Logged Memory} (hm : m.state.cells = m'.state.cells) (n : String) :
      globalValue? ⟨c.draft.code, limit, m.state⟩ n =
        globalValue? ⟨c'.draft.code, limit, m'.state⟩ n := by
    unfold globalValue?
    rw [findGlobal?_twin h, hm]
  have hends := callFunction_alike h limit hf ⟨log, blank c.draft.code⟩
    ⟨log', blank c'.draft.code⟩ (blank_twin h)
  have hsettles := callFunction_settles (trapsOnly_of_sound h.sound limit) hf
    (m := ⟨log, blank c.draft.code⟩) (by simp [blank])
  generalize hcall : callFunction c.draft.code limit f ⟨log, blank c.draft.code⟩ = r,
    hcall' : callFunction c'.draft.code limit f ⟨log', blank c'.draft.code⟩ = r' at hends
  rw [hcall] at hsettles
  cases hends with
  | ok result hm =>
      obtain ⟨x, rfl⟩ := hsettles.2 hreturns
      rw [run_number_ok hfind hf hreturns hcall, run_number_ok hfind' hf' hreturns' hcall']
      exact .number x (hglobals hm)
  | deep stop hm =>
      obtain ⟨-, _, rfl, callee, rfl⟩ := hsettles
      rw [run_number_error hfind hf hreturns hcall, run_number_error hfind' hf' hreturns' hcall']
      exact .depth callee (hglobals hm)
  | aside haside m m' =>
      -- Sound code is stopped by the limit only.
      obtain ⟨-, _, rfl, callee, rfl⟩ := hsettles
      cases haside.1

end Machine

namespace Compiler

open Niladic.Action

theorem readable_of_generate {items : List Tree} {log : Log} {s : Logged Compiler}
    (h : generate ⟨log, ofConfig {} (some (.program items))⟩ = .ok () s)
    (hdefs : ∀ d ∈ Tree.definitionsAll items, Plain d.1)
    (hassigned : ∀ n ∈ Tree.assignedAll items, Plain n) :
    s.state.Readable ∧ s.state.draft.code.Sound ∧
      ∃ function, s.state.draft.code.func? ⟨0⟩ = some function ∧ function.name = "run" ∧
        function.returns = .number := by
  rw [ofConfig_eq_fresh] at h
  have hlegible := generate_legible h rfl
    (fresh_legible ⟨by decide, by decide⟩ (by decide) (some (.program items)) _) hdefs hassigned
  obtain ⟨-, hcompiled⟩ := generate_fresh_ok h
  have hsound := Code.sound_of_check hlegible.coherent
    (check_of_compiled hlegible.coherent hcompiled)
  have hentry := hcompiled.entry
  cases hcompiled with
  | intro hf hname hreturns hb hbody hanchor hitems hg => exact ⟨⟨hlegible, _, _, hg⟩, hsound, hentry⟩

theorem printedListing_of_some {s : Logged Compiler} {t : String}
    (h : s.state.draft.code.listing? = some t) : printedListing.outcome s = .ok t := by
  have hlisting {l : Logged Compiler} (hl : l.state = s.state) : listing l = .ok t l := by
    unfold listing
    rw [bind_of_ok (code_apply l), hl, h]
    rfl
  by_cases hempty : s.state.draft.code.isEmpty = true
  · have hprinted : printedListing s = .ok t { s with log := s.log.push .emptyCode } := by
      unfold printedListing
      rw [bind_of_ok (code_apply s), if_pos hempty]
      exact (bind_of_ok (Logged.emit_apply ..)).trans (hlisting rfl)
    exact outcome_of_ok hprinted
  · have hprinted : printedListing s = .ok t s := by
      unfold printedListing
      rw [bind_of_ok (code_apply s), if_neg hempty]
      exact hlisting rfl
    exact outcome_of_ok hprinted

theorem equal_listings_run_alike {σ : Type} {text text' : String} {l l₁ l' l₁' : Logged σ}
    {t t' : Tree} (hparse : Source.parse text l = .ok t l₁)
    (hparse' : Source.parse text' l' = .ok t' l₁') {log log' : Log} {s s' : Logged Compiler}
    (hgenerate : generate ⟨log, ofConfig {} (some t)⟩ = .ok () s)
    (hgenerate' : generate ⟨log', ofConfig {} (some t')⟩ = .ok () s')
    (hlisting : printedListing.outcome s = printedListing.outcome s') :
    runProgram.outcome s = runProgram.outcome s' ∧
      s.state.draft.code.globals.map Global.name = s'.state.draft.code.globals.map Global.name ∧
      ∀ log log', Machine.AnswersAlike 100000
        (Machine.run "run" ⟨log, s.state.draft.code, 100000, Machine.blank s.state.draft.code⟩)
        (Machine.run "run" ⟨log', s'.state.draft.code, 100000,
          Machine.blank s'.state.draft.code⟩) := by
  obtain ⟨items, rfl, hdefs, hassigned⟩ := Source.parse_clean hparse
  obtain ⟨items', rfl, hdefs', hassigned'⟩ := Source.parse_clean hparse'
  obtain ⟨hreadable, hsound, function, hf, hname, hreturns⟩ :=
    readable_of_generate hgenerate hdefs hassigned
  obtain ⟨hreadable', hsound', -⟩ := readable_of_generate hgenerate' hdefs' hassigned'
  obtain ⟨printed, hprinted⟩ := hsound.exists_listing
  obtain ⟨printed', hprinted'⟩ := hsound'.exists_listing
  rw [printedListing_of_some hprinted, printedListing_of_some hprinted'] at hlisting
  cases hlisting
  obtain ⟨hglobals, hfunctions⟩ := hreadable.same_of_listing hreadable' hprinted hprinted'
  have htwins : Twins s.state s'.state :=
    ⟨hreadable, hreadable', hsound, hsound', hglobals, hfunctions⟩
  have hruns := Machine.run_twin htwins hf hname hreturns 100000
  refine ⟨?_, ?_, hruns⟩
  · obtain ⟨r, hr⟩ := runProgram_outcome (generated_of_generate hgenerate)
    obtain ⟨r', hr'⟩ := runProgram_outcome (generated_of_generate hgenerate')
    have hlater := generate_advances.of_ok hgenerate (fresh_coherent ..)
    have hlater' := generate_advances.of_ok hgenerate' (fresh_coherent ..)
    rw [hr, hr', hlater.config, hlater'.config, hlater.depth, hlater'.depth]
    exact congrArg _ (Machine.outcome_eq_of_alike hruns r r')
  · rw [← Array.toList_inj]
    simpa [Function.comp_def] using congrArg (List.map Prod.fst) hglobals

def leadingNumber : Tree := .program [.number 1, .procedure "p" (.body [])]

def trailingNumber : Tree := .program [.procedure "p" (.body []), .number 1]

theorem moved_number_runs_alike : ∃ (l l' : Logged Unit) (s s' : Logged Compiler),
    Source.parse "1 create p end" ⟨#[], ()⟩ = .ok leadingNumber l ∧
    Source.parse "create p end 1" ⟨#[], ()⟩ = .ok trailingNumber l' ∧
    generate ⟨#[], ofConfig {} (some leadingNumber)⟩ = .ok () s ∧
    generate ⟨#[], ofConfig {} (some trailingNumber)⟩ = .ok () s' ∧
    runProgram.outcome s = runProgram.outcome s' ∧
    ∀ log log', Machine.AnswersAlike 100000
      (Machine.run "run" ⟨log, s.state.draft.code, 100000, Machine.blank s.state.draft.code⟩)
      (Machine.run "run" ⟨log', s'.state.draft.code, 100000,
        Machine.blank s'.state.draft.code⟩) := by
  have hword : (Token.ofText "1 create p end").toOption.map word =
      some [.number 1, .keyword .create, .name "p", .keyword .finish] := by
    decide +kernel
  have hword' : (Token.ofText "create p end 1").toOption.map word =
      some [.keyword .create, .name "p", .keyword .finish, .number 1] := by
    decide +kernel
  have houtcome : generate.outcome ⟨#[], ofConfig {} (some leadingNumber)⟩ = .ok () := by
    decide +kernel
  have houtcome' : generate.outcome ⟨#[], ofConfig {} (some trailingNumber)⟩ = .ok () := by
    decide +kernel
  have hprinted :
      (generate >>= fun _ => printedListing).outcome ⟨#[], ofConfig {} (some leadingNumber)⟩ =
        (generate >>= fun _ => printedListing).outcome
          ⟨#[], ofConfig {} (some trailingNumber)⟩ := by
    decide +kernel
  obtain ⟨l, hparse⟩ := Source.parse_of_word hword rfl (⟨#[], ()⟩ : Logged Unit)
  obtain ⟨l', hparse'⟩ := Source.parse_of_word hword' rfl (⟨#[], ()⟩ : Logged Unit)
  obtain ⟨s, hgenerate⟩ := of_outcome_ok houtcome
  obtain ⟨s', hgenerate'⟩ := of_outcome_ok houtcome'
  rw [outcome_bind_of_ok hgenerate, outcome_bind_of_ok hgenerate'] at hprinted
  obtain ⟨hresults, -, hruns⟩ :=
    equal_listings_run_alike hparse hparse' hgenerate hgenerate' hprinted
  exact ⟨l, l', s, s', hparse, hparse', hgenerate, hgenerate', hresults, hruns⟩

end Compiler

end Niladic
