import Niladic.Proofs.Lines

namespace Niladic

open Text

namespace Code

inductive Says (code : Code) (v : ValueId) : Line → Prop
  | arith {op left right r x y} (hop : code.operation? v = some (.arith op left right))
      (hr : code.operandText? v = some r) (hx : code.operandText? left = some x)
      (hy : code.operandText? right = some y) : Says code v ⟨some r, .arith op x y⟩
  | slot {r} (hop : code.operation? v = some .slot) (hr : code.operandText? v = some r) :
      Says code v ⟨some r, .slot⟩
  | load {pointer r p} (hop : code.operation? v = some (.load pointer))
      (hr : code.operandText? v = some r) (hp : code.operandText? pointer = some p) :
      Says code v ⟨some r, .load p⟩
  | store {value pointer x p} (hop : code.operation? v = some (.store value pointer))
      (hx : code.operandText? value = some x) (hp : code.operandText? pointer = some p) :
      Says code v ⟨none, .store x p⟩
  | callVoid {callee function} (hop : code.operation? v = some (.call callee))
      (hf : code.func? callee = some function) (hreturns : function.returns = .void) :
      Says code v ⟨none, .call .void function.name⟩
  | callNumber {callee function r} (hop : code.operation? v = some (.call callee))
      (hr : code.operandText? v = some r) (hf : code.func? callee = some function)
      (hreturns : function.returns = .number) :
      Says code v ⟨some r, .call .number function.name⟩
  | ret {value x} (hop : code.operation? v = some (.ret (some value)))
      (hx : code.operandText? value = some x) : Says code v ⟨none, .ret x⟩
  | retVoid (hop : code.operation? v = some (.ret none)) : Says code v ⟨none, .retVoid⟩

def IsInstruction (code : Code) (v : ValueId) : Prop :=
  ∃ op, code.operation? v = some op ∧ op.isInstruction = true

theorem IsInstruction.of_operation {code : Code} {v : ValueId} (hv : code.IsInstruction v)
    {op : Operation} (hop : code.operation? v = some op) : op.isInstruction = true := by
  obtain ⟨op', hop', hinstruction⟩ := hv
  rw [hop] at hop'
  cases hop'
  exact hinstruction

theorem says_of_instructionLines? {code : Code} {v : ValueId} (hv : code.IsInstruction v)
    {ls : List String} (h : code.instructionLines? v = some ls) :
    ∃ l, code.Says v l ∧ ls = [l.text] := by
  obtain ⟨op, hop, hinstruction⟩ := hv
  unfold instructionLines? at h
  obtain ⟨r, hr, h⟩ := Option.bind_eq_some_iff.mp h
  simp only [hop, Option.bind_eq_bind, Option.bind_some] at h
  cases op with
  | const | address => cases hinstruction
  | arith op left right =>
      obtain ⟨x, hx, h⟩ := Option.bind_eq_some_iff.mp h
      obtain ⟨y, hy, h⟩ := Option.bind_eq_some_iff.mp h
      cases h
      exact ⟨_, .arith hop hr hx hy, by simp [Line.text_named, String.append_assoc]⟩
  | slot =>
      cases h
      exact ⟨_, .slot hop hr, by simp [Line.text_named, String.append_assoc]⟩
  | load pointer =>
      obtain ⟨p, hp, h⟩ := Option.bind_eq_some_iff.mp h
      cases h
      exact ⟨_, .load hop hr hp, by simp [Line.text_named, ← String.toList_inj]⟩
  | store value pointer =>
      obtain ⟨x, hx, h⟩ := Option.bind_eq_some_iff.mp h
      obtain ⟨p, hp, h⟩ := Option.bind_eq_some_iff.mp h
      cases h
      exact ⟨_, .store hop hx hp, by simp [Line.text_unnamed, ← String.toList_inj]⟩
  | call callee =>
      obtain ⟨function, hf, h⟩ := Option.bind_eq_some_iff.mp h
      cases hreturns : function.returns with
      | void =>
          simp only [hreturns] at h
          cases h
          exact ⟨_, .callVoid hop hf hreturns, by simp [Line.text_unnamed]⟩
      | number =>
          simp only [hreturns] at h
          cases h
          exact ⟨_, .callNumber hop hr hf hreturns, by simp [Line.text_named, String.append_assoc]⟩
  | ret value =>
      cases value with
      | none =>
          cases h
          exact ⟨_, .retVoid hop, by simp [Line.text_unnamed]⟩
      | some value =>
          obtain ⟨x, hx, h⟩ := Option.bind_eq_some_iff.mp h
          cases h
          exact ⟨_, .ret hop hx, by simp [Line.text_unnamed, ← String.toList_inj]⟩

theorem says_of_mapM {code : Code} {vs : List ValueId} {lss : List (List String)}
    (hvs : ∀ v ∈ vs, code.IsInstruction v) (h : vs.mapM code.instructionLines? = some lss) :
    ∃ ls, List.Forall₂ code.Says vs ls ∧ lss.flatten = ls.map Line.text := by
  rw [mapM_eq_some_iff] at h
  induction h with
  | nil => exact ⟨[], .nil, rfl⟩
  | @cons v texts vs lss hv _ ih =>
      obtain ⟨hinstruction, hrest⟩ := List.forall_mem_cons.mp hvs
      obtain ⟨ls, hls, htexts⟩ := ih hrest
      obtain ⟨l, hl, rfl⟩ := says_of_instructionLines? hinstruction hv
      exact ⟨l :: ls, .cons hl hls, by simp [htexts]⟩

theorem exists_func {code : Code} {function : Func} (h : function ∈ code.functions.toList) :
    ∃ f, code.func? f = some function := by
  obtain ⟨i, hi⟩ := List.mem_iff_getElem?.mp h
  exact ⟨⟨i⟩, by rw [func?, ← Array.getElem?_toList, hi]⟩

theorem exists_global {code : Code} {global : Global} (h : global ∈ code.globals.toList) :
    ∃ g, code.global? g = some global := by
  obtain ⟨i, hi⟩ := List.mem_iff_getElem?.mp h
  exact ⟨⟨i⟩, by rw [global?, ← Array.getElem?_toList, hi]⟩

def shownName (v : ValueId) (value : Value) : String :=
  if value.name.isEmpty then toString v.index else value.name

theorem operandText_cases {code : Code} {v : ValueId} {t : String}
    (h : code.operandText? v = some t) :
    (∃ x, code.operation? v = some (.const x) ∧ t = Number.literal x) ∨
    (∃ g global, code.operation? v = some (.address g) ∧ code.global? g = some global ∧
      t = "@" ++ global.name) ∨
    ∃ value, code.value? v = some value ∧ value.operation.isInstruction = true ∧
      t = "%" ++ shownName v value := by
  unfold operandText? at h
  cases hvalue : code.value? v with
  | none => simp [hvalue] at h
  | some value =>
      have hop := operation_of_value hvalue
      simp only [hvalue] at h
      cases hoperation : value.operation with
      | const x =>
          simp only [hoperation] at h
          cases h
          exact .inl ⟨x, hoperation ▸ hop, rfl⟩
      | address g =>
          simp only [hoperation, Option.map_eq_some_iff] at h
          obtain ⟨global, hg, rfl⟩ := h
          exact .inr (.inl ⟨g, global, hoperation ▸ hop, hg, rfl⟩)
      | _ =>
          simp only [hoperation] at h
          cases h
          exact .inr (.inr ⟨value, rfl, by rw [hoperation]; rfl, rfl⟩)

theorem IsInstruction.operandText {code : Code} {v : ValueId} (hv : code.IsInstruction v)
    {t : String} (h : code.operandText? v = some t) : ∃ value, code.value? v = some value ∧
      value.operation.isInstruction = true ∧ t = "%" ++ shownName v value := by
  rcases operandText_cases h with ⟨x, hx, -⟩ | ⟨g, global, hg, -⟩ | hvalue
  · cases hv.of_operation hx
  · cases hv.of_operation hg
  · exact hvalue

structure Shows (code : Code) (function : Func) (p : Paragraph) : Prop where
  name : p.name = function.name
  returns : p.returns = function.returns
  body : ∃ b block, function.blocks = #[b] ∧ code.block? b = some block ∧
    List.Forall₂ code.Says block.body.toList p.body

end Code

namespace Compiler

open Code

variable {c : Compiler}

structure Readable (c : Compiler) : Prop where
  legible : c.Legible
  used : ∃ g global, c.draft.code.global? g = some global

theorem Legible.plain_shownName (h : c.Legible) {v : ValueId} {value : Value}
    (hv : c.draft.code.value? v = some value) (hinstruction : value.operation.isInstruction = true) :
    Plain (shownName v value) := by
  unfold shownName
  split
  · exact plain_toString _
  next hname =>
    cases hb : value.block with
    | none =>
        rcases h.coherent.ordered.loose hv hb with ⟨x, hop⟩ | ⟨g, global, hop, -⟩
        · rw [hop] at hinstruction
          cases hinstruction
        · rw [hop] at hinstruction
          cases hinstruction
    | some b =>
        obtain ⟨block, hblock, hmem, -⟩ := h.coherent.ordered.listed hv hb
        obtain ⟨value', hvalue', hnamed⟩ := h.labelled.named hblock hmem
        rw [hv] at hvalue'
        cases hvalue'
        rcases hnamed with ⟨hempty, -⟩ | ⟨base, k, hbase, hlabel, -⟩
        · simp [hempty] at hname
        · rw [hlabel]
          exact plain_label hbase.1 k

theorem Readable.operandText_free (h : c.Readable) {v : ValueId} {t : String}
    (ht : c.draft.code.operandText? v = some t) : Free [',', '\n'] t := by
  rcases operandText_cases ht with ⟨x, -, rfl⟩ | ⟨g, global, -, hg, rfl⟩ | ⟨value, hv, hop, rfl⟩
  · exact (free_literal x).mono (by decide)
  · exact Free.append (by decide) ((h.legible.clean.globals hg).mono (by decide))
  · exact Free.append (by decide) ((h.legible.plain_shownName hv hop).mono (by decide))

theorem Readable.says_clear (h : c.Readable) {v : ValueId} {l : Line}
    (hl : c.draft.code.Says v l) : l.Clear := by
  have named {op : Operation} {r : String} (hop : c.draft.code.operation? v = some op)
      (hinstruction : op.isInstruction = true) (hr : c.draft.code.operandText? v = some r) :
      ∀ r' ∈ some r, ∃ name, r' = "%" ++ name ∧ Plain name := by
    rintro r' ⟨⟩
    obtain ⟨value, hv, hvalue, rfl⟩ := IsInstruction.operandText ⟨op, hop, hinstruction⟩ hr
    exact ⟨_, rfl, h.legible.plain_shownName hv hvalue⟩
  cases hl with
  | arith hop hr hx hy => exact ⟨named hop rfl hr, h.operandText_free hx, h.operandText_free hy⟩
  | slot hop hr => exact ⟨named hop rfl hr, trivial⟩
  | load hop hr hp => exact ⟨named hop rfl hr, h.operandText_free hp⟩
  | store hop hx hp => exact ⟨nofun, h.operandText_free hx, h.operandText_free hp⟩
  | callVoid hop hf hreturns => exact ⟨nofun, (h.legible.clean.functions hf).mono (by decide)⟩
  | callNumber hop hr hf hreturns =>
      exact ⟨named hop rfl hr, (h.legible.clean.functions hf).mono (by decide)⟩
  | ret hop hx => exact ⟨nofun, h.operandText_free hx⟩
  | retVoid hop => exact ⟨nofun, trivial⟩

theorem Legible.functionLines_shown (h : c.Legible) {f : FuncId} {function : Func} {ls : List String}
    (hf : c.draft.code.func? f = some function)
    (hls : c.draft.code.functionLines? function = some ls) :
    ∃ p, c.draft.code.Shows function p ∧ ls = "" :: p.lines := by
  obtain ⟨block, hb⟩ := h.coherent.block_of_func hf
  have hblocks := h.coherent.owns hf
  unfold functionLines? at hls
  simp only [hblocks] at hls
  obtain ⟨lss, hlss, hls⟩ := Option.bind_eq_some_iff.mp hls
  cases hls
  rw [mapM_eq_some_iff] at hlss
  cases hlss with
  | @cons _ texts _ _ htexts hnil =>
      cases hnil
      unfold blockLines? at htexts
      simp only [hb, Option.bind_eq_bind, Option.bind_some] at htexts
      obtain ⟨lss, hlss, htexts⟩ := Option.bind_eq_some_iff.mp htexts
      cases htexts
      have hinstructions : ∀ v ∈ block.body.toList, c.draft.code.IsInstruction v := by
        intro v hv
        obtain ⟨op, hop, hadmits, -⟩ := h.coherent.ordered.admitted hb hv
        exact ⟨op, hop, Code.isInstruction_of_admits hadmits⟩
      obtain ⟨body, hbody, htexts⟩ := says_of_mapM hinstructions hlss
      refine ⟨⟨function.name, function.returns, body⟩, ⟨rfl, rfl, _, block, hblocks, hb, hbody⟩, ?_⟩
      simp [Paragraph.lines, Paragraph.title, htexts, (h.coherent.owned hb).2]

theorem Legible.functions_shown (h : c.Legible) {lss : List (List String)}
    (hlss : c.draft.code.functions.toList.mapM c.draft.code.functionLines? = some lss) :
    ∃ ps, List.Forall₂ c.draft.code.Shows c.draft.code.functions.toList ps ∧
      lss.flatten = ps.flatMap fun p => "" :: p.lines := by
  have hfunctions : ∀ function ∈ c.draft.code.functions.toList, ∃ f,
      c.draft.code.func? f = some function := fun function => exists_func
  rw [mapM_eq_some_iff] at hlss
  generalize c.draft.code.functions.toList = functions at hfunctions hlss
  induction hlss with
  | nil => exact ⟨[], .nil, rfl⟩
  | @cons function ls functions lss hls _ ih =>
      obtain ⟨⟨f, hf⟩, hrest⟩ := List.forall_mem_cons.mp hfunctions
      obtain ⟨ps, hps, htexts⟩ := ih hrest
      obtain ⟨p, hp, rfl⟩ := h.functionLines_shown hf hls
      exact ⟨p :: ps, .cons hp hps, by simp [htexts]⟩

theorem globalLine_injective {global global' : Global} (hname : Plain global.name)
    (hname' : Plain global'.name) (h : globalLine global = globalLine global') :
    global.name = global'.name ∧ global.initial = global'.initial := by
  replace h := congrArg String.toList h
  simp only [globalLine, String.toList_append, List.append_assoc, List.append_cancel_left_eq] at h
  obtain ⟨hsame, hrest⟩ := append_cons_inj_of_not_mem (hname.not_mem (by decide))
    (hname'.not_mem (by decide)) h
  refine ⟨String.toList_inj.mp hsame, Number.literal_injective ?_⟩
  cases hexternal : global.external <;> cases hexternal' : global'.external <;>
    simp [hexternal, hexternal', String.toList_inj] at hrest
  · exact hrest
  · exact hrest

theorem globalLine_ne_empty (global : Global) : globalLine global ≠ "" := by
  intro h
  simpa [globalLine] using congrArg String.toList h

theorem free_globalLine {global : Global} (h : Plain global.name) : Free ['\n'] (globalLine global) := by
  have hkind : Free ['\n'] (if global.external then "global" else "internal global") := by
    split <;> decide
  have hliteral : Free ['\n'] (Number.literal global.initial) := (free_literal _).mono (by decide)
  exact ((((Free.append (by decide) (h.mono (by decide))).append (by decide)).append hkind).append
    (by decide)).append hliteral

def sections (c : Compiler) (ps : List Paragraph) : List (List String) :=
  c.draft.code.globals.toList.map globalLine :: ps.map Paragraph.lines

theorem Readable.lines_eq (h : c.Readable) {lines : List String}
    (hlines : c.draft.code.lines? = some lines) :
    ∃ ps, List.Forall₂ c.draft.code.Shows c.draft.code.functions.toList ps ∧
      lines = ("; ModuleID = '" ++ c.draft.code.name ++ "'") ::
        (c.sections ps).flatMap ("" :: ·) := by
  unfold lines? at hlines
  obtain ⟨lss, hlss, hlines⟩ := Option.bind_eq_some_iff.mp hlines
  cases hlines
  obtain ⟨ps, hps, htexts⟩ := h.legible.functions_shown hlss
  refine ⟨ps, hps, ?_⟩
  obtain ⟨g, global, hg⟩ := h.used
  have hglobals : c.draft.code.globalLines = "" :: c.draft.code.globals.toList.map globalLine := by
    unfold globalLines
    split
    next hnil => simp [global?, ← Array.getElem?_toList, hnil] at hg
    next => rfl
  rw [hglobals, htexts]
  simp [sections, List.flatMap_map]

theorem Readable.paragraph_clear (h : c.Readable) {ps : List Paragraph}
    (hps : List.Forall₂ c.draft.code.Shows c.draft.code.functions.toList ps) : ∀ p ∈ ps, p.Clear := by
  refine forall_mem_right hps fun function hmem p hp => ?_
  obtain ⟨f, hf⟩ := exists_func hmem
  obtain ⟨b, block, -, -, hbody⟩ := hp.body
  exact ⟨hp.name ▸ h.legible.clean.functions hf, forall_mem_right hbody fun v _ l => h.says_clear⟩

theorem Readable.mem_sections (h : c.Readable) {ps : List Paragraph} (hps : ∀ p ∈ ps, p.Clear) :
    ∀ ls ∈ c.sections ps, ∀ s ∈ ls, s ≠ "" ∧ Free ['\n'] s := by
  intro ls hls s hs
  rcases List.mem_cons.mp hls with rfl | hls
  · obtain ⟨global, hmem, rfl⟩ := List.mem_map.mp hs
    obtain ⟨g, hg⟩ := exists_global hmem
    exact ⟨globalLine_ne_empty global, free_globalLine (h.legible.clean.globals hg)⟩
  · obtain ⟨p, hp, rfl⟩ := List.mem_map.mp hls
    exact Paragraph.mem_lines (hps p hp) hs

theorem Readable.free_lines (h : c.Readable) {ps : List Paragraph} (hps : ∀ p ∈ ps, p.Clear) :
    ∀ s ∈ ("; ModuleID = '" ++ c.draft.code.name ++ "'") :: (c.sections ps).flatMap ("" :: ·),
      Free ['\n'] s := by
  intro s hs
  rcases List.mem_cons.mp hs with rfl | hs
  · exact (Free.append (by decide) h.legible.clean.title).append (by decide)
  · obtain ⟨ls, hls, hs⟩ := List.mem_flatMap.mp hs
    rcases List.mem_cons.mp hs with rfl | hs
    · decide
    · exact (h.mem_sections hps ls hls s hs).2

theorem join_lines_injective {ls ls' : List String} (hls : ∀ l ∈ ls, Free ['\n'] l)
    (hls' : ∀ l ∈ ls', Free ['\n'] l)
    (h : String.join (ls.map (· ++ "\n")) = String.join (ls'.map (· ++ "\n"))) : ls = ls' := by
  have hfree {ks : List String} (hks : ∀ k ∈ ks, Free ['\n'] k) :
      ∀ cs ∈ ks.map String.toList, '\n' ∉ cs := by
    intro cs hcs
    obtain ⟨k, hk, rfl⟩ := List.mem_map.mp hcs
    exact (hks k hk).not_mem (by decide)
  have htexts := congrArg String.toList h
  simp only [String.toList_join, List.flatMap_map, String.toList_append] at htexts
  have hmaps : ls.map String.toList = ls'.map String.toList :=
    flatMap_terminated_injective (hfree hls) (hfree hls') (by rwa [List.flatMap_map, List.flatMap_map])
  exact (List.map_inj_right fun _ _ => String.toList_inj.mp).mp hmaps

theorem Readable.same_of_listing {c' : Compiler} (h : c.Readable) (h' : c'.Readable) {t : String}
    (ht : c.draft.code.listing? = some t) (ht' : c'.draft.code.listing? = some t) :
    c.draft.code.globals.toList.map (fun global => (global.name, global.initial)) =
      c'.draft.code.globals.toList.map (fun global => (global.name, global.initial)) ∧
    ∃ ps, List.Forall₂ c.draft.code.Shows c.draft.code.functions.toList ps ∧
      List.Forall₂ c'.draft.code.Shows c'.draft.code.functions.toList ps := by
  obtain ⟨lines, hlines, htext⟩ := Option.map_eq_some_iff.mp ht
  obtain ⟨lines', hlines', htext'⟩ := Option.map_eq_some_iff.mp ht'
  obtain ⟨ps, hps, hsections⟩ := h.lines_eq hlines
  obtain ⟨ps', hps', hsections'⟩ := h'.lines_eq hlines'
  have hclear := h.paragraph_clear hps
  have hclear' := h'.paragraph_clear hps'
  have hsame : lines = lines' := by
    refine join_lines_injective ?_ ?_ (htext.trans htext'.symm)
    · rw [hsections]
      exact h.free_lines hclear
    · rw [hsections']
      exact h'.free_lines hclear'
  rw [hsections, hsections'] at hsame
  -- Blank lines stand before sections only.
  have hall : c.sections ps = c'.sections ps' :=
    flatMap_headed_injective (fun ls hls hmem => (h.mem_sections hclear ls hls "" hmem).1 rfl)
      (fun ls hls hmem => (h'.mem_sections hclear' ls hls "" hmem).1 rfl) (List.cons.inj hsame).2
  obtain ⟨hglobals, hfunctions⟩ := List.cons.inj hall
  have hparagraphs : ps = ps' := map_injective_of (fun hp hq => Paragraph.lines_injective hp hq)
    hclear hclear' hfunctions
  subst hparagraphs
  refine ⟨?_, ps, hps, hps'⟩
  refine map_eq_map_of (P := fun global => Plain global.name) (fun hx hy hline => ?_)
    (fun global hmem => ?_) (fun global hmem => ?_) hglobals
  · obtain ⟨hname, hinitial⟩ := globalLine_injective hx hy hline
    rw [hname, hinitial]
  · obtain ⟨g, hg⟩ := exists_global hmem
    exact h.legible.clean.globals hg
  · obtain ⟨g, hg⟩ := exists_global hmem
    exact h'.legible.clean.globals hg

end Compiler

end Niladic
