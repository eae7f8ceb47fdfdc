import EdgeAudit.Proofs.ConstructsInTree
import EdgeAudit.Rule.Catalog

namespace EdgeAudit

open Listing Number Script

def Finding.sketch (f : Finding) : Finding :=
  { f with location := { f.location with endLine := none, endColumn := none }, codeFrame := none }

def Source.found (s : Source) : Family → List Occurrence
  | .references links => s.moduleReferences links
  | .dynamicCode => s.evalCalls
  | .wasmSync => s.wasmInstantiations
  | .timers => s.timerCalls
  | .buffers => s.bufferCalls

/-- Two views of one file in which the same constructs begin at the same places. -/
structure Source.Agrees (s s' : Source) : Prop where
  path : s.path = s'.path
  text : s.text = s'.text
  found : ∀ family, (s.found family).map Occurrence.bare = (s'.found family).map Occurrence.bare

section Report

variable {s s' : Source} {xs ys : List Occurrence} {o o' : Occurrence}

theorem bare_fields (h : o.bare = o'.bare) :
    o.start = o'.start ∧ o.value = o'.value ∧ o.delay = o'.delay := by
  simp only [Occurrence.bare, Occurrence.mk.injEq] at h
  exact ⟨h.1, h.2.2.2⟩

theorem Source.Agrees.finding (h : s.Agrees s') (ho : o.bare = o'.bare) (ruleId : String)
    (severity : Severity) (message : String) (suggestions : List Suggestion) :
    (o.finding s ruleId severity message suggestions).sketch =
      (o'.finding s' ruleId severity message suggestions).sketch := by
  simp only [Occurrence.finding, Source.finding, locate, Finding.sketch, h.path, h.text,
    (bare_fields ho).1]

theorem filterMap_sketch {f g : Occurrence → Option Finding}
    (hfg : ∀ o o', o.bare = o'.bare → (f o).map Finding.sketch = (g o').map Finding.sketch)
    (h : xs.map Occurrence.bare = ys.map Occurrence.bare) :
    (xs.filterMap f).map Finding.sketch = (ys.filterMap g).map Finding.sketch := by
  induction xs generalizing ys with
  | nil =>
    rw [List.map_eq_nil_iff.mp h.symm]
    rfl
  | cons o xs ih =>
    obtain ⟨o', ys, rfl, ho, hys⟩ := List.map_eq_cons_iff.mp h.symm
    have hrest := ih hys.symm
    have hhead := hfg o o' ho.symm
    cases hf : f o with
    | none =>
      rw [hf, Option.map_none, eq_comm, Option.map_eq_none_iff] at hhead
      rw [List.filterMap_cons_none hf, List.filterMap_cons_none hhead, hrest]
    | some x =>
      rw [hf, Option.map_some, eq_comm] at hhead
      obtain ⟨y, hg, hy⟩ := Option.map_eq_some_iff.mp hhead
      rw [List.filterMap_cons_some hf, List.filterMap_cons_some hg, List.map_cons, List.map_cons,
        hrest, hy]

theorem map_sketch (h : s.Agrees s') (hxy : xs.map Occurrence.bare = ys.map Occurrence.bare)
    (ruleId : String) (severity : Severity) (message : String) (suggestions : List Suggestion) :
    (xs.map fun o => o.finding s ruleId severity message suggestions).map Finding.sketch =
      (ys.map fun o => o.finding s' ruleId severity message suggestions).map Finding.sketch := by
  have hmap := filterMap_sketch (f := some ∘ fun o => o.finding s ruleId severity message suggestions)
    (g := some ∘ fun o => o.finding s' ruleId severity message suggestions)
    (fun o o' ho => congrArg some (h.finding ho ruleId severity message suggestions)) hxy
  rwa [List.filterMap_eq_map, List.filterMap_eq_map] at hmap

theorem Source.Agrees.references (h : s.Agrees s') (m : ModuleRule) :
    (m.references s).map Occurrence.bare = (m.references s').map Occurrence.bare := by
  have hfilter : ∀ os : List Occurrence, (os.filter fun o => refersTo o.value m.module).map
      Occurrence.bare = (os.map Occurrence.bare).filter fun o => refersTo o.value m.module := by
    intro os
    rw [List.filter_map]
    rfl
  rw [ModuleRule.references, ModuleRule.references, hfilter, hfilter]
  exact congrArg _ (h.found (.references Link.all))

theorem Source.Agrees.referencesAndBuffers (h : s.Agrees s') (m : ModuleRule) :
    (m.referencesAndBuffers s).map Occurrence.bare =
      (m.referencesAndBuffers s').map Occurrence.bare := by
  have hsort : ∀ os : List Occurrence, (os.mergeSort fun a b => a.start ≤ b.start).map
      Occurrence.bare = (os.map Occurrence.bare).mergeSort fun a b => a.start ≤ b.start :=
    fun os => List.map_mergeSort fun a _ b _ => rfl
  have hbuffers : s.bufferCalls.map Occurrence.bare = s'.bufferCalls.map Occurrence.bare :=
    h.found .buffers
  rw [ModuleRule.referencesAndBuffers, ModuleRule.referencesAndBuffers, hsort, hsort,
    List.map_append, List.map_append, h.references m, hbuffers]

def Occurrence.Writable (o : Occurrence) : Prop :=
  ∃ q text, o.delay = some q ∧ q.text? = some text

theorem timerFinding_agrees (h : s.Agrees s') (threshold : Quantity) (ho : o.bare = o'.bare)
    (hw : o.Writable) : ∃ r r', timerFinding threshold s o = .ok r ∧
      timerFinding threshold s' o' = .ok r' ∧ r.map Finding.sketch = r'.map Finding.sketch := by
  obtain ⟨q, text, hq, htext⟩ := hw
  obtain ⟨-, hvalue, hdelay⟩ := bare_fields ho
  have hq' : o'.delay = some q := hdelay.symm.trans hq
  simp only [timerFinding, hq, hq', htext, hvalue]
  split
  · exact ⟨none, none, rfl, rfl, rfl⟩
  · exact ⟨_, _, rfl, rfl, congrArg some (h.finding ho _ _ _ _)⟩

theorem timerFindings_agree (h : s.Agrees s') (threshold : Quantity)
    (hxy : xs.map Occurrence.bare = ys.map Occurrence.bare) (hw : ∀ o ∈ xs, o.Writable) :
    ∃ rs rs', xs.mapM (timerFinding threshold s) = .ok rs ∧
      ys.mapM (timerFinding threshold s') = .ok rs' ∧
        (rs.filterMap id).map Finding.sketch = (rs'.filterMap id).map Finding.sketch := by
  induction xs generalizing ys with
  | nil =>
    rw [List.map_eq_nil_iff.mp hxy.symm]
    exact ⟨[], [], rfl, rfl, rfl⟩
  | cons o xs ih =>
    obtain ⟨o', ys, rfl, ho, hys⟩ := List.map_eq_cons_iff.mp hxy.symm
    obtain ⟨r, r', hr, hr', hsketch⟩ := timerFinding_agrees h threshold ho.symm (hw o (by simp))
    obtain ⟨rs, rs', hrs, hrs', hrest⟩ := ih hys.symm fun o ho => hw o (by simp [ho])
    refine ⟨r :: rs, r' :: rs', ?_, ?_, ?_⟩
    · rw [List.mapM_cons, hr, hrs]
      rfl
    · rw [List.mapM_cons, hr', hrs']
      rfl
    · cases r <;> cases r' <;> simp_all

theorem detect_agrees (b : BuiltIn) (h : s.Agrees s') (hw : ∀ o ∈ s.found .timers, o.Writable) :
    ∃ fs fs', b.rule.detect s = .ok fs ∧ b.rule.detect s' = .ok fs' ∧
      fs.map Finding.sketch = fs'.map Finding.sketch := by
  cases b with
  | forbidden m => exact ⟨_, _, rfl, rfl, map_sketch h (h.references m) _ _ _ _⟩
  | caution m => exact ⟨_, _, rfl, rfl, map_sketch h (h.references m) _ _ _ _⟩
  | buffer m => exact ⟨_, _, rfl, rfl, map_sketch h (h.referencesAndBuffers m) _ _ _ _⟩
  | dynamicCode => exact ⟨_, _, rfl, rfl, map_sketch h (h.found .dynamicCode) _ _ _ _⟩
  | wasmSync => exact ⟨_, _, rfl, rfl, map_sketch h (h.found .wasmSync) _ _ _ _⟩
  | longTimer threshold =>
    obtain ⟨rs, rs', hrs, hrs', hsketch⟩ := timerFindings_agree h threshold (h.found .timers) hw
    refine ⟨rs.filterMap id, rs'.filterMap id, ?_, ?_, hsketch⟩
    · show (s.timerCalls.mapM (timerFinding threshold s) >>= fun found => _) = _
      rw [show s.timerCalls.mapM (timerFinding threshold s) = .ok rs from hrs]
      rfl
    · show (s'.timerCalls.mapM (timerFinding threshold s') >>= fun found => _) = _
      rw [show s'.timerCalls.mapM (timerFinding threshold s') = .ok rs' from hrs']
      rfl
  | dependency table =>
    refine ⟨_, _, rfl, rfl, filterMap_sketch (fun o o' ho => ?_) (h.found (.references _))⟩
    rw [flaggedPackage?, flaggedPackage?, (bare_fields ho).2.1, Option.map_map, Option.map_map]
    congr 1
    funext flagged
    exact h.finding ho _ _ _ _

end Report

namespace Listing

theorem writable_of_sites {lines : List Line} {o : Occurrence} (h : o.bare ∈ sites [.timer] lines) :
    o.Writable := by
  obtain ⟨hmem, hconstruct⟩ := List.mem_filter.mp h
  obtain ⟨l, -, hl⟩ := List.mem_map.mp hmem
  have hdelay : o.delay = l.2.delay := (congrArg Occurrence.delay hl).symm
  have htimer : l.2.construct = .timer := by
    have hsame : o.bare.construct = l.2.construct := (congrArg Occurrence.construct hl).symm
    simpa [hsame] using hconstruct
  revert hdelay htimer
  cases l.2 with
  | imports taken source => exact fun _ h => by cases h
  | statement binding use =>
    cases use with
    | timer name callback delay =>
      intro hdelay _
      obtain ⟨q, text, hq, htext⟩ := delay.parse_digits
      exact ⟨q, text, hdelay.trans hq, htext⟩
    | _ => exact fun _ h => by cases h

end Listing

def Listing.sampleLines : List Line :=
  [.imports (.single ⟨"fs".toList, by decide, List.all_eq_true.mp (by decide), by decide⟩)
      ⟨'\'', "fs".toList, by decide, by decide, List.all_eq_true.mp (by decide)⟩,
    .statement (some ⟨"f".toList, by decide, List.all_eq_true.mp (by decide), by decide⟩)
      (.function ⟨"code".toList, by decide, List.all_eq_true.mp (by decide), by decide⟩),
    .statement none (.timer ⟨"setTimeout", by decide⟩
      ⟨"run".toList, by decide, List.all_eq_true.mp (by decide), by decide⟩
      ⟨"60000".toList, by decide, List.all_eq_true.mp (by decide), by decide, by decide⟩)]

def Listing.sampleTree : Tree :=
  .node .other .plain 0 75 [
    .node .importStatement .plain 0 20 [.node .string .source 15 19 []],
    .node .other .plain 21 50 [
      .node .identifier .plain 27 28 [],
      .node .construction .plain 31 49 [
        .node .identifier .constructor 35 43 [],
        .node .other .arguments 43 49 [.node .identifier .plain 44 48 []]]],
    .node .call .plain 51 73 [
      .node .identifier .callee 51 61 [],
      .node .other .arguments 61 73 [
        .node .identifier .plain 62 65 [],
        .node .number .plain 67 72 []]]]

theorem Listing.sample_parsed : Parsed sampleTree sampleLines := by
  refine .cons ⟨by decide, rfl, _, rfl, rfl, by decide, by decide⟩ ?_
  refine .cons ⟨by decide, rfl, _, rfl, rfl, by decide, by decide⟩ ?_
  refine .cons ⟨by decide, rfl, ⟨_, rfl, rfl, by decide, by decide⟩,
    _, rfl, rfl, by decide, by decide⟩ ?_
  exact .nil

theorem Listing.sample_read : Source.read "src/a.js" (program true sampleLines) .auto false =
    ⟨"src/a.js", program true sampleLines, .auto, false, some sampleTree⟩ := by
  have htree : Source.treeOf? "src/a.js" (program true sampleLines) = some sampleTree := by decide +kernel
  rw [Source.read, htree]

/-- With a tree and without one, a rule reports the same findings in a program of such lines, up to
where they end. -/
theorem BuiltIn.strategies_agree (b : BuiltIn) (path : String) (target : Target) (strict closed : Bool)
    (lines : List Line) (tree : Tree) (h : Parsed tree lines) :
    ∃ inTree inText,
      b.rule.detect ⟨path, program closed lines, target, strict, some tree⟩ = .ok inTree ∧
      b.rule.detect ⟨path, program closed lines, target, strict, none⟩ = .ok inText ∧
      inTree.map Finding.sketch = inText.map Finding.sketch := by
  have hfound : ∀ family : Family, (Source.found ⟨path, program closed lines, target, strict,
      some tree⟩ family).map Occurrence.bare = sites family.constructs lines := by
    intro family
    rw [← family.inTree_program closed h]
    cases family <;> rfl
  have hfound' : ∀ family : Family, (Source.found ⟨path, program closed lines, target, strict,
      none⟩ family).map Occurrence.bare = sites family.constructs lines := by
    intro family
    rw [← family.inText_program closed lines]
    cases family <;> rfl
  refine detect_agrees b ⟨rfl, rfl, fun family => (hfound family).trans (hfound' family).symm⟩ ?_
  intro o ho
  have hmem : o.bare ∈ sites Family.timers.constructs lines := by
    rw [← hfound .timers]
    exact List.mem_map_of_mem ho
  exact writable_of_sites hmem

theorem BuiltIn.strategies_agree_sample :
    String.ofList (program true sampleLines) =
        "import fs from 'fs';\nconst f = new Function(code);\nsetTimeout(run, 60000);\n" ∧
      ∃ inTree inText,
        (longTimer (.whole defaultThreshold)).rule.detect
          (Source.read "src/a.js" (program true sampleLines) .auto false) = .ok inTree ∧
        (longTimer (.whole defaultThreshold)).rule.detect
          ⟨"src/a.js", program true sampleLines, .auto, false, none⟩ = .ok inText ∧
        inTree.map Finding.sketch = inText.map Finding.sketch := by
  refine ⟨by decide, ?_⟩
  rw [sample_read]
  exact strategies_agree _ "src/a.js" .auto false true sampleLines sampleTree sample_parsed

end EdgeAudit
