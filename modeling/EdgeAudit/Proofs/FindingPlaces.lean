import EdgeAudit.Proofs.Failure
import EdgeAudit.Proofs.OccurrencePlaces
import EdgeAudit.Proofs.SourcePosition

namespace EdgeAudit

open Listing Number Text

section Specifiers

variable {specifier module : String} {w cs : List Char}

theorem not_slash (hw : '/' ∉ w) : ∀ c ∈ w, (c != '/') = true := by
  intro c hc
  rw [bne_iff_ne]
  rintro rfl
  exact hw hc

theorem takeWhile_plain (hw : '/' ∉ w) : w.takeWhile (· != '/') = w :=
  List.takeWhile_eq_self_iff.mpr (not_slash hw)

theorem takeWhile_slash (hw : '/' ∉ w) (r : List Char) : (w ++ '/' :: r).takeWhile (· != '/') = w := by
  rw [List.takeWhile_append_of_pos (not_slash hw)]
  simp

theorem takeWhile_of_refersTo (hm : '/' ∉ module.toList) (h : refersTo specifier module = true) :
    specifier.toList.takeWhile (· != '/') ∈ [module.toList, "node:".toList ++ module.toList] := by
  have hfull : '/' ∉ "node:".toList ++ module.toList := by
    rw [List.mem_append]
    rintro (hnode | hin)
    · exact absurd hnode (by decide)
    · exact hm hin
  simp only [refersTo, Bool.or_eq_true, beq_iff_eq] at h
  rw [List.mem_cons, List.mem_singleton]
  rcases h with ((heq | heq) | hprefix) | hprefix
  · left
    rw [heq, takeWhile_plain hm]
  · right
    rw [heq, takeWhile_plain hfull]
  · left
    obtain ⟨r, hr⟩ := List.isPrefixOf_iff_prefix.mp hprefix
    rw [← hr, List.append_assoc, List.singleton_append, takeWhile_slash hm]
  · right
    obtain ⟨r, hr⟩ := List.isPrefixOf_iff_prefix.mp hprefix
    rw [← hr, List.append_assoc, List.singleton_append, takeWhile_slash hfull]

theorem head?_splitOn (sep : Char) (cs : List Char) :
    (splitOn sep cs).head? = some (cs.takeWhile (· != sep)) := by
  induction cs with
  | nil => rfl
  | cons c cs ih =>
    rw [splitOn]
    by_cases hc : c = sep
    · simp [hc]
    · rw [if_neg hc]
      cases hsplit : splitOn sep cs with
      | nil =>
        rw [hsplit] at ih
        cases ih
      | cons l ls =>
        rw [hsplit] at ih
        obtain rfl := Option.some.inj ih
        simp [hc]

theorem takeWhile_of_basePackage {package : String} (hp : '/' ∉ package.toList)
    (h : basePackage? specifier = some package) :
    specifier.toList.takeWhile (· != '/') = package.toList := by
  simp only [basePackage?] at h
  split at h
  · cases h
  split at h
  · split at h
    · split at h
      · cases h
      · cases h
        simp at hp
    · cases h
  · split at h
    · rename_i first rest hsplit
      split at h
      · cases h
      · cases h
        have hhead := head?_splitOn '/' specifier.toList
        rw [hsplit] at hhead
        rw [String.toList_ofList, Option.some.inj hhead]
    · cases h

end Specifiers

namespace BuiltIn

def heads : BuiltIn → List (List Char)
  | .forbidden m => [m.module.toList, "node:".toList ++ m.module.toList]
  | .caution m => [m.module.toList, "node:".toList ++ m.module.toList]
  | .buffer m => [m.module.toList, "node:".toList ++ m.module.toList]
  | .dependency table => table.map (·.source.toList)
  | _ => []

def others : BuiltIn → List Construct
  | .buffer _ => [.bufferCall]
  | .dynamicCode => [.evalCall, .newFunction]
  | .wasmSync => [.wasmSync]
  | .longTimer _ => [.timer]
  | _ => []

def About (b : BuiltIn) (o : Occurrence) : Prop :=
  (∃ link, o.construct = .reference link) ∧ o.value.toList.takeWhile (· != '/') ∈ b.heads ∨
    o.construct ∈ b.others

def Plain (b : BuiltIn) : Prop :=
  ∀ w ∈ b.heads, '/' ∉ w

def Apart (b b' : BuiltIn) : Prop :=
  (∀ w ∈ b.heads, w ∉ b'.heads) ∧ ∀ c ∈ b.others, c ∉ b'.others

instance (b : BuiltIn) : Decidable b.Plain :=
  inferInstanceAs (Decidable (∀ w ∈ b.heads, '/' ∉ w))

instance (b b' : BuiltIn) : Decidable (b.Apart b') :=
  inferInstanceAs (Decidable (_ ∧ _))

theorem reference_not_other (b : BuiltIn) (link : Link) : .reference link ∉ b.others := by
  cases b <;> simp [others]

theorem Apart.not_about {b b' : BuiltIn} (h : b.Apart b') {o : Occurrence} (ho : b.About o) :
    ¬ b'.About o := by
  rintro (⟨⟨link, hlink⟩, hhead'⟩ | hother')
  · rcases ho with ⟨-, hhead⟩ | hother
    · exact h.1 _ hhead hhead'
    · rw [hlink] at hother
      exact reference_not_other b link hother
  · rcases ho with ⟨⟨link, hlink⟩, -⟩ | hother
    · rw [hlink] at hother'
      exact reference_not_other b' link hother'
    · exact h.2 _ hother hother'

end BuiltIn

theorem catalog_plain : ∀ b ∈ catalog, b.Plain := by
  decide +kernel

theorem catalog_apart : catalog.Pairwise BuiltIn.Apart := by
  decide +kernel

/-- Findings that a rule reports at occurrences of a source, in the order of the source. -/
structure Source.Reported (s : Source) (b : BuiltIn) (fs : List Finding) (os : List Occurrence) :
    Prop where
  places : fs.map Finding.location = os.map fun o => locate s.path s.text o.start o.stop
  starts : os.Pairwise fun a b => a.start < b.start
  found : ∀ o ∈ os, ∃ family, o ∈ s.found family
  about : b.Plain → ∀ o ∈ os, b.About o

section Detection

variable {s : Source} {b : BuiltIn} {fs : List Finding} {os : List Occurrence}

theorem places_filterMap {g : Occurrence → Option Finding}
    (hg : ∀ o ∈ os, ∀ f, g o = some f → f.location = locate s.path s.text o.start o.stop) :
    (os.filterMap g).map Finding.location =
      (os.filter fun o => (g o).isSome).map fun o => locate s.path s.text o.start o.stop := by
  induction os with
  | nil => rfl
  | cons o os ih =>
    have hrest := ih fun x hx => hg x (List.mem_cons_of_mem o hx)
    cases ho : g o with
    | none => simpa [ho] using hrest
    | some f => simpa [ho, hg o (by simp) f ho] using hrest

theorem Source.Reported.of_filterMap {g : Occurrence → Option Finding}
    (hg : ∀ o ∈ os, ∀ f, g o = some f → f.location = locate s.path s.text o.start o.stop)
    (hstarts : os.Pairwise fun a b => a.start < b.start) (hfound : ∀ o ∈ os, ∃ family, o ∈ s.found family)
    (habout : b.Plain → ∀ o ∈ os, (g o).isSome = true → b.About o) :
    s.Reported b (os.filterMap g) (os.filter fun o => (g o).isSome) where
  places := places_filterMap hg
  starts := hstarts.filter _
  found o ho := hfound o (List.mem_of_mem_filter ho)
  about hb o ho := habout hb o (List.mem_of_mem_filter ho) (List.mem_filter.mp ho).2

theorem places_map {g : Occurrence → Finding}
    (hg : ∀ o, (g o).location = locate s.path s.text o.start o.stop) :
    (os.map g).map Finding.location = os.map fun o => locate s.path s.text o.start o.stop := by
  rw [List.map_map]
  exact List.map_congr_left fun o _ => hg o

theorem Source.Reported.of_map {g : Occurrence → Finding}
    (hg : ∀ o, (g o).location = locate s.path s.text o.start o.stop)
    (hstarts : os.Pairwise fun a b => a.start < b.start) (hfound : ∀ o ∈ os, ∃ family, o ∈ s.found family)
    (habout : b.Plain → ∀ o ∈ os, b.About o) : s.Reported b (os.map g) os where
  places := places_map hg
  starts := hstarts
  found := hfound
  about := habout

theorem reference_of_found {links : List Link} {o : Occurrence} (h : o ∈ s.found (.references links)) :
    ∃ link, o.construct = .reference link := by
  obtain ⟨link, -, hlink⟩ := List.mem_map.mp (Source.found_construct h)
  exact ⟨link, hlink.symm⟩

theorem references_about (m : ModuleRule) (hm : '/' ∉ m.module.toList) {o : Occurrence}
    (ho : o ∈ m.references s) : (∃ link, o.construct = .reference link) ∧
      o.value.toList.takeWhile (· != '/') ∈ [m.module.toList, "node:".toList ++ m.module.toList] := by
  obtain ⟨hmem, hrefers⟩ := List.mem_filter.mp ho
  have hfound : o ∈ s.found (.references Link.all) := hmem
  exact ⟨reference_of_found hfound, takeWhile_of_refersTo hm hrefers⟩

theorem references_starts (hs : s.WellFormed) (m : ModuleRule) :
    (m.references s).Pairwise fun a b => a.start < b.start :=
  (Source.found_starts hs (.references Link.all)).filter _

theorem references_found (m : ModuleRule) {o : Occurrence} (ho : o ∈ m.references s) :
    o ∈ s.found (.references Link.all) :=
  List.mem_of_mem_filter ho

theorem referencesAndBuffers_starts (hs : s.WellFormed) (m : ModuleRule) :
    (m.referencesAndBuffers s).Pairwise fun a b => a.start < b.start := by
  refine mergeSort_starts ?_
  rw [List.map_append, List.nodup_append]
  refine ⟨starts_nodup (references_starts hs m), starts_nodup (Source.found_starts hs .buffers), ?_⟩
  rintro _ ha _ hb rfl
  obtain ⟨o, ho, hstart⟩ := List.mem_map.mp ha
  obtain ⟨o', ho', hstart'⟩ := List.mem_map.mp hb
  have hbuffer : o' ∈ s.found .buffers := ho'
  obtain rfl := Source.found_unique hs (references_found m ho) hbuffer (hstart.trans hstart'.symm)
  obtain ⟨link, hlink⟩ := reference_of_found (references_found m ho)
  have hconstruct := Source.found_construct hbuffer
  rw [hlink] at hconstruct
  simp [Family.constructs] at hconstruct

theorem timerFinding_location (threshold : Quantity) {o : Occurrence} {f : Finding}
    (h : timerFinding threshold s o = .ok (some f)) :
    f.location = locate s.path s.text o.start o.stop := by
  rw [timerFinding] at h
  split at h
  · cases h
  · split at h
    · cases h
    · split at h
      · cases h
      · cases h
        rfl

theorem detect_timers {threshold : Quantity} (h : (timerRule threshold).detect s = .ok fs) :
    ∃ rs, s.timerCalls.mapM (timerFinding threshold s) = .ok rs ∧ fs = rs.filterMap id := by
  have hrun : (s.timerCalls.mapM (timerFinding threshold s) >>= fun found =>
      pure (found.filterMap id)) = Except.ok fs := h
  cases hmap : s.timerCalls.mapM (timerFinding threshold s) with
  | error e =>
    rw [hmap] at hrun
    cases hrun
  | ok rs =>
    rw [hmap] at hrun
    cases hrun
    exact ⟨rs, rfl, rfl⟩

theorem flagged_head {table : List Replacement} {o : Occurrence} {flagged : String × Replacement}
    (hplain : (BuiltIn.dependency table).Plain) (h : flaggedPackage? table o = some flagged) :
    o.value.toList.takeWhile (· != '/') ∈ (BuiltIn.dependency table).heads := by
  obtain ⟨package, hpackage, hrest⟩ := Option.bind_eq_some_iff.mp h
  obtain ⟨r, hr, -⟩ := Option.bind_eq_some_iff.mp hrest
  rw [replacement?] at hr
  have hsource : r.source = package := by simpa using List.find?_some hr
  have hmem : r.source.toList ∈ (BuiltIn.dependency table).heads :=
    List.mem_map_of_mem (List.mem_of_find?_eq_some hr)
  rw [hsource] at hmem
  rwa [takeWhile_of_basePackage (hplain _ hmem) hpackage]

theorem detect_reported (hs : s.WellFormed) (h : b.rule.detect s = .ok fs) :
    ∃ os, s.Reported b fs os := by
  cases b with
  | forbidden m =>
    cases h
    refine ⟨_, .of_map (fun _ => rfl) (references_starts hs m) (fun o ho => ⟨_, references_found m ho⟩) ?_⟩
    intro hplain o ho
    exact .inl (references_about m (hplain _ (by simp [BuiltIn.heads])) ho)
  | caution m =>
    cases h
    refine ⟨_, .of_map (fun _ => rfl) (references_starts hs m) (fun o ho => ⟨_, references_found m ho⟩) ?_⟩
    intro hplain o ho
    exact .inl (references_about m (hplain _ (by simp [BuiltIn.heads])) ho)
  | buffer m =>
    cases h
    have hmem : ∀ o ∈ m.referencesAndBuffers s, o ∈ m.references s ∨ o ∈ s.found .buffers := by
      intro o ho
      rw [ModuleRule.referencesAndBuffers, List.mem_mergeSort] at ho
      exact List.mem_append.mp ho
    refine ⟨_, .of_map (fun _ => rfl) (referencesAndBuffers_starts hs m) ?_ ?_⟩
    · intro o ho
      rcases hmem o ho with ho | ho
      · exact ⟨_, references_found m ho⟩
      · exact ⟨_, ho⟩
    · intro hplain o ho
      rcases hmem o ho with ho | ho
      · exact .inl (references_about m (hplain _ (by simp [BuiltIn.heads])) ho)
      · exact .inr (Source.found_construct ho)
  | dynamicCode =>
    cases h
    refine ⟨_, .of_map (fun _ => rfl) (Source.found_starts hs .dynamicCode)
      (fun o ho => ⟨.dynamicCode, ho⟩) ?_⟩
    intro _ o ho
    have hfound : o ∈ s.found .dynamicCode := ho
    exact .inr (Source.found_construct hfound)
  | wasmSync =>
    cases h
    refine ⟨_, .of_map (fun _ => rfl) (Source.found_starts hs .wasmSync)
      (fun o ho => ⟨.wasmSync, ho⟩) ?_⟩
    intro _ o ho
    have hfound : o ∈ s.found .wasmSync := ho
    exact .inr (Source.found_construct hfound)
  | longTimer threshold =>
    obtain ⟨rs, hrs, rfl⟩ := detect_timers h
    obtain ⟨g, hg, rfl⟩ := mapM_ok hrs
    rw [List.filterMap_map]
    refine ⟨_, .of_filterMap ?_ (Source.found_starts hs .timers) (fun o ho => ⟨.timers, ho⟩) ?_⟩
    · intro o ho f hf
      apply timerFinding_location threshold
      rw [hg o ho, ← hf]
      rfl
    · intro _ o ho _
      have hfound : o ∈ s.found .timers := ho
      exact .inr (Source.found_construct hfound)
  | dependency table =>
    cases h
    refine ⟨_, .of_filterMap ?_ (Source.found_starts hs (.references _))
      (fun o ho => ⟨.references _, ho⟩) ?_⟩
    · intro o _ f hf
      obtain ⟨flagged, -, rfl⟩ := Option.map_eq_some_iff.mp hf
      rfl
    · intro hplain o ho hsome
      obtain ⟨f, hf⟩ := Option.isSome_iff_exists.mp hsome
      obtain ⟨flagged, hflagged, -⟩ := Option.map_eq_some_iff.mp hf
      exact .inl ⟨reference_of_found ho, flagged_head hplain hflagged⟩

end Detection

section Places

variable {s : Source} {b b' : BuiltIn} {fs fs' : List Finding} {os os' : List Occurrence}

theorem Source.Reported.occurrence (h : s.Reported b fs os) {f : Finding} (hf : f ∈ fs) :
    ∃ o ∈ os, f.location = locate s.path s.text o.start o.stop := by
  have hmem : f.location ∈ fs.map Finding.location := List.mem_map_of_mem hf
  rw [h.places] at hmem
  obtain ⟨o, ho, heq⟩ := List.mem_map.mp hmem
  exact ⟨o, ho, heq.symm⟩

theorem Source.Reported.start_le (hs : s.WellFormed) (h : s.Reported b fs os) {o : Occurrence}
    (ho : o ∈ os) : o.start ≤ s.text.length := by
  obtain ⟨family, hfamily⟩ := h.found o ho
  have hspan := Source.found_span hs hfamily
  omega

theorem Source.Reported.before (hs : s.WellFormed) (h : s.Reported b fs os) :
    fs.Pairwise fun f g => f.location.Before g.location := by
  rw [← List.pairwise_map (f := Finding.location), h.places, List.pairwise_map]
  refine h.starts.imp_of_mem ?_
  intro o o' _ ho' hlt
  exact locate_before hlt (h.start_le hs ho')

theorem Source.Reported.apart (hs : s.WellFormed) (h : s.Reported b fs os) (h' : s.Reported b' fs' os')
    (hb : b.Plain) (hb' : b'.Plain) (hapart : b.Apart b') :
    ∀ f ∈ fs, ∀ g ∈ fs', (f.location.line, f.location.column) ≠ (g.location.line, g.location.column) := by
  intro f hf g hg
  obtain ⟨o, ho, hfo⟩ := h.occurrence hf
  obtain ⟨o', ho', hgo⟩ := h'.occurrence hg
  rw [hfo, hgo]
  rcases Nat.lt_trichotomy o.start o'.start with hlt | heq | hlt
  · exact (locate_before hlt (h'.start_le hs ho')).apart
  · obtain ⟨family, hfound⟩ := h.found o ho
    obtain ⟨family', hfound'⟩ := h'.found o' ho'
    obtain rfl := Source.found_unique hs hfound hfound' heq
    exact absurd (h'.about hb' o ho') (hapart.not_about (h.about hb o ho))
  · exact (locate_before hlt (h.start_le hs ho)).apart.symm

theorem detectAll_ok {rules : List Rule} (h : detectAll rules s = .ok fs) :
    ∃ g : Rule → List Finding, (∀ r ∈ rules, r.detect s = .ok (g r)) ∧ fs = (rules.map g).flatten := by
  rw [detectAll] at h
  cases hmap : rules.mapM fun r => r.detect s with
  | error e =>
    rw [hmap] at h
    cases h
  | ok parts =>
    rw [hmap] at h
    cases h
    obtain ⟨g, hg, rfl⟩ := mapM_ok hmap
    exact ⟨g, hg, rfl⟩

/-- Where the tree of a source is well formed, or where it has none, the findings of a rule come one
behind the other, no two findings of the catalog stand at one place, and each of them spans a stretch
of the text. -/
theorem findings_places (s : Source) (hs : s.WellFormed) :
    (∀ (b : BuiltIn) (fs : List Finding), b.rule.detect s = .ok fs →
      fs.Pairwise fun f g => f.location.Before g.location) ∧
    ∀ found : List Finding, detectAll defaultRules s = .ok found →
      (found.map fun f => (f.location.line, f.location.column)).Nodup ∧
      ∀ f ∈ found, ∃ start stop : Nat, start < stop ∧ stop ≤ s.text.length ∧
        f.location = locate s.path s.text start stop := by
  refine ⟨?_, ?_⟩
  · intro b fs h
    obtain ⟨os, hos⟩ := detect_reported hs h
    exact hos.before hs
  · intro found h
    obtain ⟨g, hg, rfl⟩ := detectAll_ok h
    have hreported : ∀ b ∈ catalog, ∃ os, s.Reported b (g b.rule) os :=
      fun b hb => detect_reported hs (hg b.rule (List.mem_map_of_mem hb))
    refine ⟨?_, ?_⟩
    · rw [List.Nodup, List.pairwise_map, List.pairwise_flatten]
      refine ⟨?_, ?_⟩
      · intro fs hfs
        simp only [defaultRules, List.map_map, List.mem_map] at hfs
        obtain ⟨b, hb, rfl⟩ := hfs
        obtain ⟨os, hos⟩ := hreported b hb
        exact (hos.before hs).imp Location.Before.apart
      · rw [defaultRules, List.map_map, List.pairwise_map]
        refine catalog_apart.imp_of_mem ?_
        intro b b' hb hb' hapart
        obtain ⟨os, hos⟩ := hreported b hb
        obtain ⟨os', hos'⟩ := hreported b' hb'
        exact hos.apart hs hos' (catalog_plain b hb) (catalog_plain b' hb') hapart
    · intro f hf
      simp only [defaultRules, List.map_map, List.mem_flatten, List.mem_map] at hf
      obtain ⟨_, ⟨b, hb, rfl⟩, hf⟩ := hf
      obtain ⟨os, hos⟩ := hreported b hb
      obtain ⟨o, ho, hlocation⟩ := hos.occurrence hf
      obtain ⟨family, hfound⟩ := hos.found o ho
      obtain ⟨hspan, hstop⟩ := Source.found_span hs hfound
      exact ⟨o.start, o.stop, hspan, hstop, hlocation⟩

end Places

def chainSource : Source :=
  Source.read "src/a.js" "require('fs')(Buffer.from(x));".toList .auto false

theorem chain_tree : chainSource.tree = some (.node .other .plain 0 30 [
    .node .call .plain 0 29 [
      .node .call .callee 0 13 [
        .node .identifier .callee 0 7 [],
        .node .other .arguments 7 13 [.node .string .plain 8 12 []]],
      .node .other .arguments 13 29 [
        .node .call .plain 14 28 [
          .node .member .callee 14 25 [
            .node .identifier .object 14 20 [],
            .node .other .property 21 25 []],
          .node .other .arguments 25 28 [.node .identifier .plain 26 27 []]]]]]) := by
  decide +kernel

theorem findings_places_chain : chainSource.WellFormed ∧ ∃ found : List Finding,
    detectAll defaultRules chainSource = .ok found ∧
    (found.map fun f => (f.ruleId, f.location.column)) =
      [("node-core/forbidden-module:fs", 0), ("node-core/caution:buffer", 14)] ∧
    (found.map fun f => (f.location.line, f.location.column)).Nodup ∧
    ∀ f ∈ found, ∃ start stop : Nat, start < stop ∧ stop ≤ chainSource.text.length ∧
      f.location = locate chainSource.path chainSource.text start stop := by
  have hwf : chainSource.WellFormed := by
    intro t ht
    cases chain_tree.symm.trans ht
    decide
  have hrun : (detectAll defaultRules chainSource).toOption.map
      (List.map fun f => (f.ruleId, f.location.column)) =
        some [("node-core/forbidden-module:fs", 0), ("node-core/caution:buffer", 14)] := by
    decide +kernel
  cases hfound : detectAll defaultRules chainSource with
  | error e =>
    rw [hfound] at hrun
    cases hrun
  | ok found =>
    rw [hfound] at hrun
    exact ⟨hwf, found, rfl, Option.some.inj hrun, (findings_places chainSource hwf).2 found hfound⟩

end EdgeAudit
