import EdgeAudit.Proofs.ScanReturns
import EdgeAudit.Proofs.WorkerSession

/-!
The setting of a rule acts on the findings of that rule alone, if rules report under their own ids: it
changes neither what other rules find nor which files fail, and the rule's own findings are what it
reports, less the files where it is not heard, at the severity that is asked for.
-/

namespace EdgeAudit

def RuleLevel.severity? : RuleLevel → Option Severity
  | .off => none
  | .warn => some .warning
  | .error => some .error

/-- What becomes of a finding under the setting of its rule. -/
def heard? (setting : Option RuleSetting) (relative : String) (x : Finding) : Option Finding :=
  match setting with
  | none => some x
  | some ⟨level, ignore⟩ =>
    if Glob.matchesAny ignore relative = .ok true then none
    else level.severity?.map fun severity => { x with severity }

theorem heard?_fields {setting : Option RuleSetting} {relative : String} {x y : Finding}
    (h : heard? setting relative x = some y) : y = { x with severity := y.severity } := by
  unfold heard? at h
  split at h
  · cases h
    rfl
  · split at h
    · cases h
    · obtain ⟨severity, -, rfl⟩ := Option.map_eq_some_iff.mp h
      rfl

theorem heard?_off {c : Config} {r : String} (h : c.isDisabled r = true) (relative : String)
    (x : Finding) : heard? (c.setting? r) relative x = none := by
  unfold Config.isDisabled at h
  cases hs : c.setting? r with
  | none => simp [hs] at h
  | some setting =>
    obtain ⟨level, ignore⟩ := setting
    have hlevel : level = .off := by simpa [hs] using h
    simp [heard?, hlevel, RuleLevel.severity?]

theorem filterMap_heard?_off {c : Config} {r : String} (h : c.isDisabled r = true) (relative : String)
    (found : List Finding) : found.filterMap (heard? (c.setting? r) relative) = [] := by
  rw [List.filterMap_eq_nil_iff]
  intro x _
  exact heard?_off h relative x

namespace Config

theorem applySetting_heard {c : Config} {relative : String} {x : Finding} {kept : Option Finding}
    (h : c.applySetting relative x = .ok kept) : kept = heard? (c.setting? x.ruleId) relative x := by
  unfold applySetting at h
  unfold heard?
  cases hs : c.setting? x.ruleId with
  | none =>
    rw [hs] at h
    cases h
    rfl
  | some setting =>
    rw [hs] at h
    obtain ⟨ignored, hignored, hrest⟩ := bind_eq_ok.mp h
    rw [mapError_eq_ok] at hignored
    cases ignored with
    | true =>
      cases hrest
      simp [hignored]
    | false =>
      obtain ⟨severity, hseverity, hkept⟩ := bind_eq_ok.mp hrest
      rw [mapError_eq_ok] at hseverity
      cases hkept
      have hlevel : setting.level.severity? = some severity := by
        cases hl : setting.level with
        | off =>
          rw [hl] at hseverity
          cases hseverity
        | warn | error =>
          rw [hl] at hseverity
          cases hseverity
          rfl
      simp [hignored, hlevel]

theorem applySettings_heard {c : Config} {relative : String} {found kept : List Finding}
    (h : c.applySettings relative found = .ok kept) :
    kept = found.filterMap fun x => heard? (c.setting? x.ruleId) relative x := by
  obtain ⟨parts, hparts, hkept⟩ := bind_eq_ok.mp h
  cases hkept
  obtain ⟨g, hg, rfl⟩ := mapM_ok hparts
  rw [List.filterMap_map]
  apply List.filterMap_congr
  intro x hx
  exact applySetting_heard (hg x hx)

structure SameBut (r : String) (c c' : Config) : Prop where
  target : c'.target = c.target
  strict : c'.strict = c.strict
  included : c'.included = c.included
  excluded : c'.excluded = c.excluded
  others : ∀ id, id ≠ r → c'.setting? id = c.setting? id

theorem SameBut.symm {r : String} {c c' : Config} (h : c.SameBut r c') : c'.SameBut r c :=
  ⟨h.target.symm, h.strict.symm, h.included.symm, h.excluded.symm, fun id hid => (h.others id hid).symm⟩

end Config

theorem length_flatMap_le {α β : Type} {xs : List α} {g h : α → List β} (hsub : ∀ x, (g x).Sublist (h x)) :
    (xs.flatMap g).length ≤ (xs.flatMap h).length := by
  induction xs with
  | nil => exact le_rfl
  | cons x xs ih =>
    simp only [List.flatMap_cons, List.length_append]
    exact Nat.add_le_add (hsub x).length_le ih

theorem flatMap_eq_iff {α β : Type} {xs : List α} {g h : α → List β} (hsub : ∀ x, (g x).Sublist (h x)) :
    xs.flatMap g = xs.flatMap h ↔ ∀ x ∈ xs, g x = h x := by
  refine ⟨?_, List.flatMap_congr⟩
  intro heq
  induction xs with
  | nil => simp
  | cons x xs ih =>
    have hlength := congrArg List.length heq
    simp only [List.flatMap_cons, List.length_append] at hlength
    have hrest := @length_flatMap_le _ _ xs _ _ hsub
    have hx : g x = h x := (hsub x).eq_of_length_le (by omega)
    rw [List.flatMap_cons, List.flatMap_cons, hx, List.append_cancel_left_eq] at heq
    simpa [hx] using ih heq

theorem flatMap_filter {α β : Type} (xs : List α) (p : α → Bool) (g : α → List β) :
    (xs.filter p).flatMap g = xs.flatMap fun x => if p x then g x else [] := by
  induction xs with
  | nil => rfl
  | cons x xs ih => cases hx : p x <;> simp [hx, ih]

section Detection

def Rule.findings (rule : Rule) (source : Source) : List Finding :=
  (rule.detect source).toOption.getD []

theorem Rule.mem_findings {rule : Rule} {source : Source} {x : Finding}
    (h : x ∈ rule.findings source) : ∃ found, rule.detect source = .ok found ∧ x ∈ found := by
  unfold findings at h
  cases hd : rule.detect source with
  | error e => simp [hd, Except.toOption] at h
  | ok found => exact ⟨found, rfl, by simpa [hd, Except.toOption] using h⟩

theorem detectAll_cons (rule : Rule) (rules : List Rule) (source : Source) :
    detectAll (rule :: rules) source = (do
      let found ← rule.detect source
      let more ← detectAll rules source
      return found ++ more) := by
  unfold detectAll
  rw [List.mapM_cons]
  cases rule.detect source with
  | error e => rfl
  | ok found =>
    cases rules.mapM fun r => r.detect source with
    | error e => rfl
    | ok parts => rfl

theorem detectAll_eq_ok {rules : List Rule} {source : Source} {found : List Finding}
    (h : detectAll rules source = .ok found) : found = rules.flatMap (·.findings source) := by
  induction rules generalizing found with
  | nil =>
    cases h
    rfl
  | cons rule rules ih =>
    rw [detectAll_cons] at h
    obtain ⟨first, hfirst, hrest⟩ := bind_eq_ok.mp h
    obtain ⟨more, hmore, hfound⟩ := bind_eq_ok.mp hrest
    cases hfound
    simp [ih hmore, Rule.findings, hfirst, Except.toOption]

theorem detectAll_error_without {rules : List Rule} {source : Source} {r : String}
    (hr : ∀ rule ∈ rules, rule.id = r → ∃ found, rule.detect source = .ok found) (e : RuleFailure) :
    detectAll (rules.filter fun rule => rule.id != r) source = .error e ↔
      detectAll rules source = .error e := by
  induction rules with
  | nil => rfl
  | cons rule rules ih =>
    have hrest := ih fun other ho => hr other (List.mem_cons_of_mem rule ho)
    by_cases hid : rule.id = r
    · obtain ⟨found, hfound⟩ := hr rule (by simp) hid
      rw [List.filter_cons_of_neg (by simp [hid]), hrest, detectAll_cons, hfound]
      cases detectAll rules source <;> simp [bind, Except.bind, pure, Except.pure]
    · rw [List.filter_cons_of_pos (by simp [hid]), detectAll_cons, detectAll_cons]
      cases rule.detect source with
      | error e' => rfl
      | ok found =>
        cases hall : detectAll rules source <;>
          cases hothers : detectAll (rules.filter fun rule => rule.id != r) source <;>
          simp_all [bind, Except.bind, pure, Except.pure]

end Detection

namespace Sight

def reported (config : Config) (rules : List Rule) (path : String) : Sight → List Finding
  | .readable text => rules.flatMap (·.findings (Source.read path text config.target config.strict))
  | _ => []

theorem failure?_readable {executor : Executor} {config : Config} {rules : List Rule} {path : String}
    {text : List Char} {failure : ExecutionFailure} :
    (Sight.readable text).failure? executor config rules path = some failure ↔
      executor.deliver path none (Task.outcome ⟨path, text, config.target, config.strict, rules⟩) =
        .ok (.error failure) := by
  simp only [failure?, outcome?, executed?, Executor.execute_outcome, Option.bind_some]
  cases executor.deliver path none (Task.outcome ⟨path, text, config.target, config.strict, rules⟩) with
  | error cause => simp [Except.toOption]
  | ok outcome => cases outcome <;> simp [Except.toOption]

theorem scanned_findings {executor : Executor} {config : Config} {rules : List Rule} {cwd path : String}
    {seen : Sight} {scan : FileScan} (h : seen.scanned executor config rules cwd path = .ok scan) :
    scan.findings = if seen.failure? executor config rules path = none then
      (seen.reported config rules path).filterMap fun x =>
        heard? (config.setting? x.ruleId) (Path.relativeTo path cwd) x
    else [] := by
  cases seen with
  | rejected fault | unreadable fault =>
    cases h
    simp [reported]
  | readable text =>
    simp only [scanned, executed?] at h
    cases ho : (executor.execute ⟨path, text, config.target, config.strict, rules⟩ none).1 with
    | error cause =>
      rw [ho] at h
      cases h
    | ok outcome =>
      rw [ho] at h
      cases outcome with
      | error failure =>
        have hfail : (Sight.readable text).failure? executor config rules path = some failure := by
          simp [failure?, outcome?, executed?, ho, Except.toOption]
        cases h
        simp [hfail]
      | ok found =>
        have hfail : (Sight.readable text).failure? executor config rules path = none := by
          simp [failure?, outcome?, executed?, ho, Except.toOption]
        obtain ⟨kept, hkept, hscan⟩ := bind_eq_ok.mp h
        cases hscan
        have hfound : found = (Sight.readable text).reported config rules path :=
          detectAll_eq_ok (Executor.execute_ok ho)
        rw [if_pos hfail, ← hfound]
        exact Config.applySettings_heard hkept

end Sight

theorem filter_heard (c : Config) (relative : String) (p : String → Bool) (found : List Finding) :
    (found.filterMap fun x => heard? (c.setting? x.ruleId) relative x).filter (fun x => p x.ruleId) =
      (found.filter fun x => p x.ruleId).filterMap fun x => heard? (c.setting? x.ruleId) relative x := by
  rw [List.filter_filterMap, List.filterMap_filter]
  apply List.filterMap_congr
  intro x _
  cases hx : heard? (c.setting? x.ruleId) relative x with
  | none => simp
  | some y =>
    have hid : y.ruleId = x.ruleId := by rw [heard?_fields hx]
    simp [Option.filter, hid]

namespace Scanner

def Answers (s : Scanner) (f : Files) (r path : String) : Prop :=
  ∀ text, f.sight s.cwd s.maxSize path = .readable text →
    ∀ rule ∈ s.registry.enabledRules, rule.id = r →
      ∃ found, rule.detect (Source.read path text s.config.target s.config.strict) = .ok found

variable {s : Scanner} {f : Files} {config : Config} {r path : String}

theorem rules_without (h : s.config.SameBut r config) :
    ({ s with config } : Scanner).rules.filter (fun rule => rule.id != r) =
      s.rules.filter fun rule => rule.id != r := by
  simp only [rules, List.filter_filter]
  apply List.filter_congr
  intro rule _
  by_cases hid : rule.id = r
  · simp [hid]
  · simp [Config.isDisabled, h.others rule.id hid]

theorem failure?_congr (h : s.config.SameBut r config) (hr : s.Answers f r path) :
    (f.sight s.cwd s.maxSize path).failure? s.executor config ({ s with config } : Scanner).rules path =
      (f.sight s.cwd s.maxSize path).failure? s.executor s.config s.rules path := by
  cases hseen : f.sight s.cwd s.maxSize path with
  | rejected fault => rfl
  | unreadable fault => rfl
  | readable text =>
    have hanswers (c : Config) : ∀ rule ∈ ({ s with config := c } : Scanner).rules, rule.id = r →
        ∃ found, rule.detect (Source.read path text s.config.target s.config.strict) = .ok found := by
      intro rule hrule hid
      exact hr text hseen rule (List.mem_of_mem_filter hrule) hid
    have hsame (e : RuleFailure) : detectAll ({ s with config } : Scanner).rules
        (Source.read path text s.config.target s.config.strict) = .error e ↔
        detectAll s.rules (Source.read path text s.config.target s.config.strict) = .error e := by
      rw [← detectAll_error_without (hanswers config), rules_without h,
        detectAll_error_without (hanswers s.config)]
    apply Option.ext
    intro failure
    rw [Sight.failure?_readable, Sight.failure?_readable, h.target, h.strict]
    unfold Task.outcome Task.run
    dsimp only
    cases hfull : detectAll s.rules (Source.read path text s.config.target s.config.strict) with
    | error e => rw [(hsame e).mpr hfull]
    | ok found =>
      cases hother : detectAll ({ s with config } : Scanner).rules
          (Source.read path text s.config.target s.config.strict) with
      | error e =>
        rw [(hsame e).mp hother] at hfull
        cases hfull
      | ok found' => exact Executor.deliver_failure _ _ _ _ _

theorem rules_off (h : s.config.SameBut r config) (hoff : s.config.isDisabled r = true) :
    s.rules = ({ s with config } : Scanner).rules.filter fun rule => rule.id != r := by
  rw [rules_without h, eq_comm, List.filter_eq_self]
  intro rule hrule
  have hon := (List.mem_filter.mp hrule).2
  rw [bne_iff_ne]
  rintro rfl
  simp [hoff] at hon

theorem rules_congr (h : s.config.SameBut r config) (hlevel : s.config.isDisabled r = config.isDisabled r) :
    ({ s with config } : Scanner).rules = s.rules := by
  apply List.filter_congr
  intro rule _
  by_cases hid : rule.id = r
  · simp [hid, hlevel]
  · simp [Config.isDisabled, h.others rule.id hid]

/-- About what is seen of a file, findings have the id `r` exactly if they are of a rule with this id. -/
def Owns (s : Scanner) (f : Files) (r path : String) : Prop :=
  ∀ text, f.sight s.cwd s.maxSize path = .readable text → ∀ rule ∈ s.registry.enabledRules,
    ∀ x ∈ rule.findings (Source.read path text s.config.target s.config.strict),
      (x.ruleId = r ↔ rule.id = r)

theorem reported_own (hown : s.Owns f r path) :
    ((f.sight s.cwd s.maxSize path).reported s.config s.rules path).filter (fun x => x.ruleId == r) =
      (f.sight s.cwd s.maxSize path).reported s.config (s.rules.filter fun rule => rule.id == r) path := by
  cases hseen : f.sight s.cwd s.maxSize path with
  | rejected fault => rfl
  | unreadable fault => rfl
  | readable text =>
    simp only [Sight.reported, List.filter_flatMap, flatMap_filter]
    apply List.flatMap_congr
    intro rule hrule
    have hmine : ∀ x ∈ rule.findings (Source.read path text s.config.target s.config.strict),
        (x.ruleId == r) = (rule.id == r) := by
      intro x hx
      rw [Bool.eq_iff_iff, beq_iff_eq, beq_iff_eq]
      exact hown text hseen rule (List.mem_of_mem_filter hrule) x hx
    rw [List.filter_congr hmine]
    cases rule.id == r <;> simp

theorem rules_own (h : s.config.isDisabled r = false) :
    s.rules.filter (fun rule => rule.id == r) =
      s.registry.enabledRules.filter fun rule => rule.id == r := by
  simp only [rules, List.filter_filter]
  apply List.filter_congr
  intro rule _
  by_cases hid : rule.id = r
  · simp [hid, h]
  · simp [hid]

def Unused (cache : Option FindingCache) : Prop :=
  ∀ c, cache = some c → ∃ capacity, Cache.create capacity = .ok c

theorem scans_result {changes : ChangeSet} {elapsed : Number.Binary64} {cache : Option FindingCache}
    {out : ScanOutcome} (hcache : Unused cache) (h : s.Scans f changes elapsed cache out) :
    ∃ found notes, s.discover f = .ok (found, notes) ∧
      (∀ path ∈ (s.selected changes found).1, s.alone f path = .ok (s.outcomeAt f path)) ∧
      out.result.findings =
        (s.selected changes found).1.flatMap (fun path => (s.outcomeAt f path).findings) ∧
      out.result.errors = (s.selected changes found).1.filterMap (fun path =>
        ((f.sight s.cwd s.maxSize path).failure? s.executor s.config s.rules path).map
          fun e => ⟨path, e.message⟩) ∧
      out.result.fileCount = (s.selected changes found).1.length := by
  have hempty : ∀ c, cache = some c → c.Forall (s.Serves f) := by
    intro c hc
    obtain ⟨capacity, hcreate⟩ := hcache c hc
    exact Cache.forall_create hcreate
  obtain ⟨found, notes, scans, hd, hall, hres, -⟩ := scans_known (serves_reliable s f) hempty h
  rw [hres]
  exact ⟨found, notes, hd, fun path hp => mem_returns hall hp, resultOf_outcomes hall _ _⟩

theorem outcomeAt_findings (h : s.alone f path = .ok (s.outcomeAt f path)) (p : String → Bool) :
    (s.outcomeAt f path).findings.filter (fun x => p x.ruleId) =
      if (f.sight s.cwd s.maxSize path).failure? s.executor s.config s.rules path = none then
        (((f.sight s.cwd s.maxSize path).reported s.config s.rules path).filter
          fun x => p x.ruleId).filterMap fun x =>
            heard? (s.config.setting? x.ruleId) (s.relative path) x
      else [] := by
  rw [Sight.scanned_findings h]
  split
  · exact filter_heard s.config _ p _
  · rfl

/-- What is heard of some rules about a file that does not fail, under other ids than `r`. -/
def heardBut (s : Scanner) (f : Files) (r : String) (rules : List Rule) (path : String) : List Finding :=
  if (f.sight s.cwd s.maxSize path).failure? s.executor s.config s.rules path = none then
    (((f.sight s.cwd s.maxSize path).reported s.config rules path).filter
      fun x => x.ruleId != r).filterMap fun x => heard? (s.config.setting? x.ruleId) (s.relative path) x
  else []

theorem heardBut_flatMap (rules : List Rule) :
    s.heardBut f r rules path = rules.flatMap fun rule => s.heardBut f r [rule] path := by
  unfold heardBut
  split
  · cases f.sight s.cwd s.maxSize path with
    | rejected fault | unreadable fault => simp [Sight.reported]
    | readable text =>
      simp [Sight.reported, List.filter_flatMap, List.filterMap_flatMap]
  · simp

theorem heardBut_congr (h : s.config.SameBut r config) (hr : s.Answers f r path) (rules : List Rule) :
    ({ s with config } : Scanner).heardBut f r rules path = s.heardBut f r rules path := by
  have hreported : (f.sight s.cwd s.maxSize path).reported config rules path =
      (f.sight s.cwd s.maxSize path).reported s.config rules path := by
    unfold Sight.reported
    rw [h.target, h.strict]
  unfold heardBut
  rw [← failure?_congr h hr]
  dsimp only
  rw [hreported]
  congr 1
  apply List.filterMap_congr
  intro x hx
  have hid : x.ruleId ≠ r := by simpa using (List.mem_filter.mp hx).2
  rw [h.others x.ruleId hid]
  rfl

theorem flatMap_heardBut_iff (paths : List String) (rules : List Rule) :
    (paths.flatMap (s.heardBut f r (rules.filter fun rule => rule.id != r)) =
      paths.flatMap (s.heardBut f r rules)) ↔
    ∀ path ∈ paths, s.heardBut f r (rules.filter fun rule => rule.id == r) path = [] := by
  have hpart (path : String) (p : Rule → Bool) : s.heardBut f r (rules.filter p) path =
      rules.flatMap fun rule => if p rule then s.heardBut f r [rule] path else [] := by
    rw [heardBut_flatMap, flatMap_filter]
  have hsub (path : String) (rule : Rule) : (if rule.id != r then s.heardBut f r [rule] path else []).Sublist
      (s.heardBut f r [rule] path) := by
    split
    · exact List.Sublist.refl _
    · exact List.nil_sublist _
  rw [flatMap_eq_iff]
  · refine forall₂_congr fun path _ => ?_
    rw [hpart, hpart, heardBut_flatMap rules, flatMap_eq_iff (hsub path), List.flatMap_eq_nil_iff]
    refine forall₂_congr fun rule _ => ?_
    cases hid : rule.id == r with
    | false => simp [bne, hid]
    | true => simp [bne, hid, eq_comm (a := ([] : List Finding))]
  · intro path
    rw [hpart, heardBut_flatMap rules]
    exact List.Sublist.flatMap_right _ fun rule _ => hsub path rule

theorem outcomeAt_named (ha : s.alone f path = .ok (s.outcomeAt f path)) :
    (s.outcomeAt f path).findings.filter (fun x => x.ruleId == r) =
      if (f.sight s.cwd s.maxSize path).failure? s.executor s.config s.rules path = none then
        (((f.sight s.cwd s.maxSize path).reported s.config s.rules path).filter
          fun x => x.ruleId == r).filterMap (heard? (s.config.setting? r) (s.relative path))
      else [] := by
  rw [outcomeAt_findings ha (· == r)]
  split
  · apply List.filterMap_congr
    intro x hx
    have hid : x.ruleId = r := by simpa using (List.mem_filter.mp hx).2
    rw [hid]
  · rfl

theorem heardBut_of_signed (h : ∀ rule ∈ s.registry.enabledRules, rule.id = r → rule.Signed) :
    s.heardBut f r (s.registry.enabledRules.filter fun rule => rule.id == r) path = [] := by
  have hnone : ((f.sight s.cwd s.maxSize path).reported s.config
      (s.registry.enabledRules.filter fun rule => rule.id == r) path).filter (fun x => x.ruleId != r) = [] := by
    rw [List.filter_eq_nil_iff]
    intro x hx
    cases hseen : f.sight s.cwd s.maxSize path with
    | rejected fault | unreadable fault => simp [hseen, Sight.reported] at hx
    | readable text =>
      rw [hseen] at hx
      obtain ⟨rule, hrule, hx⟩ := List.mem_flatMap.mp hx
      obtain ⟨hrule, hid⟩ := List.mem_filter.mp hrule
      have hid : rule.id = r := by simpa using hid
      obtain ⟨found, hfound, hmem⟩ := Rule.mem_findings hx
      simp [h rule hrule hid _ _ hfound x hmem, hid]
  unfold heardBut
  rw [hnone]
  simp

theorem owns_of_signed (h : ∀ rule ∈ s.registry.enabledRules, rule.Signed) : s.Owns f r path := by
  intro text _ rule hrule x hx
  obtain ⟨found, hfound, hmem⟩ := Rule.mem_findings hx
  rw [h rule hrule _ _ hfound x hmem]

theorem flatMap_heardBut_off (h : s.config.SameBut r config) (hoff : s.config.isDisabled r = true)
    (hon : config.isDisabled r = false) (paths : List String) :
    (paths.flatMap (s.heardBut f r s.rules) =
      paths.flatMap (s.heardBut f r ({ s with config } : Scanner).rules)) ↔
    ∀ path ∈ paths,
      s.heardBut f r (s.registry.enabledRules.filter fun rule => rule.id == r) path = [] := by
  rw [rules_off h hoff, flatMap_heardBut_iff, rules_own (s := { s with config }) hon]

theorem flatMap_heardBut_settings (h : s.config.SameBut r config) {paths : List String}
    (hr : ∀ path ∈ paths, s.Answers f r path) :
    (paths.flatMap (({ s with config } : Scanner).heardBut f r ({ s with config } : Scanner).rules) =
      paths.flatMap (s.heardBut f r s.rules)) ↔
    (s.config.isDisabled r = config.isDisabled r ∨ ∀ path ∈ paths,
      s.heardBut f r (s.registry.enabledRules.filter fun rule => rule.id == r) path = []) := by
  have hcongr (rules : List Rule) : paths.flatMap (({ s with config } : Scanner).heardBut f r rules) =
      paths.flatMap (s.heardBut f r rules) :=
    List.flatMap_congr fun path hp => heardBut_congr h (hr path hp) rules
  rw [hcongr]
  cases hold : s.config.isDisabled r <;> cases hnew : config.isDisabled r
  · simp [rules_congr h (hold.trans hnew.symm)]
  · have hback := flatMap_heardBut_off (s := { s with config }) (f := f) h.symm hnew hold paths
    rw [hcongr, hcongr] at hback
    refine hback.trans ?_
    simp only [Bool.false_eq_true, false_or]
    refine forall₂_congr fun path hp => ?_
    rw [← heardBut_congr h (hr path hp)]
  · simp only [Bool.true_eq_false, false_or]
    rw [eq_comm, flatMap_heardBut_off h hold hnew]
  · simp [rules_congr h (hold.trans hnew.symm)]

/-- Two scans whose settings differ for one rule only have the same errors, and they differ in the
findings of this rule only, exactly if the rule is on or off in both or nothing is heard of it under
other ids. If ids tell whose the findings are, those of the rule are what it reports on the files that do
not fail, as its setting has them heard. -/
theorem scan_settings_local (s : Scanner) (f : Files) (changes : ChangeSet)
    (elapsed elapsed' : Number.Binary64) (cache cache' : Option FindingCache) (config : Config)
    (r : String) (out out' : ScanOutcome) (hsame : s.config.SameBut r config)
    (hcache : Unused cache) (hcache' : Unused cache')
    (h : s.Scans f changes elapsed cache out)
    (h' : ({ s with config } : Scanner).Scans f changes elapsed' cache' out')
    (hr : ∀ found notes, s.discover f = .ok (found, notes) →
      ∀ path ∈ (s.selected changes found).1, s.Answers f r path) :
    out'.result.errors = out.result.errors ∧ out'.result.fileCount = out.result.fileCount ∧
    (s.config.isDisabled r = true → ∀ x ∈ out.result.findings, x.ruleId ≠ r) ∧
    ∃ found notes, s.discover f = .ok (found, notes) ∧
      (out'.result.findings.filter (fun x => x.ruleId != r) =
          out.result.findings.filter (fun x => x.ruleId != r) ↔
        s.config.isDisabled r = config.isDisabled r ∨ ∀ path ∈ (s.selected changes found).1,
          s.heardBut f r (s.registry.enabledRules.filter fun rule => rule.id == r) path = []) ∧
      ((∀ path ∈ (s.selected changes found).1, s.Owns f r path) →
        out.result.findings.filter (fun x => x.ruleId == r) =
          (s.selected changes found).1.flatMap fun path =>
            if (f.sight s.cwd s.maxSize path).failure? s.executor s.config s.rules path = none then
              ((f.sight s.cwd s.maxSize path).reported s.config
                (s.registry.enabledRules.filter fun rule => rule.id == r) path).filterMap
                  (heard? (s.config.setting? r) (s.relative path))
            else []) := by
  obtain ⟨found, notes, hd, hall, hfindings, herrors, hcount⟩ := scans_result hcache h
  obtain ⟨found', notes', hd', hall', hfindings', herrors', hcount'⟩ := scans_result hcache' h'
  have hdiscover : ({ s with config } : Scanner).discover f = s.discover f := by
    simp only [discover, wanted, hsame.included, hsame.excluded]
  rw [hdiscover, hd] at hd'
  cases hd'
  have hanswers := hr found notes hd
  refine ⟨?_, ?_, ?_, found, notes, hd, ?_, ?_⟩
  · rw [herrors, herrors']
    apply List.filterMap_congr
    intro path hp
    rw [← failure?_congr hsame (hanswers path hp)]
  · rw [hcount, hcount']
    rfl
  · intro hoff x hx hid
    rw [hfindings] at hx
    obtain ⟨path, hp, hx⟩ := List.mem_flatMap.mp hx
    have hnone : (s.outcomeAt f path).findings.filter (fun x => x.ruleId == r) = [] := by
      rw [outcomeAt_named (hall path hp)]
      split
      · exact filterMap_heard?_off hoff _ _
      · rfl
    exact List.filter_eq_nil_iff.mp hnone x hx (by simpa using hid)
  · rw [← flatMap_heardBut_settings hsame hanswers, hfindings, hfindings', List.filter_flatMap,
      List.filter_flatMap, List.flatMap_congr fun path hp => outcomeAt_findings (hall path hp) (· != r),
      List.flatMap_congr fun path hp => outcomeAt_findings (hall' path hp) (· != r)]
    rfl
  · intro hown
    rw [hfindings, List.filter_flatMap]
    apply List.flatMap_congr
    intro path hp
    rw [outcomeAt_named (hall path hp), reported_own (hown path hp)]
    cases hlevel : s.config.isDisabled r with
    | false => rw [rules_own hlevel]
    | true => rw [filterMap_heard?_off hlevel, filterMap_heard?_off hlevel]

def choosyRule : CustomRule :=
  { id := "c", needle := "b", refusal := some "no", refusedPath := "b.js" }

def loudScanner : Scanner :=
  { sampleScanner with registry := ⟨[needleRule.toRule, choosyRule.toRule]⟩ }

def mutedConfig : Config :=
  { excluded := some [], rules := [("b", ⟨.off, []⟩)] }

theorem muted_sameBut : loudScanner.config.SameBut "b" mutedConfig := by
  refine ⟨rfl, rfl, rfl, rfl, ?_⟩
  intro id hid
  simp [Config.setting?, assocGet?, mutedConfig, loudScanner, sampleScanner, Ne.symm hid]

theorem sample_sight :
    (sampleFiles ⟨#[98]⟩ 1).sight sampleScanner.cwd sampleScanner.maxSize "/p/a.js" = .readable ['b'] :=
  sight_readable (sample_vet _ 1 (by decide)) (sample_readText _ 1 sample_text)

theorem sample_findings {rule : CustomRule} (hneedle : rule.needle = "b")
    (hdetect : ∀ source, source.path = "/p/a.js" → rule.detect source = .ok (rule.report source))
    (target : Target) (strict : Bool) :
    ∃ x, rule.toRule.findings (Source.read "/p/a.js" ['b'] target strict) = [x] ∧ x.ruleId = rule.id := by
  have hplaces : places "b".toList ['b'] = [0] := by decide
  obtain ⟨x, hx, hid⟩ : ∃ x, rule.report (Source.read "/p/a.js" ['b'] target strict) = [x] ∧
      x.ruleId = rule.id := by
    refine ⟨(Source.read "/p/a.js" ['b'] target strict).finding 0 (0 + rule.needle.length) rule.id
      rule.severity (CustomRule.note (Source.read "/p/a.js" ['b'] target strict)) [], ?_, rfl⟩
    simp only [CustomRule.report, hneedle]
    rw [show places "b".toList (Source.read "/p/a.js" ['b'] target strict).text = [0] from hplaces]
    rfl
  refine ⟨x, ?_, hid⟩
  simp only [Rule.findings, CustomRule.toRule]
  rw [hdetect _ rfl, hx]
  rfl

theorem loud_signed : ∀ rule ∈ loudScanner.registry.enabledRules, rule.Signed := by
  intro rule hrule
  have hrule := List.mem_of_mem_filter hrule
  simp only [loudScanner, List.mem_cons, List.not_mem_nil, or_false] at hrule
  rcases hrule with rfl | rfl
  · exact (CustomRule.toRule_marks _).signed
  · exact (CustomRule.toRule_marks _).signed

theorem loud_stays : ∀ rule ∈ loudScanner.registry.rules, rule.Stays := by
  intro rule hrule
  simp only [loudScanner, List.mem_cons, List.not_mem_nil, or_false] at hrule
  rcases hrule with rfl | rfl
  · exact CustomRule.stays _
  · exact CustomRule.stays _

theorem muted_returns (f : Files) (path : String) :
    ({ loudScanner with config := mutedConfig } : Scanner).Returns f path := by
  rw [returns_iff]
  refine ⟨fun text _ => executor_returns_of_stays (s := { loudScanner with config := mutedConfig }) rfl loud_stays
    path text, ?_⟩
  intro finding hreports setting hsetting
  have hlevel := level_of_reports (s := { loudScanner with config := mutedConfig }) loud_signed hreports hsetting
  have hignore : setting = ⟨.off, []⟩ := by
    simp only [mutedConfig, Config.setting?, assocGet?, List.find?_cons, List.find?_nil] at hsetting
    split at hsetting
    · cases hsetting
      rfl
    · cases hsetting
  exact absurd (congrArg RuleSetting.level hignore) hlevel

theorem loud_answers (path : String) : loudScanner.Answers (sampleFiles ⟨#[98]⟩ 1) "b" path := by
  intro text _ rule hrule hid
  have hmem := List.mem_of_mem_filter hrule
  simp only [loudScanner, List.mem_cons, List.not_mem_nil, or_false] at hmem
  rcases hmem with rfl | rfl
  · exact ⟨_, rfl⟩
  · exact absurd hid (by decide)

theorem failure?_here {executor : Executor} {config : Config} {rules : List Rule} {path : String} {text : List Char}
    {found : List Finding} (hhere : executor = .here)
    (h : detectAll rules (Source.read path text config.target config.strict) = .ok found) :
    (Sight.readable text).failure? executor config rules path = none := by
  simp [Sight.failure?, Sight.outcome?, Sight.executed?, hhere, Executor.execute, Task.outcome, Task.run, h,
    Except.toOption]

theorem choosy_detect (source : Source) (hpath : source.path = "/p/a.js") :
    choosyRule.detect source = .ok (choosyRule.report source) := by
  have hholds : holdsText "/p/a.js".toList choosyRule.refusedPath.toList = false := by decide +kernel
  have hrefusal : choosyRule.undefined = false ∧ choosyRule.refusal = some "no" := ⟨rfl, rfl⟩
  simp only [CustomRule.detect, hrefusal, hpath, hholds, Bool.false_eq_true, if_false]

theorem loud_detectAll : ∃ found, detectAll loudScanner.rules
    (Source.read "/p/a.js" ['b'] loudScanner.config.target loudScanner.config.strict) = .ok found := by
  have hrules : loudScanner.rules = [needleRule.toRule, choosyRule.toRule] := rfl
  have hsecond := choosy_detect
    (Source.read "/p/a.js" ['b'] loudScanner.config.target loudScanner.config.strict) rfl
  rw [hrules, detectAll_cons, detectAll_cons, show choosyRule.toRule.detect = choosyRule.detect from rfl, hsecond]
  exact ⟨_, rfl⟩

theorem scan_settings_local_muted : ∃ out out',
    loudScanner.Scans (sampleFiles ⟨#[98]⟩ 1) {} (.ofInt 0) none out ∧
    ({ loudScanner with config := mutedConfig } : Scanner).Scans (sampleFiles ⟨#[98]⟩ 1) {} (.ofInt 0) none
      out' ∧
    out'.result.errors = out.result.errors ∧
    out'.result.findings.filter (fun x => x.ruleId != "b") =
      out.result.findings.filter (fun x => x.ruleId != "b") ∧
    out.result.findings.filter (fun x => x.ruleId == "b") ≠ [] ∧
    ∀ x ∈ out'.result.findings, x.ruleId ≠ "b" := by
  obtain ⟨out, hout⟩ := scan_returns (s := loudScanner) (f := sampleFiles ⟨#[98]⟩ 1) rfl
    (sample_discover _ _) (fun path _ => returns_of_rules_nil rfl rfl loud_stays path) (.ofInt 0) none
  obtain ⟨out', hout'⟩ := scan_returns (s := { loudScanner with config := mutedConfig })
    (f := sampleFiles ⟨#[98]⟩ 1) rfl (sample_discover _ _) (fun path _ => muted_returns _ path) (.ofInt 0) none
  have hunused : Unused none := fun c hc => by cases hc
  obtain ⟨herrors, -, -, found, notes, hd, hothers, hown⟩ := scan_settings_local loudScanner
    (sampleFiles ⟨#[98]⟩ 1) {} (.ofInt 0) (.ofInt 0) none none mutedConfig "b" out out' muted_sameBut hunused hunused
    (scan_scans hout) (scan_scans hout') (fun _ _ _ path _ => loud_answers path)
  obtain ⟨-, -, hoff, -⟩ := scan_settings_local { loudScanner with config := mutedConfig }
    (sampleFiles ⟨#[98]⟩ 1) {} (.ofInt 0) (.ofInt 0) none none loudScanner.config "b" out' out muted_sameBut.symm
    hunused hunused (scan_scans hout') (scan_scans hout) (fun _ _ _ path _ => loud_answers path)
  refine ⟨out, out', scan_scans hout, scan_scans hout', herrors, ?_, ?_, hoff rfl⟩
  · exact hothers.mpr (.inr fun path _ => heardBut_of_signed fun rule hrule _ => loud_signed rule hrule)
  · cases (sample_discover ⟨#[98]⟩ 1).symm.trans hd
    obtain ⟨all, hall⟩ := loud_detectAll
    obtain ⟨x, hx, hid⟩ := @sample_findings needleRule rfl (fun _ _ => rfl) loudScanner.config.target
      loudScanner.config.strict
    have hsight : (sampleFiles ⟨#[98]⟩ 1).sight loudScanner.cwd loudScanner.maxSize "/p/a.js" = .readable ['b'] :=
      sample_sight
    rw [hown fun path _ => owns_of_signed loud_signed]
    intro hnil
    have hfirst := List.flatMap_eq_nil_iff.mp hnil "/p/a.js" (by decide +kernel)
    have hfail : (Sight.readable ['b']).failure? loudScanner.executor loudScanner.config loudScanner.rules
        "/p/a.js" = none := failure?_here rfl hall
    rw [hsight, if_pos hfail] at hfirst
    have hrules : (loudScanner.registry.enabledRules.filter fun rule => rule.id == "b") = [needleRule.toRule] := rfl
    have hsetting : loudScanner.config.setting? "b" = none := rfl
    rw [hrules, hsetting] at hfirst
    simp [Sight.reported, hx, heard?] at hfirst

def idleRule : CustomRule :=
  { id := "d", needle := "b", enabled := false }

def forgingScanner : Scanner :=
  { sampleScanner with registry := ⟨[{ needleRule.toRule with id := "a" }, idleRule.toRule]⟩ }

def silencedConfig : Config :=
  { excluded := some [], rules := [("a", ⟨.off, []⟩)] }

theorem forging_stays : ∀ rule ∈ forgingScanner.registry.rules, rule.Stays := by
  intro rule hrule
  simp only [forgingScanner, List.mem_cons, List.not_mem_nil, or_false] at hrule
  rcases hrule with rfl | rfl
  · exact CustomRule.stays needleRule
  · exact CustomRule.stays idleRule

theorem silenced_returns (f : Files) (path : String) :
    ({ forgingScanner with config := silencedConfig } : Scanner).Returns f path := by
  rw [returns_iff]
  refine ⟨fun text _ => executor_returns_of_stays (s := { forgingScanner with config := silencedConfig }) rfl
    forging_stays path text, ?_⟩
  rintro finding ⟨text, found, -, hfound, hmem⟩
  have hempty : found = [] := detectAll_eq_ok (Executor.execute_ok hfound)
  simp [hempty] at hmem

theorem mem_reported {changes : ChangeSet} {elapsed : Number.Binary64} {out : ScanOutcome} {x : Finding}
    (h : s.Scans f changes elapsed none out) (hx : x ∈ out.result.findings) :
    ∃ path, ∃ y ∈ (f.sight s.cwd s.maxSize path).reported s.config s.rules path, x.ruleId = y.ruleId := by
  obtain ⟨found, notes, -, hall, hfindings, -⟩ := scans_result (fun c hc => by cases hc) h
  rw [hfindings] at hx
  obtain ⟨path, hp, hx⟩ := List.mem_flatMap.mp hx
  rw [Sight.scanned_findings (hall path hp)] at hx
  split at hx
  · obtain ⟨y, hy, hheard⟩ := List.mem_filterMap.mp hx
    exact ⟨path, y, hy, by rw [heard?_fields hheard]⟩
  · cases hx

theorem forging_finds {elapsed : Number.Binary64} {out : ScanOutcome}
    (h : forgingScanner.Scans (sampleFiles ⟨#[98]⟩ 1) {} elapsed none out) :
    (∃ x ∈ out.result.findings, x.ruleId = "b") ∧ ∀ x ∈ out.result.findings, x.ruleId = "b" := by
  have hrules : forgingScanner.rules = [{ needleRule.toRule with id := "a" }] := rfl
  constructor
  · obtain ⟨x, hx, hid⟩ := @sample_findings needleRule rfl (fun _ _ => rfl) forgingScanner.config.target
      forgingScanner.config.strict
    have hsight : (sampleFiles ⟨#[98]⟩ 1).sight forgingScanner.cwd forgingScanner.maxSize "/p/a.js" =
        .readable ['b'] := sample_sight
    obtain ⟨found, notes, hd, hall, hfindings, -⟩ := scans_result (fun c hc => by cases hc) h
    cases (sample_discover ⟨#[98]⟩ 1).symm.trans hd
    have hmem : "/p/a.js" ∈ (forgingScanner.selected {} ["/p/a.js", "/p/b.js"]).1 := by decide +kernel
    refine ⟨x, ?_, hid⟩
    rw [hfindings]
    refine List.mem_flatMap.mpr ⟨"/p/a.js", hmem, ?_⟩
    have hfail : (Sight.readable ['b']).failure? forgingScanner.executor forgingScanner.config forgingScanner.rules
        "/p/a.js" = none := failure?_here rfl rfl
    have hsetting : forgingScanner.config.setting? x.ruleId = none := rfl
    rw [Sight.scanned_findings (hall _ hmem), hsight, if_pos hfail]
    refine List.mem_filterMap.mpr ⟨x, ?_, by rw [hsetting]; rfl⟩
    have hforged : Rule.findings { needleRule.toRule with id := "a" } = needleRule.toRule.findings := rfl
    rw [hrules, Sight.reported, List.flatMap_singleton, hforged, hx]
    exact List.mem_singleton_self x
  · intro x hx
    obtain ⟨path, y, hy, hid⟩ := mem_reported h hx
    rw [hid]
    cases hseen : (sampleFiles ⟨#[98]⟩ 1).sight forgingScanner.cwd forgingScanner.maxSize path with
    | rejected fault | unreadable fault => simp [hseen, Sight.reported] at hy
    | readable text =>
      rw [hseen, hrules] at hy
      obtain ⟨rule, hrule, hy⟩ := List.mem_flatMap.mp hy
      cases List.mem_singleton.mp hrule
      obtain ⟨found, hfound, hmem⟩ := Rule.mem_findings hy
      exact (CustomRule.toRule_marks needleRule).signed _ _ hfound y hmem

/-- Turned off, a rule takes what it reports under another id with it; and what a rule reports is not
found, although it is not turned off, where it is not enabled. -/
theorem forged_findings_vanish :
    forgingScanner.config.SameBut "a" silencedConfig ∧
    (∀ path, forgingScanner.Answers (sampleFiles ⟨#[98]⟩ 1) "a" path) ∧
    ∃ out out', forgingScanner.Scans (sampleFiles ⟨#[98]⟩ 1) {} (.ofInt 0) none out ∧
      ({ forgingScanner with config := silencedConfig } : Scanner).Scans (sampleFiles ⟨#[98]⟩ 1) {} (.ofInt 0) none
        out' ∧
      out'.result.findings.filter (fun x => x.ruleId != "a") ≠
        out.result.findings.filter (fun x => x.ruleId != "a") ∧
      idleRule.toRule ∈ forgingScanner.registry.rules ∧ forgingScanner.config.isDisabled "d" = false ∧
      ((sampleFiles ⟨#[98]⟩ 1).sight forgingScanner.cwd forgingScanner.maxSize "/p/a.js").reported
        forgingScanner.config [idleRule.toRule] "/p/a.js" ≠ [] ∧
      ∀ x ∈ out.result.findings, x.ruleId ≠ "d" := by
  refine ⟨⟨rfl, rfl, rfl, rfl, ?_⟩, ?_, ?_⟩
  · intro id hid
    simp [Config.setting?, assocGet?, silencedConfig, forgingScanner, sampleScanner, Ne.symm hid]
  · intro path text _ rule hrule hid
    have hmem := List.mem_of_mem_filter hrule
    simp only [forgingScanner, List.mem_cons, List.not_mem_nil, or_false] at hmem
    rcases hmem with rfl | rfl
    · exact ⟨_, rfl⟩
    · exact absurd hid (by decide)
  obtain ⟨out, hout⟩ := scan_returns (s := forgingScanner) (f := sampleFiles ⟨#[98]⟩ 1) rfl
    (sample_discover _ _) (fun path _ => returns_of_rules_nil rfl rfl forging_stays path) (.ofInt 0) none
  obtain ⟨out', hout'⟩ := scan_returns (s := { forgingScanner with config := silencedConfig })
    (f := sampleFiles ⟨#[98]⟩ 1) rfl (sample_discover _ _) (fun path _ => silenced_returns _ path) (.ofInt 0) none
  obtain ⟨⟨x, hx, hid⟩, hall⟩ := forging_finds (scan_scans hout)
  have hnone : out'.result.findings = [] := by
    apply List.eq_nil_iff_forall_not_mem.mpr
    intro y hy
    obtain ⟨path, z, hz, -⟩ := mem_reported (scan_scans hout') hy
    have hrules : ({ forgingScanner with config := silencedConfig } : Scanner).rules = [] := rfl
    rw [hrules] at hz
    simp only [Sight.reported] at hz
    split at hz <;> cases hz
  refine ⟨out, out', scan_scans hout, scan_scans hout', ?_, by simp [forgingScanner], rfl, ?_, ?_⟩
  · rw [hnone]
    exact (List.ne_nil_of_mem (List.mem_filter.mpr ⟨hx, by simp [hid]⟩)).symm
  · have hsight : (sampleFiles ⟨#[98]⟩ 1).sight forgingScanner.cwd forgingScanner.maxSize "/p/a.js" =
        .readable ['b'] := sample_sight
    obtain ⟨y, hy, -⟩ := @sample_findings idleRule rfl (fun _ _ => rfl) forgingScanner.config.target
      forgingScanner.config.strict
    simp [hsight, Sight.reported, hy]
  · intro y hy
    rw [hall y hy]
    decide

end Scanner

end EdgeAudit
