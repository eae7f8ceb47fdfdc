import EdgeAudit.Proofs.CacheRecency
import EdgeAudit.Rule.Custom
import EdgeAudit.Rule.Registry
import Mathlib.Data.List.Induction

namespace EdgeAudit.Registry

inductive Step
  | register (rule : Rule)
  | setEnabled (id : String) (enabled : Bool)

namespace Step

def setting? (id : String) : Step → Option Bool
  | register _ => none
  | setEnabled other enabled => if other = id then some enabled else none

def Claims (id : String) : Step → Prop
  | register rule => rule.id = id ∧ rule.category ∈ categories
  | setEnabled _ _ => False

end Step

def step (r : Registry) : Step → Registry
  | .register rule =>
    match r.register rule with
    | .ok extended => extended
    | .error _ => r
  | .setEnabled id enabled => r.setEnabled id enabled

def after (steps : List Step) : Registry :=
  steps.foldl step empty

/-- A rule as it was registered, and the steps that came after that. -/
structure Registration where
  rule : Rule
  later : List Step

namespace Registration

def enabled (x : Registration) : Bool :=
  ((x.later.filterMap (Step.setting? x.rule.id)).getLast?).getD x.rule.enabled

def current (x : Registration) : Rule :=
  { x.rule with enabled := x.enabled }

def followedBy (x : Registration) (s : Step) : Registration :=
  ⟨x.rule, x.later ++ [s]⟩

end Registration

def admitted? (r : Registry) : Step → Option Rule
  | .register rule =>
    match r.register rule with
    | .ok _ => some rule
    | .error _ => none
  | .setEnabled _ _ => none

def registrationAt? (steps : List Step) (i : Nat) : Option Registration :=
  (steps[i]?.bind (after (steps.take i)).admitted?).map fun rule => ⟨rule, steps.drop (i + 1)⟩

def registrations (steps : List Step) : List Registration :=
  (List.range steps.length).filterMap (registrationAt? steps)

section Step

variable {r : Registry} {rule : Rule} {id : String}

theorem contains_iff : r.contains id = true ↔ id ∈ r.rules.map Rule.id := by
  simp [contains]

theorem register_cases (r : Registry) (rule : Rule) :
    (rule.id ∈ r.rules.map Rule.id ∧ r.register rule = .error (.duplicate rule.id)) ∨
    (rule.id ∉ r.rules.map Rule.id ∧ rule.category ∉ categories ∧
      r.register rule = .error (.unknownCategory rule.id rule.category)) ∨
    (rule.id ∉ r.rules.map Rule.id ∧ rule.category ∈ categories ∧
      r.register rule = .ok ⟨r.rules ++ [rule]⟩) := by
  rw [← contains_iff, register]
  by_cases hid : r.contains rule.id = true
  · simp [hid]
  · by_cases hcategory : rule.category ∈ categories
    · simp [hid, hcategory]
    · simp [hid, hcategory]

theorem register_error_iff : (∃ e, r.register rule = .error e) ↔
    r.contains rule.id = true ∨ rule.category ∉ categories := by
  rw [contains_iff]
  rcases register_cases r rule with ⟨hid, hr⟩ | ⟨-, hcategory, hr⟩ | ⟨hid, hcategory, hr⟩
  · simp [hr, hid]
  · simp [hr, hcategory]
  · simp only [hr, hid, hcategory, not_true_eq_false, or_self, iff_false]
    rintro ⟨e, he⟩
    cases he

theorem step_of_error {e : RegistryError} (h : r.register rule = .error e) :
    r.step (.register rule) = r := by
  simp only [step, h]

theorem step_of_ok {extended : Registry} (h : r.register rule = .ok extended) :
    r.step (.register rule) = extended := by
  simp only [step, h]

theorem ids_setEnabled (r : Registry) (id : String) (enabled : Bool) :
    (r.setEnabled id enabled).rules.map Rule.id = r.rules.map Rule.id := by
  rw [setEnabled, List.map_map]
  refine List.map_congr_left fun x _ => ?_
  rw [Function.comp_apply]
  split <;> rfl

theorem mem_ids_step (s : Step) :
    id ∈ (r.step s).rules.map Rule.id ↔ id ∈ r.rules.map Rule.id ∨ s.Claims id := by
  cases s with
  | setEnabled other enabled =>
    rw [step, ids_setEnabled]
    simp [Step.Claims]
  | register rule =>
    rw [Step.Claims]
    rcases register_cases r rule with ⟨hid, hr⟩ | ⟨-, hcategory, hr⟩ | ⟨-, hcategory, hr⟩
    · rw [step_of_error hr]
      constructor
      · exact .inl
      · rintro (h | ⟨rfl, -⟩)
        · exact h
        · exact hid
    · rw [step_of_error hr]
      simp [hcategory]
    · rw [step_of_ok hr, List.map_append, List.mem_append]
      simp [hcategory, eq_comm]

theorem ids_nodup_step (s : Step) (h : (r.rules.map Rule.id).Nodup) :
    ((r.step s).rules.map Rule.id).Nodup := by
  cases s with
  | setEnabled id enabled => rwa [step, ids_setEnabled]
  | register rule =>
    rcases register_cases r rule with ⟨-, hr⟩ | ⟨-, -, hr⟩ | ⟨hid, -, hr⟩
    · rwa [step_of_error hr]
    · rwa [step_of_error hr]
    · rw [step_of_ok hr, List.map_append, List.nodup_append]
      refine ⟨h, List.nodup_singleton _, ?_⟩
      intro x hx y hy
      obtain rfl := List.mem_singleton.mp hy
      rintro rfl
      exact hid hx

end Step

section Run

variable {steps : List Step} {s : Step}

theorem after_append (steps : List Step) (s : Step) : after (steps ++ [s]) = (after steps).step s := by
  rw [after, List.foldl_append]
  rfl

theorem ids_nodup (steps : List Step) : ((after steps).rules.map Rule.id).Nodup := by
  induction steps using List.reverseRecOn with
  | nil => exact .nil
  | append_singleton steps s ih =>
    rw [after_append]
    exact ids_nodup_step s ih

theorem mem_ids (steps : List Step) (id : String) :
    id ∈ (after steps).rules.map Rule.id ↔ ∃ s ∈ steps, s.Claims id := by
  induction steps using List.reverseRecOn with
  | nil => simp [after, empty]
  | append_singleton steps s ih =>
    rw [after_append, mem_ids_step, ih]
    simp [or_and_right, exists_or]

theorem registrationAt?_append {i : Nat} (hi : i < steps.length) :
    registrationAt? (steps ++ [s]) i = (registrationAt? steps i).map (·.followedBy s) := by
  have htake : (steps ++ [s]).take i = steps.take i := List.take_append_of_le_length (by omega)
  have hdrop : (steps ++ [s]).drop (i + 1) = steps.drop (i + 1) ++ [s] :=
    List.drop_append_of_le_length (by omega)
  rw [registrationAt?, registrationAt?, List.getElem?_append_left hi, htake, hdrop, Option.map_map]
  rfl

theorem registrations_append (steps : List Step) (s : Step) :
    registrations (steps ++ [s]) = (registrations steps).map (·.followedBy s) ++
      (((after steps).admitted? s).map fun rule => ⟨rule, []⟩).toList := by
  have hbefore : (List.range steps.length).filterMap (registrationAt? (steps ++ [s])) =
      (registrations steps).map (·.followedBy s) := by
    rw [registrations, List.map_filterMap]
    apply List.filterMap_congr
    intro i hi
    exact registrationAt?_append (List.mem_range.mp hi)
  have hlast : registrationAt? (steps ++ [s]) steps.length =
      ((after steps).admitted? s).map fun rule => ⟨rule, []⟩ := by
    simp [registrationAt?]
  rw [registrations, List.length_append, List.length_singleton, List.range_succ,
    List.filterMap_append, hbefore, ← hlast]
  cases hfound : registrationAt? (steps ++ [s]) steps.length with
  | none => simp [hfound]
  | some x => simp [hfound]

theorem current_followedBy_register (x : Registration) (rule : Rule) :
    (x.followedBy (.register rule)).current = x.current := by
  simp [Registration.current, Registration.enabled, Registration.followedBy, Step.setting?]

theorem current_followedBy_setEnabled (x : Registration) (id : String) (enabled : Bool) :
    (x.followedBy (.setEnabled id enabled)).current =
      if x.current.id == id then { x.current with enabled := enabled } else x.current := by
  by_cases hid : x.rule.id = id
  · simp [Registration.current, Registration.enabled, Registration.followedBy, Step.setting?, hid]
  · simp [Registration.current, Registration.enabled, Registration.followedBy, Step.setting?, hid,
      Ne.symm hid]

theorem rules_after (steps : List Step) :
    (after steps).rules = (registrations steps).map Registration.current := by
  -- from the end, since a step acts on all rules that were registered before it
  induction steps using List.reverseRecOn with
  | nil => rfl
  | append_singleton steps s ih =>
    rw [after_append, registrations_append, List.map_append, List.map_map]
    cases s with
    | setEnabled id enabled =>
      rw [step, setEnabled, ih, List.map_map, admitted?]
      simp only [Option.map_none, Option.toList_none, List.map_nil, List.append_nil]
      exact List.map_congr_left fun x _ => (current_followedBy_setEnabled x id enabled).symm
    | register rule =>
      have hold : (registrations steps).map (Registration.current ∘ (·.followedBy (.register rule))) =
          (after steps).rules := by
        rw [ih]
        exact List.map_congr_left fun x _ => current_followedBy_register x rule
      rw [hold, admitted?]
      cases hr : (after steps).register rule with
      | error e => simp [step_of_error hr]
      | ok extended =>
        obtain rfl : extended = ⟨(after steps).rules ++ [rule]⟩ := by
          rcases register_cases (after steps) rule with ⟨-, h⟩ | ⟨-, -, h⟩ | ⟨-, -, h⟩
          all_goals
            rw [hr] at h
            cases h
          rfl
        rw [step_of_ok hr]
        rfl

theorem get?_eq_some_iff {id : String} {rule : Rule} :
    (after steps).get? id = some rule ↔ rule ∈ (after steps).rules ∧ rule.id = id :=
  find?_key_eq_some Rule.id (ids_nodup steps)

theorem after_registerAll {rules : List Rule} {r : Registry}
    (h : (after steps).registerAll rules = .ok r) : r = after (steps ++ rules.map .register) := by
  induction rules generalizing steps with
  | nil =>
    cases h
    simp
  | cons rule rules ih =>
    rw [registerAll, List.foldlM_cons] at h
    cases hr : (after steps).register rule with
    | error e =>
      rw [hr] at h
      cases h
    | ok extended =>
      rw [hr] at h
      have hnext : after (steps ++ [.register rule]) = extended := by
        rw [after_append, step_of_ok hr]
      rw [← hnext] at h
      have hrest := ih h
      rwa [List.append_assoc] at hrest

theorem enabledRules_after (steps : List Step) : (after steps).enabledRules =
    ((registrations steps).filter Registration.enabled).map Registration.current := by
  rw [enabledRules, rules_after, List.filter_map]
  rfl

end Run

/-- After any steps a registry holds the rules whose registration succeeded, in this order and under
different ids, and finds each by its id; those that are on are the ones that were set so last. A
registration fails exactly if its id is taken or its category does not exist, and changes nothing then.
An id is taken as soon as a registration under it names a category that exists. -/
theorem after_history (steps : List Step) :
    (after steps).rules = (registrations steps).map Registration.current ∧
    ((after steps).rules.map Rule.id).Nodup ∧
    (∀ rule, (∃ e, (after steps).register rule = .error e) ↔
      (after steps).contains rule.id = true ∨ rule.category ∉ categories) ∧
    (∀ rule, (∃ e, (after steps).register rule = .error e) →
      after (steps ++ [.register rule]) = after steps) ∧
    (∀ id, (after steps).contains id = true ↔ ∃ s ∈ steps, s.Claims id) ∧
    (∀ x ∈ registrations steps, (after steps).get? x.rule.id = some x.current) ∧
    (∀ id, (after steps).get? id = none ↔ ∀ x ∈ registrations steps, x.rule.id ≠ id) ∧
    (after steps).enabledRules =
      ((registrations steps).filter Registration.enabled).map Registration.current ∧
    (after steps).enabledRules.Sublist (after steps).rules ∧
    ∀ rules r, empty.registerAll rules = .ok r → r = after (rules.map .register) := by
  refine ⟨rules_after steps, ids_nodup steps, fun rule => register_error_iff, ?_, ?_, ?_, ?_,
    enabledRules_after steps, List.filter_sublist, ?_⟩
  · rintro rule ⟨e, he⟩
    rw [after_append, step_of_error he]
  · intro id
    rw [contains_iff, mem_ids]
  · intro x hx
    rw [get?_eq_some_iff, rules_after]
    exact ⟨List.mem_map_of_mem hx, rfl⟩
  · intro id
    rw [get?, List.find?_eq_none, rules_after]
    simp [Registration.current]
  · intro rules r h
    have hfirst : (after []).registerAll rules = .ok r := h
    exact after_registerAll hfirst

def mixedSteps : List Step :=
  [.register { id := "a", category := "bundle", severity := .error : CustomRule }.toRule,
   .register { id := "b", category := "misc" : CustomRule }.toRule,
   .register { id := "a" : CustomRule }.toRule,
   .setEnabled "a" false,
   .register { id := "b", severity := .warning : CustomRule }.toRule,
   .setEnabled "c" false]

theorem after_history_mixed :
    (after mixedSteps).rules.map (fun rule => (rule.id, rule.severity, rule.enabled)) =
      [("a", .error, false), ("b", .warning, true)] ∧
    (after mixedSteps).enabledRules.map Rule.id = ["b"] ∧
    (∃ e, (after mixedSteps).register { id := "b" : CustomRule }.toRule = .error e) ∧
    after (mixedSteps ++ [.register { id := "b" : CustomRule }.toRule]) = after mixedSteps := by
  obtain ⟨-, -, hfails, hkeeps, -⟩ := after_history mixedSteps
  have hb : (after mixedSteps).contains "b" = true := by decide
  have herror := (hfails { id := "b" : CustomRule }.toRule).mpr (.inl hb)
  exact ⟨by decide, by decide, herror, hkeeps _ herror⟩

end EdgeAudit.Registry
