import EdgeAudit.Execution.Task
import EdgeAudit.Proofs.FindingPlaces
import EdgeAudit.Proofs.IntegerText
import EdgeAudit.Proofs.NumberLiteral

namespace EdgeAudit

open Number Text

/-- A delay that is a whole number with more digits than are written. -/
def Occurrence.Overlong (o : Occurrence) : Prop :=
  ∃ n : Nat, o.delay = some (.whole n) ∧ 10 ^ maxWholeDigits ≤ n

section Timers

variable {s : Source} {o : Occurrence} {failure : RuleFailure}

theorem timerFinding_error {threshold : Quantity} (h : timerFinding threshold s o = .error failure) :
    failure = .unwritable ∧ ∃ q, o.delay = some q ∧ withinThreshold threshold q = false ∧
      q.text? = none := by
  rw [timerFinding] at h
  split at h
  · cases h
  · rename_i q hq
    split at h
    · cases h
    · rename_i habove
      split at h
      · rename_i htext
        cases h
        exact ⟨rfl, q, hq, Bool.eq_false_iff.mpr habove, htext⟩
      · cases h

theorem withinThreshold_whole (t n : Int) : withinThreshold (.whole t) (.whole n) = decide (n ≤ t) := by
  simp only [withinThreshold, Quantity.compare?]
  rcases lt_trichotomy n t with hlt | heq | hgt
  · rw [compare_lt_iff_lt.mpr hlt, decide_eq_true (Int.le_of_lt hlt)]
  · rw [compare_eq_iff_eq.mpr heq, decide_eq_true (Int.le_of_eq heq)]
  · rw [compare_gt_iff_gt.mpr hgt, decide_eq_false (Int.not_le.mpr hgt)]

theorem text?_eq_none {t : Int} {q : Quantity} (ht : 0 ≤ t) (habove : withinThreshold (.whole t) q = false)
    (htext : q.text? = none) : ∃ n : Nat, q = .whole n ∧ 10 ^ maxWholeDigits ≤ n := by
  cases q with
  | real x => cases htext
  | whole n =>
    rw [withinThreshold_whole, decide_eq_false_iff_not] at habove
    obtain ⟨k, rfl⟩ := Int.eq_ofNat_of_zero_le (by omega : 0 ≤ n)
    exact ⟨k, rfl, wholeText?_eq_none.mp htext⟩

theorem timerFinding_error_iff :
    timerFinding (.whole defaultThreshold) s o = .error failure ↔ o.Overlong ∧ failure = .unwritable := by
  constructor
  · intro h
    obtain ⟨hfailure, q, hq, habove, htext⟩ := timerFinding_error h
    obtain ⟨n, rfl, hlong⟩ := text?_eq_none (by decide) habove htext
    exact ⟨⟨n, hq, hlong⟩, hfailure⟩
  · rintro ⟨⟨n, hn, hlong⟩, rfl⟩
    have hroom : 30000 < 10 ^ maxWholeDigits := by decide +kernel
    have hlarge : 30000 < n := Nat.lt_of_lt_of_le hroom hlong
    have habove : withinThreshold (.whole defaultThreshold) (.whole n) = false := by
      rw [withinThreshold_whole, decide_eq_false_iff_not, defaultThreshold]
      omega
    have htext : Quantity.text? (.whole n) = none := wholeText?_eq_none.mpr hlong
    simp [timerFinding, hn, habove, htext]

theorem detect_error {b : BuiltIn} (h : b.rule.detect s = .error failure) :
    ∃ threshold, b = .longTimer threshold ∧
      ∃ o ∈ s.timerCalls, timerFinding threshold s o = .error failure := by
  cases b with
  | longTimer threshold =>
    have hrun : (s.timerCalls.mapM (timerFinding threshold s) >>= fun found =>
        pure (found.filterMap id)) = Except.error failure := h
    cases hmap : s.timerCalls.mapM (timerFinding threshold s) with
    | error e =>
      rw [hmap] at hrun
      cases hrun
      exact ⟨threshold, rfl, mapM_error hmap⟩
    | ok rs =>
      rw [hmap] at hrun
      cases hrun
  | _ => cases h

theorem threshold_of_catalog {threshold : Quantity} (h : .longTimer threshold ∈ catalog) :
    threshold = .whole defaultThreshold := by
  simpa [catalog] using h

theorem catalog_error {b : BuiltIn} (hb : b ∈ catalog) (h : b.rule.detect s = .error failure) :
    b = .longTimer (.whole defaultThreshold) ∧ failure = .unwritable ∧ ∃ o ∈ s.timerCalls, o.Overlong := by
  obtain ⟨threshold, rfl, o, ho, hfail⟩ := detect_error h
  obtain rfl := threshold_of_catalog hb
  obtain ⟨hlong, hfailure⟩ := timerFinding_error_iff.mp hfail
  exact ⟨rfl, hfailure, o, ho, hlong⟩

theorem detectAll_error {rules : List Rule} (h : detectAll rules s = .error failure) :
    ∃ r ∈ rules, r.detect s = .error failure := by
  rw [detectAll] at h
  cases hmap : rules.mapM fun r => r.detect s with
  | error e =>
    rw [hmap] at h
    cases h
    exact mapM_error hmap
  | ok parts =>
    rw [hmap] at h
    cases h

theorem detectAll_overlong (ho : o ∈ s.timerCalls) (hlong : o.Overlong) :
    detectAll defaultRules s = .error .unwritable := by
  have htimer : .longTimer (.whole defaultThreshold) ∈ catalog := by simp [catalog]
  cases hrun : detectAll defaultRules s with
  | error failure =>
    obtain ⟨r, hr, hfail⟩ := detectAll_error hrun
    obtain ⟨b, hb, rfl⟩ := List.mem_map.mp hr
    rw [(catalog_error hb hfail).2.1]
  | ok found =>
    obtain ⟨g, hg, -⟩ := detectAll_ok hrun
    obtain ⟨rs, hrs, -⟩ := detect_timers (hg _ (List.mem_map_of_mem htimer))
    obtain ⟨k, hk, -⟩ := mapM_ok hrs
    have hfail := (timerFinding_error_iff (s := s)).mpr ⟨hlong, rfl⟩
    rw [hk o ho] at hfail
    cases hfail

end Timers

namespace InText

open Pattern

theorem mem_findAll_first {p : Pattern} {cs : List Char} {t : Spot}
    (h : p.read some (Spot.first cs) = some t) (hpos : 0 < t.pos) : ⟨0, t⟩ ∈ p.findAll cs := by
  have hlt : (Spot.first cs).pos < t.pos := hpos
  rw [findAll, findFrom, h]
  simp only [if_pos hlt]
  exact List.mem_cons_self

theorem mem_timerCalls {cs : List Char} {f : Found} {q : Quantity} (hf : f ∈ timer.findAll cs)
    (hq : parse? ((f.after.get? delaySlot).getD "") = some q) : made .timer f ∈ timerCalls cs := by
  have hmade : ∀ g : Found, ∀ o, (do
      let delay ← parse? ((g.after.get? delaySlot).getD "")
      some (⟨g.start, g.after.pos, .timer, (g.after.get? valueSlot).getD "", some delay⟩ : Occurrence)) =
        some o → o.start = g.start := by
    intro g o ho
    obtain ⟨delay, -, heq⟩ := Option.bind_eq_some_iff.mp ho
    cases heq
    rfl
  rw [timerCalls, Listing.inOrder_of_nodup, List.mem_mergeSort, List.mem_filterMap]
  · refine ⟨f, hf, ?_⟩
    rw [hq, made, if_pos rfl, hq]
    rfl
  · refine Listing.starts_nodup (List.pairwise_filterMap.mpr ?_)
    refine (findAll_starts timer cs).imp ?_
    intro f g hlt o ho o' ho'
    rwa [hmade f o ho, hmade g o' ho']

def hexTimer (ds : List Char) : List Char :=
  "setTimeout".toList ++ '(' :: (['f'] ++ ',' :: ' ' :: ('0' :: 'x' :: ds ++ [')']))

theorem read_hexTimer {ds : List Char} (hds : Listing.ReadAsNumber ('0' :: 'x' :: ds)) :
    timer.read some (Spot.first (hexTimer ds)) =
      some (((Spot.first (hexTimer ds)).past (hexTimer ds) []).keeping
        [(delaySlot, '0' :: 'x' :: ds), (valueSlot, "setTimeout".toList)]) :=
  Listing.read_timer (.inl rfl) (by simp) hds ⟨"setTimeout", by decide⟩ rfl

end InText

section Hexadecimal

def fifteens (n : Nat) : List Char :=
  List.replicate n 'f'

theorem digits_fifteens (n : Nat) : List.Forall₂ IsDigitOf (List.replicate n 15) (fifteens n) := by
  induction n with
  | zero => exact .nil
  | succ n ih => exact .cons (.inl rfl) ih

theorem value_fifteens (n : Nat) : ∀ d ∈ fifteens n, ∃ v < 16, IsDigitOf v d :=
  exists_value (by simp) (digits_fifteens n)

theorem separated_fifteens {n : Nat} (hn : 0 < n) : Separated (fifteens n) (fifteens n) :=
  .self (by simpa [fifteens] using Nat.ne_of_gt hn)

theorem ofDigits_fifteens (n : Nat) : Nat.ofDigits 16 (List.replicate n 15) = 16 ^ n - 1 := by
  have hsucc : Nat.ofDigits 16 (List.replicate n 15) + 1 = 16 ^ n := by
    induction n with
    | zero => rfl
    | succ n ih =>
      rw [List.replicate_succ, Nat.ofDigits_cons, Nat.pow_succ, ← ih]
      ring
  omega

theorem parse?_fifteens {n : Nat} (hn : 0 < n) :
    parse? (String.ofList ('0' :: 'x' :: fifteens n)) = some (.whole (16 ^ n - 1 : Nat)) := by
  apply parse?_based (by decide) (value_fifteens n) (separated_fifteens hn)
  rw [digitsValue?_ofDigits (by simp) (digits_fifteens n) (by decide), List.reverse_replicate,
    ofDigits_fifteens]
  simpa [fifteens] using Nat.ne_of_gt hn

theorem timerCalls_fifteens {n : Nat} (hn : 0 < n) :
    ∃ o ∈ InText.timerCalls (InText.hexTimer (fifteens n)),
      o.delay = some (.whole (16 ^ n - 1 : Nat)) := by
  have hnumber : Listing.ReadAsNumber ('0' :: 'x' :: fifteens n) :=
    readAsNumber_based (by decide) (value_fifteens n) (separated_fifteens hn)
  have hwritten : InText.hexTimer (fifteens n) ≠ [] :=
    List.append_ne_nil_of_right_ne_nil _ (List.cons_ne_nil _ _)
  have hfound := InText.mem_findAll_first (InText.read_hexTimer hnumber)
    (Nat.add_pos_right _ (List.length_pos_iff.mpr hwritten))
  have hparse := parse?_fifteens hn
  refine ⟨_, InText.mem_timerCalls hfound hparse, ?_⟩
  rw [InText.made, if_pos rfl]
  exact hparse

end Hexadecimal

def Task.source (t : Task) : Source :=
  Source.read t.path t.text t.target t.strict

/-- The catalog finds something in every file unless a timer in it has an overlong delay: then it
finds nothing at all. Only the rule about timers fails, and only a literal with a base mark is
overlong. -/
theorem run_catalog (t : Task) :
    ((∃ found, Task.run { t with rules := defaultRules } = .ok found) ↔
      ∀ o ∈ t.source.timerCalls, ¬ o.Overlong) ∧
    ((∃ o ∈ t.source.timerCalls, o.Overlong) →
      Task.run { t with rules := defaultRules } = .error .unwritable) ∧
    (∀ b ∈ catalog, ∀ failure, b.rule.detect t.source = .error failure →
      b = .longTimer (.whole defaultThreshold) ∧ failure = .unwritable) ∧
    ∀ (literal : String) (n : Int), parse? literal = some (.whole n) →
      10 ^ maxWholeDigits ≤ n.natAbs → isBased (literal.toList.filter (· != '_')) = true := by
  refine ⟨⟨?_, ?_⟩, ?_, ?_, ?_⟩
  · rintro ⟨found, hfound⟩ o ho hlong
    have hfail : detectAll defaultRules t.source = .ok found := hfound
    rw [detectAll_overlong ho hlong] at hfail
    cases hfail
  · intro hnone
    cases hrun : detectAll defaultRules t.source with
    | error failure =>
      obtain ⟨r, hr, hfail⟩ := detectAll_error hrun
      obtain ⟨b, hb, rfl⟩ := List.mem_map.mp hr
      obtain ⟨-, -, o, ho, hlong⟩ := catalog_error hb hfail
      exact absurd hlong (hnone o ho)
    | ok found => exact ⟨found, hrun⟩
  · rintro ⟨o, ho, hlong⟩
    exact detectAll_overlong ho hlong
  · intro b hb failure hfail
    obtain ⟨htimer, hfailure, -⟩ := catalog_error hb hfail
    exact ⟨htimer, hfailure⟩
  · intro literal n hparse hlong
    by_contra hplain
    have hlt := parse?_lt (Bool.eq_false_iff.mpr hplain) hparse
    omega

def overlongTask : Task where
  path := "a.txt"
  text := InText.hexTimer (fifteens 3572)
  target := .auto
  strict := false
  rules := defaultRules

theorem overlongTask_fails : overlongTask.run = .error .unwritable := by
  have hdialect : Script.Dialect.ofPath? "a.txt" = none := by decide +kernel
  have htree : overlongTask.source.tree = none := by
    show (Script.Dialect.ofPath? "a.txt" >>= _) = none
    rw [hdialect]
    rfl
  obtain ⟨o, ho, hdelay⟩ := timerCalls_fifteens (n := 3572) (by decide)
  have hlong : 10 ^ maxWholeDigits ≤ 16 ^ 3572 - 1 := by decide +kernel
  refine detectAll_overlong (o := o) ?_ ⟨_, hdelay, hlong⟩
  show o ∈ overlongTask.source.timerCalls
  rw [Source.timerCalls, htree]
  exact ho

end EdgeAudit
