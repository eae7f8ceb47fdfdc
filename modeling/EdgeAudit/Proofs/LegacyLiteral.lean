import EdgeAudit.Proofs.WholeRounding
import EdgeAudit.Proofs.ExactThreshold

/-!
Delays that are written in octal digits after a zero. Such a literal denotes its value in base 8, but it
is read in base 10 and rounded to a double. Main statement: which of these timers are reported.
-/

namespace EdgeAudit

open Number Script Text

namespace Number

def legacyLiteral (vs : List (Fin 8)) : List Char :=
  '0' :: vs.map fun v => v.val.digitChar

def valueIn (base : Nat) (vs : List (Fin 8)) : Nat :=
  Nat.ofDigits base (vs.map Fin.val).reverse

/-- A whole number that is rounded to a double before it is used. -/
def Quantity.rounded (n : Nat) : Quantity :=
  if roundedWhole n < 2 ^ 1024 then .whole (roundedWhole n) else .real (.infinite false)

def RoundsAbove (threshold : Int) (n : Nat) : Prop :=
  threshold < roundedWhole n ∨ 2 ^ 1024 ≤ roundedWhole n

section Reading

variable {ds : List Char} {n : Nat} (hds : ∀ c ∈ '0' :: ds, c.isDigit = true)
  (hvalue : digitsValue? 10 hexValue? ('0' :: ds) = some n)

include hds hvalue

theorem whole?_zero : whole? ('0' :: ds) = none ∨ whole? ('0' :: ds) = some 0 ∧ n = 0 := by
  by_cases hn : n = 0 <;> by_cases hlong : maxWholeDigits < ds.length + 1 <;>
    simp [whole?, Listing.normalizeDigits_digits hds, Listing.splitSign_digits hds,
      Listing.splitBase_digits hds, hvalue, hn, hlong]

theorem real?_zero : real? ('0' :: ds) = some (.ofDecimal false n 0) := by
  have hword : ∀ w : String, w.toList.head? ≠ some '0' →
      String.ofList (('0' :: ds).map Char.toLower) ≠ w := by
    rintro w hw rfl
    apply hw
    rw [String.toList_ofList]
    rfl
  have hspan : spanDigits ('0' :: ds) = ('0' :: ds, []) := by
    have hall : ∀ c ∈ '0' :: ds, ('0' ≤ c && c ≤ '9') = true :=
      fun c hc => isDecimal_of_isDigit (hds c hc)
    rw [spanDigits, List.span_eq_takeWhile_dropWhile, List.takeWhile_eq_self_iff.mpr hall,
      List.dropWhile_eq_nil_iff.mpr hall]
  simp only [real?, Listing.normalizeDigits_digits hds, Listing.splitSign_digits hds,
    hword "inf" (by decide), hword "infinity" (by decide), hword "nan" (by decide), or_self, if_false]
  simp [fraction?, hspan, hvalue, exponent?]

theorem parse?_zero : parse? (String.ofList ('0' :: ds)) = some (.rounded n) := by
  rw [parse?, String.toList_ofList, Listing.filter_digits hds]
  rcases whole?_zero hds hvalue with hnone | ⟨hwhole, rfl⟩
  · simp only [hnone, real?_zero hds hvalue, Option.map_some, Quantity.rounded]
    rcases Binary64.ofDecimal_cases n with ⟨hlt, hint⟩ | ⟨hle, hinfinite⟩
    · rw [if_pos hlt, hint]
    · rw [if_neg (Nat.not_lt.mpr hle), hinfinite]
      rfl
  · simp only [hwhole, Quantity.rounded]
    rw [roundedWhole_of_lt (by decide), if_pos (Nat.two_pow_pos 1024)]
    rfl

end Reading

section Literal

variable (vs : List (Fin 8))

theorem isDigit_legacy : ∀ c ∈ legacyLiteral vs, c.isDigit = true := by
  have hdigit : ∀ v : Fin 8, v.val.digitChar.isDigit = true := by decide
  simp only [legacyLiteral, List.forall_mem_cons, List.forall_mem_map]
  exact ⟨by decide, fun v _ => hdigit v⟩

theorem digitsValue?_legacy :
    digitsValue? 10 hexValue? (legacyLiteral vs) = some (valueIn 10 vs) := by
  have hsmall : ∀ v ∈ 0 :: vs.map Fin.val, v < 10 := by
    simp only [List.forall_mem_cons, List.forall_mem_map]
    exact ⟨by decide, fun v _ => by omega⟩
  have hdigits : List.Forall₂ IsDigitOf (0 :: vs.map Fin.val) (legacyLiteral vs) := by
    refine .cons (.inl rfl) ?_
    rw [List.forall₂_map_left_iff, List.forall₂_map_right_iff, List.forall₂_same]
    exact fun v _ => .inl rfl
  rw [digitsValue?_ofDigits hsmall hdigits (by decide) (List.cons_ne_nil _ _), List.reverse_cons,
    Nat.ofDigits_append, Nat.ofDigits_singleton, Nat.mul_zero, Nat.add_zero]
  rfl

theorem parse?_legacy : parse? (String.ofList (legacyLiteral vs)) = some (.rounded (valueIn 10 vs)) :=
  parse?_zero (isDigit_legacy vs) (digitsValue?_legacy vs)

theorem readAsNumber_legacy : Listing.ReadAsNumber (legacyLiteral vs) := by
  have hdigits := isDigit_legacy vs
  exact Listing.readAsNumber_decimal (hdigits '0' (by simp [legacyLiteral]))
    fun c hc => .inl (hdigits c (List.mem_cons_of_mem _ hc))

theorem decimalLength_zeros {cs : List Char} (hlength : 0 < digitsLength isDecimal ('0' :: '0' :: cs))
    (hnext : (('0' :: '0' :: cs).drop (digitsLength isDecimal ('0' :: '0' :: cs))).head? ≠ some 'n') :
    decimalLength ('0' :: '0' :: cs) = digitsLength isDecimal ('0' :: '0' :: cs) := by
  have hwhole : wholeLength ('0' :: '0' :: cs) = 1 := by simp [wholeLength]
  have hrest : ('0' :: '0' :: cs).drop 1 = '0' :: cs := rfl
  simp only [decimalLength, hwhole, hrest, if_neg (not_and_of_not_right _ hnext)]
  simp [exponentLength]
  omega

theorem isNumeral_legacy (hvs : vs ≠ []) : IsNumeral (legacyLiteral vs) := by
  obtain ⟨v, vs, rfl⟩ := List.exists_cons_of_ne_nil hvs
  have hdecimal : ∀ c ∈ legacyLiteral (v :: vs), isDecimal c = true :=
    fun c hc => isDecimal_of_isDigit (isDigit_legacy _ c hc)
  refine ⟨rfl, fun r => ?_⟩
  have hlength : ∀ ds ≠ [], (∀ c ∈ ds, isDecimal c = true) →
      digitsLength isDecimal (ds ++ ')' :: r) = ds.length :=
    fun ds hne hds => (Separated.self hne).digitsFrom_eq (by decide) hds (by decide) false
  have hall : digitsLength isDecimal (legacyLiteral (v :: vs) ++ ')' :: r) =
      (legacyLiteral (v :: vs)).length := hlength _ (List.cons_ne_nil _ _) hdecimal
  have hnumber : numberLength (legacyLiteral (v :: vs) ++ ')' :: r) =
      decimalLength (legacyLiteral (v :: vs) ++ ')' :: r) := by
    have hmark := Listing.digit_not_base (isDigit_legacy (v :: vs) v.val.digitChar (by simp [legacyLiteral]))
    simp only [List.mem_cons, not_or] at hmark
    simp [legacyLiteral, numberLength, hmark]
  rw [hnumber]
  by_cases hv : v = 0
  · subst hv
    refine (decimalLength_zeros ?_ ?_).trans hall
    · exact Nat.lt_of_lt_of_eq (Nat.succ_pos _) hall.symm
    · show ((legacyLiteral (0 :: vs) ++ ')' :: r).drop
        (digitsLength isDecimal (legacyLiteral (0 :: vs) ++ ')' :: r))).head? ≠ _
      rw [hall, List.drop_left]
      simp
  · have hfirst : ∀ v : Fin 8, v ≠ 0 → '1' ≤ v.val.digitChar ∧ v.val.digitChar ≤ '9' := by decide
    have htail := hlength ((v :: vs).map fun v => v.val.digitChar) (List.cons_ne_nil _ _)
      fun c hc => hdecimal c (List.mem_cons_of_mem _ hc)
    have hwhole : wholeLength (legacyLiteral (v :: vs) ++ ')' :: r) = (legacyLiteral (v :: vs)).length := by
      show (if '1' ≤ v.val.digitChar ∧ v.val.digitChar ≤ '9' then
        1 + digitsLength isDecimal ((v :: vs).map (fun v => v.val.digitChar) ++ ')' :: r) else 1) = _
      rw [if_pos (hfirst v hv), htail, legacyLiteral, List.length_cons, Nat.add_comm]
    exact decimalLength_eq hall hwhole List.drop_left (Nat.succ_pos _)

end Literal

section Value

variable (vs : List (Fin 8))

theorem valueIn_le : valueIn 8 vs ≤ valueIn 10 vs ∧ 10 * valueIn 8 vs ≤ 9 * valueIn 10 vs + 7 := by
  refine ⟨Nat.ofDigits_monotone _ (by decide), ?_⟩
  rw [valueIn, valueIn, ← List.map_reverse]
  cases vs.reverse with
  | nil => decide
  | cons v us =>
    have hrest : Nat.ofDigits 8 (us.map Fin.val) ≤ Nat.ofDigits 10 (us.map Fin.val) :=
      Nat.ofDigits_monotone _ (by decide)
    simp only [List.map_cons, Nat.ofDigits_cons]
    omega

theorem valueIn_le_roundedWhole : valueIn 8 vs ≤ roundedWhole (valueIn 10 vs) := by
  obtain ⟨hle, htenth⟩ := valueIn_le vs
  by_cases hsmall : valueIn 10 vs < 2 ^ 53
  · rwa [roundedWhole_of_lt hsmall]
  · have hround := le_roundedWhole (valueIn 10 vs)
    omega

end Value

section Threshold

variable {threshold : Int} {n : Nat}

theorem text?_rounded (n : Nat) : ∃ text, (Quantity.rounded n).text? = some text := by
  rw [Quantity.rounded]
  by_cases hlt : roundedWhole n < 2 ^ 1024
  · have hshort : roundedWhole n < 10 ^ maxWholeDigits := by
      calc roundedWhole n < 2 ^ 1024 := hlt
        _ ≤ 10 ^ 1024 := Nat.pow_le_pow_left (by decide) 1024
        _ ≤ 10 ^ maxWholeDigits := Nat.pow_le_pow_right (by decide) (by decide)
    rw [if_pos hlt]
    exact ⟨_, wholeText?_of_lt hshort⟩
  · rw [if_neg hlt]
    exact ⟨_, rfl⟩

theorem withinThreshold_rounded :
    withinThreshold (.whole threshold) (.rounded n) = false ↔ RoundsAbove threshold n := by
  rw [Quantity.rounded, RoundsAbove]
  by_cases hlt : roundedWhole n < 2 ^ 1024
  · rw [if_pos hlt, withinThreshold_whole, decide_eq_false_iff_not, Int.not_le]
    exact (or_iff_left (Nat.not_le.mpr hlt)).symm
  · rw [if_neg hlt]
    exact iff_of_true rfl (.inr (Nat.not_lt.mp hlt))

theorem roundsAbove_of_lt (hn : n < 2 ^ 53) : RoundsAbove threshold n ↔ threshold < n := by
  have hfinite : n < 2 ^ 1024 :=
    Nat.lt_trans hn (Nat.pow_lt_pow_right (by decide) (by decide))
  rw [RoundsAbove, roundedWhole_of_lt hn]
  exact or_iff_left (Nat.not_le.mpr hfinite)

end Threshold

end Number

section Report

variable {s : Source} {o : Occurrence} {threshold : Int} {n : Nat}

theorem timerFinding_of_text {threshold q : Quantity} {text : String} (hdelay : o.delay = some q)
    (htext : q.text? = some text) : ∃ found, timerFinding threshold s o = .ok found ∧
      (found.isSome = true ↔ withinThreshold threshold q = false) := by
  rw [timerFinding, hdelay]
  cases hwithin : withinThreshold threshold q with
  | true => exact ⟨none, by simp [hwithin], by decide⟩
  | false => exact ⟨some _, by simp only [hwithin, htext]; rfl, by simp⟩

theorem timerFinding_rounded (s : Source) (threshold : Int) (hdelay : o.delay = some (.rounded n)) :
    ∃ found, timerFinding (.whole threshold) s o = .ok found ∧
      (found.isSome = true ↔ RoundsAbove threshold n) := by
  obtain ⟨text, htext⟩ := text?_rounded n
  rw [← withinThreshold_rounded]
  exact timerFinding_of_text hdelay htext

theorem detect_one_rounded (hfound : s.timerCalls = [o]) (hdelay : o.delay = some (.rounded n)) :
    ∃ found, (timerRule (.whole threshold)).detect s = .ok found ∧
      (found ≠ [] ↔ RoundsAbove threshold n) := by
  obtain ⟨x, hx, habove⟩ := timerFinding_rounded s threshold hdelay
  rw [detect_one hfound, hx, ← habove]
  refine ⟨x.toList, rfl, ?_⟩
  cases x <;> simp

theorem detect_timer_cases (threshold : Quantity) (s : Source) :
    ((timerRule threshold).detect s = .error .unwritable ∧
      ∃ o ∈ s.timerCalls, ∃ q, o.delay = some q ∧ q.text? = none) ∨
    ∃ found g, (timerRule threshold).detect s = .ok found ∧
      (∀ o ∈ s.timerCalls, timerFinding threshold s o = .ok (g o)) ∧ found = s.timerCalls.filterMap g := by
  cases hrun : (timerRule threshold).detect s with
  | error failure =>
    left
    have hrule : (BuiltIn.longTimer threshold).rule.detect s = .error failure := hrun
    obtain ⟨_, heq, o, ho, hfail⟩ := detect_error hrule
    cases heq
    obtain ⟨rfl, q, hq, -, htext⟩ := timerFinding_error hfail
    exact ⟨rfl, o, ho, q, hq, htext⟩
  | ok found =>
    right
    obtain ⟨rs, hrs, rfl⟩ := detect_timers hrun
    obtain ⟨g, hg, rfl⟩ := mapM_ok hrs
    exact ⟨_, g, rfl, hg, by rw [List.filterMap_map]; rfl⟩

end Report

/-- A timer of a source whose delay is written with the literal: a call in its tree or, without one, a
place where the text reads as such a call. -/
inductive Source.TimerWritten (s : Source) (literal : List Char) : Occurrence → Prop
  | inTree {root t second : Tree} {name : String} (hroot : s.tree = some root) (ht : t ∈ root.walk)
      (hname : InTree.timerName? s.text.toArray t = some name)
      (hsecond : (InTree.arguments t)[1]? = some second) (hkind : second.kind = .number)
      (htext : InTree.nodeText s.text.toArray second = String.ofList literal) :
      TimerWritten s literal (InTree.occurrence t .timer name (parse? (String.ofList literal)))
  | inText {f : Pattern.Found} (hroot : s.tree = none) (hf : f ∈ InText.timer.findAll s.text)
      (hdelay : f.after.get? InText.delaySlot = some (String.ofList literal)) :
      TimerWritten s literal (InText.made .timer f)

section Written

variable {s : Source} {literal : List Char} {o : Occurrence} {q : Quantity}

theorem Source.TimerWritten.mem (h : s.TimerWritten literal o)
    (hq : parse? (String.ofList literal) = some q) : o ∈ s.timerCalls ∧ o.delay = some q := by
  cases h with
  | @inTree root t second name hroot ht hname hsecond hkind htext =>
    rw [Source.timerCalls, hroot]
    refine ⟨List.mem_filterMap.mpr ⟨t, ht, ?_⟩, hq⟩
    simp [InTree.timerCall?, hname, hsecond, hkind, htext, hq]
  | @inText f hroot hf hdelay =>
    have hparse : parse? ((f.after.get? InText.delaySlot).getD "") = some q := by
      rw [hdelay]
      exact hq
    rw [Source.timerCalls, hroot]
    refine ⟨InText.mem_timerCalls hf hparse, ?_⟩
    rw [InText.made, if_pos rfl]
    exact hparse

theorem detect_timerWritten {n : Nat} {threshold : Int} (h : s.TimerWritten literal o)
    (hq : parse? (String.ofList literal) = some (.rounded n)) :
    ((timerRule (.whole threshold)).detect s = .error .unwritable ∧
      ∃ o' ∈ s.timerCalls, ∃ q, o'.delay = some q ∧ q.text? = none) ∨
    ∃ found, (timerRule (.whole threshold)).detect s = .ok found ∧
      ((∃ x ∈ found, timerFinding (.whole threshold) s o = .ok (some x)) ↔ RoundsAbove threshold n) := by
  obtain ⟨hmem, hdelay⟩ := h.mem hq
  rcases detect_timer_cases (.whole threshold) s with hfails | ⟨found, g, hrun, hg, hfound⟩
  · exact .inl hfails
  · right
    obtain ⟨x, hx, habove⟩ := timerFinding_rounded s threshold hdelay
    refine ⟨found, hrun, ?_⟩
    rw [← habove, hx]
    constructor
    · rintro ⟨y, -, hy⟩
      rw [Except.ok.inj hy]
      rfl
    · intro hsome
      obtain ⟨y, rfl⟩ := Option.isSome_iff_exists.mp hsome
      have hgo := hg o hmem
      rw [hx] at hgo
      refine ⟨y, ?_, rfl⟩
      rw [hfound]
      exact List.mem_filterMap.mpr ⟨o, hmem, (Except.ok.inj hgo).symm⟩

end Written

section Call

variable {vs : List (Fin 8)} {name : String} (hvs : vs ≠ []) (hname : name ∈ timerNames)

include hname in
theorem timerWritten_callTree {literal : List Char} (path : String) (target : Target) (strict : Bool)
    (stop : Nat) : Source.TimerWritten ⟨path, callText name "fn" literal, target, strict,
      some (.node .other .plain 0 stop [callTree name "fn" literal])⟩ literal
        (InTree.occurrence (callTree name "fn" literal) .timer name (parse? (String.ofList literal))) := by
  refine .inTree rfl ?_ (InTree.timerName?_callTree hname) rfl rfl (InTree.nodeText_literal name "fn" literal)
  rw [Tree.walk_eq]
  exact Tree.child_mem (List.mem_singleton_self _)

include hname in
theorem timerWritten_callText {literal : List Char} (path : String) (target : Target) (strict : Bool)
    (hliteral : Listing.ReadAsNumber literal) :
    ∃ o, Source.TimerWritten ⟨path, callText name "fn" literal, target, strict, none⟩ literal o := by
  have hfn : IsName "fn" := isName_timer _ (by simp)
  obtain ⟨t, hread, hpos, -, hdelay, -⟩ := InText.read_callText hname hfn hliteral
  have hfound : ⟨0, t⟩ ∈ InText.timer.findAll (callText name "fn" literal) :=
    InText.mem_findAll_first hread (by omega)
  exact ⟨_, .inText rfl hfound hdelay⟩

include hvs hname

theorem detect_legacyCall (threshold : Int) (dialect : Dialect) (path : String) (target : Target)
    (strict : Bool) :
    ∃ tree, Script.parse? dialect (callText name "fn" (legacyLiteral vs)) = some tree ∧
      ∀ choice ∈ [some tree, none],
        (∃ o, Source.TimerWritten ⟨path, callText name "fn" (legacyLiteral vs), target, strict, choice⟩
          (legacyLiteral vs) o) ∧
        ∃ found, (timerRule (.whole threshold)).detect
          ⟨path, callText name "fn" (legacyLiteral vs), target, strict, choice⟩ = .ok found ∧
          (found ≠ [] ↔ RoundsAbove threshold (valueIn 10 vs)) := by
  have hvalue := parse?_legacy vs
  have hread := readAsNumber_legacy vs
  have hfn : IsName "fn" := isName_timer _ (by simp)
  refine ⟨_, parse?_callText (isName_timer _ (by simp [hname])) hfn (isNumeral_legacy vs hvs), ?_⟩
  intro choice hchoice
  simp only [List.mem_cons, List.not_mem_nil, or_false] at hchoice
  rcases hchoice with rfl | rfl
  · refine ⟨⟨_, timerWritten_callTree hname path target strict _⟩, ?_⟩
    exact detect_one_rounded (InTree.timerCalls_callTree hname hvalue) rfl
  · refine ⟨timerWritten_callText hname path target strict hread, ?_⟩
    exact detect_one_rounded (InText.timerCalls_callText hname hfn hread hvalue) rfl

end Call

/-- A delay in octal digits after a zero is read in base 10 and rounded to a double, and its timer is
reported exactly if that is above the threshold: in any source, with a tree and without one. No timer is
missed whose delay is above the threshold in base 8, but more than those are reported. -/
theorem timerRule_legacy {vs : List (Fin 8)} (hvs : vs ≠ []) (threshold : Int) :
    (∀ name ∈ timerNames, ∀ (dialect : Dialect) (path : String) (target : Target) (strict : Bool),
      ∃ tree, Script.parse? dialect (callText name "fn" (legacyLiteral vs)) = some tree ∧
        ∀ choice ∈ [some tree, none],
          (∃ o, Source.TimerWritten ⟨path, callText name "fn" (legacyLiteral vs), target, strict, choice⟩
            (legacyLiteral vs) o) ∧
          ∃ found, (timerRule (.whole threshold)).detect
            ⟨path, callText name "fn" (legacyLiteral vs), target, strict, choice⟩ = .ok found ∧
            (found ≠ [] ↔ RoundsAbove threshold (valueIn 10 vs))) ∧
    (∀ s o, Source.TimerWritten s (legacyLiteral vs) o →
      ((timerRule (.whole threshold)).detect s = .error .unwritable ∧
        ∃ o' ∈ s.timerCalls, ∃ q, o'.delay = some q ∧ q.text? = none) ∨
      ∃ found, (timerRule (.whole threshold)).detect s = .ok found ∧
        ((∃ x ∈ found, timerFinding (.whole threshold) s o = .ok (some x)) ↔
          RoundsAbove threshold (valueIn 10 vs))) ∧
    (valueIn 10 vs < 2 ^ 53 →
      (RoundsAbove threshold (valueIn 10 vs) ↔ threshold < valueIn 10 vs)) ∧
    (threshold < valueIn 8 vs → RoundsAbove threshold (valueIn 10 vs)) := by
  refine ⟨?_, ?_, roundsAbove_of_lt, ?_⟩
  · intro name hname dialect path target strict
    exact detect_legacyCall hvs hname threshold dialect path target strict
  · intro s o h
    exact detect_timerWritten h (parse?_legacy vs)
  · intro habove
    have hle := valueIn_le_roundedWhole vs
    left
    omega

theorem timerRule_legacy_zeros :
    callText "setInterval" "fn" (legacyLiteral [0, 7, 7]) = "setInterval(fn, 0077);".toList ∧
    ([0, 7, 7] : List (Fin 8)) ≠ [] ∧ valueIn 8 [0, 7, 7] = 63 ∧ valueIn 10 [0, 7, 7] = 77 ∧
    (∃ tree, Script.parse? .tsx (callText "setInterval" "fn" (legacyLiteral [0, 7, 7])) = some tree ∧
      ∀ choice ∈ [some tree, none], ∃ o found,
        Source.TimerWritten ⟨"a.tsx", callText "setInterval" "fn" (legacyLiteral [0, 7, 7]), .auto, false,
          choice⟩ (legacyLiteral [0, 7, 7]) o ∧
        (timerRule (.whole 76)).detect
          ⟨"a.tsx", callText "setInterval" "fn" (legacyLiteral [0, 7, 7]), .auto, false, choice⟩ =
            .ok found ∧ found ≠ []) ∧
    RoundsAbove 62 77 := by
  have hvs : ([0, 7, 7] : List (Fin 8)) ≠ [] := by decide
  have hvalue : valueIn 10 [0, 7, 7] = 77 := by decide
  obtain ⟨hcall, -, hexact, -⟩ := timerRule_legacy hvs 76
  obtain ⟨-, -, -, hmissed⟩ := timerRule_legacy hvs 62
  refine ⟨by decide, hvs, by decide, hvalue, ?_, ?_⟩
  · obtain ⟨tree, htree, hall⟩ := hcall "setInterval" (by decide) .tsx "a.tsx" .auto false
    refine ⟨tree, htree, fun choice hchoice => ?_⟩
    obtain ⟨⟨o, ho⟩, found, hfound, habove⟩ := hall choice hchoice
    rw [hexact (by rw [hvalue]; decide), hvalue] at habove
    exact ⟨o, found, ho, hfound, habove.mpr (by decide)⟩
  · rw [← hvalue]
    exact hmissed (by decide)

theorem legacy_reported_below :
    callText "setTimeout" "fn" (legacyLiteral [6, 0, 0, 0, 0]) = "setTimeout(fn, 060000);".toList ∧
    ¬ (30000 : Int) < valueIn 8 [6, 0, 0, 0, 0] ∧
    ∃ tree, Script.parse? .javascript (callText "setTimeout" "fn" (legacyLiteral [6, 0, 0, 0, 0])) =
        some tree ∧
      ∀ choice ∈ [some tree, none], ∃ found,
        (timerRule (.whole 30000)).detect
          ⟨"a.js", callText "setTimeout" "fn" (legacyLiteral [6, 0, 0, 0, 0]), .auto, false, choice⟩ =
            .ok found ∧ found ≠ [] := by
  have hvalue : valueIn 10 [6, 0, 0, 0, 0] = 60000 := by decide
  have habove : RoundsAbove 30000 (valueIn 10 [6, 0, 0, 0, 0]) := by
    rw [hvalue, roundsAbove_of_lt (by decide)]
    decide
  obtain ⟨tree, htree, hall⟩ := detect_legacyCall
    (by decide : ([6, 0, 0, 0, 0] : List (Fin 8)) ≠ []) (by decide : "setTimeout" ∈ timerNames) 30000 .javascript "a.js" .auto false
  refine ⟨by decide, by decide, tree, htree, fun choice hchoice => ?_⟩
  obtain ⟨-, found, hfound, hreported⟩ := hall choice hchoice
  exact ⟨found, hfound, hreported.mpr habove⟩

end EdgeAudit
