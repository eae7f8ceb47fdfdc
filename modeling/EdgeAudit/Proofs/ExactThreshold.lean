import EdgeAudit.Proofs.RuleTotality

namespace EdgeAudit

open Number Script Text

theorem isName_timer : ∀ name ∈ "fn" :: timerNames, IsName name := by
  decide

namespace InTree

variable {f a : String} {literal : List Char} {q : Quantity}

theorem timerName?_callTree (hf : f ∈ timerNames) :
    timerName? (callText f a literal).toArray (callTree f a literal) = some f := by
  have hcallee : nodeText (callText f a literal).toArray (.node .identifier .callee 0 f.length []) = f := by
    have hwritten : Listing.WrittenAt (callText f a literal) 0 f.toList := ⟨[], _, rfl, rfl⟩
    refine (Listing.nodeText_written hwritten ?_).trans String.ofList_toList
    rw [String.length_toList]
    exact (Nat.zero_add _).symm
  have hname : isName (callText f a literal).toArray (some (.node .identifier .callee 0 f.length [])) =
      fun name => f == name := by
    funext name
    simp [isName, Tree.kind, hcallee]
  show timerNames.find? (isName _ (some (.node .identifier .callee 0 f.length []))) = some f
  rw [hname]
  simp only [timerNames, List.mem_cons, List.not_mem_nil, or_false] at hf
  rcases hf with rfl | rfl <;> decide

theorem nodeText_literal (f a : String) (literal : List Char) :
    nodeText (callText f a literal).toArray (.node .number .plain (literalStart f a)
      (literalStart f a + literal.length) []) = String.ofList literal := by
  have hwritten : Listing.WrittenAt (callText f a literal) (literalStart f a) literal := by
    refine ⟨f.toList ++ '(' :: (a.toList ++ [',', ' ']), [')', ';'], by simp [callText], ?_⟩
    simp only [literalStart, List.length_append, List.length_cons, List.length_nil,
      String.length_toList]
    omega
  exact Listing.nodeText_written hwritten rfl

theorem timerCall?_callTree (hf : f ∈ timerNames) (hq : Number.parse? (String.ofList literal) = some q) :
    timerCall? (callText f a literal).toArray (callTree f a literal) =
      some ⟨0, literalStart f a + literal.length + 1, .timer, f, some q⟩ := by
  have hsecond : (arguments (callTree f a literal))[1]? = some (.node .number .plain (literalStart f a)
      (literalStart f a + literal.length) []) := rfl
  simp only [timerCall?, timerName?_callTree hf, hsecond, Option.bind_eq_bind, Option.bind_some,
    Tree.kind, if_true, nodeText_literal, hq]
  rfl

theorem preorder_callTree (f a : String) (literal : List Char) :
    ∃ below, (callTree f a literal).preorder = callTree f a literal :: below ∧
      ∀ t ∈ below, t.kind ≠ .call := by
  refine ⟨_, rfl, ?_⟩
  simp [Tree.preorderAll, Tree.preorder, Tree.kind]

theorem timerCalls_callTree {stop : Nat} (hf : f ∈ timerNames)
    (hq : Number.parse? (String.ofList literal) = some q) :
    timerCalls (callText f a literal).toArray (.node .other .plain 0 stop [callTree f a literal]) =
      [⟨0, literalStart f a + literal.length + 1, .timer, f, some q⟩] := by
  have hother : ∀ t : Tree, t.kind ≠ .call → timerCall? (callText f a literal).toArray t = none := by
    intro t ht
    simp [timerCall?, timerName?, ht]
  obtain ⟨below, hbelow, hkinds⟩ := preorder_callTree f a literal
  have hnone : below.filterMap (timerCall? (callText f a literal).toArray) = [] :=
    List.filterMap_eq_nil_iff.mpr fun t ht => hother t (hkinds t ht)
  rw [timerCalls, Tree.walk_eq, Tree.preorder, Tree.preorderAll, Tree.preorderAll, List.append_nil,
    hbelow, List.filterMap_cons_none (hother _ (by simp [Tree.kind])),
    List.filterMap_cons_some (timerCall?_callTree hf hq), hnone]

end InTree

namespace InText

open Pattern

theorem findFrom_eq_nil {p : Pattern} (n : Nat) {s : Spot}
    (h : ∀ t : Spot, t.rest <:+ s.rest → p.read some t = none) : p.findFrom n s = [] := by
  induction n generalizing s with
  | zero => simp [findFrom]
  | succ n ih =>
    rw [findFrom, h s (List.suffix_refl _)]
    cases hs : s.rest with
    | nil => simp [findFrom.next, hs]
    | cons c cs =>
      simp only [findFrom.next, hs]
      exact ih fun t ht => h t (by rw [hs]; exact ht.trans (List.suffix_cons c cs))

variable {f a : String} {literal : List Char} {q : Quantity}

theorem timer_none_at_semicolon {s : Spot} (hs : s.rest <:+ [';']) : timer.read some s = none := by
  have hopens := pattern_opens .timer
  rcases List.suffix_cons_iff.mp hs with hs | hs
  · exact hopens.read_none (u := []) (v := [';']) (z := []) hs (no_gate (by decide)) (by simp) (.inl rfl)
  · exact hopens.read_end (List.suffix_nil.mp hs)

theorem findAll_single {p : Pattern} {cs : List Char} {t : Spot}
    (h : p.read some (Spot.first cs) = some t) (hpos : 0 < t.pos)
    (hrest : ∀ u : Spot, u.rest <:+ t.rest → p.read some u = none) : p.findAll cs = [⟨0, t⟩] := by
  have hlt : (Spot.first cs).pos < t.pos := hpos
  have hnone : p.findFrom cs.length (t.keeping []) = [] := findFrom_eq_nil _ hrest
  rw [Spot.keeping] at hnone
  rw [findAll, findFrom, h]
  simp only [if_pos hlt, hnone]
  rfl

section Call

variable (hf : f ∈ timerNames) (ha : IsName a) (hliteral : Listing.ReadAsNumber literal)

include hf ha hliteral

theorem read_callText : ∃ t, timer.read some (Spot.first (callText f a literal)) = some t ∧
    t.pos = literalStart f a + literal.length + 1 ∧ t.rest = [';'] ∧
    t.get? delaySlot = some (String.ofList literal) ∧ t.get? valueSlot = some f := by
  have hplain : ∀ c ∈ a.toList, c ∉ [',', '(', ')'] := by
    intro c hc hmem
    have hmarks := isNamePart_not_mark (ha.isNamePart c hc)
    simp only [List.mem_cons, List.not_mem_nil, or_false] at hmem
    rcases hmem with rfl | rfl | rfl <;> exact hmarks _ (by decide) rfl
  refine ⟨_, Listing.read_timer (r := [';']) (.inl rfl) hplain hliteral ⟨f, hf⟩ rfl, ?_, rfl, rfl, ?_⟩
  · show 0 + (f.toList ++ '(' :: (a.toList ++ ',' :: ' ' :: (literal ++ [')']))).length = _
    simp only [literalStart, List.length_append, List.length_cons, List.length_nil, String.length_toList]
    omega
  · exact congrArg some String.ofList_toList

theorem timerCalls_callText (hq : Number.parse? (String.ofList literal) = some q) :
    timerCalls (callText f a literal) =
      [⟨0, literalStart f a + literal.length + 1, .timer, f, some q⟩] := by
  obtain ⟨t, hread, hpos, hrest, hdelay, hvalue⟩ := read_callText hf ha hliteral
  have hfound : timer.findAll (callText f a literal) = [⟨0, t⟩] := by
    apply findAll_single hread
    · omega
    · intro u hu
      rw [hrest] at hu
      exact timer_none_at_semicolon hu
  rw [timerCalls, hfound]
  simp [hdelay, hvalue, hq, hpos, inOrder]

end Call

end InText

theorem detect_one {source : Source} {o : Occurrence} {threshold : Quantity}
    (hfound : source.timerCalls = [o]) :
    (timerRule threshold).detect source = (timerFinding threshold source o).map Option.toList := by
  show ((source.timerCalls.mapM (timerFinding threshold source)) >>= fun found =>
    pure (found.filterMap id)) = _
  rw [hfound, List.mapM_cons, List.mapM_nil]
  cases timerFinding threshold source o with
  | error e => rfl
  | ok x => cases x <;> rfl

theorem detect_single {source : Source} {o : Occurrence} {n : Nat} {threshold : Int}
    (hfound : source.timerCalls = [o]) (hdelay : o.delay = some (.whole n))
    (hn : n < 10 ^ maxWholeDigits) :
    (timerRule (.whole threshold)).detect source = .ok (if threshold < n then
      [o.finding source timerId .warning (o.value ++ " with delay of " ++ toString n ++ "ms detected. " ++
        "Edge functions typically have execution time limits.") timerSuggestions] else []) := by
  have htext : Quantity.text? (.whole n) = some (toString n) := wholeText?_of_lt hn
  rw [detect_one hfound, timerFinding, hdelay]
  simp only [withinThreshold_whole, htext]
  by_cases habove : threshold < n
  · have hnot : ¬ (n : Int) ≤ threshold := by omega
    rw [decide_eq_false hnot, if_pos habove]
    rfl
  · have hle : (n : Int) ≤ threshold := by omega
    rw [decide_eq_true hle, if_neg habove]
    rfl

/-- A timer is reported exactly when the number that its literal writes is above the threshold, with a
tree and without one, and the message shows that number in decimal. -/
theorem timerRule_exact {n : Nat} {literal : List Char} {name : String} (hn : n < 10 ^ 4300)
    (hliteral : Writes n literal) (hname : name ∈ timerNames) (threshold : Int) (dialect : Dialect)
    (path : String) (target : Target) (strict : Bool) :
    ∃ tree, Script.parse? dialect (callText name "fn" literal) = some tree ∧
      ∀ choice ∈ [some tree, none], ∃ found,
        (timerRule (.whole threshold)).detect
          ⟨path, callText name "fn" literal, target, strict, choice⟩ = .ok found ∧
        found.map Finding.message = if threshold < n then
          [name ++ " with delay of " ++ toString n ++ "ms detected. " ++
            "Edge functions typically have execution time limits."] else [] := by
  have hshort : n < 10 ^ maxWholeDigits := by
    rw [maxWholeDigits]
    exact hn
  have hvalue := hliteral.parse?_eq hshort
  have hfn : IsName "fn" := isName_timer _ (by simp)
  refine ⟨_, parse?_callText (isName_timer _ (by simp [hname])) hfn (hliteral.isNumeral hshort), ?_⟩
  intro choice hchoice
  have hfound : (⟨path, callText name "fn" literal, target, strict, choice⟩ : Source).timerCalls =
      [⟨0, literalStart name "fn" + literal.length + 1, .timer, name, some (.whole n)⟩] := by
    simp only [List.mem_cons, List.not_mem_nil, or_false] at hchoice
    rcases hchoice with rfl | rfl
    · exact InTree.timerCalls_callTree hname hvalue
    · exact InText.timerCalls_callText hname hfn (hliteral.readAsNumber hshort) hvalue
  refine ⟨_, detect_single hfound rfl hshort, ?_⟩
  by_cases habove : threshold < n
  · rw [if_pos habove, if_pos habove]
    rfl
  · rw [if_neg habove, if_neg habove]
    rfl

theorem timerRule_exact_hex :
    callText "setInterval" "fn" "0XbE_eF".toList = "setInterval(fn, 0XbE_eF);".toList ∧
    48879 < 10 ^ 4300 ∧ Writes 48879 "0XbE_eF".toList ∧ "setInterval" ∈ timerNames ∧
    ∃ tree, Script.parse? .tsx (callText "setInterval" "fn" "0XbE_eF".toList) = some tree ∧
      ∀ choice ∈ [some tree, none], ∃ found,
        (timerRule (.whole 48878)).detect
          ⟨"a.tsx", callText "setInterval" "fn" "0XbE_eF".toList, .auto, false, choice⟩ = .ok found ∧
        found.map Finding.message = ["setInterval with delay of 48879ms detected. " ++
          "Edge functions typically have execution time limits."] := by
  have hpow : ∀ k ≥ 5, 48879 < 10 ^ k := fun k hk =>
    Nat.lt_of_lt_of_le (by decide) (Nat.pow_le_pow_right (by decide) hk)
  have hn : 48879 < 10 ^ 4300 := hpow 4300 (by decide)
  have hdigits : List.Forall₂ IsDigitOf [11, 14, 14, 15] ['b', 'E', 'e', 'F'] :=
    .cons (.inl rfl) (.cons (.inr rfl) (.cons (.inl rfl) (.cons (.inr rfl) .nil)))
  have hmark : ('X', 16) ∈ baseMarks := by decide
  have hliteral : Writes 48879 "0XbE_eF".toList :=
    .based hmark (by decide) (by decide) hdigits (.next _ (.apart _ (.next _ (.last _))))
  obtain ⟨tree, htree, hall⟩ := timerRule_exact hn hliteral (by decide : "setInterval" ∈ timerNames)
    48878 .tsx "a.tsx" .auto false
  refine ⟨by decide, hn, hliteral, by decide, tree, htree, fun choice hchoice => ?_⟩
  obtain ⟨found, hfound, hmessages⟩ := hall choice hchoice
  exact ⟨found, hfound, hmessages.trans (by decide)⟩

end EdgeAudit
