import EdgeAudit.Proofs.Listing
import EdgeAudit.Proofs.PatternOpening

namespace EdgeAudit.Listing

open InText Text Pattern

section Chars

variable {c : Char}

theorem alphanum_ascii (h : c.isAlphanum = true) : c.toNat < 128 := by
  have hranges : ((decide (c.val ≥ 'A'.val ∧ c.val ≤ 'Z'.val) ||
      decide (c.val ≥ 'a'.val) && decide (c.val ≤ 'z'.val)) ||
      decide (c.val ≥ '0'.val) && decide (c.val ≤ '9'.val)) = true := h
  simp only [Bool.or_eq_true, Bool.and_eq_true, decide_eq_true_eq, UInt32.le_iff_toNat_le] at hranges
  have hz : 'z'.val.toNat = 122 ∧ 'Z'.val.toNat = 90 ∧ '9'.val.toNat = 57 := by decide
  have hn : c.toNat = c.val.toNat := rfl
  omega

theorem ident_ascii (h : isIdentChar c = true) : c.toNat < 128 := by
  simp only [isIdentChar, Bool.or_eq_true, beq_iff_eq] at h
  rcases h with (h | rfl) | rfl
  · exact alphanum_ascii h
  · decide
  · decide

theorem specifier_ascii (h : isSpecifierChar c = true) : c.toNat < 128 := by
  simp only [isSpecifierChar, Bool.or_eq_true, List.contains_iff_mem] at h
  rcases h with h | h
  · exact alphanum_ascii h
  · simp only [List.mem_cons, List.not_mem_nil, or_false] at h
    rcases h with rfl | rfl | rfl | rfl | rfl | rfl <;> decide

theorem ident_class (h : isIdentChar c = true) : isNameChar c = true ∧ isGate c = false ∧
    c ≠ ',' ∧ c ≠ ')' ∧ c ≠ '\x7d' :=
  ascii_forall (P := fun c => isIdentChar c = true → isNameChar c = true ∧ isGate c = false ∧
    c ≠ ',' ∧ c ≠ ')' ∧ c ≠ '\x7d') (by decide) (ident_ascii h) h

theorem specifier_class (h : isSpecifierChar c = true) : isGate c = false ∧
    (c != '\'' && c != '"' && c != '\n') = true :=
  ascii_forall (P := fun c => isSpecifierChar c = true → isGate c = false ∧
    (c != '\'' && c != '"' && c != '\n') = true) (by decide) (specifier_ascii h) h

theorem digit_class (h : c.isDigit = true) : isGate c = false ∧ isDigit c = true := by
  have hascii : c.toNat < 128 := alphanum_ascii (by simp [Char.isAlphanum, h])
  exact ascii_forall (P := fun c => c.isDigit = true → isGate c = false ∧ isDigit c = true)
    (by decide) hascii h

end Chars

theorem Ident.no_gate (name : Ident) : ∀ c ∈ name.chars, isGate c = false :=
  fun c hc => (ident_class (name.plain c hc)).2.1

theorem Quoted.no_gate (source : Quoted) : ∀ c ∈ source.text, isGate c = false := by
  have hquote : isGate source.quote = false := by
    rcases source.quote_cases with h | h <;> rw [h] <;> decide
  intro c hc
  simp only [text, List.mem_cons, List.mem_append, List.not_mem_nil, or_false] at hc
  rcases hc with rfl | hc | rfl
  · exact hquote
  · exact (specifier_class (source.plain c hc)).1
  · exact hquote

def constructs : List Construct :=
  [.reference .staticImport, .reference .require, .reference .dynamicImport, .evalCall, .newFunction,
    .wasmSync, .timer, .bufferCall]

theorem mem_constructs (c : Construct) : c ∈ constructs := by
  match c with
  | .reference .staticImport => decide
  | .reference .require => decide
  | .reference .dynamicImport => decide
  | .evalCall => decide
  | .newFunction => decide
  | .wasmSync => decide
  | .timer => decide
  | .bufferCall => decide

def clears (c : Construct) (segment : List Char) : Bool :=
  (opening c).words.all fun w => !w.isSuffixOf segment

section Skip

variable {c : Construct} {z : List Char}

theorem passes_of_clears {segment : List Char} (h : clears c segment = true) :
    (opening c).Passes segment z := by
  refine .inr fun w hw hsuffix => ?_
  have hfalse := List.all_eq_true.mp h w hw
  rw [List.isSuffixOf_iff_suffix.mpr hsuffix] at hfalse
  cases hfalse

theorem passes_of_last {a : List Char} {x : Char} (hx : isIdentChar x = false) :
    (opening c).Passes (a ++ [x]) z := by
  have hall : ∀ c ∈ constructs, ∀ w ∈ (opening c).words, w.getLast?.any isIdentChar = true := by
    decide
  refine .inr fun w hw hsuffix => ?_
  have hlast := hall c (mem_constructs c) w hw
  obtain ⟨u, hu⟩ := hsuffix
  cases hw' : w.getLast? with
  | none => simp [hw'] at hlast
  | some y =>
    have hxy : (u ++ w).getLast? = some x := by rw [hu]; simp
    rw [List.getLast?_append, hw', Option.some_or, Option.some.injEq] at hxy
    subst hxy
    simp [hw', hx] at hlast

theorem follow_space {x : Char} (hc : c ≠ .reference .staticImport) (hx : isBlank x = false)
    (hx' : x ∉ ['(', 'F', 'W']) : (opening c).follow (' ' :: x :: z) = false := by
  have hb : ∀ d, (x :: z).head? = some d → isBlank d = false := by
    intro d hd
    cases hd
    exact hx
  simp only [List.mem_cons, List.not_mem_nil, or_false, not_or] at hx'
  obtain ⟨hparen, hF, hW⟩ := hx'
  have hcall : ((x :: z).head? == some '(') = false := by simpa using hparen
  match c with
  | .reference .staticImport => exact absurd rfl hc
  | .reference .require => rw [opening, callOpening_space hb, hcall]
  | .reference .dynamicImport => rw [opening, callOpening_space hb, hcall]
  | .evalCall => rw [opening, callOpening_space hb, hcall]
  | .newFunction =>
    rw [opening, newOpening_space hb]
    simpa [List.isPrefixOf] using fun h => absurd h.symm hF
  | .wasmSync =>
    rw [opening, newOpening_space hb]
    simpa [List.isPrefixOf] using fun h => absurd h.symm hW
  | .timer => rw [opening, callOpening_space hb, hcall]
  | .bufferCall => rw [opening, callOpening_space hb, hcall]

theorem follow_binding : (opening c).follow (' ' :: '=' :: z) = false := by
  by_cases hc : c = .reference .staticImport
  · subst hc
    have hb : ∀ d, ('=' :: z).head? = some d → isBlank d = false := by
      intro d hd
      cases hd
      decide
    rw [opening, importOpening_space hb]
    show startsClause '=' = false
    decide
  · exact follow_space hc (by decide) (by decide)

theorem skips_word {w : String} {g : Char} (hw : clears c w.toList = true)
    (hplain : gateless w.toList = true) (hg : isGate g = true) :
    Skips (pattern c) (w.toList ++ g :: z) z := by
  exact skips_tile (pattern_opens c) (no_gate hplain) hg (passes_of_clears hw)

theorem skips_binding (binding : Option Ident) : Skips (pattern c) (writeBinding binding z) z := by
  cases binding with
  | none => exact skips_refl _ z
  | some name =>
    have hconst : ∀ c ∈ constructs, clears c "const".toList = true := by decide
    have hequal : Skips (pattern c) (['='] ++ ' ' :: z) z :=
      skips_tile (pattern_opens c) (no_gate (by decide)) (by decide)
        (passes_of_last (a := []) (by decide))
    have hname : Skips (pattern c) (name.chars ++ ' ' :: '=' :: ' ' :: z) ('=' :: ' ' :: z) :=
      skips_tile (pattern_opens c) name.no_gate (by decide) (.inl follow_binding)
    have hword : Skips (pattern c) (writeBinding (some name) z) (name.chars ++ ' ' :: '=' :: ' ' :: z) :=
      skips_word (hconst c (mem_constructs c)) (by decide) (by decide)
    exact hword.trans (hname.trans hequal)

theorem skips_last {a : List Char} (ha : ∀ d ∈ a, isGate d = false)
    (hz : ∀ d, z.head? = some d → isGate d = true) : Skips (pattern c) (a ++ ';' :: z) z := by
  have hseg : ∀ d ∈ a ++ [';'], isGate d = false := by
    intro d hd
    rcases List.mem_append.mp hd with hd | hd
    · exact ha d hd
    · rw [List.mem_singleton.mp hd]
      decide
  have h := skips_segment (pattern_opens c) hseg hz (passes_of_last (by decide))
  rwa [List.append_assoc] at h

theorem skips_from : Skips (pattern c) ("from".toList ++ ' ' :: z) z := by
  have hfrom : ∀ c ∈ constructs, clears c "from".toList = true := by decide
  exact skips_word (hfrom c (mem_constructs c)) (by decide) (by decide)

section Import

variable (hc : c ≠ .reference .staticImport)
include hc

theorem skips_name_from (name : Ident) :
    Skips (pattern c) (name.chars ++ ' ' :: ("from".toList ++ ' ' :: z)) z := by
  refine Skips.trans ?_ skips_from
  refine skips_tile (pattern_opens c) name.no_gate (by decide) (.inl ?_)
  exact follow_space hc (by decide) (by decide)

theorem skips_more (first : Ident) (more : List Ident) :
    Skips (pattern c) (first.chars ++ writeMore more (' ' :: '\x7d' :: z)) ('\x7d' :: z) := by
  induction more generalizing first with
  | nil =>
    refine skips_tile (pattern_opens c) first.no_gate (by decide) (.inl ?_)
    exact follow_space hc (by decide) (by decide)
  | cons name more ih =>
    have hseg : ∀ d ∈ first.chars ++ [','], isGate d = false := by
      intro d hd
      rcases List.mem_append.mp hd with hd | hd
      · exact first.no_gate d hd
      · rw [List.mem_singleton.mp hd]
        decide
    have hfirst := skips_tile (g := ' ') (z := name.chars ++ writeMore more (' ' :: '\x7d' :: z))
      (pattern_opens c) hseg (by decide) (passes_of_last (by decide))
    rw [List.append_assoc] at hfirst
    exact hfirst.trans (ih name)

theorem skips_taken (taken : Taken) : Skips (pattern c) (taken.write z) z := by
  have hmark : ∀ d z, isIdentChar d = false → isGate d = false →
      Skips (pattern c) ([d] ++ ' ' :: z) z := by
    intro d z hd hg
    refine skips_tile (pattern_opens c) ?_ (by decide) (passes_of_last (a := []) hd)
    intro e he
    rw [List.mem_singleton.mp he]
    exact hg
  cases taken with
  | single name => exact skips_name_from hc name
  | whole name =>
    have has : ∀ c ∈ constructs, clears c "as".toList = true := by decide
    refine (hmark '*' _ (by decide) (by decide)).trans (Skips.trans ?_ (skips_name_from hc name))
    exact skips_word (has c (mem_constructs c)) (by decide) (by decide)
  | listed first more =>
    refine (hmark '\x7b' _ (by decide) (by decide)).trans ?_
    refine (skips_more hc first more).trans ?_
    exact (hmark '\x7d' _ (by decide) (by decide)).trans skips_from
  | nothing => exact skips_refl _ z

end Import

theorem taken_head (taken : Taken) (source : Quoted) (z : List Char) :
    ∀ d, (taken.write (source.text ++ z)).head? = some d → isGate d = false := by
  have hname : ∀ (name : Ident) (y : List Char) (d : Char),
      (name.chars ++ y).head? = some d → isGate d = false := by
    intro name y d hd
    rw [List.head?_append_of_ne_nil _ name.nonempty] at hd
    exact name.no_gate d (List.mem_of_head? hd)
  intro d hd
  cases taken with
  | single name => exact hname name _ d hd
  | whole name =>
    cases hd
    decide
  | listed first more =>
    cases hd
    decide
  | nothing =>
    cases hd
    exact source.no_gate _ (by simp [Quoted.text])

theorem skips_imports (hc : c ≠ .reference .staticImport)
    (hz : ∀ d, z.head? = some d → isGate d = true) (taken : Taken) (source : Quoted) :
    Skips (pattern c) ((Line.imports taken source).write z) z := by
  rw [Line.write_imports]
  have hrest : Skips (pattern c) (taken.write (source.text ++ ';' :: z)) z :=
    (skips_taken hc taken).trans (skips_last source.no_gate hz)
  refine Skips.trans (skips_tile (pattern_opens c) (no_gate (by decide)) (by decide) ?_) hrest
  by_cases hd : c = .reference .dynamicImport
  · subst hd
    have hgate := taken_head taken source (';' :: z)
    refine .inl ?_
    rw [opening, callOpening_space fun d hd => (Bool.or_eq_false_iff.mp (hgate d hd)).1]
    refine Bool.eq_false_iff.mpr fun hparen => ?_
    exact absurd (hgate '(' (by simpa using hparen)) (by decide)
  · have hall : ∀ c ∈ constructs, c ≠ .reference .staticImport → c ≠ .reference .dynamicImport →
        clears c "import".toList = true := by decide
    exact passes_of_clears (hall c (mem_constructs c) hc hd)

section Use

variable (hz : ∀ d, z.head? = some d → isGate d = true)
include hz

theorem skips_argument (use : Use) : Skips (pattern c) (use.argument ++ ')' :: ';' :: z) z := by
  have hclosed : ∀ a : List Char, (∀ d ∈ a, isGate d = false) →
      Skips (pattern c) (a ++ ')' :: ';' :: z) z := by
    intro a ha
    have hlast := skips_last (c := c) (z := z) (a := a ++ [')']) ?_ hz
    · rwa [List.append_assoc] at hlast
    · intro d hd
      rcases List.mem_append.mp hd with hd | hd
      · exact ha d hd
      · rw [List.mem_singleton.mp hd]
        decide
  cases use with
  | require source => exact hclosed _ source.no_gate
  | load source => exact hclosed _ source.no_gate
  | evaluate code => exact hclosed _ code.no_gate
  | function code => exact hclosed _ code.no_gate
  | wasm kind code => exact hclosed _ code.no_gate
  | buffer method content => exact hclosed _ content.no_gate
  | timer name callback delay =>
    have hseg : ∀ d ∈ callback.chars ++ [','], isGate d = false := by
      intro d hd
      rcases List.mem_append.mp hd with hd | hd
      · exact callback.no_gate d hd
      · rw [List.mem_singleton.mp hd]
        decide
    have hcallback := skips_tile (g := ' ') (z := delay.digits ++ ')' :: ';' :: z)
      (pattern_opens c) hseg (by decide) (passes_of_last (by decide))
    have hdelay := hclosed delay.digits fun d hd => (digit_class (delay.plain d hd)).1
    have htext : Use.argument (.timer name callback delay) ++ ')' :: ';' :: z =
        callback.chars ++ [','] ++ ' ' :: (delay.digits ++ ')' :: ';' :: z) := by
      simp [Use.argument]
    rw [htext]
    exact hcallback.trans hdelay

theorem skips_call (use : Use) {w : String} (hw : use.words = [w]) (hclear : clears c w.toList = true)
    (hplain : gateless w.toList = true) : Skips (pattern c) (use.write z) z := by
  rw [Use.write, hw]
  exact (skips_word hclear hplain (by decide)).trans (skips_argument hz use)

theorem skips_new (use : Use) {w : String} (hw : use.words = ["new", w])
    (hnew : (opening c).Passes "new".toList (' ' :: (w.toList ++ '(' :: (use.argument ++
      ')' :: ';' :: z)))) (hclear : clears c w.toList = true)
    (hplain : gateless w.toList = true) : Skips (pattern c) (use.write z) z := by
  rw [Use.write, hw]
  have hword : Skips (pattern c) (w.toList ++ '(' :: (use.argument ++ ')' :: ';' :: z)) z :=
    (skips_word hclear hplain (by decide)).trans (skips_argument hz use)
  exact (skips_tile (pattern_opens c) (no_gate (by decide)) (by decide) hnew).trans hword

theorem skips_use (use : Use) (hc : c ≠ use.construct) : Skips (pattern c) (use.write z) z := by
  have hmem := mem_constructs c
  cases use with
  | require source =>
    have hall : ∀ c ∈ constructs, c ≠ .reference .require → clears c "require".toList = true := by
      decide
    exact skips_call hz _ rfl (hall c hmem hc) (by decide)
  | load source =>
    by_cases hs : c = .reference .staticImport
    · subst hs
      have hword : Skips (pattern (.reference .staticImport))
          ("import".toList ++ '(' :: (source.text ++ ')' :: ';' :: z)) _ :=
        skips_tile (pattern_opens _) (no_gate (by decide)) (by decide)
          (.inl importOpening_paren)
      exact hword.trans (skips_argument hz (.load source))
    · have hall : ∀ c ∈ constructs, c ≠ .reference .staticImport → c ≠ .reference .dynamicImport →
          clears c "import".toList = true := by decide
      exact skips_call hz _ rfl (hall c hmem hs hc) (by decide)
  | evaluate code =>
    have hall : ∀ c ∈ constructs, c ≠ .evalCall → clears c "eval".toList = true := by decide
    exact skips_call hz _ rfl (hall c hmem hc) (by decide)
  | function code =>
    have hall : ∀ c ∈ constructs, clears c "Function".toList = true := by decide
    refine skips_new hz _ rfl ?_ (hall c hmem) (by decide)
    by_cases hw : c = .wasmSync
    · subst hw
      refine .inl ?_
      rw [opening, newOpening_space (fun d hd => by cases hd; decide)]
      rfl
    · have hnew : ∀ c ∈ constructs, c ≠ .newFunction → c ≠ .wasmSync →
          clears c "new".toList = true := by decide
      exact passes_of_clears (hnew c hmem hc hw)
  | wasm kind code =>
    have hall : ∀ c ∈ constructs, ∀ k ∈ wasmConstructors,
        clears c ("WebAssembly." ++ k).toList = true ∧
          gateless ("WebAssembly." ++ k).toList = true := by decide
    obtain ⟨hclear, hplain⟩ := hall c hmem kind.1 kind.2
    refine skips_new hz _ rfl ?_ hclear hplain
    by_cases hf : c = .newFunction
    · subst hf
      refine .inl ?_
      rw [String.toList_append, opening, newOpening_space (fun d hd => by cases hd; decide)]
      rfl
    · have hnew : ∀ c ∈ constructs, c ≠ .newFunction → c ≠ .wasmSync →
          clears c "new".toList = true := by decide
      exact passes_of_clears (hnew c hmem hf hc)
  | buffer method content =>
    have hall : ∀ c ∈ constructs, c ≠ .bufferCall → ∀ m ∈ bufferMethods,
        clears c ("Buffer." ++ m).toList = true ∧
          gateless ("Buffer." ++ m).toList = true := by decide
    obtain ⟨hclear, hplain⟩ := hall c hmem hc method.1 method.2
    exact skips_call hz _ rfl hclear hplain
  | timer name callback delay =>
    have hall : ∀ c ∈ constructs, c ≠ .timer → ∀ n ∈ timerNames,
        clears c n.toList = true ∧ gateless n.toList = true := by decide
    obtain ⟨hclear, hplain⟩ := hall c hmem hc name.1 name.2
    exact skips_call hz _ rfl hclear hplain

end Use

end Skip

end EdgeAudit.Listing
