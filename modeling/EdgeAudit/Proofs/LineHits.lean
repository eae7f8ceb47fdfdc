import EdgeAudit.Proofs.LineSkips

namespace EdgeAudit.Listing

open InText Text Pattern

def Use.kept : Use → List (Nat × List Char)
  | require source => [(valueSlot, source.chars)]
  | load source => [(valueSlot, source.chars)]
  | evaluate _ => []
  | function _ => []
  | wasm kind _ => [(valueSlot, kind.1.toList)]
  | buffer method _ => [(valueSlot, method.1.toList)]
  | timer name _ delay => [(delaySlot, delay.digits), (valueSlot, name.1.toList)]

def Line.kept : Line → List (Nat × List Char)
  | imports _ source => [(valueSlot, source.chars)]
  | statement _ use => use.kept

def Fresh (s : Spot) : Prop :=
  s.before = none ∨ s.before = some ' ' ∨ s.before = some '\n'

variable {β : Type} {k : Spot → Option β} {s : Spot} {x : β} {r z : List Char}

theorem read_free (h : Fresh s) : read free k s = k s := by
  have hblank : isNameChar ' ' = false ∧ isNameChar '\n' = false := by decide
  rcases h with h | h | h <;> simp [free, read_notAfter, h, hblank]

theorem read_word_edge (h : Fresh s) (hs : s.rest.head? = some 'i') :
    read (edge isWord) k s = k s := by
  have hclass : isWord ' ' = false ∧ isWord '\n' = false ∧ isWord 'i' = true := by decide
  rcases h with h | h | h <;> simp [read_edge, h, hs, hclass]

theorem read_space {least : Nat} (hle : least ≤ 1) (hs : s.rest = ' ' :: r)
    (hr : ∀ c, r.head? = some c → isBlank c = false) (hk : k (s.past [' '] r) = some x) :
    read (run isBlank least) k s = some x :=
  read_run (a := [' ']) hs (fun c hc => by rw [List.mem_singleton.mp hc]; decide) hr hle hk

theorem read_no_blanks (hs : ∀ c, s.rest.head? = some c → isBlank c = false) (hk : k s = some x) :
    read blanks k s = some x := by
  refine read_run (a := []) rfl (fun c hc => by cases hc) hs (Nat.zero_le _) ?_
  rwa [Spot.past_nil s s.rest rfl]

theorem read_paren (hs : s.rest = '(' :: r) (hk : k (s.past ['('] r) = some x) :
    read blanks (read (word "(") k) s = some x := by
  refine read_no_blanks ?_ ((read_word (w := "(") hs).trans hk)
  intro c hc
  rw [hs] at hc
  cases hc
  decide

theorem read_specifier {source : Quoted} (hs : s.rest = source.text ++ r)
    (hk : k ((s.past source.text r).keeping ((valueSlot, source.chars) :: s.kept)) = some x) :
    read specifier k s = some x := by
  have hinside : ∀ q : String, q.toList = [source.quote] →
      read (all [word q, keep valueSlot (run (fun c => c != '\'' && c != '"' && c != '\n') 1), word q])
        k s = some x := by
    intro q hq
    have hs' : s.rest = q.toList ++ (source.chars ++ source.quote :: r) := by
      rw [hs, hq]
      simp [Quoted.text]
    show read (word q) (read (keep valueSlot (run _ 1)) (read (word q) k)) s = some x
    rw [read_word hs']
    refine read_keep_run rfl (fun c hc => (specifier_class (source.plain c hc)).2) ?_
      (List.length_pos_iff.mpr source.nonempty) ?_
    · intro c hc
      cases hc
      rcases source.quote_cases with h | h <;> simp [h]
    · rw [read_word (r := r) (by simp [hq]), ← hk]
      simp [Quoted.text, hq]
  rcases source.quote_cases with h | h
  · exact read_either_left (hinside "'" (by rw [h]; rfl))
  · have hfail : Fails (all [word "'", keep valueSlot (run (fun c => c != '\'' && c != '"' && c != '\n') 1),
        word "'"]) s := by
      refine fails_seq (fails_word_of_head (c := '\'') rfl ?_)
      simp [hs, Quoted.text, h]
    exact (read_either_right hfail).trans (hinside "\"" (by rw [h]; rfl))

theorem quote_not_blank {source : Quoted} : ∀ c, (source.text ++ r).head? = some c → isBlank c = false := by
  intro c hc
  cases hc
  exact (Bool.or_eq_false_iff.mp (source.no_gate _ (by simp [Quoted.text]))).1

theorem read_callWith {f : String} {source : Quoted} (hfresh : Fresh s)
    (hs : s.rest = f.toList ++ '(' :: (source.text ++ ')' :: r)) :
    (callWith f).read some s = some ((s.past (f.toList ++ '(' :: (source.text ++ [')'])) r).keeping
      ((valueSlot, source.chars) :: s.kept)) := by
  show read free (read (word f) (read blanks (read (word "(") (read blanks (read comments
    (read specifier (read blanks (read (word ")") some)))))))) s = _
  rw [read_free hfresh, read_word hs]
  refine read_paren rfl (read_no_blanks quote_not_blank ?_)
  have hcomment : Fails (all [word "/*", fewest fun _ => true, word "*/", blanks])
      ((s.past f.toList ('(' :: (source.text ++ ')' :: r))).past ['('] (source.text ++ ')' :: r)) := by
    refine fails_seq (fails_word_of_head (c := '/') rfl ?_)
    rcases source.quote_cases with h | h <;> simp [Quoted.text, h]
  rw [comments, read_many_none hcomment]
  refine read_specifier rfl (read_no_blanks (fun c hc => by cases hc; decide) ?_)
  rw [read_word (w := ")") rfl]
  simp

theorem read_evalCall (hfresh : Fresh s) (hs : s.rest = "eval".toList ++ '(' :: r) :
    evalCall.read some s = some ((s.past ("eval".toList ++ ['(']) r).keeping s.kept) := by
  show read free (read (word "eval") (read blanks (read (word "(") some))) s = _
  rw [read_free hfresh, read_word hs]
  refine read_paren rfl ?_
  rw [Spot.past_past]
  rfl

theorem read_newFunction (hfresh : Fresh s)
    (hs : s.rest = "new".toList ++ ' ' :: ("Function".toList ++ '(' :: r)) :
    newFunction.read some s =
      some ((s.past ("new".toList ++ ' ' :: "Function".toList) ('(' :: r)).keeping s.kept) := by
  show read free (read (word "new") (read gap (read (word "Function")
    (read (notBefore (one isNameChar)) (read (notBefore (seq blanks (word "."))) some))))) s = _
  rw [read_free hfresh, read_word hs]
  refine read_space (by decide) rfl (fun c hc => by cases hc; decide) ?_
  rw [read_word rfl, read_notBefore (fails_one fun c hc => by cases hc; decide),
    read_notBefore]
  · rw [Spot.past_past, Spot.past_past]
    rfl
  · intro β k
    refine read_blanks_word_none (d := '.') rfl (by decide) ?_
    exact afterBlanks_zero fun c hc => by cases hc; decide

theorem read_oneName_paren {names : List String} {name : String} (hmem : name ∈ names)
    (hplain : ∀ n ∈ names, gateless n.toList = true) (hs : s.rest = name.toList ++ '(' :: r)
    (hk : k ((s.past (name.toList ++ ['(']) r).keeping ((valueSlot, name.toList) :: s.kept)) = some x) :
    read (oneName names) (read blanks (read (word "(") k)) s = some x := by
  rw [oneName, read_keep]
  have hname : read (word name) (fun t => read blanks (read (word "(") k) (t.keeping
      ((valueSlot, s.rest.take (t.pos - s.pos)) :: t.kept))) s = some x := by
    rw [read_word hs]
    refine read_paren rfl ?_
    rw [← hk, hs]
    simp
  have hother : ∀ n ∈ names, n ≠ name → read (word n) (fun t => read blanks (read (word "(") k)
      (t.keeping ((valueSlot, s.rest.take (t.pos - s.pos)) :: t.kept))) s = none := by
    intro n hn hne
    refine read_word_none fun r' hr' => read_call_none (Bool.eq_false_iff.mpr fun hopen => ?_)
    have hgate := gate_of_afterBlanks hopen fun _ r hr => by simpa using hr
    obtain ⟨heq, -⟩ := eq_of_gate (no_gate (hplain n hn)) (no_gate (hplain name hmem)) hgate
      (fun c hc => by cases hc; decide) (hr'.symm.trans hs)
    exact hne (String.toList_inj.mp heq)
  clear hplain hk
  -- the names before the right one fail at the parenthesis, so the order does not matter
  induction names with
  | nil => cases hmem
  | cons n names ih =>
    cases names with
    | nil =>
      rw [List.mem_singleton.mp hmem] at hname
      exact hname
    | cons m names =>
      show read (either (word n) (oneOf (word m :: names.map word))) _ s = some x
      by_cases hn : n = name
      · exact read_either_left (hn ▸ hname)
      · rw [read_either, hother n (by simp) hn]
        exact ih ((List.mem_cons.mp hmem).resolve_left (Ne.symm hn))
          fun n' hn' => hother n' (by simp [List.mem_cons.mp hn'])

theorem read_wasmSync (hfresh : Fresh s) (kind : { name // name ∈ wasmConstructors })
    (hs : s.rest = "new".toList ++ ' ' :: (("WebAssembly." ++ kind.1).toList ++ '(' :: r)) :
    wasmSync.read some s = some ((s.past ("new".toList ++ ' ' ::
      (("WebAssembly." ++ kind.1).toList ++ ['('])) r).keeping
        ((valueSlot, kind.1.toList) :: s.kept)) := by
  show read free (read (word "new") (read gap (read (word "WebAssembly.")
    (read (oneName wasmConstructors) (read blanks (read (word "(") some)))))) s = _
  rw [String.toList_append, List.append_assoc] at hs
  rw [read_free hfresh, read_word hs]
  refine read_space (by decide) rfl (fun c hc => by cases hc; decide) ?_
  rw [read_word rfl]
  refine read_oneName_paren kind.2 (by decide) rfl ?_
  rw [String.toList_append]
  simp

theorem read_bufferCall (hfresh : Fresh s) (method : { name // name ∈ bufferMethods })
    (hs : s.rest = ("Buffer." ++ method.1).toList ++ '(' :: r) :
    bufferCall.read some s = some ((s.past (("Buffer." ++ method.1).toList ++ ['(']) r).keeping
      ((valueSlot, method.1.toList) :: s.kept)) := by
  show read free (read (word "Buffer.") (read (oneName bufferMethods) (read blanks
    (read (word "(") some)))) s = _
  rw [String.toList_append, List.append_assoc] at hs
  rw [read_free hfresh, read_word hs]
  refine read_oneName_paren method.2 (by decide) rfl ?_
  rw [String.toList_append]
  simp

structure ReadAsNumber (literal : List Char) : Prop where
  start : ∃ d ds, literal = d :: ds ∧ isBlank d = false
  reads : ∀ {β : Type} {k : Spot → Option β} {s : Spot} {x : β} {r : List Char},
    s.rest = literal ++ ')' :: r → k (s.past literal (')' :: r)) = some x → read number k s = some x

section Based

variable {mark digit : Char → Bool} {m : Char}

theorem fails_based_mark (hm : mark m = false) (hs : s.rest = '0' :: m :: r) :
    Fails (based mark digit) s := by
  intro β k
  show read (word "0") (read (one mark) _) s = none
  rw [read_word (w := "0") hs]
  apply fails_one
  intro c hc
  cases hc
  exact hm

theorem read_based {ds : List Char} (hm : mark m = true) (hds : ∀ c ∈ ds, digit c = true) (hne : ds ≠ [])
    (hclose : digit ')' = false) (hs : s.rest = '0' :: m :: (ds ++ ')' :: r))
    (hk : k (s.past ('0' :: m :: ds) (')' :: r)) = some x) : read (based mark digit) k s = some x := by
  show read (word "0") (read (one mark) (read (run digit 1) k)) s = some x
  rw [read_word (w := "0") hs, read_one rfl hm]
  refine read_run rfl hds ?_ (List.length_pos_iff.mpr hne) ?_
  · intro c hc
    cases hc
    exact hclose
  · rw [← hk, Spot.past_past, Spot.past_past]
    rfl

end Based

theorem fails_based {mark digit : Char → Bool} {d : Char} {ds : List Char}
    (hmark : ∀ c ∈ ds ++ [')'], mark c = false) (hs : s.rest = d :: (ds ++ ')' :: r)) :
    Fails (based mark digit) s := by
  by_cases hd : d = '0'
  · subst hd
    cases ds with
    | nil => exact fails_based_mark (hmark ')' (by simp)) hs
    | cons c ds => exact fails_based_mark (hmark c (by simp)) hs
  · refine fails_seq (fails_word_of_head (c := '0') rfl ?_)
    simpa [hs] using hd

theorem digit_not_base {c : Char} (h : c.isDigit = true) : c ∉ ['x', 'X', 'o', 'O', 'b', 'B'] :=
  ascii_forall (P := fun c => c.isDigit = true → c ∉ ['x', 'X', 'o', 'O', 'b', 'B']) (by decide)
    (alphanum_ascii (by simp [Char.isAlphanum, h])) h

theorem readAsNumber_decimal {d : Char} {ds : List Char} (hd : d.isDigit = true)
    (hds : ∀ c ∈ ds, c.isDigit = true ∨ c = '_') : ReadAsNumber (d :: ds) := by
  refine ⟨⟨d, ds, rfl, (Bool.or_eq_false_iff.mp (digit_class hd).1).1⟩, ?_⟩
  intro β k s x r hs hk
  have hplain : ∀ c ∈ ds ++ [')'], c ∉ ['x', 'X', 'o', 'O', 'b', 'B'] := by
    simp only [List.forall_mem_append, List.forall_mem_singleton]
    refine ⟨fun c hc => ?_, by decide⟩
    rcases hds c hc with hdigit | rfl
    · exact digit_not_base hdigit
    · decide
  have hbased : ∀ (a b : Char) digit, (∀ c, c ∉ ['x', 'X', 'o', 'O', 'b', 'B'] → c ≠ a ∧ c ≠ b) →
      Fails (based (fun c => c == a || c == b) digit) s := by
    intro a b digit hmark
    refine fails_based (fun c hc => ?_) hs
    simpa using hmark c (hplain c hc)
  show read (either (based _ _) (either (based _ _) (either (based _ _) _))) k s = some x
  rw [read_either_right (hbased _ _ _ (by simp +contextual)), read_either_right (hbased _ _ _ (by simp +contextual)),
    read_either_right (hbased _ _ _ (by simp +contextual))]
  refine read_either_left ?_
  show read (one isDigit) (read (run _ 0) (read (optional _) (read (optional _) k))) s = some x
  rw [read_one hs (digit_class hd).2]
  refine read_run rfl (fun c hc => ?_) (fun c hc => by cases hc; decide) (Nat.zero_le _) ?_
  · rcases hds c hc with hdigit | rfl
    · simp [(digit_class hdigit).2]
    · decide
  refine (read_optional_none (fails_seq (fails_word_of_head (c := '.') rfl (by simp)))).trans ?_
  refine (read_optional_none (fails_seq (fails_one fun c hc => by cases hc; decide))).trans ?_
  rw [← hk, Spot.past_past]
  rfl

theorem Decimal.readAsNumber (delay : Decimal) : ReadAsNumber delay.digits := by
  obtain ⟨d, ds, hds⟩ := List.exists_cons_of_ne_nil delay.nonempty
  rw [hds]
  apply readAsNumber_decimal
  · exact delay.plain d (by simp [hds])
  · exact fun c hc => .inl (delay.plain c (by simp [hds, hc]))

theorem read_keep_number {slot : Nat} {literal : List Char} (h : ReadAsNumber literal)
    (hs : s.rest = literal ++ ')' :: r)
    (hk : k ((s.past literal (')' :: r)).keeping ((slot, literal) :: s.kept)) = some x) :
    read (keep slot number) k s = some x := by
  rw [read_keep]
  refine h.reads hs ?_
  rw [← hk, hs]
  simp

theorem read_timer {callback literal : List Char} (hfresh : Fresh s)
    (hcallback : ∀ c ∈ callback, c ∉ [',', '(', ')']) (hliteral : ReadAsNumber literal)
    (name : { name // name ∈ timerNames })
    (hs : s.rest = name.1.toList ++ '(' :: (callback ++ ',' :: ' ' :: (literal ++ ')' :: r))) :
    timer.read some s = some ((s.past (name.1.toList ++ '(' :: (callback ++ ',' :: ' ' ::
      (literal ++ [')']))) r).keeping
        ((delaySlot, literal) :: (valueSlot, name.1.toList) :: s.kept)) := by
  show read free (read (oneName timerNames) (read blanks (read (word "(") (read (run _ 0)
    (read (many _) (read (word ",") (read blanks (read (keep delaySlot number) (read blanks
      (read (one _) some)))))))))) s = _
  rw [read_free hfresh]
  refine read_oneName_paren name.2 (by decide) hs ?_
  refine read_run rfl (fun c hc => ?_) (fun c hc => by cases hc; decide) (Nat.zero_le _) ?_
  · simpa [and_assoc] using hcallback c hc
  refine (read_many_none (fails_seq (fails_word_of_head (c := '(') rfl (by simp)))).trans ?_
  rw [read_word (w := ",") rfl]
  refine read_space (by decide) rfl (fun c hc => ?_) ?_
  · obtain ⟨d, ds, rfl, hd⟩ := hliteral.start
    cases hc
    exact hd
  refine read_keep_number hliteral rfl (read_no_blanks (fun c hc => by cases hc; decide) ?_)
  rw [read_one rfl (by decide)]
  simp

theorem ident_no_mark (name : Ident) : ∀ c ∈ name.chars, c ∉ [',', '(', ')'] := by
  intro c hc
  obtain ⟨-, hgate, hcomma, hclose, -⟩ := ident_class (name.plain c hc)
  have hparen : c ≠ '(' := by
    rintro rfl
    exact absurd hgate (by decide)
  simp [hcomma, hparen, hclose]

theorem ident_head {name : Ident} {y : List Char} :
    ∀ c, (name.chars ++ y).head? = some c → isIdentChar c = true := by
  intro c hc
  rw [List.head?_append_of_ne_nil _ name.nonempty] at hc
  exact name.plain c (List.mem_of_head? hc)

theorem ident_not_blank {c : Char} (h : isIdentChar c = true) : isBlank c = false :=
  (Bool.or_eq_false_iff.mp (ident_class h).2.1).1

theorem read_ident {name : Ident} (hs : s.rest = name.chars ++ ' ' :: r)
    (hk : k (s.past name.chars (' ' :: r)) = some x) : read InText.name k s = some x :=
  read_run hs (fun c hc => (ident_class (name.plain c hc)).1)
    (fun c hc => by cases hc; decide) (List.length_pos_iff.mpr name.nonempty) hk

theorem read_from (hs : s.rest = ' ' :: ("from".toList ++ ' ' :: r))
    (hr : ∀ c, r.head? = some c → isBlank c = false)
    (hk : k (s.past (' ' :: ("from".toList ++ [' '])) r) = some x) :
    read blanks (read (word "from") (read blanks k)) s = some x := by
  refine read_space (by decide) hs (fun c hc => by cases hc; decide) ?_
  rw [read_word rfl]
  refine read_space (by decide) rfl hr ?_
  rw [← hk, Spot.past_past, Spot.past_past]
  rfl

theorem fails_default {name : Ident} (hs : s.rest = name.chars ++ ' ' :: ("from".toList ++ r)) :
    Fails (all [InText.name, blanks, word ",", blanks]) s := by
  intro β k
  refine read_run_none hs (fun c hc => (ident_class (name.plain c hc)).1)
    (fun c hc => by cases hc; decide) fun u v huv _ => ?_
  refine read_blanks_word_none (d := ',') rfl (by decide) ?_
  cases v with
  | nil =>
    refine (afterBlanks_space (by decide) ?_).trans ?_
    · intro c hc
      cases hc
      decide
    · rfl
  | cons d v =>
    have hd : isIdentChar d = true := name.plain d (by simp [huv])
    refine (afterBlanks_zero ?_).trans ?_
    · intro c hc
      cases hc
      exact ident_not_blank hd
    · simpa using (ident_class hd).2.2.1

theorem fails_type (taken : Taken) (source : Quoted)
    (hs : s.rest = taken.write (source.text ++ r)) : Fails (all [word "type", gap]) s := by
  cases taken with
  | single name =>
    intro β k
    refine read_word_none fun r' hr' => fails_run (fun c hc => ?_) _ _
    refine Bool.eq_false_iff.mpr fun hblank => name.ne_type ?_
    obtain ⟨r'', hr''⟩ := List.head?_eq_some_iff.mp hc
    have hgate : ∃ d y, r' = d :: y ∧ isGate d = true := ⟨c, r'', hr'', by simp [isGate, hblank]⟩
    exact (eq_of_gate (no_gate (by decide)) name.no_gate hgate (fun d hd => by cases hd; decide)
      (hr'.symm.trans hs)).1.symm
  | whole name => exact fails_seq (fails_word_of_head (c := 't') rfl (by simp [hs, Taken.write]))
  | listed first more =>
    exact fails_seq (fails_word_of_head (c := 't') rfl (by simp [hs, Taken.write]))
  | nothing =>
    refine fails_seq (fails_word_of_head (c := 't') rfl ?_)
    rcases source.quote_cases with h | h <;> simp [hs, Taken.write, Quoted.text, h]

theorem more_unclosed (more : List Ident) : ∀ c ∈ writeMore more [' '], c ≠ '\x7d' := by
  induction more with
  | nil =>
    intro c hc
    rw [List.mem_singleton.mp hc]
    decide
  | cons name more ih =>
    intro c hc
    simp only [writeMore, List.mem_cons, List.mem_append] at hc
    rcases hc with rfl | rfl | hc | hc
    · decide
    · decide
    · exact (ident_class (name.plain c hc)).2.2.2.2
    · exact ih c hc

theorem read_taken (taken : Taken) {source : Quoted} (hs : s.rest = taken.write (source.text ++ r))
    (hk : k (s.past (taken.write []) (source.text ++ r)) = some x) :
    read (optional clause) k s = some x := by
  have hmark : ∀ d, s.rest.head? = some d → isNameChar d = false →
      Fails InText.name s := by
    intro d hd hname
    refine fails_run fun c hc => ?_
    rw [hd] at hc
    cases hc
    exact hname
  cases taken with
  | single name =>
    refine read_either_left ((read_optional_none (fails_default hs)).trans ?_)
    refine read_either_left (read_ident hs (read_from rfl quote_not_blank ?_))
    rw [← hk, Spot.past_past]
    simp [Taken.write]
  | whole name =>
    have hstar := hmark '*' (by rw [hs]; rfl) (by decide)
    refine read_either_left ((read_optional_none (fails_seq hstar)).trans ?_)
    refine (read_either_right hstar).trans (read_either_left ?_)
    show read (word "*") (read blanks (read (word "as") (read gap (read InText.name _)))) s = some x
    rw [read_word (w := "*") hs]
    refine read_space (by decide) rfl (fun c hc => by cases hc; decide) ?_
    rw [read_word rfl]
    refine read_space (by decide) rfl (fun c hc => ident_not_blank (ident_head c hc)) ?_
    refine read_ident rfl (read_from rfl quote_not_blank ?_)
    rw [← hk]
    simp [Taken.write]
  | listed first more =>
    have hbrace := hmark '\x7b' (by rw [hs]; rfl) (by decide)
    have hstar : Fails (all [word "*", blanks, word "as", gap, InText.name]) s :=
      fails_seq (fails_word_of_head (c := '*') rfl (by rw [hs]; simp [Taken.write]))
    refine read_either_left ((read_optional_none (fails_seq hbrace)).trans ?_)
    refine (read_either_right hbrace).trans ((read_either_right hstar).trans ?_)
    show read (word "\x7b") (read (run (· != '\x7d') 0) (read (word "\x7d") _)) s = some x
    rw [read_word (w := "\x7b") hs]
    have hsplit : ∀ y, ' ' :: (first.chars ++ writeMore more (' ' :: '\x7d' :: y)) =
        (' ' :: (first.chars ++ writeMore more [' '])) ++ '\x7d' :: y := by
      intro y
      simp [← writeMore_append]
    refine read_run (hsplit _) (fun c hc => ?_) (fun c hc => by cases hc; decide) (Nat.zero_le _) ?_
    · simp only [List.mem_cons, List.mem_append] at hc
      rcases hc with rfl | hc | hc
      · decide
      · simpa using (ident_class (first.plain c hc)).2.2.2.2
      · simpa using more_unclosed more c hc
    rw [read_word (w := "\x7d") rfl]
    refine read_from rfl quote_not_blank ?_
    rw [← hk]
    simp [Taken.write, ← writeMore_append]
  | nothing =>
    have hquote : s.rest.head? = some source.quote := by rw [hs]; rfl
    have hnil : s.past (Taken.write .nothing []) (source.text ++ r) = s := Spot.past_nil s _ hs
    rw [hnil] at hk
    refine (read_optional_none ?_).trans hk
    rcases source.quote_cases with h | h <;> rw [h] at hquote
    · exact fails_clause (fun c hc => by rw [hquote] at hc; cases hc; decide)
        (by simp [hquote]) (by simp [hquote])
    · exact fails_clause (fun c hc => by rw [hquote] at hc; cases hc; decide)
        (by simp [hquote]) (by simp [hquote])

theorem read_staticImport (hfresh : Fresh s) (taken : Taken) {source : Quoted}
    (hs : s.rest = "import".toList ++ ' ' :: taken.write (source.text ++ r)) :
    staticImport.read some s = some ((s.past ("import".toList ++ ' ' ::
      (taken.write [] ++ source.text)) r).keeping ((valueSlot, source.chars) :: s.kept)) := by
  show read (edge isWord) (read (word "import") (read gap (read (optional (all [word "type", gap]))
    (read (optional clause) (read specifier some))))) s = _
  rw [read_word_edge hfresh (by rw [hs]; rfl), read_word hs]
  refine read_space (by decide) rfl
    (fun c hc => (Bool.or_eq_false_iff.mp (taken_head taken source r c hc)).1) ?_
  refine (read_optional_none (fails_type taken source rfl)).trans ?_
  refine read_taken taken rfl (read_specifier rfl ?_)
  simp

variable (hz : ∀ d, z.head? = some d → isGate d = true)
include hz

theorem covers_use (use : Use) (hfresh : Fresh s) (hkept : s.kept = []) (hs : s.rest = use.write z) :
    Covers (pattern use.construct) s [(s.pos, use.kept)] z := by
  have hargument : Skips (pattern use.construct) (use.argument ++ ')' :: ';' :: z) z :=
    skips_argument hz use
  have hlast : Skips (pattern use.construct) (';' :: z) z :=
    skips_last (a := []) (fun d hd => by cases hd) hz
  have hhit : ∀ a y, (pattern use.construct).read some s =
      some ((s.past a y).keeping (use.kept ++ s.kept)) → s.rest = a ++ y → a ≠ [] →
        Skips (pattern use.construct) y z → Covers (pattern use.construct) s [(s.pos, use.kept)] z := by
    intro a y hread ha hne hskip
    rw [hkept, List.append_nil] at hread
    exact (covers_hit ha hne hkept hread).skips hskip
  rw [Use.write] at hs
  cases use with
  | require source =>
    refine hhit _ _ (read_callWith hfresh hs) ?_ (by simp) hlast
    simp [hs, Use.argument, Use.words, spaced]
  | load source =>
    refine hhit _ _ (read_callWith hfresh hs) ?_ (by simp) hlast
    simp [hs, Use.argument, Use.words, spaced]
  | evaluate code =>
    refine hhit _ _ (read_evalCall hfresh hs) ?_ (by simp) hargument
    simp [hs, Use.words, spaced]
  | function code =>
    refine hhit _ _ (read_newFunction hfresh hs) ?_ (by simp)
      ((skips_gate (pattern_opens _) (by decide)).trans hargument)
    simp [hs, Use.argument, Use.words, spaced]
  | wasm kind code =>
    refine hhit _ _ (read_wasmSync hfresh kind hs) ?_ (by simp) hargument
    simp [hs, Use.words, spaced]
  | buffer method content =>
    refine hhit _ _ (read_bufferCall hfresh method hs) ?_ (by simp) hargument
    simp [hs, Use.words, spaced]
  | timer name callback delay =>
    have hs' : s.rest = name.1.toList ++ '(' :: (callback.chars ++ ',' :: ' ' ::
        (delay.digits ++ ')' :: ';' :: z)) := by simp [hs, Use.argument, Use.words, spaced]
    refine hhit _ _ (read_timer hfresh (ident_no_mark callback) delay.readAsNumber name hs') ?_ (by simp)
      hlast
    simp [hs']

theorem covers_imports (taken : Taken) (source : Quoted) (hfresh : Fresh s) (hkept : s.kept = [])
    (hs : s.rest = (Line.imports taken source).write z) :
    Covers (pattern (.reference .staticImport)) s [(s.pos, [(valueSlot, source.chars)])] z := by
  rw [Line.write_imports] at hs
  have hread := read_staticImport hfresh taken hs
  have hlast : Skips (pattern (.reference .staticImport)) (';' :: z) z :=
    skips_last (a := []) (fun d hd => by cases hd) hz
  rw [hkept] at hread
  refine (covers_hit ?_ (by simp) hkept hread).skips hlast
  simp [hs, ← Taken.write_append]

def Line.marks (c : Construct) (pos : Nat) (l : Line) : List (Nat × List (Nat × List Char)) :=
  if l.construct = c then [(pos + l.lead, l.kept)] else []

theorem covers_line (c : Construct) (l : Line) (hfresh : Fresh s) (hkept : s.kept = [])
    (hs : s.rest = l.write z) : Covers (pattern c) s (l.marks c s.pos) z := by
  rw [Line.marks]
  cases l with
  | imports taken source =>
    split
    · next hc =>
      subst hc
      exact covers_imports hz taken source hfresh hkept hs
    · next hc => exact skips_imports (Ne.symm hc) hz taken source s hs
  | statement binding use =>
    have hbinding := skips_binding (c := c) binding s hs
    split
    · next hc =>
      subst hc
      refine hbinding.trans fun a ha => ?_
      have ha' : a = writeBinding binding [] := by
        rw [show s.rest = writeBinding binding ([] ++ use.write z) from hs, writeBinding_append] at ha
        exact (List.append_cancel_right ha).symm
      have hcover := covers_use hz use (s := s.past a (use.write z)) ?_ hkept rfl
      · have hpos : (s.past a (use.write z)).pos = s.pos + (Line.statement binding use).lead := by
          rw [Spot.past_pos, ha', writeBinding_length binding use]
        rwa [hpos] at hcover
      · subst ha'
        cases binding with
        | none => exact hfresh
        | some name =>
          rw [writeBinding_some]
          exact .inr (.inl (by simp [List.getLast?_cons]))
    · next hc => exact hbinding.skips (skips_use hz use (Ne.symm hc))

end EdgeAudit.Listing
