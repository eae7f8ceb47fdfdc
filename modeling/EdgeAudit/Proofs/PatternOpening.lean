import EdgeAudit.Construct.InText
import EdgeAudit.Proofs.PatternReading

namespace EdgeAudit.InText

open Text Pattern

def isGate (c : Char) : Bool :=
  isBlank c || c == '('

def gateless (w : List Char) : Bool :=
  w.all fun c => !isGate c

theorem no_gate {w : List Char} (h : gateless w = true) : ∀ c ∈ w, isGate c = false := by
  simpa [gateless] using h

theorem ascii_forall {P : Char → Prop} (h : ∀ i : Fin 128, P (Char.ofNat i)) {c : Char}
    (hc : c.toNat < 128) : P c := by
  have hi := h ⟨c.toNat, hc⟩
  rwa [Char.ofNat_toNat] at hi

def afterBlanks (least : Nat) (next : List Char → Bool) (z : List Char) : Bool :=
  decide (least ≤ (z.takeWhile isBlank).length) && next (z.dropWhile isBlank)

section Blanks

variable {least : Nat} {next : List Char → Bool} {z : List Char}

theorem afterBlanks_zero (hz : ∀ c, z.head? = some c → isBlank c = false) :
    afterBlanks 0 next z = next z := by
  cases z with
  | nil => simp [afterBlanks]
  | cons c z => simp [afterBlanks, hz c rfl]

theorem afterBlanks_space (hle : least ≤ 1) (hz : ∀ c, z.head? = some c → isBlank c = false) :
    afterBlanks least next (' ' :: z) = next z := by
  have hspace : isBlank ' ' = true := by decide
  have htake : z.takeWhile isBlank = [] := by
    cases z with
    | nil => rfl
    | cons c z => simp [hz c rfl]
  have hdrop : z.dropWhile isBlank = z := by
    cases z with
    | nil => rfl
    | cons c z => simp [hz c rfl]
  simp [afterBlanks, hspace, htake, hdrop, hle]

theorem gate_of_afterBlanks (h : afterBlanks least next z = true)
    (hnext : least = 0 → ∀ r, next r = true → r.head? = some '(') :
    ∃ c r, z = c :: r ∧ isGate c = true := by
  simp only [afterBlanks, Bool.and_eq_true, decide_eq_true_eq] at h
  obtain ⟨hle, hn⟩ := h
  cases z with
  | nil =>
    have hzero : least = 0 := by simpa using hle
    have hhead := hnext hzero [] hn
    cases hhead
  | cons c r =>
    refine ⟨c, r, rfl, ?_⟩
    by_cases hc : isBlank c = true
    · simp [isGate, hc]
    · have hzero : least = 0 := by simpa [hc] using hle
      have hhead := hnext hzero _ hn
      simp only [List.dropWhile_cons_of_neg hc, List.head?_cons, Option.some.injEq] at hhead
      rw [hhead]
      decide

end Blanks

variable {β : Type} {k : Spot → Option β} {s : Spot}

theorem read_oneName_none {names : List String} (hne : names ≠ [])
    (h : ∀ name ∈ names, ∀ r kept, s.rest = name.toList ++ r →
      k ((s.past name.toList r).keeping kept) = none) : read (oneName names) k s = none := by
  rw [oneName, read_keep]
  induction names with
  | nil => exact absurd rfl hne
  | cons name names ih =>
    have hname : read (word name) (fun t => k (t.keeping
        ((valueSlot, s.rest.take (t.pos - s.pos)) :: t.kept))) s = none :=
      read_word_none fun r hr => h name (by simp) r _ hr
    cases names with
    | nil => exact hname
    | cons other names =>
      show read (either (word name) (oneOf (word other :: names.map word))) _ s = none
      rw [read_either, hname]
      exact ih (by simp) fun n hn => h n (by simp [List.mem_cons.mp hn])

theorem read_blanks_none {least : Nat} {next : List Char → Bool}
    (hblank : ∀ c r, isBlank c = true → next (c :: r) = false)
    (h : afterBlanks least next s.rest = false) (hk : ∀ t, next t.rest = false → k t = none) :
    read (run isBlank least) k s = none := by
  have hsplit : s.rest = s.rest.takeWhile isBlank ++ s.rest.dropWhile isBlank :=
    List.takeWhile_append_dropWhile.symm
  have htake : ∀ c ∈ s.rest.takeWhile isBlank, isBlank c = true :=
    fun c hc => List.all_eq_true.mp List.all_takeWhile c hc
  refine read_run_none hsplit htake ?_ fun u v huv hle => hk _ ?_
  · intro c hc
    have hnot := List.head?_dropWhile_not isBlank s.rest
    rw [hc] at hnot
    simpa using hnot
  · cases v with
    | nil =>
      simp only [afterBlanks, Bool.and_eq_false_iff, decide_eq_false_iff_not] at h
      exact h.resolve_left (fun hn => hn (hle rfl))
    | cons c v => exact hblank c _ (htake c (by rw [huv]; simp))

theorem fails_word_of_head {w : String} {c : Char} {w' : List Char} (hw : w.toList = c :: w')
    (h : s.rest.head? ≠ some c) : Fails (word w) s := by
  refine fails_word ?_
  rintro ⟨r, hr⟩
  rw [hw] at hr
  exact h (by rw [← hr]; rfl)

theorem read_blanks_word_none {w : String} {d : Char} {w' : List Char} (hw : w.toList = d :: w')
    (hd : isBlank d = false) (h : afterBlanks 0 (fun r => r.head? == some d) s.rest = false) :
    read blanks (read (word w) k) s = none := by
  refine read_blanks_none (fun c r hc => ?_) h fun t ht => fails_word_of_head hw ?_ _ _
  · have hne : c ≠ d := by
      rintro rfl
      rw [hd] at hc
      cases hc
    simpa using hne
  · simpa using ht

theorem opensWith_of_none {p : Pattern} {o : Opening isGate}
    (h : ∀ s : Spot, (∀ w ∈ o.words, ∀ z, s.rest = w ++ z → o.follow z = false) →
      p.read some s = none) : p.OpensWith o := by
  intro s hs
  refine Classical.byContradiction fun hno => hs (h s fun w hw z hz => ?_)
  exact Bool.eq_false_iff.mpr fun hf => hno ⟨w, hw, z, hz, hf⟩

def PlainWords (words : List (List Char)) : Prop :=
  ∀ w ∈ words, w ≠ [] ∧ gateless w = true

instance (words : List (List Char)) : Decidable (PlainWords words) :=
  inferInstanceAs (Decidable (∀ w ∈ words, w ≠ [] ∧ gateless w = true))

theorem PlainWords.no_gate {words : List (List Char)} (h : PlainWords words) :
    ∀ w ∈ words, w ≠ [] ∧ ∀ c ∈ w, isGate c = false :=
  fun w hw => ⟨(h w hw).1, InText.no_gate (h w hw).2⟩

def callOpening (words : List (List Char)) (h : PlainWords words) : Opening isGate where
  words := words
  follow := afterBlanks 0 fun r => r.head? == some '('
  words_plain := h.no_gate
  follow_gate _ hz := gate_of_afterBlanks hz fun _ r hr => by simpa using hr

def newOpening (name : String) : Opening isGate where
  words := ["new".toList]
  follow := afterBlanks 1 fun r => name.toList.isPrefixOf r
  words_plain := (show PlainWords ["new".toList] by decide).no_gate
  follow_gate _ hz := gate_of_afterBlanks hz fun h => by cases h

def startsClause (c : Char) : Bool :=
  isNameChar c || c == '*' || c == '\x7b' || c == '\'' || c == '"'

def importOpening : Opening isGate where
  words := ["import".toList]
  follow := afterBlanks 1 fun r => r.head?.any startsClause
  words_plain := (show PlainWords ["import".toList] by decide).no_gate
  follow_gate _ hz := gate_of_afterBlanks hz fun h => by cases h

theorem importOpening_paren {z : List Char} : importOpening.follow ('(' :: z) = false := by
  have hparen : isBlank '(' = false := by decide
  simp [importOpening, afterBlanks, hparen]

section Space

variable {z : List Char} (hz : ∀ c, z.head? = some c → isBlank c = false)
include hz

theorem callOpening_space {words : List (List Char)} {h : PlainWords words} :
    (callOpening words h).follow (' ' :: z) = (z.head? == some '(') := by
  show afterBlanks 0 (fun r => r.head? == some '(') (' ' :: z) = _
  rw [afterBlanks_space (by decide) hz]

theorem newOpening_space {name : String} :
    (newOpening name).follow (' ' :: z) = name.toList.isPrefixOf z := by
  show afterBlanks 1 (fun r => name.toList.isPrefixOf r) (' ' :: z) = _
  rw [afterBlanks_space (by decide) hz]

theorem importOpening_space : importOpening.follow (' ' :: z) = z.head?.any startsClause := by
  show afterBlanks 1 (fun r => r.head?.any startsClause) (' ' :: z) = _
  rw [afterBlanks_space (by decide) hz]

end Space

def pattern : Construct → Pattern
  | .reference link => reference link
  | .evalCall => evalCall
  | .newFunction => newFunction
  | .wasmSync => wasmSync
  | .timer => timer
  | .bufferCall => bufferCall

def opening : Construct → Opening isGate
  | .reference .staticImport => importOpening
  | .reference .require => callOpening ["require".toList] (by decide)
  | .reference .dynamicImport => callOpening ["import".toList] (by decide)
  | .evalCall => callOpening ["eval".toList] (by decide)
  | .newFunction => newOpening "Function"
  | .wasmSync => newOpening "WebAssembly."
  | .timer => callOpening (timerNames.map String.toList) (by decide)
  | .bufferCall => callOpening (bufferMethods.map fun m => "Buffer.".toList ++ m.toList)
      (by decide)

theorem read_call_none (h : afterBlanks 0 (fun r => r.head? == some '(') s.rest = false) :
    read blanks (read (word "(") k) s = none :=
  read_blanks_word_none (d := '(') rfl (by decide) h

theorem callWith_opens (f : String) (h : PlainWords [f.toList]) :
    (callWith f).OpensWith (callOpening [f.toList] h) := by
  refine opensWith_of_none fun s hs => ?_
  refine read_notAfter_none (read_word_none fun r hr => ?_)
  exact read_call_none (hs f.toList (by simp [callOpening]) r hr)

theorem evalCall_opens (h : PlainWords ["eval".toList]) :
    evalCall.OpensWith (callOpening ["eval".toList] h) := by
  refine opensWith_of_none fun s hs => ?_
  refine read_notAfter_none (read_word_none fun r hr => ?_)
  exact read_call_none (hs _ (by simp [callOpening]) r hr)

theorem timer_opens (h : PlainWords (timerNames.map String.toList)) :
    timer.OpensWith (callOpening _ h) := by
  refine opensWith_of_none fun s hs => ?_
  refine read_notAfter_none (read_oneName_none (by decide) fun name hname r kept hr => ?_)
  exact read_call_none (hs name.toList (List.mem_map_of_mem hname) r hr)

theorem bufferCall_opens (h : PlainWords (bufferMethods.map fun m => "Buffer.".toList ++ m.toList)) :
    bufferCall.OpensWith (callOpening _ h) := by
  refine opensWith_of_none fun s hs => ?_
  refine read_notAfter_none (read_word_none fun r hr => ?_)
  refine read_oneName_none (by decide) fun name hname r' kept hr' => ?_
  refine read_call_none (hs _ (List.mem_map_of_mem hname) r' ?_)
  rw [List.append_assoc, ← hr']
  exact hr

theorem new_opens {name : String} {p : Pattern} {d : Char} {w : List Char}
    (hname : name.toList = d :: w) (hd : isBlank d = false) :
    (all [free, word "new", gap, word name, p]).OpensWith (newOpening name) := by
  refine opensWith_of_none fun s hs => ?_
  refine read_notAfter_none (read_word_none fun r hr => ?_)
  refine read_blanks_none ?_ (hs _ (by simp [newOpening]) r hr) fun t ht => ?_
  · intro c r hc
    have hne : d ≠ c := by
      rintro rfl
      rw [hd] at hc
      cases hc
    simp [hname, List.isPrefixOf, hne]
  · refine fails_word ?_ _ _
    rw [← List.isPrefixOf_iff_prefix, ht]
    exact Bool.false_ne_true

theorem fails_specifier (hs : s.rest.head? ≠ some '\'') (hd : s.rest.head? ≠ some '"') :
    Fails specifier s :=
  fails_either (fails_seq (fails_word_of_head rfl hs)) (fails_seq (fails_word_of_head rfl hd))

theorem fails_clause (hname : ∀ c, s.rest.head? = some c → isNameChar c = false)
    (hstar : s.rest.head? ≠ some '*') (hbrace : s.rest.head? ≠ some '\x7b') : Fails clause s := by
  refine fails_optional_seq (fails_seq (fails_run hname)) (fails_seq ?_)
  refine fails_either (fails_run hname) (fails_either ?_ ?_)
  · exact fails_seq (fails_word_of_head rfl hstar)
  · exact fails_seq (fails_word_of_head rfl hbrace)

theorem startsClause_blank {c : Char} (h : isBlank c = true) : startsClause c = false := by
  by_cases hascii : c.toNat < 128
  · exact ascii_forall (P := fun c => isBlank c = true → startsClause c = false) (by decide +kernel)
      hascii h
  · have hapart : (blankRanges.all fun r => wordRanges.all fun q =>
        Nat.blt r.2 q.1 || Nat.blt q.2 r.1) = true := by decide +kernel
    have hword : inRanges wordRanges c = false := by
      refine Bool.eq_false_iff.mpr fun hin => ?_
      obtain ⟨r, hr, hcr⟩ := List.any_eq_true.mp h
      obtain ⟨q, hq, hcq⟩ := List.any_eq_true.mp hin
      simp only [Bool.and_eq_true, decide_eq_true_eq] at hcr hcq
      have hrq := List.all_eq_true.mp (List.all_eq_true.mp hapart r hr) q hq
      simp only [Bool.or_eq_true, Nat.blt_eq] at hrq
      omega
    have hne : ∀ d : Char, d.toNat < 128 → c ≠ d := by
      rintro d hd rfl
      exact hascii hd
    simp [startsClause, isNameChar, isWord, hascii, hword, hne '$' (by decide), hne '*' (by decide),
      hne '\x7b' (by decide), hne '\'' (by decide), hne '"' (by decide)]

theorem staticImport_opens : staticImport.OpensWith importOpening := by
  refine opensWith_of_none fun s hs => ?_
  refine read_edge_none (read_word_none fun r hr => ?_)
  have hfollow : afterBlanks 1 (fun r => r.head?.any startsClause) r = false :=
    hs _ (by simp [importOpening]) r hr
  refine read_blanks_none (fun c r hc => ?_) hfollow fun t ht => ?_
  · simpa using startsClause_blank hc
  · have hclass : ∀ c, t.rest.head? = some c → startsClause c = false := by
      intro c hc
      simpa [hc] using ht
    have hne : ∀ c, startsClause c = true → t.rest.head? ≠ some c := by
      intro c hc heq
      rw [hclass c heq] at hc
      cases hc
    refine fails_optional_seq (fails_seq (fails_word_of_head rfl (hne 't' (by decide)))) ?_ _ _
    refine fails_optional_seq (fails_clause ?_ (hne '*' (by decide))
      (hne '\x7b' (by decide))) ?_
    · intro c hc
      have h := hclass c hc
      simp only [startsClause, Bool.or_eq_false_iff] at h
      exact h.1.1.1.1
    · exact fails_specifier (hne '\'' (by decide)) (hne '"' (by decide))

theorem pattern_opens (c : Construct) : (pattern c).OpensWith (opening c) := by
  match c with
  | .reference .staticImport => exact staticImport_opens
  | .reference .require => exact callWith_opens "require" (by decide)
  | .reference .dynamicImport => exact callWith_opens "import" (by decide)
  | .evalCall => exact evalCall_opens (by decide)
  | .newFunction =>
    exact new_opens (p := all [notBefore (one isNameChar), notBefore (seq blanks (word "."))])
      rfl (by decide)
  | .wasmSync =>
    exact new_opens (p := all [oneName wasmConstructors, blanks, word "("]) rfl (by decide)
  | .timer => exact timer_opens (by decide)
  | .bufferCall => exact bufferCall_opens (by decide)

end EdgeAudit.InText
