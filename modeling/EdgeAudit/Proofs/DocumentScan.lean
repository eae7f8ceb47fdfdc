import Mathlib
import EdgeAudit.Proofs.NumberBounds
import EdgeAudit.Yaml.Node

/-!
What can stop the reading of a document before its values are looked at. A text is malformed, unless it
holds a code that no character has or a version number with too many digits (`Unreadable`). Every reader
passes characters from the front (`Within`), so such a place is a suffix of the text. A token that opens a
collection comes from one of a few characters (`openers`), so these bound how deep collections can stand
inside each other.
-/

namespace EdgeAudit.Yaml

open Number Text

/-- From a state with one property a run comes to a value and a state with another, or to an error with
a third. -/
def Runs {σ α : Type} (P : σ → Prop) (m : StateT σ (Except YamlError) α) (Q : α → σ → Prop)
    (E : YamlError → Prop) : Prop :=
  ∀ s, P s → (∀ a s', m s = .ok (a, s') → Q a s') ∧ ∀ e, m s = .error e → E e

section Runs

variable {σ α β : Type} {P P' : σ → Prop} {Q Q' : α → σ → Prop} {R : β → σ → Prop}
  {E : YamlError → Prop} {m : StateT σ (Except YamlError) α}
  {k : α → StateT σ (Except YamlError) β}

theorem Runs.bind (hm : Runs P m Q E) (hk : ∀ a, Runs (Q a) (k a) R E) : Runs P (m >>= k) R E := by
  intro s hs
  have hrun : (m >>= k) s = (m s >>= fun r => k r.1 r.2) := rfl
  obtain ⟨hok, herror⟩ := hm s hs
  rw [hrun]
  cases hms : m s with
  | error e =>
    refine ⟨fun a s' h => (by cases h), fun e' h => ?_⟩
    cases h
    exact herror e hms
  | ok r => exact hk r.1 r.2 (hok r.1 r.2 hms)

theorem Runs.weaken (hm : Runs P m Q E) (hP : ∀ s, P' s → P s) (hQ : ∀ a s, Q a s → Q' a s) :
    Runs P' m Q' E := by
  intro s hs
  obtain ⟨hok, herror⟩ := hm s (hP s hs)
  exact ⟨fun a s' h => hQ a s' (hok a s' h), herror⟩

theorem runs_pure {a : α} (h : ∀ s, P s → Q a s) : Runs P (pure a) Q E := by
  intro s hs
  refine ⟨fun a' s' heq => ?_, fun e heq => by cases heq⟩
  cases heq
  exact h s hs

theorem runs_throw {e : YamlError} (h : E e) : Runs P (throw e) Q E := by
  intro s hs
  refine ⟨fun a s' heq => (by cases heq), fun e' heq => ?_⟩
  cases heq
  exact h

theorem runs_get {Q : σ → σ → Prop} (h : ∀ s, P s → Q s s) : Runs P get Q E := by
  intro s hs
  refine ⟨fun a s' heq => ?_, fun e heq => by cases heq⟩
  cases heq
  exact h s hs

theorem runs_get_bind {k : σ → StateT σ (Except YamlError) β}
    (h : ∀ a, Runs (fun s => a = s ∧ P s) (k a) R E) : Runs P (get >>= k) R E := by
  have hget : Runs P get (fun a s => a = s ∧ P s) E := runs_get fun _ hs => ⟨rfl, hs⟩
  exact hget.bind h

theorem runs_get_with {k : σ → StateT σ (Except YamlError) β} (h : ∀ a, P a → Runs P (k a) R E) :
    Runs P (get >>= k) R E := by
  refine runs_get_bind fun a => ?_
  rintro s ⟨rfl, hs⟩
  exact h a hs a hs

theorem runs_set {Q : PUnit → σ → Prop} {s : σ} (h : Q ⟨⟩ s) : Runs P (set s) Q E := by
  intro s' hs
  refine ⟨fun a s' heq => ?_, fun e heq => by cases heq⟩
  cases heq
  exact h

theorem runs_modify {Q : PUnit → σ → Prop} {f : σ → σ} (h : ∀ s, P s → Q ⟨⟩ (f s)) :
    Runs P (modify f) Q E := by
  intro s hs
  refine ⟨fun a s' heq => ?_, fun e heq => by cases heq⟩
  cases heq
  exact h s hs

theorem runs_ite {c : Prop} [Decidable c] {m' : StateT σ (Except YamlError) α}
    (h : c → Runs P m Q E) (h' : ¬ c → Runs P m' Q E) : Runs P (if c then m else m') Q E := by
  split
  · exact h ‹_›
  · exact h' ‹_›

def Keeps (I : σ → Prop) (E : YamlError → Prop) (m : StateT σ (Except YamlError) α) : Prop :=
  Runs I m (fun _ => I) E

variable {I : σ → Prop}

theorem Keeps.bind (hm : Keeps I E m) (hk : ∀ a, Keeps I E (k a)) : Keeps I E (m >>= k) :=
  Runs.bind hm hk

theorem keeps_pure {a : α} : Keeps I E (pure a) :=
  runs_pure fun _ hs => hs

theorem keeps_get : Keeps I E get :=
  runs_get fun _ hs => hs

theorem keeps_throw {e : YamlError} (h : E e) : Keeps I E (throw e : StateT σ (Except YamlError) α) :=
  runs_throw h

theorem keeps_modify {f : σ → σ} (h : ∀ s, I s → I (f s)) : Keeps I E (modify f) :=
  runs_modify h

theorem keeps_get_bind {k : σ → StateT σ (Except YamlError) β} (h : ∀ s, I s → Keeps I E (k s)) :
    Keeps I E (get >>= k) :=
  runs_get_with h

theorem keeps_ite {c : Prop} [Decidable c] {m' : StateT σ (Except YamlError) α}
    (h : Keeps I E m) (h' : Keeps I E m') : Keeps I E (if c then m else m') :=
  runs_ite (fun _ => h) fun _ => h'

theorem keeps_stop {c : Prop} [Decidable c] {stop : StateT σ (Except YamlError) PUnit}
    {k : PUnit → StateT σ (Except YamlError) α} (h : Keeps I E stop) (hk : ∀ u, Keeps I E (k u)) :
    Keeps I E (if c then stop >>= k else k ⟨⟩) :=
  keeps_ite (h.bind hk) (hk _)

end Runs

/-- What is written at the front cannot be read, and not because the text is malformed: a character code
beyond the last one, or a number of a version with more digits than are read. -/
inductive Unreadable : List Char → YamlError → Prop
  | code {digits : List Char} {code : Nat} (rest : List Char) (hlength : digits.length = 8)
      (hcode : digitsValue? 16 hexValue? digits = some code) (hrange : 0x110000 ≤ code) :
      Unreadable (['\\', 'U'] ++ digits ++ rest)
        (if 0x80000000 ≤ code then .outOfRange else .noSuchValue "chr() arg not in range(0x110000)")
  | version {before digits : List Char} (rest : List Char)
      (hbefore : ∀ c ∈ before, c = ' ' ∨ c = '.' ∨ c.isDigit = true)
      (hdigits : ∀ c ∈ digits, c.isDigit = true) (hlong : maxWholeDigits < digits.length) :
      Unreadable ("%YAML".toList ++ before ++ digits ++ rest)
        (.noSuchValue (tooManyDigitsText digits.length))

def Excused (text : List Char) (e : YamlError) : Prop :=
  e = .malformed ∨ ∃ s, s <:+ text ∧ Unreadable s e

def After (text before : List Char) (c : Cursor) : Prop :=
  before ++ c.rest <:+ text

def Within (text : List Char) (c : Cursor) : Prop :=
  c.rest <:+ text

theorem After.within {text before : List Char} {c : Cursor} (h : After text before c) : Within text c :=
  (List.suffix_append before c.rest).trans h

theorem excused_malformed {text : List Char} : Excused text .malformed :=
  .inl rfl

theorem Excused.mono {text rest : List Char} {e : YamlError} (h : Excused rest e) (hrest : rest <:+ text) :
    Excused text e :=
  h.imp_right fun ⟨s, hs, hunreadable⟩ => ⟨s, hs.trans hrest, hunreadable⟩

def Token.opens : Token → Bool
  | .blockSequenceStart => true
  | .blockMappingStart => true
  | .flowSequenceStart => true
  | .flowMappingStart => true
  | .blockEntry => true
  | .key => true
  | _ => false

def opened (ts : List Token) : Nat :=
  ts.countP Token.opens

def openers (text : List Char) : Nat :=
  text.countP fun c => ['[', '\x7b', '-', '?', ':'].contains c

section Cursor

variable {text before : List Char} {c : Cursor} {x : Char}

theorem next_rest : c.next.rest = c.rest.drop 1 := by
  unfold Cursor.next
  cases hrest : c.rest with
  | nil => exact hrest
  | cons x rest =>
    dsimp only
    split
    · rfl
    · split <;> rfl

theorem skip_rest (n : Nat) (c : Cursor) : (Cursor.skip n c).rest = c.rest.drop n := by
  induction n generalizing c with
  | zero => rfl
  | succ n ih => rw [Cursor.skip, ih, next_rest, List.drop_drop, Nat.add_comm]

theorem rest_of_peek (h : c.peek 0 = x) (hx : x ≠ '\x00') : c.rest = x :: c.rest.drop 1 := by
  unfold Cursor.peek at h
  cases hrest : c.rest with
  | nil =>
    rw [hrest] at h
    exact absurd h.symm hx
  | cons y rest =>
    rw [hrest] at h
    cases h
    rfl

end Cursor

namespace Reader

variable {text before : List Char} {P : Cursor → Prop} {E : YamlError → Prop} {α : Type}

theorem runs_peek (n : Nat) : Runs P (peek n) (fun x c => c.peek n = x ∧ P c) E := by
  refine runs_get_bind fun a => runs_pure ?_
  rintro s ⟨rfl, hs⟩
  exact ⟨rfl, hs⟩

theorem keeps_peek (n : Nat) : Keeps P E (peek n) :=
  (runs_peek n).weaken (fun _ hs => hs) fun _ _ hs => hs.2

theorem runs_skip_one {x : Char} (hx : x ≠ '\x00') :
    Runs (fun c => c.peek 0 = x ∧ After text before c) (skip 1) (fun _ => After text (before ++ [x])) E := by
  refine runs_modify ?_
  rintro c ⟨hpeek, hafter⟩
  rw [After, rest_of_peek hpeek hx] at hafter
  rw [After, skip_rest, List.append_assoc]
  exact hafter

theorem runs_takeWhile (p : Char → Bool) : Runs (After text before) (takeWhile p)
    (fun run c => (∀ x ∈ run, p x = true) ∧ After text (before ++ run) c) E := by
  refine runs_get_bind fun a => ?_
  have hskip : Runs (fun c => a = c ∧ After text before c) (skip (a.rest.takeWhile p).length)
      (fun _ => After text (before ++ a.rest.takeWhile p)) E := by
    refine runs_modify ?_
    rintro c ⟨rfl, hafter⟩
    rw [After, skip_rest, List.append_assoc, List.prefix_iff_eq_append.mp (List.takeWhile_prefix p)]
    exact hafter
  refine hskip.bind fun _ => runs_pure fun c hc => ⟨?_, hc⟩
  intro x hx
  exact List.mem_takeWhile_imp hx

theorem keeps_skip (n : Nat) : Keeps (Within text) E (skip n) := by
  refine keeps_modify fun c hc => ?_
  rw [Within, skip_rest]
  exact (List.drop_suffix n c.rest).trans hc

theorem keeps_takeWhile (p : Char → Bool) : Keeps (Within text) E (takeWhile p) :=
  keeps_get.bind fun _ => (keeps_skip _).bind fun _ => keeps_pure

theorem keeps_skipSpaces : Keeps (Within text) E skipSpaces :=
  (keeps_takeWhile _).bind fun _ => keeps_pure

theorem keeps_fail (hE : E .malformed) : Keeps P E (fail : Reader α) :=
  keeps_throw hE

theorem keeps_require (hE : E .malformed) (b : Bool) : Keeps P E (require b) :=
  keeps_ite keeps_pure (keeps_fail hE)

theorem keeps_lineBreak : Keeps (Within text) E lineBreak :=
  (keeps_peek 0).bind fun _ => keeps_ite ((keeps_skip 1).bind fun _ => keeps_pure)
    (keeps_ite ((keeps_skip 1).bind fun _ => keeps_pure) keeps_pure)

theorem keeps_comment : Keeps (Within text) E comment :=
  (keeps_peek 0).bind fun _ => keeps_ite ((keeps_takeWhile _).bind fun _ => keeps_pure) keeps_pure

theorem keeps_restOfLine (hE : E .malformed) : Keeps (Within text) E restOfLine :=
  keeps_skipSpaces.bind fun _ => keeps_comment.bind fun _ => (keeps_peek 0).bind fun _ =>
    (keeps_require hE _).bind fun _ => keeps_lineBreak.bind fun _ => keeps_pure

theorem runs_hexNumber (hE : E .malformed) (width : Nat) : Runs (After text before) (hexNumber width)
    (fun code c => ∃ digits, digits.length = width ∧ digitsValue? 16 hexValue? digits = some code ∧
      After text (before ++ digits) c) E := by
  refine runs_get_bind fun a => ?_
  have hrequire : Runs (fun c => a = c ∧ After text before c) (require ((a.rest.take width).length == width))
      (fun _ c => (a.rest.take width).length = width ∧ a = c ∧ After text before c) E := by
    refine runs_ite (fun hlength => ?_) fun _ => runs_throw hE
    exact runs_pure fun c hc => ⟨eq_of_beq hlength, hc⟩
  refine hrequire.bind fun _ => ?_
  split
  · exact runs_throw hE
  · rename_i code hcode
    have hskip : Runs (fun c => (a.rest.take width).length = width ∧ a = c ∧ After text before c)
        (skip width) (fun _ c => (a.rest.take width).length = width ∧
          After text (before ++ a.rest.take width) c) E := by
      refine runs_modify ?_
      rintro c ⟨hlength, rfl, hafter⟩
      refine ⟨hlength, ?_⟩
      rw [After, skip_rest, List.append_assoc, List.take_append_drop]
      exact hafter
    exact hskip.bind fun _ => runs_pure fun c hc => ⟨_, hc.1, hcode, hc.2⟩

theorem keeps_hexNumber (hE : E .malformed) (width : Nat) :
    Keeps (Within text) E (hexNumber width) := by
  refine (@runs_hexNumber text [] E hE width).weaken (fun _ hc => hc) ?_
  rintro code c ⟨digits, -, -, hafter⟩
  exact hafter.within

end Reader

open Reader

section Scalars

variable {text : List Char} {E : YamlError → Prop}

theorem keeps_atDocumentMark {P : Cursor → Prop} : Keeps P E atDocumentMark :=
  keeps_get.bind fun _ => keeps_pure

theorem keeps_plainBreaks (n : Nat) (breaks : List Char) :
    Keeps (Within text) E (plainBreaks n breaks) := by
  induction n generalizing breaks with
  | zero => exact keeps_pure
  | succ n ih =>
    exact keeps_atDocumentMark.bind fun _ => keeps_ite keeps_pure
      (keeps_skipSpaces.bind fun _ => keeps_lineBreak.bind fun _ => keeps_ite keeps_pure (ih _))

theorem keeps_plainGap : Keeps (Within text) E plainGap := by
  refine (keeps_takeWhile _).bind fun spaces => keeps_lineBreak.bind fun first =>
    keeps_ite keeps_pure (keeps_get.bind fun _ => (keeps_plainBreaks _ _).bind fun more => ?_)
  cases more <;> exact keeps_pure

theorem keeps_plainFrom (inFlow : Bool) (indent : Int) (n : Nat) (before gap : List Char)
    (broken : Bool) : Keeps (Within text) E (plainFrom inFlow indent n before gap broken) := by
  induction n generalizing before gap broken with
  | zero => exact keeps_pure
  | succ n ih =>
    exact keeps_get.bind fun _ => keeps_ite keeps_pure ((keeps_skip _).bind fun _ =>
      keeps_plainGap.bind fun _ => keeps_get.bind fun _ => keeps_ite keeps_pure (ih _ _ _))

theorem keeps_plainText (inFlow : Bool) (indent : Int) :
    Keeps (Within text) E (plainText inFlow indent) :=
  keeps_get.bind fun _ => keeps_plainFrom inFlow indent _ _ _ _

variable (hE : E .malformed)

include hE

theorem keeps_quotedBreaks (n : Nat) (breaks : List Char) :
    Keeps (Within text) E (quotedBreaks n breaks) := by
  induction n generalizing breaks with
  | zero => exact keeps_pure
  | succ n ih =>
    exact keeps_atDocumentMark.bind fun _ => keeps_stop (keeps_fail hE) fun _ =>
      (keeps_takeWhile _).bind fun _ => keeps_lineBreak.bind fun _ => keeps_ite keeps_pure (ih _)

theorem keeps_quotedGap : Keeps (Within text) E quotedGap :=
  (keeps_takeWhile _).bind fun _ => (keeps_peek 0).bind fun _ =>
    keeps_stop (keeps_fail hE) fun _ => keeps_lineBreak.bind fun _ => keeps_ite keeps_pure
      (keeps_get.bind fun _ => (keeps_quotedBreaks hE _ _).bind fun _ => keeps_pure)

omit hE in
theorem keeps_charOfCode {P : Cursor → Prop} {code : Nat} (h : 0x110000 ≤ code →
      E (if 0x80000000 ≤ code then .outOfRange else .noSuchValue "chr() arg not in range(0x110000)")) :
    Keeps P E (charOfCode code) := by
  unfold charOfCode
  by_cases hhuge : 0x80000000 ≤ code
  · rw [if_pos hhuge]
    have he := h (by omega)
    rw [if_pos hhuge] at he
    exact keeps_throw he
  · rw [if_neg hhuge]
    rw [if_neg hhuge] at h
    refine runs_ite (fun hlarge => keeps_throw (h hlarge)) fun _ => ?_
    split <;> exact keeps_pure

theorem runs_lowSurrogate : Runs (Within text) lowSurrogate
    (fun r c => (∀ low, r = some low → low < 0xE000) ∧ Within text c) E := by
  refine runs_get_with fun here hhere => ?_
  have hnone : Runs (Within text) (pure none : Reader (Option Nat))
      (fun r c => (∀ low, r = some low → low < 0xE000) ∧ Within text c) E :=
    runs_pure fun c hc => ⟨fun _ h => (by cases h), hc⟩
  refine runs_ite (fun _ => ?_) fun _ => hnone
  refine Runs.bind (keeps_skip 2) fun _ => Runs.bind (keeps_hexNumber hE 4) fun code => ?_
  refine runs_ite (fun hcode => runs_pure fun c hc => ⟨?_, hc⟩) fun _ =>
    Runs.bind (runs_set hhere) fun _ => hnone
  intro low hlow
  cases hlow
  simp only [Bool.and_eq_true, decide_eq_true_eq] at hcode
  exact hcode.2

end Scalars

section Quoted

variable {text : List Char}

theorem escapeWidth?_eq_some {x : Char} {width : Nat} (h : escapeWidth? x = some width) :
    (x ≠ '\x00' ∧ width ≤ 4) ∨ (x = 'U' ∧ width = 8) := by
  unfold escapeWidth? at h
  split at h <;> cases h <;> simp

theorem runs_coded {x : Char} {width : Nat} (hwidth : escapeWidth? x = some width) :
    Runs (After text ['\\', x]) (coded width) (fun _ => Within text) (Excused text) := by
  refine (runs_hexNumber excused_malformed width).bind fun code => ?_
  rintro c ⟨digits, hlength, hcode, hafter⟩
  have hfault : 0x110000 ≤ code → Excused text
      (if 0x80000000 ≤ code then .outOfRange else .noSuchValue "chr() arg not in range(0x110000)") := by
    intro hrange
    have hlt := digitsValue?_lt hcode
    rw [hlength] at hlt
    rcases escapeWidth?_eq_some hwidth with ⟨-, hsmall⟩ | ⟨rfl, rfl⟩
    · have hpow : 16 ^ width ≤ 16 ^ 4 := Nat.pow_le_pow_right (by decide) hsmall
      omega
    · exact .inr ⟨_, hafter, .code c.rest hlength hcode hrange⟩
  have hchar : Keeps (Within text) (Excused text) (charOfCode code) := keeps_charOfCode hfault
  refine runs_ite (fun hhigh => ?_) (fun _ => hchar) c hafter.within
  refine (runs_lowSurrogate excused_malformed).bind fun r => ?_
  cases r with
  | none => exact hchar.weaken (fun _ hc => hc.2) fun _ _ hc => hc
  | some low =>
    rintro c ⟨hlow, hc⟩
    have hlt := hlow low rfl
    simp only [Bool.and_eq_true, decide_eq_true_eq] at hhigh
    refine keeps_charOfCode (fun hrange => ?_) c hc
    omega

theorem runs_escape :
    Runs (After text ['\\']) escape (fun _ => Within text) (Excused text) := by
  refine (runs_peek 0).bind fun x => ?_
  cases hletter : escapeLetter? x with
  | some y =>
    refine Runs.weaken ?_ (fun _ hc => hc.2.within) fun _ _ hc => hc
    exact (keeps_skip 1).bind fun _ => keeps_pure
  | none =>
    cases hwidth : escapeWidth? x with
    | some width =>
      have hx : x ≠ '\x00' := by
        rintro rfl
        cases hwidth
      exact (runs_skip_one hx).bind fun _ => (runs_coded hwidth).bind fun _ => keeps_pure
    | none =>
      refine Runs.weaken ?_ (fun _ hc => hc.2.within) fun _ _ hc => hc
      exact (keeps_require excused_malformed _).bind fun _ => keeps_lineBreak.bind fun _ =>
        keeps_get.bind fun _ => keeps_quotedBreaks excused_malformed _ _

theorem keeps_quotedRun (double : Bool) (n : Nat) (before : List Char) :
    Keeps (Within text) (Excused text) (quotedRun double n before) := by
  induction n generalizing before with
  | zero => exact keeps_pure
  | succ n ih =>
    have hskip (m : Nat) (more : List Char) : Keeps (Within text) (Excused text)
        (skip m >>= fun _ => quotedRun double n more) := (keeps_skip m).bind fun _ => ih more
    refine Runs.bind (keeps_takeWhile _) fun run => (runs_peek 0).bind fun x =>
      Runs.bind (keeps_peek 1) fun _ => runs_ite (fun _ => ?_) fun _ => runs_ite (fun _ => ?_) fun _ =>
        runs_ite (fun hslash => ?_) fun _ => ?_
    · exact (hskip 2 _).weaken (fun _ hc => hc.2) fun _ _ hc => hc
    · exact (hskip 1 _).weaken (fun _ hc => hc.2) fun _ _ hc => hc
    · simp only [Bool.and_eq_true, beq_iff_eq] at hslash
      obtain ⟨-, rfl⟩ := hslash
      have hpass : Runs (fun c => c.peek 0 = '\\' ∧ Within text c) (skip 1)
          (fun _ => After text ['\\']) (Excused text) := @runs_skip_one text [] _ '\\' (by decide)
      exact hpass.bind fun _ => runs_escape.bind fun _ => ih _
    · exact runs_pure fun _ hc => hc.2

theorem keeps_quotedFrom (double : Bool) (n : Nat) (before : List Char) :
    Keeps (Within text) (Excused text) (quotedFrom double n before) := by
  induction n generalizing before with
  | zero => exact keeps_fail excused_malformed
  | succ n ih =>
    exact (keeps_peek 0).bind fun _ => keeps_ite ((keeps_skip 1).bind fun _ => keeps_pure)
      ((keeps_quotedGap excused_malformed).bind fun _ => keeps_get.bind fun _ =>
        (keeps_quotedRun double _ _).bind fun _ => ih _)

theorem keeps_quotedText (double : Bool) :
    Keeps (Within text) (Excused text) (quotedText double) :=
  (keeps_skip 1).bind fun _ => keeps_get.bind fun _ => (keeps_quotedRun double _ _).bind fun _ =>
    keeps_quotedFrom double _ _

end Quoted

section Blocks

variable {text : List Char} {E : YamlError → Prop}

theorem keeps_chompingSign : Keeps (Within text) E chompingSign :=
  (keeps_peek 0).bind fun _ => keeps_ite ((keeps_skip 1).bind fun _ => keeps_pure)
    (keeps_ite ((keeps_skip 1).bind fun _ => keeps_pure) keeps_pure)

theorem keeps_leadingLines (n : Nat) (breaks : List Char) (widest : Nat) :
    Keeps (Within text) E (leadingLines n breaks widest) := by
  induction n generalizing breaks widest with
  | zero => exact keeps_pure
  | succ n ih =>
    exact (keeps_takeWhile _).bind fun _ => keeps_get.bind fun _ => keeps_lineBreak.bind fun _ =>
      keeps_ite keeps_pure (ih _ _)

theorem keeps_emptyLines (indent n : Nat) (breaks : List Char) :
    Keeps (Within text) E (emptyLines indent n breaks) := by
  induction n generalizing breaks with
  | zero => exact keeps_pure
  | succ n ih =>
    have hindent : Keeps (Within text) E (indentTo indent) := keeps_get.bind fun _ => keeps_skip _
    exact hindent.bind fun _ => keeps_lineBreak.bind fun _ => keeps_ite keeps_pure (ih _)

theorem keeps_blockLines (folds : Bool) (indent n : Nat) (before breaks last : List Char) :
    Keeps (Within text) E (blockLines folds indent n before breaks last) := by
  induction n generalizing before breaks last with
  | zero => exact keeps_pure
  | succ n ih =>
    exact keeps_get.bind fun _ => keeps_ite keeps_pure ((keeps_takeWhile _).bind fun _ =>
      keeps_lineBreak.bind fun _ => keeps_get.bind fun _ => (keeps_emptyLines indent _ _).bind fun _ =>
        keeps_get.bind fun _ => keeps_ite keeps_pure (ih _ _ _))

variable (hE : E .malformed)

include hE

theorem keeps_indentDigit : Keeps (Within text) E indentDigit :=
  (keeps_peek 0).bind fun _ => keeps_ite ((keeps_require hE _).bind fun _ => (keeps_skip 1).bind fun _ =>
    keeps_pure) keeps_pure

theorem keeps_blockSigns : Keeps (Within text) E blockSigns := by
  refine keeps_chompingSign.bind fun sign => ?_
  cases sign with
  | some chomping =>
    exact (keeps_indentDigit hE).bind fun _ => (keeps_peek 0).bind fun _ =>
      (keeps_require hE _).bind fun _ => keeps_pure
  | none =>
    have hend (digit : Option Nat) (chomping : Option Chomping) : Keeps (Within text) E (do
        require (isSpaceOrEnd (← peek 0))
        return (chomping.getD .clip, digit)) :=
      (keeps_peek 0).bind fun _ => (keeps_require hE _).bind fun _ => keeps_pure
    exact (keeps_indentDigit hE).bind fun digit => keeps_ite
      (keeps_chompingSign.bind (hend digit)) (keeps_pure.bind (hend digit))

theorem keeps_blockText (folds : Bool) (indent : Int) :
    Keeps (Within text) E (blockText folds indent) := by
  refine (keeps_skip 1).bind fun _ => (keeps_blockSigns hE).bind fun signs =>
    (keeps_restOfLine hE).bind fun _ => keeps_get.bind fun _ => ?_
  cases signs.2 with
  | none =>
    exact (keeps_leadingLines _ _ _).bind fun _ => keeps_pure.bind fun _ =>
      (keeps_blockLines folds _ _ _ _ _).bind fun _ => keeps_pure
  | some d =>
    exact (keeps_emptyLines _ _ _).bind fun _ => keeps_pure.bind fun _ =>
      (keeps_blockLines folds _ _ _ _ _).bind fun _ => keeps_pure

end Blocks

section Tokens

variable {text : List Char} {E : YamlError → Prop}

section

variable (hE : E .malformed)

include hE

theorem keeps_tagHandle : Keeps (Within text) E tagHandle :=
  (keeps_peek 0).bind fun _ => (keeps_require hE _).bind fun _ => (keeps_peek 1).bind fun _ =>
    keeps_ite ((keeps_skip 1).bind fun _ => keeps_pure) ((keeps_skip 1).bind fun _ =>
      (keeps_takeWhile _).bind fun _ => (keeps_peek 0).bind fun _ => (keeps_require hE _).bind fun _ =>
        (keeps_skip 1).bind fun _ => keeps_pure)

theorem keeps_escapedBytes (n : Nat) (bytes : List UInt8) :
    Keeps (Within text) E (escapedBytes n bytes) := by
  induction n generalizing bytes with
  | zero => exact keeps_pure
  | succ n ih =>
    have hbyte : Keeps (Within text) E escapedByte :=
      (keeps_skip 1).bind fun _ => (keeps_hexNumber hE 2).bind fun _ => keeps_pure
    exact (keeps_peek 0).bind fun _ => keeps_ite keeps_pure (hbyte.bind fun _ => ih _)

theorem keeps_tagRest (n : Nat) (before : List Char) : Keeps (Within text) E (tagRest n before) := by
  induction n generalizing before with
  | zero => exact keeps_pure
  | succ n ih =>
    refine (keeps_takeWhile _).bind fun _ => (keeps_peek 0).bind fun _ => keeps_ite
      (keeps_get.bind fun _ => (keeps_escapedBytes hE _ _).bind fun bytes => ?_) keeps_pure
    split
    · exact ih _
    · exact keeps_fail hE

theorem keeps_tagText : Keeps (Within text) E tagText :=
  keeps_get.bind fun _ => (keeps_tagRest hE _ _).bind fun _ => (keeps_require hE _).bind fun _ =>
    keeps_pure

theorem keeps_anchorName : Keeps (Within text) E anchorName :=
  (keeps_skip 1).bind fun _ => (keeps_takeWhile _).bind fun _ => (keeps_require hE _).bind fun _ =>
    (keeps_peek 0).bind fun _ => (keeps_require hE _).bind fun _ => keeps_pure

theorem runs_tag : Runs (Within text) tag (fun t c => t.opens = false ∧ Within text c) E := by
  have hend (t : Token) : Runs (fun c => t.opens = false ∧ Within text c) (do
      require (isSpaceOrEnd (← peek 0))
      return t) (fun t c => t.opens = false ∧ Within text c) E :=
    Runs.bind (keeps_peek 0) fun _ => Runs.bind (keeps_require hE _) fun _ => runs_pure fun _ hc => hc
  have hmade (handle : Option String) (suffix : String) : Runs (Within text) (pure (Token.tag handle suffix))
      (fun t c => t.opens = false ∧ Within text c) E := runs_pure fun _ hc => ⟨rfl, hc⟩
  refine Runs.bind (keeps_peek 1) fun _ => runs_ite (fun _ => ?_) fun _ => runs_ite (fun _ => ?_) fun _ =>
    Runs.bind keeps_get fun _ => runs_ite (fun _ => ?_) fun _ => ?_
  · exact Runs.bind (keeps_skip 2) fun _ => Runs.bind (keeps_tagText hE) fun _ =>
      Runs.bind (keeps_peek 0) fun _ => Runs.bind (keeps_require hE _) fun _ =>
      Runs.bind (keeps_skip 1) fun _ => (hmade _ _).bind hend
  · exact Runs.bind (keeps_skip 1) fun _ => (hmade _ _).bind hend
  · exact Runs.bind (keeps_tagHandle hE) fun _ => Runs.bind (keeps_tagText hE) fun _ => (hmade _ _).bind hend
  · exact Runs.bind (keeps_skip 1) fun _ => Runs.bind (keeps_tagText hE) fun _ => (hmade _ _).bind hend

end

def InVersion (text : List Char) (c : Cursor) : Prop :=
  ∃ before, (∀ x ∈ before, x = ' ' ∨ x = '.' ∨ x.isDigit = true) ∧
    After text ("%YAML".toList ++ before) c

theorem InVersion.within {c : Cursor} (h : InVersion text c) : Within text c := by
  obtain ⟨before, -, hafter⟩ := h
  exact hafter.within

theorem runs_directiveName : Runs (After text ['%']) directiveName
    (fun name => After text ('%' :: name.toList)) (Excused text) := by
  refine (runs_takeWhile isNameChar).bind fun name => ?_
  refine Runs.bind (keeps_require excused_malformed _) fun _ => Runs.bind (keeps_peek 0) fun _ =>
    Runs.bind (keeps_require excused_malformed _) fun _ => runs_pure fun c hc => ?_
  rw [String.toList_ofList]
  exact hc.2

theorem runs_versionPart {p : Char → Bool} (hp : ∀ x, p x = true → x = ' ' ∨ x = '.' ∨ x.isDigit = true) :
    Runs (InVersion text) (takeWhile p) (fun run c => InVersion text c ∧
      ∃ before, (∀ x ∈ before, x = ' ' ∨ x = '.' ∨ x.isDigit = true) ∧ (∀ x ∈ run, p x = true) ∧
        After text ("%YAML".toList ++ before ++ run) c) E := by
  rintro c ⟨before, hbefore, hafter⟩
  refine (runs_takeWhile p).weaken (fun _ hc => hc) ?_ c hafter
  rintro run c ⟨hrun, hc⟩
  refine ⟨⟨before ++ run, ?_, by rwa [← List.append_assoc]⟩, before, hbefore, hrun, hc⟩
  intro x hx
  rcases List.mem_append.mp hx with hx | hx
  · exact hbefore x hx
  · exact hp x (hrun x hx)

theorem runs_versionNumber :
    Runs (InVersion text) versionNumber (fun _ => InVersion text) (Excused text) := by
  refine (runs_versionPart fun x hx => .inr (.inr hx)).bind fun digits => ?_
  refine Runs.bind (keeps_require excused_malformed _) fun _ => runs_ite (fun hlong => ?_) fun _ =>
    runs_pure fun c hc => hc.1
  rintro c ⟨-, before, hbefore, hdigits, hafter⟩
  have hfault : Excused text (.noSuchValue (tooManyDigitsText digits.length)) :=
    .inr ⟨_, hafter, .version c.rest hbefore hdigits hlong⟩
  have hthrow : Runs (fun _ : Cursor => True) (throw (.noSuchValue (tooManyDigitsText digits.length)))
      (fun (_ : PUnit) _ => False) (Excused text) := runs_throw hfault
  exact hthrow.bind (fun _ => runs_pure fun _ h => h.elim) c trivial

theorem runs_versionPoint : Runs (fun c => c.peek 0 = '.' ∧ InVersion text c) (skip 1)
    (fun _ => InVersion text) E := by
  rintro c ⟨hpeek, before, hbefore, hafter⟩
  refine (runs_skip_one (by decide)).weaken (fun _ hc => hc) (fun _ c hc => ?_) c ⟨hpeek, hafter⟩
  refine ⟨before ++ ['.'], fun x hx => ?_, by rwa [← List.append_assoc]⟩
  rcases List.mem_append.mp hx with hx | hx
  · exact hbefore x hx
  · exact .inr (.inl (List.mem_singleton.mp hx))

theorem keeps_versionSpaces : Keeps (InVersion text) E skipSpaces :=
  (runs_versionPart fun _ hx => .inl (eq_of_beq hx)).bind fun _ => runs_pure fun _ hc => hc.1

theorem runs_requirePoint (x : Char) :
    Runs (fun c => c.peek 0 = x ∧ InVersion text c) (require (x == '.'))
    (fun _ c => c.peek 0 = '.' ∧ InVersion text c) (Excused text) := by
  refine runs_ite (fun hx => runs_pure fun c hc => ?_) fun _ => runs_throw excused_malformed
  rwa [eq_of_beq hx] at hc

theorem runs_directive : Runs (fun c => c.peek 0 = '%' ∧ Within text c) directive
    (fun _ => Within text) (Excused text) := by
  have hpass : Runs (fun c => c.peek 0 = '%' ∧ Within text c) (skip 1)
      (fun _ => After text ['%']) (Excused text) := @runs_skip_one text [] _ '%' (by decide)
  have hend (d : Directive) : Keeps (Within text) (Excused text) (restOfLine >>= fun _ => pure d) :=
    (keeps_restOfLine excused_malformed).bind fun _ => keeps_pure
  refine hpass.bind fun _ => runs_directiveName.bind fun name => runs_ite (fun hname => ?_) fun _ =>
    runs_ite (fun _ => ?_) fun _ => ?_
  · rw [eq_of_beq hname]
    have hstart (c : Cursor) (hc : After text ('%' :: "YAML".toList) c) : InVersion text c :=
      ⟨[], by simp, hc⟩
    have hlast (major : Nat) : Keeps (Within text) (Excused text) (do
        require (isSpaceOrEnd (← peek 0))
        let d ← pure (Directive.version major)
        restOfLine
        return d) :=
      (keeps_peek 0).bind fun _ => (keeps_require excused_malformed _).bind fun _ => keeps_pure.bind hend
    refine Runs.weaken ?_ hstart fun _ _ hc => hc
    exact Runs.bind keeps_versionSpaces fun _ => runs_versionNumber.bind fun major =>
      (runs_peek 0).bind fun x => (runs_requirePoint x).bind fun _ => runs_versionPoint.bind fun _ =>
      runs_versionNumber.bind fun _ => (hlast major).weaken (fun _ hc => hc.within) fun _ _ hc => hc
  · refine Runs.weaken ?_ (fun _ hc => hc.within) fun _ _ hc => hc
    exact keeps_skipSpaces.bind fun _ => (keeps_tagHandle excused_malformed).bind fun _ =>
      (keeps_peek 0).bind fun _ => (keeps_require excused_malformed _).bind fun _ =>
      keeps_skipSpaces.bind fun _ => (keeps_tagText excused_malformed).bind fun _ =>
      (keeps_peek 0).bind fun _ => (keeps_require excused_malformed _).bind fun _ =>
      keeps_pure.bind hend
  · refine Runs.weaken ?_ (fun _ hc => hc.within) fun _ _ hc => hc
    exact (keeps_takeWhile _).bind fun _ => keeps_pure.bind hend

end Tokens

def Scan.At (J : Cursor → Nat → Prop) (s : Scan) : Prop :=
  J s.cursor (opened s.tokens)

/-- The scan stands in a text, and each opener that it has passed stands for two tokens at most; so
many more than that have been put out. -/
def Ahead (text : List Char) (more : Nat) (c : Cursor) (n : Nat) : Prop :=
  Within text c ∧ n + 2 * openers c.rest ≤ 2 * openers text + more

theorem openers_le {text rest : List Char} (h : rest <:+ text) : openers rest ≤ openers text :=
  h.sublist.countP_le

theorem Ahead.mono {text : List Char} {more more' : Nat} {c : Cursor} {n : Nat} (h : Ahead text more c n)
    (hmore : more ≤ more') : Ahead text more' c n :=
  ⟨h.1, by have := h.2; omega⟩

namespace Scanner

section Layout

variable {J : Cursor → Nat → Prop} {E : YamlError → Prop} {α : Type}

theorem runs_peek (n : Nat) :
    Runs (Scan.At J) (peek n) (fun x => Scan.At fun c n' => c.peek n = x ∧ J c n') E := by
  refine runs_get_bind fun a => runs_pure ?_
  rintro s ⟨rfl, hs⟩
  exact ⟨rfl, hs⟩

theorem keeps_peek (n : Nat) : Keeps (Scan.At J) E (peek n) :=
  keeps_get.bind fun _ => keeps_pure

theorem keeps_column : Keeps (Scan.At J) E column :=
  keeps_get.bind fun _ => keeps_pure

theorem keeps_inFlow : Keeps (Scan.At J) E inFlow :=
  keeps_get.bind fun _ => keeps_pure

theorem keeps_emit {t : Token} (ht : t.opens = false) : Keeps (Scan.At J) E (emit t) :=
  keeps_modify fun s hs => by simpa [Scan.At, opened, ht] using hs

theorem runs_emit {J' : Cursor → Nat → Prop} (t : Token)
    (h : ∀ c n k, k ≤ 1 → J c n → J' c (n + k)) : Runs (Scan.At J) (emit t) (fun _ => Scan.At J') E := by
  refine runs_modify fun s hs => ?_
  have hcount := h _ _ (if t.opens then 1 else 0) (by split <;> omega) hs
  rwa [Scan.At, opened, List.countP_cons]

theorem runs_emitAt {J' : Cursor → Nat → Prop} (n : Nat) (t : Token)
    (h : ∀ c n k, k ≤ 1 → J c n → J' c (n + k)) : Runs (Scan.At J) (emitAt n t) (fun _ => Scan.At J') E := by
  refine runs_modify fun s hs => ?_
  have hcount := h _ _ (if t.opens then 1 else 0) (by split <;> omega) hs
  have hsplit := congrArg (List.countP Token.opens) (List.take_append_drop (s.tokens.length - n) s.tokens)
  rw [List.countP_append] at hsplit
  rwa [Scan.At, opened, List.countP_append, List.countP_cons, ← Nat.add_assoc, hsplit]

theorem keeps_allowKey (b : Bool) : Keeps (Scan.At J) E (allowKey b) :=
  keeps_modify fun _ hs => hs

theorem keeps_setTo {s : Scan} (h : s.At J) : Keeps (Scan.At J) E (set s) :=
  runs_set h

theorem keeps_closeBlocksFrom (column : Int) (n : Nat) :
    Keeps (Scan.At J) E (closeBlocksFrom column n) := by
  induction n with
  | zero => exact keeps_pure
  | succ n ih =>
    refine keeps_get_bind fun s hs => keeps_ite (Keeps.bind (keeps_setTo ?_) fun _ => ih) keeps_pure
    exact hs

theorem keeps_closeBlocks (column : Int) : Keeps (Scan.At J) E (closeBlocks column) :=
  keeps_get.bind fun _ => keeps_ite (keeps_closeBlocksFrom column _) keeps_pure

theorem keeps_openBlock (column : Nat) : Keeps (Scan.At J) E (openBlock column) := by
  refine keeps_get_bind fun s hs => keeps_ite (Keeps.bind (keeps_setTo ?_) fun _ => keeps_pure) keeps_pure
  exact hs

variable (hE : E .malformed)

include hE

theorem keeps_fail : Keeps (Scan.At J) E (fail : Scanner α) :=
  keeps_throw hE

theorem keeps_require (b : Bool) : Keeps (Scan.At J) E (require b) :=
  keeps_ite keeps_pure (keeps_fail hE)

theorem keeps_dropStaleKeys : Keeps (Scan.At J) E dropStaleKeys :=
  keeps_get_bind fun _ hs => (keeps_require hE _).bind fun _ => keeps_setTo hs

theorem keeps_dropKey : Keeps (Scan.At J) E dropKey :=
  keeps_get_bind fun _ hs => (keeps_require hE _).bind fun _ => keeps_setTo hs

theorem keeps_noteKey : Keeps (Scan.At J) E noteKey :=
  keeps_get.bind fun _ => keeps_ite ((keeps_dropKey hE).bind fun _ => keeps_modify fun _ hs => hs)
    keeps_pure

theorem keeps_endBlocks : Keeps (Scan.At J) E endBlocks :=
  (keeps_closeBlocks _).bind fun _ => (keeps_dropKey hE).bind fun _ => keeps_allowKey _

theorem keeps_streamEnd : Keeps (Scan.At J) E streamEnd :=
  (keeps_endBlocks hE).bind fun _ => (keeps_emit rfl).bind fun _ => keeps_modify fun _ hs => hs

theorem runs_blockSign {J' : Cursor → Nat → Prop} (start : Token)
    (h : ∀ c n k, k ≤ 1 → J c n → J' c (n + k)) :
    Runs (Scan.At J) (blockSign start) (fun _ => Scan.At J') E := by
  have hpure : Runs (Scan.At J) (pure ⟨⟩ : Scanner PUnit) (fun _ => Scan.At J') E :=
    runs_pure fun s hs => h _ _ 0 (by omega) hs
  exact Runs.bind keeps_inFlow fun _ => runs_ite (fun _ => Runs.bind keeps_get fun _ =>
    Runs.bind (keeps_require hE _) fun _ => Runs.bind keeps_column fun _ => Runs.bind (keeps_openBlock _) fun _ =>
      runs_ite (fun _ => runs_emit start h) fun _ => hpure) fun _ => hpure

end Layout

section Steps

variable {text : List Char} {α : Type} {more : Nat}

theorem runs_reading {P : Cursor → Prop} {Q : α → Prop} {r : Reader α}
    (h : ∀ rest, Runs (fun c => P c ∧ Within rest c) r (fun a c => Q a ∧ Within rest c) (Excused rest)) :
    Runs (Scan.At fun c n => P c ∧ Ahead text more c n) (reading r)
      (fun a s => Q a ∧ s.At (Ahead text more)) (Excused text) := by
  refine runs_get_bind fun a => ?_
  rintro s ⟨rfl, hp, hwithin, hcount⟩
  obtain ⟨hok, herror⟩ := h a.cursor.rest a.cursor ⟨hp, List.suffix_rfl⟩
  cases hr : r a.cursor with
  | error e => exact ⟨fun _ _ h => (by cases h), fun e' h => by cases h; exact (herror e hr).mono hwithin⟩
  | ok result =>
    obtain ⟨hq, hrest⟩ := hok result.1 result.2 hr
    have hset : Runs (fun _ => True) (set { a with cursor := result.2 })
        (fun _ => Scan.At (Ahead text more)) (Excused text) := by
      refine runs_set ⟨hrest.trans hwithin, ?_⟩
      have hle := openers_le hrest
      dsimp only
      omega
    have hdone : Runs (Scan.At (Ahead text more)) (pure result.1)
        (fun a s => Q a ∧ s.At (Ahead text more)) (Excused text) := runs_pure fun _ hs => ⟨hq, hs⟩
    exact hset.bind (fun _ => hdone) a trivial

theorem keeps_reading {r : Reader α} (h : ∀ rest, Keeps (Within rest) (Excused rest) r) :
    Keeps (Scan.At (Ahead text more)) (Excused text) (reading r) := by
  have hreads := @runs_reading text α more (fun _ => True) (fun _ => True) r fun rest =>
    (h rest).weaken (fun _ hc => hc.2) fun _ _ hc => ⟨trivial, hc⟩
  exact hreads.weaken (fun _ hs => ⟨trivial, hs⟩) fun _ _ hs => hs.2

theorem keeps_skipBlanks (n : Nat) :
    Keeps (Scan.At (Ahead text 0)) (Excused text) (skipBlanks n) := by
  induction n with
  | zero => exact keeps_pure
  | succ n ih =>
    have hblank (rest : List Char) : Keeps (Within rest) (Excused rest) (do
        skipSpaces
        comment
        lineBreak) := keeps_skipSpaces.bind fun _ => keeps_comment.bind fun _ => keeps_lineBreak
    exact (keeps_reading hblank).bind fun _ => keeps_ite (keeps_inFlow.bind fun _ =>
      keeps_stop (keeps_allowKey true) fun _ => ih) keeps_pure

theorem keeps_sign {t : Token} (ht : t.opens = false) :
    Keeps (Scan.At (Ahead text more)) (Excused text) (sign t) :=
  (keeps_reading fun _ => keeps_skip 1).bind fun _ => keeps_emit ht

def Before (text : List Char) (x : Char) (more : Nat) (c : Cursor) (n : Nat) : Prop :=
  c.peek 0 = x ∧ Ahead text more c n

theorem Before.add {x : Char} {c : Cursor} {n k : Nat} (hk : k ≤ 1) (h : Before text x more c n) :
    Before text x (more + 1) c (n + k) :=
  ⟨h.1, h.2.1, by have := h.2.2; omega⟩

theorem runs_passOpener {x : Char} (hx : x ∈ ['[', '\x7b', '-', '?', ':']) (hmore : more ≤ 2) :
    Runs (Scan.At (Before text x more)) (reading (skip 1))
      (fun _ => Scan.At fun c n => Ahead text 0 c (n + (2 - more))) (Excused text) := by
  have hzero : x ≠ '\x00' := by
    rintro rfl
    simp at hx
  refine runs_get_bind fun a => ?_
  rintro s ⟨rfl, hpeek, hwithin, hcount⟩
  have hrest := rest_of_peek hpeek hzero
  have hone : openers a.cursor.rest = openers (a.cursor.rest.drop 1) + 1 := by
    conv => lhs; rw [hrest]
    rw [openers, List.countP_cons, if_pos (by simpa using hx)]
    rfl
  have hset : Runs (fun _ => True) (set { a with cursor := Cursor.skip 1 a.cursor })
      (fun _ => Scan.At fun c n => Ahead text 0 c (n + (2 - more))) (Excused text) := by
    refine runs_set ⟨?_, ?_⟩
    · rw [Within, skip_rest]
      exact (List.drop_suffix 1 _).trans hwithin
    · rw [skip_rest]
      dsimp only at hcount ⊢
      omega
  exact hset.bind (fun _ => keeps_pure) a trivial

theorem runs_opener {x : Char} (hx : x ∈ ['[', '\x7b', '-', '?', ':']) (hmore : more ≤ 1) (t : Token) :
    Runs (Scan.At (Before text x more)) (sign t) (fun _ => Scan.At (Ahead text 0)) (Excused text) := by
  refine (runs_passOpener hx (by omega)).bind fun _ => runs_emit t ?_
  rintro c n k hk ⟨hwithin, hcount⟩
  exact ⟨hwithin, by omega⟩

theorem keeps_documentMark {t : Token} (ht : t.opens = false) :
    Keeps (Scan.At (Ahead text 0)) (Excused text) (documentMark t) :=
  (keeps_endBlocks excused_malformed).bind fun _ => (keeps_reading fun _ => keeps_skip 3).bind fun _ =>
    keeps_emit ht

theorem runs_flowStart {x : Char} (hx : x ∈ ['[', '\x7b', '-', '?', ':']) (t : Token) :
    Runs (Scan.At (Before text x 0)) (flowStart t) (fun _ => Scan.At (Ahead text 0)) (Excused text) := by
  refine Runs.bind (keeps_noteKey excused_malformed) fun _ => Runs.bind (keeps_modify ?_) fun _ =>
    runs_opener hx (by omega) t
  exact fun _ hs => hs

theorem keeps_flowEnd {t : Token} (ht : t.opens = false) :
    Keeps (Scan.At (Ahead text 0)) (Excused text) (flowEnd t) := by
  refine (keeps_dropKey excused_malformed).bind fun _ => keeps_inFlow.bind fun _ =>
    (keeps_require excused_malformed _).bind fun _ => Keeps.bind (keeps_modify ?_) fun _ => keeps_sign ht
  exact fun _ hs => hs

theorem keeps_flowEntry : Keeps (Scan.At (Ahead text 0)) (Excused text) flowEntry :=
  (keeps_allowKey true).bind fun _ => (keeps_dropKey excused_malformed).bind fun _ => keeps_sign rfl

theorem runs_startBlock {x : Char} (start : Token) : Runs (Scan.At (Before text x more)) (blockSign start)
    (fun _ => Scan.At (Before text x (more + 1))) (Excused text) :=
  runs_blockSign excused_malformed start fun _ _ _ hk h => h.add hk

theorem runs_putAt {x : Char} (n : Nat) (t : Token) : Runs (Scan.At (Before text x more)) (emitAt n t)
    (fun _ => Scan.At (Before text x (more + 1))) (Excused text) :=
  runs_emitAt n t fun _ _ _ hk h => h.add hk

theorem runs_blockEntry :
    Runs (Scan.At (Before text '-' 0)) blockEntry (fun _ => Scan.At (Ahead text 0)) (Excused text) :=
  (runs_startBlock _).bind fun _ =>
    Runs.bind (keeps_allowKey true) fun _ => Runs.bind (keeps_dropKey excused_malformed) fun _ =>
      runs_opener (by simp) (by omega) _

theorem runs_explicitKey :
    Runs (Scan.At (Before text '?' 0)) explicitKey (fun _ => Scan.At (Ahead text 0)) (Excused text) :=
  (runs_startBlock _).bind fun _ =>
    Runs.bind keeps_inFlow fun _ => Runs.bind (keeps_allowKey _) fun _ =>
      Runs.bind (keeps_dropKey excused_malformed) fun _ => runs_opener (by simp) (by omega) _

theorem runs_value :
    Runs (Scan.At (Before text ':' 0)) value (fun _ => Scan.At (Ahead text 0)) (Excused text) := by
  refine runs_get_with fun s hs => ?_
  cases s.keys.find? fun k => k.1 == s.depth with
  | some found =>
    obtain ⟨depth, key⟩ := found
    have hend : Runs (Scan.At (Before text ':' 2)) (do
        allowKey false
        sign .value) (fun _ => Scan.At (Ahead text 0)) (Excused text) :=
      Runs.bind (keeps_allowKey false) fun _ => (runs_passOpener (by simp) (by omega)).bind fun _ => keeps_emit rfl
    have hlast : Runs (Scan.At (Before text ':' 1)) (do
        allowKey false
        sign .value) (fun _ => Scan.At (Ahead text 0)) (Excused text) :=
      hend.weaken (fun _ hs => ⟨hs.1, hs.2.mono (by omega)⟩) fun _ _ hs => hs
    exact Runs.bind (keeps_setTo hs) fun _ => (runs_putAt _ _).bind fun _ =>
      runs_ite (fun _ => Runs.bind (keeps_openBlock _) fun _ => runs_ite
        (fun _ => (runs_putAt _ _).bind fun _ => hend) fun _ => hlast) fun _ => hlast
  | none =>
    exact (runs_startBlock _).bind fun _ =>
      Runs.bind keeps_inFlow fun _ => Runs.bind (keeps_allowKey _) fun _ =>
        Runs.bind (keeps_dropKey excused_malformed) fun _ => runs_opener (by simp) (by omega) _

theorem keeps_keyLike {r : Reader Token} (h : ∀ rest, Runs (Within rest) r
      (fun t c => t.opens = false ∧ Within rest c) (Excused rest)) :
    Keeps (Scan.At (Ahead text 0)) (Excused text) (keyLike r) := by
  have hread := @runs_reading text Token 0 (fun _ => True) (fun t => t.opens = false) r fun rest =>
    (h rest).weaken (fun _ hc => hc.2) fun _ _ hc => hc
  refine (keeps_noteKey excused_malformed).bind fun _ => (keeps_allowKey false).bind fun _ => ?_
  refine (hread.weaken (fun _ hs => ⟨trivial, hs⟩) fun _ _ hs => hs).bind fun t => ?_
  rintro s ⟨ht, hs⟩
  exact keeps_emit ht s hs

theorem keeps_blockScalar (folds : Bool) :
    Keeps (Scan.At (Ahead text 0)) (Excused text) (blockScalar folds) :=
  (keeps_allowKey true).bind fun _ => (keeps_dropKey excused_malformed).bind fun _ =>
    keeps_get.bind fun _ => (keeps_reading fun _ => keeps_blockText excused_malformed folds _).bind fun _ =>
      keeps_emit rfl

theorem keeps_plainScalar : Keeps (Scan.At (Ahead text 0)) (Excused text) plainScalar :=
  (keeps_noteKey excused_malformed).bind fun _ => keeps_get.bind fun _ =>
    (keeps_reading fun _ => keeps_plainText _ _).bind fun _ => (keeps_allowKey _).bind fun _ => keeps_emit rfl

theorem keeps_step : Keeps (Scan.At (Ahead text 0)) (Excused text) step := by
  refine Runs.bind keeps_get fun _ => Runs.bind (keeps_skipBlanks _) fun _ =>
    Runs.bind (keeps_dropStaleKeys excused_malformed) fun _ => Runs.bind keeps_column fun _ =>
    Runs.bind (keeps_closeBlocks _) fun _ => ?_
  refine Runs.bind keeps_get fun _ => (runs_peek 0).bind fun x => Runs.bind keeps_inFlow fun _ =>
    Runs.bind (keeps_peek 1) fun _ => ?_
  have hrest {m : Scanner Unit} (hm : Keeps (Scan.At (Ahead text 0)) (Excused text) m) :
      Runs (Scan.At (Before text x 0)) m (fun _ => Scan.At (Ahead text 0)) (Excused text) :=
    hm.weaken (fun _ hs => hs.2) fun _ _ hs => hs
  refine runs_ite (fun _ => hrest (keeps_streamEnd excused_malformed)) fun _ =>
    runs_ite (fun hsign => ?_) fun _ => runs_ite (fun _ => hrest (keeps_documentMark rfl)) fun _ =>
    runs_ite (fun _ => hrest (keeps_documentMark rfl)) fun _ => runs_ite (fun hsign => ?_) fun _ =>
    runs_ite (fun hsign => ?_) fun _ => runs_ite (fun _ => hrest (keeps_flowEnd rfl)) fun _ =>
    runs_ite (fun _ => hrest (keeps_flowEnd rfl)) fun _ => runs_ite (fun _ => hrest keeps_flowEntry) fun _ =>
    runs_ite (fun hsign => ?_) fun _ => runs_ite (fun hsign => ?_) fun _ => runs_ite (fun hsign => ?_) fun _ =>
    hrest (keeps_ite ?_ (keeps_ite ?_ (keeps_ite ?_ (keeps_ite (keeps_blockScalar _)
      (keeps_ite (keeps_blockScalar _) (keeps_ite ?_ (keeps_ite ?_ ?_)))))))
  · simp only [Bool.and_eq_true, beq_iff_eq] at hsign
    obtain ⟨rfl, -⟩ := hsign
    have hread := @runs_reading text Directive 0 (fun c => c.peek 0 = '%') (fun _ => True) directive fun rest =>
      runs_directive.weaken (fun _ hc => hc) fun _ _ hc => ⟨trivial, hc⟩
    exact Runs.bind (keeps_endBlocks excused_malformed) fun _ => hread.bind fun _ =>
      (keeps_emit rfl).weaken (fun _ hs => hs.2) fun _ _ hs => hs
  · rw [eq_of_beq hsign]
    exact runs_flowStart (by simp) _
  · rw [eq_of_beq hsign]
    exact runs_flowStart (by simp) _
  · simp only [Bool.and_eq_true, beq_iff_eq] at hsign
    obtain ⟨rfl, -⟩ := hsign
    exact runs_blockEntry
  · simp only [Bool.and_eq_true, beq_iff_eq] at hsign
    obtain ⟨rfl, -⟩ := hsign
    exact runs_explicitKey
  · simp only [Bool.and_eq_true, beq_iff_eq] at hsign
    obtain ⟨rfl, -⟩ := hsign
    exact runs_value
  · exact keeps_keyLike fun _ => Runs.bind (keeps_anchorName excused_malformed) fun _ =>
      runs_pure fun _ hc => ⟨rfl, hc⟩
  · exact keeps_keyLike fun _ => Runs.bind (keeps_anchorName excused_malformed) fun _ =>
      runs_pure fun _ hc => ⟨rfl, hc⟩
  · exact keeps_keyLike fun _ => runs_tag excused_malformed
  · exact keeps_keyLike fun _ => Runs.bind (keeps_quotedText false) fun _ => runs_pure fun _ hc => ⟨rfl, hc⟩
  · exact keeps_keyLike fun _ => Runs.bind (keeps_quotedText true) fun _ => runs_pure fun _ hc => ⟨rfl, hc⟩
  · have hbegins : Keeps (Scan.At (Ahead text 0)) (Excused text) plainBegins :=
      (keeps_peek 0).bind fun _ => (keeps_peek 1).bind fun _ => keeps_inFlow.bind fun _ => keeps_pure
    exact hbegins.bind fun _ => keeps_ite keeps_plainScalar (keeps_fail excused_malformed)

theorem keeps_steps (n : Nat) : Keeps (Scan.At (Ahead text 0)) (Excused text) (steps n) := by
  induction n with
  | zero => exact keeps_fail excused_malformed
  | succ n ih =>
    exact keeps_step.bind fun _ => keeps_get.bind fun _ => keeps_ite ih keeps_pure

end Steps

end Scanner

theorem tokens_cases (text : List Char) :
    (∃ ts, tokens text = .ok ts ∧ opened ts ≤ 2 * openers text) ∨
      ∃ e, tokens text = .error e ∧ Excused text e := by
  by_cases hprintable : (text.any fun c => !isPrintable c) = true
  · simp only [tokens, hprintable, if_true]
    exact .inr ⟨_, rfl, excused_malformed⟩
  · simp only [tokens, hprintable, if_false, Bool.false_eq_true]
    have hbody : (if text.head? = some '\ufeff' then text.drop 1 else text) <:+ text := by
      split
      · exact List.drop_suffix 1 text
      · exact List.suffix_rfl
    generalize (if text.head? = some '\ufeff' then text.drop 1 else text) = body at hbody
    have hstart : Scan.At (Ahead body 0) ⟨Cursor.start body, [], 0, -1, [], true, [], false⟩ :=
      ⟨List.suffix_rfl, by simp [opened, Cursor.start]⟩
    obtain ⟨hok, herror⟩ := Scanner.keeps_steps (body.length + 2) _ hstart
    cases hrun : StateT.run (Scanner.steps (body.length + 2))
        ⟨Cursor.start body, [], 0, -1, [], true, [], false⟩ with
    | error e => exact .inr ⟨e, rfl, (herror e hrun).mono hbody⟩
    | ok result =>
      obtain ⟨-, hcount⟩ := hok result.1 result.2 hrun
      have hle := openers_le hbody
      refine .inl ⟨_, rfl, ?_⟩
      simp only [opened, List.countP_reverse]
      simp only [opened] at hcount
      omega

end EdgeAudit.Yaml
