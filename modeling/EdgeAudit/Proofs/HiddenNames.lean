import EdgeAudit.Glob.Basic
import EdgeAudit.Proofs.PatternLanguage
import Mathlib.Data.List.Chain

/-!
The two ways of matching dots differ at names that start with a dot only: where a path has no such
name, both match it alike, and everywhere the plain one matches less.
-/

namespace EdgeAudit.Glob

open Text Relation

def Piece.starts : Piece → Bool
  | .any first => first
  | .star first => first
  | .member first _ => first
  | _ => false

def Piece.ends : Piece → Bool
  | .slash => true
  | .names _ => true
  | _ => false

def Piece.Follows (p q : Piece) : Prop :=
  p.starts = true → q.ends = true

section Placed

variable {before : List Piece} {first : Bool}

theorem follows_pushNames (h : before.IsChain Piece.Follows) :
    (pushNames before).IsChain Piece.Follows := by
  fun_cases pushNames before with
  | case1 => exact List.isChain_singleton _
  | case2 before =>
    have htail := (List.isChain_cons.mp h).2
    exact List.isChain_cons.mpr ⟨by simp [Piece.Follows, Piece.starts], htail⟩
  | case3 => exact h

theorem ends_pushNames (h : ∀ q ∈ before.head?, q.ends = true) :
    ∀ q ∈ (pushNames before).head?, q.ends = true := by
  fun_cases pushNames before with
  | case1 => simp [Piece.ends]
  | case2 before => simp [Piece.ends]
  | case3 => exact h

theorem follows_readPieces (n : Nat) (cs : List Char) (hbefore : before.IsChain Piece.Follows)
    (hfirst : first = true → ∀ q ∈ before.head?, q.ends = true) :
    (readPieces n before first cs).IsChain fun q p => p.Follows q := by
  have hpush : ∀ {p : Piece} {before : List Piece}, before.IsChain Piece.Follows →
      (p.starts = true → ∀ q ∈ before.head?, q.ends = true) →
      (p :: before).IsChain Piece.Follows :=
    fun hb hp => List.isChain_cons.mpr ⟨fun q hq hstarts => hp hstarts q hq, hb⟩
  have hslash : ∀ {before : List Piece}, true = true →
      ∀ q ∈ (Piece.slash :: before).head?, q.ends = true := by
    simp [Piece.ends]
  fun_induction readPieces n before first cs
  case case1 | case2 => exact List.isChain_reverse.mpr hbefore
  case case3 first cs rest hrest _ _ ih =>
    have hends : first = true := by
      by_contra hfalse
      simp [hfalse] at hrest
    exact ih (follows_pushNames hbefore) fun _ => ends_pushNames (hfirst hends)
  case case4 ih | case5 ih | case6 ih | case11 ih => exact ih (hpush hbefore hfirst) (by simp)
  case case7 ih | case9 ih => exact ih (hpush hbefore (by simp [Piece.starts])) hslash
  case case8 ih | case10 ih | case12 ih | case13 ih =>
    exact ih (hpush hbefore (by simp [Piece.starts])) (by simp)

theorem follows_pieces (pattern : List Char) :
    (pieces pattern).IsChain fun q p => p.Follows q :=
  follows_readPieces _ pattern .nil (by simp)

end Placed

def AtName (s : Spot) : Prop :=
  s.before = none ∨ s.before = some '/' ∨ s.rest = []

def Dots.Bars (dots : Dots) (s : Spot) : Prop :=
  ∃ t, dots.barred.Reads s t

variable {s t : Spot} {dots : Dots}

theorem reads_atStart : atStart.Reads s t ↔ s.before = none ∧ t = s := by
  rw [atStart, Pattern.Reads]
  cases s.before <;> simp

theorem reads_atEnd : atEnd.Reads s t ↔ s.rest = [] ∧ t = s := by
  rw [atEnd, Pattern.Reads]
  refine and_congr_left fun _ => ?_
  cases h : s.rest <;> simp [Pattern.Reads, h]

theorem atName_slashes (h : (Pattern.run isSlash 1).Reads s t) : AtName t := by
  obtain ⟨a, r, -, hlength, ha, rfl⟩ := h
  have hnonempty : a ≠ [] := List.ne_nil_of_length_pos hlength
  have hlast : a.getLast hnonempty = '/' := by
    simpa [isSlash] using ha _ (List.getLast_mem hnonempty)
  exact .inr (.inl (by simp [List.getLast?_eq_some_getLast hnonempty, hlast]))

theorem atName_names (h : dots.names.Reads s t) : AtName t := by
  obtain ⟨m, -, hslashes | hstart | hend⟩ := h
  · exact atName_slashes hslashes
  · obtain ⟨hbefore, rfl⟩ := reads_atStart.mp hstart
    exact .inl hbefore
  · obtain ⟨hrest, rfl⟩ := reads_atEnd.mp hend
    exact .inr (.inr hrest)

theorem Piece.atName_of_ends {p : Piece} (hp : p.ends = true) (h : (p.pattern dots).Reads s t) :
    AtName t := by
  cases p with
  | slash => exact atName_slashes h
  | names start =>
    cases start with
    | true => exact atName_names h
    | false =>
      obtain ⟨m, -, hnames⟩ := h
      exact atName_names hnames
  | _ => cases hp

section Compare

variable {d d' : Dots} {path : List Char}

theorem reads_guard {first : Bool} (h : first = true → d'.Bars s → d.Bars s)
    (hd : (d.guard first).Reads s t) : (d'.guard first).Reads s t := by
  cases first with
  | false => exact hd
  | true =>
    obtain ⟨hnone, rfl⟩ := hd
    refine ⟨fun m hm => ?_, rfl⟩
    obtain ⟨u, hu⟩ := h rfl ⟨m, hm⟩
    exact hnone u hu

variable (h : ∀ s, (Spot.first path).Ahead s → AtName s → d'.Bars s → d.Bars s)

include h

theorem reads_nameStep (hs : (Spot.first path).Ahead s)
    (hd : (Pattern.notBefore (.seq (.either (.one isSlash) atStart) d.barred)).Reads s t) :
    (Pattern.notBefore (.seq (.either (.one isSlash) atStart) d'.barred)).Reads s t := by
  obtain ⟨hnone, ht⟩ := hd
  refine ⟨?_, ht⟩
  rintro u ⟨m, hm, hbarred⟩
  have hname : AtName m := by
    rcases hm with ⟨c, r, -, hc, rfl⟩ | hstart
    · exact .inr (.inl (by simpa [isSlash] using hc))
    · obtain ⟨hbefore, rfl⟩ := reads_atStart.mp hstart
      exact .inl hbefore
  have hahead : s.Ahead m :=
    Pattern.Reads.ahead (p := .either (.one isSlash) atStart) hm
  obtain ⟨v, hv⟩ := h m (hs.trans hahead) hname ⟨u, hbarred⟩
  exact hnone v ⟨m, hm, hv⟩

theorem reads_names (hs : (Spot.first path).Ahead s) (hd : d.names.Reads s t) :
    d'.names.Reads s t := by
  obtain ⟨m, hmany, hend⟩ := hd
  refine ⟨m, ?_, hend⟩
  -- from the first step on, so that each place on the way is known to be ahead
  induction hmany using ReflTransGen.head_induction_on with
  | refl => exact .refl
  | head hstep _ ih =>
    obtain ⟨⟨u, hguard, hone⟩, hlt⟩ := hstep
    have hstep' := ih (hs.trans (Pattern.Reads.ahead (p := .seq _ (.one _)) ⟨u, hguard, hone⟩))
    exact .head ⟨⟨u, reads_nameStep h hs hguard, hone⟩, hlt⟩ hstep'

theorem Piece.reads_of_bars (p : Piece) (hs : (Spot.first path).Ahead s)
    (hstarts : p.starts = true → AtName s) (hd : (p.pattern d).Reads s t) :
    (p.pattern d').Reads s t := by
  have hbars : p.starts = true → d'.Bars s → d.Bars s := fun hp => h s hs (hstarts hp)
  cases p with
  | char c => exact hd
  | slash => exact hd
  | any first =>
    obtain ⟨m, hguard, hone⟩ := hd
    exact ⟨m, reads_guard hbars hguard, hone⟩
  | star first =>
    cases first with
    | false => exact hd
    | true =>
      obtain ⟨m, hahead, hrest⟩ := hd
      obtain ⟨u, hguard, hrun⟩ := hrest
      obtain rfl : m = s := hahead.2
      exact ⟨m, hahead, u, reads_guard hbars hguard, hrun⟩
  | member first k =>
    obtain ⟨m, hguard, hone⟩ := hd
    exact ⟨m, reads_guard hbars hguard, hone⟩
  | names start =>
    cases start with
    | true => exact reads_names h hs hd
    | false =>
      obtain ⟨m, hahead, hnames⟩ := hd
      obtain rfl : m = s := hahead.2
      exact ⟨m, hahead, reads_names h hs hnames⟩

theorem reads_pieces_of_bars {ps : List Piece} (hps : ps.IsChain fun q p => p.Follows q)
    (hs : (Spot.first path).Ahead s) (hname : ∀ p ∈ ps.head?, p.starts = true → AtName s)
    (hd : (Pattern.all (ps.map (Piece.pattern d))).Reads s t) :
    (Pattern.all (ps.map (Piece.pattern d'))).Reads s t := by
  induction ps generalizing s with
  | nil => exact hd
  | cons p ps ih =>
    rw [List.map_cons, Pattern.reads_all_cons] at hd ⊢
    obtain ⟨m, hp, hrest⟩ := hd
    obtain ⟨hhead, htail⟩ := List.isChain_cons.mp hps
    refine ⟨m, p.reads_of_bars h hs (hname p rfl) hp, ih htail (hs.trans hp.ahead) ?_ hrest⟩
    intro q hq hstarts
    exact Piece.atName_of_ends (hhead q hq hstarts) hp

theorem fits_of_bars {pattern : List Char} (hd : fits d pattern path = true) :
    fits d' pattern path = true := by
  obtain ⟨t, ⟨m, hpieces, hend⟩, hrest⟩ := Pattern.fits_iff.mp hd
  refine Pattern.fits_iff.mpr ⟨t, ⟨m, ?_, hend⟩, hrest⟩
  exact reads_pieces_of_bars h (follows_pieces pattern) (.refl _) (fun _ _ _ => .inl rfl) hpieces

end Compare

variable {pattern path : List Char}

theorem fits_matched_of_plain (h : fits .plain pattern path = true) :
    fits .matched pattern path = true := by
  refine fits_of_bars ?_ h
  rintro s - - ⟨t, m, hdot, -⟩
  exact ⟨m, hdot⟩

/-- Every dot of a path follows a character of the same name. -/
def NoHidden (path : List Char) : Prop :=
  ∀ a r, path = a ++ '.' :: r → ∃ c ∈ a.getLast?, c ≠ '/'

theorem fits_matched_iff_plain (hpath : NoHidden path) :
    fits .matched pattern path = true ↔ fits .plain pattern path = true := by
  refine ⟨fits_of_bars ?_, fits_matched_of_plain⟩
  rintro s ⟨a, ha, hs⟩ hname ⟨t, r, hrest, -⟩
  have hsplit : path = a ++ '.' :: r := by
    rw [← List.singleton_append, ← hrest]
    exact ha
  obtain ⟨c, hc, hslash⟩ := hpath a r hsplit
  have hbefore : s.before = some c := by
    rw [hs]
    simpa [Spot.keeping, Spot.first] using hc
  rcases hname with hname | hname | hname
  · simp [hbefore] at hname
  · simp [hbefore, hslash] at hname
  · simp [hrest] at hname

end EdgeAudit.Glob
