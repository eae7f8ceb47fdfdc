import EdgeAudit.Text.Pattern

namespace EdgeAudit.Text

def Spot.past (s : Spot) (a rest : List Char) : Spot :=
  ⟨a.getLast?.or s.before, s.pos + a.length, rest, s.kept⟩

def Spot.keeping (s : Spot) (kept : List (Nat × List Char)) : Spot :=
  { s with kept }

namespace Spot

variable (s : Spot) (a b rest : List Char)

@[simp] theorem past_rest : (s.past a rest).rest = rest := rfl

@[simp] theorem past_kept : (s.past a rest).kept = s.kept := rfl

@[simp] theorem past_pos : (s.past a rest).pos = s.pos + a.length := rfl

@[simp] theorem past_before : (s.past a rest).before = a.getLast?.or s.before := rfl

@[simp] theorem past_past (r : List Char) : (s.past a r).past b rest = s.past (a ++ b) rest := by
  simp [past, List.getLast?_append, Option.or_assoc, Nat.add_assoc]

@[simp] theorem keeping_rest (kept : List (Nat × List Char)) : (s.keeping kept).rest = s.rest := rfl

@[simp] theorem keeping_pos (kept : List (Nat × List Char)) : (s.keeping kept).pos = s.pos := rfl

@[simp] theorem keeping_kept (kept : List (Nat × List Char)) : (s.keeping kept).kept = kept := rfl

@[simp] theorem keeping_past (kept : List (Nat × List Char)) :
    (s.keeping kept).past a rest = (s.past a rest).keeping kept := rfl

@[simp] theorem keeping_keeping (kept kept' : List (Nat × List Char)) :
    (s.keeping kept).keeping kept' = s.keeping kept' := rfl

theorem past_nil (h : s.rest = rest) : s.past [] rest = s := by
  subst h
  simp [past]

theorem after?_append {s : Spot} {w r : List Char} (h : s.rest = w ++ r) :
    s.after? w = some (s.past w r) := by
  simp [after?, h, past, List.isPrefixOf_iff_prefix]

theorem along_append {p : Char → Bool} {r : List Char} (kept : List (Nat × List Char))
    (hr : ∀ c, r.head? = some c → p c = false) (a : List Char) (ha : ∀ c ∈ a, p c = true)
    (before : Option Char) (pos : Nat) :
    ∃ l, along p kept before pos (a ++ r) = l ++ [past ⟨before, pos, a ++ r, kept⟩ a r] ∧
      l.length = a.length ∧ ∀ t ∈ l, ∃ u c v, a = u ++ c :: v ∧
        t = past ⟨before, pos, a ++ r, kept⟩ u (c :: v ++ r) := by
  induction a generalizing before pos with
  | nil =>
    refine ⟨[], ?_, rfl, fun t ht => by cases ht⟩
    cases r with
    | nil => simp [along, past]
    | cons c r => simp [along, past, hr c rfl]
  | cons c a ih =>
    obtain ⟨l, hl, hlen, hmem⟩ := ih (fun d hd => ha d (by simp [hd])) (some c) (pos + 1)
    have hstep : ∀ u w, past ⟨some c, pos + 1, a ++ r, kept⟩ u w =
        past ⟨before, pos, c :: a ++ r, kept⟩ (c :: u) w := by
      intro u w
      simp only [past, List.getLast?_cons, List.length_cons, Spot.mk.injEq, true_and]
      refine ⟨?_, by omega, trivial⟩
      cases u.getLast? <;> rfl
    refine ⟨⟨before, pos, c :: (a ++ r), kept⟩ :: l, ?_, by simp [hlen], ?_⟩
    · simp [along, ha c (by simp), hl, hstep]
    · intro t ht
      rcases List.mem_cons.mp ht with rfl | ht
      · exact ⟨[], c, a, rfl, by simp [past]⟩
      · obtain ⟨u, d, v, rfl, rfl⟩ := hmem t ht
        exact ⟨c :: u, d, v, rfl, hstep u _⟩

end Spot

namespace Pattern

variable {β : Type} {p q : Pattern} {k : Spot → Option β} {s : Spot} {x : β}

def Fails (p : Pattern) (s : Spot) : Prop :=
  ∀ (β : Type) (k : Spot → Option β), p.read k s = none

@[simp] theorem read_done : read done k s = k s := rfl

@[simp] theorem read_seq : read (seq p q) k s = read p (read q k) s := rfl

theorem read_text (cs : List Char) : read (text cs) k s = (s.after? cs).bind k := rfl

theorem read_class (f : Char → Bool) : read (one f) k s =
    match s.rest with
    | c :: cs => if f c then k ⟨some c, s.pos + 1, cs, s.kept⟩ else none
    | [] => none := rfl

theorem read_repeat (f : Char → Bool) (least : Nat) : read (run f least) k s =
    ((Spot.along f s.kept s.before s.pos s.rest).drop least).reverse.findSome? k := rfl

theorem read_either : read (either p q) k s =
    match read p k s with
    | some x => some x
    | none => read q k s := rfl

theorem read_many : read (many p) k s = iterate (read p) k s.rest.length s := rfl

theorem read_notAfter (f : Char → Bool) :
    read (notAfter f) k s = if (s.before.map f).getD false then none else k s := rfl

theorem read_unless : read (notBefore p) k s =
    match read p some s with
    | some _ => none
    | none => k s := rfl

theorem read_edge (f : Char → Bool) : read (edge f) k s =
    if (s.before.map f).getD false != (s.rest.head?.map f).getD false then k s else none := rfl

theorem read_keep (slot : Nat) : read (keep slot p) k s =
    read p (fun t => k (t.keeping ((slot, s.rest.take (t.pos - s.pos)) :: t.kept))) s := rfl

theorem read_word {w : String} {r : List Char} (h : s.rest = w.toList ++ r) :
    read (word w) k s = k (s.past w.toList r) := by
  simp [word, read_text, Spot.after?_append h]

theorem read_one {f : Char → Bool} {c : Char} {r : List Char} (h : s.rest = c :: r) (hc : f c = true) :
    read (one f) k s = k (s.past [c] r) := by
  simp [read_class, h, hc, Spot.past]

section Run

variable {f : Char → Bool} {least : Nat} {a r : List Char}

theorem read_run (h : s.rest = a ++ r) (ha : ∀ c ∈ a, f c = true)
    (hr : ∀ c, r.head? = some c → f c = false) (hle : least ≤ a.length)
    (hk : k (s.past a r) = some x) : read (run f least) k s = some x := by
  obtain ⟨l, hl, hlen, -⟩ := Spot.along_append s.kept hr a ha s.before s.pos
  have hpast : Spot.past ⟨s.before, s.pos, a ++ r, s.kept⟩ a r = s.past a r := rfl
  rw [read_repeat, h, hl, List.drop_append_of_le_length (by omega), List.reverse_append, hpast]
  simp [hk]

theorem read_keep_run {slot : Nat} (h : s.rest = a ++ r) (ha : ∀ c ∈ a, f c = true)
    (hr : ∀ c, r.head? = some c → f c = false) (hle : least ≤ a.length)
    (hk : k ((s.past a r).keeping ((slot, a) :: s.kept)) = some x) :
    read (keep slot (run f least)) k s = some x := by
  rw [read_keep]
  refine read_run h ha hr hle ?_
  rw [← hk, h]
  simp

theorem read_run_none (h : s.rest = a ++ r) (ha : ∀ c ∈ a, f c = true)
    (hr : ∀ c, r.head? = some c → f c = false)
    (hk : ∀ u v, a = u ++ v → (v = [] → least ≤ a.length) → k (s.past u (v ++ r)) = none) :
    read (run f least) k s = none := by
  obtain ⟨l, hl, hlen, hmem⟩ := Spot.along_append s.kept hr a ha s.before s.pos
  rw [read_repeat, h, hl, List.findSome?_eq_none_iff]
  intro t ht
  have ht := List.mem_reverse.mp ht
  by_cases hle : least ≤ l.length
  · rw [List.drop_append_of_le_length hle] at ht
    rcases List.mem_append.mp ht with ht | ht
    · obtain ⟨u, c, v, hu, rfl⟩ := hmem t (List.mem_of_mem_drop ht)
      exact hk u (c :: v) hu (fun h => by cases h)
    · rw [List.mem_singleton.mp ht]
      exact hk a [] (by simp) (fun _ => by omega)
  · rw [List.drop_eq_nil_of_le (by simp; omega)] at ht
    cases ht

end Run

theorem read_either_left (h : read p k s = some x) : read (either p q) k s = some x := by
  rw [read_either, h]

theorem read_either_right (h : Fails p s) : read (either p q) k s = read q k s := by
  rw [read_either, h β k]

theorem read_optional_none (h : Fails p s) : read (optional p) k s = k s :=
  read_either_right h

theorem read_many_none (h : Fails p s) : read (many p) k s = k s := by
  rw [read_many]
  cases s.rest.length with
  | zero => rfl
  | succ n => rw [iterate, h β]

theorem read_notBefore (h : Fails p s) : read (notBefore p) k s = k s := by
  rw [read_unless, h Spot some]

theorem fails_seq (h : Fails p s) : Fails (seq p q) s :=
  fun _ _ => h _ _

theorem fails_either (hp : Fails p s) (hq : Fails q s) : Fails (either p q) s :=
  fun _ k => (read_either_right hp).trans (hq _ k)

theorem fails_optional_seq (hp : Fails p s) (hq : Fails q s) : Fails (seq (optional p) q) s :=
  fun _ k => (read_optional_none hp).trans (hq _ k)

theorem fails_word {w : String} (h : ¬ w.toList <+: s.rest) : Fails (word w) s := by
  intro β k
  have h' : w.toList.isPrefixOf s.rest = false := by
    rw [← Bool.not_eq_true, List.isPrefixOf_iff_prefix]
    exact h
  simp [word, read_text, Spot.after?, h']

theorem fails_one {f : Char → Bool} (h : ∀ c, s.rest.head? = some c → f c = false) :
    Fails (one f) s := by
  intro β k
  cases hs : s.rest with
  | nil => simp [read_class, hs]
  | cons c r => simp [read_class, hs, h c (by simp [hs])]

theorem fails_run {f : Char → Bool} {n : Nat} (h : ∀ c, s.rest.head? = some c → f c = false) :
    Fails (run f (n + 1)) s := by
  intro β k
  refine read_run_none (a := []) (by simp) (fun c hc => by cases hc) h fun u v huv hle => ?_
  obtain ⟨-, rfl⟩ := List.append_eq_nil_iff.mp huv.symm
  exact absurd (hle rfl) (by simp)

theorem read_notAfter_none {f : Char → Bool} (h : k s = none) : read (notAfter f) k s = none := by
  rw [read_notAfter, h, ite_self]

theorem read_edge_none {f : Char → Bool} (h : k s = none) : read (edge f) k s = none := by
  rw [read_edge, h, ite_self]

theorem read_word_none {w : String}
    (h : ∀ r, s.rest = w.toList ++ r → k (s.past w.toList r) = none) : read (word w) k s = none := by
  by_cases hw : w.toList <+: s.rest
  · obtain ⟨r, hr⟩ := hw
    rw [read_word hr.symm]
    exact h r hr.symm
  · exact fails_word hw β k

def Found.mark (f : Found) : Nat × List (Nat × List Char) :=
  (f.start, f.after.kept)

/-- From one place to another a scan for `p` finds readings with the given marks. -/
def Scans (p : Pattern) (s : Spot) (marks : List (Nat × List (Nat × List Char))) (t : Spot) : Prop :=
  ∀ n, s.rest.length < n → ∃ m, t.rest.length < m ∧
    (p.findFrom n s).map Found.mark = marks ++ (p.findFrom m t).map Found.mark

section Scan

variable {t u : Spot} {marks marks' : List (Nat × List (Nat × List Char))}

theorem scans_refl (p : Pattern) (s : Spot) : Scans p s [] s :=
  fun n hn => ⟨n, hn, rfl⟩

theorem Scans.trans (h : Scans p s marks t) (h' : Scans p t marks' u) :
    Scans p s (marks ++ marks') u := by
  intro n hn
  obtain ⟨m, hm, heq⟩ := h n hn
  obtain ⟨l, hl, heq'⟩ := h' m hm
  exact ⟨l, hl, by rw [heq, heq', List.append_assoc]⟩

theorem scans_char {c : Char} {r : List Char} (hs : s.rest = c :: r) (h : p.read some s = none) :
    Scans p s [] (s.past [c] r) := by
  intro n hn
  obtain _ | n := n
  · omega
  · refine ⟨n, by simp [hs] at hn ⊢; omega, ?_⟩
    simp [findFrom, h, findFrom.next, hs, Spot.past]

theorem scans_hit (h : p.read some s = some t) (hpos : s.pos < t.pos)
    (hlen : t.rest.length < s.rest.length) :
    Scans p s [(s.pos, t.kept)] (t.keeping []) := by
  intro n hn
  obtain _ | n := n
  · omega
  · exact ⟨n, by simp; omega, by simp [findFrom, h, hpos, Found.mark, Spot.keeping]⟩

theorem findAll_marks {cs : List Char} (h : Scans p (Spot.first cs) marks t) (hend : t.rest = [])
    (hnone : p.read some t = none) : (p.findAll cs).map Found.mark = marks := by
  obtain ⟨m, -, heq⟩ := h (cs.length + 1) (by simp [Spot.first])
  have hnil : p.findFrom m t = [] := by
    cases m with
    | zero => simp [findFrom]
    | succ m => simp [findFrom, hnone, findFrom.next, hend]
  rw [findAll, heq, hnil, List.map_nil, List.append_nil]

end Scan

variable {gate : Char → Bool}

/-- How readings of a pattern begin: with one of several words, which a character of the class `gate`
ends, and with what may follow the word. -/
structure Opening (gate : Char → Bool) where
  words : List (List Char)
  follow : List Char → Bool
  words_plain : ∀ w ∈ words, w ≠ [] ∧ ∀ c ∈ w, gate c = false
  follow_gate : ∀ z, follow z = true → ∃ c r, z = c :: r ∧ gate c = true

def OpensWith (p : Pattern) (o : Opening gate) : Prop :=
  ∀ s, p.read some s ≠ none → ∃ w ∈ o.words, ∃ z, s.rest = w ++ z ∧ o.follow z = true

def Opening.Passes (o : Opening gate) (segment z : List Char) : Prop :=
  o.follow z = false ∨ ∀ w ∈ o.words, ¬ w <:+ segment

theorem eq_of_gate {w x y z : List Char} (hw : ∀ c ∈ w, gate c = false)
    (hx : ∀ c ∈ x, gate c = false) (hy : ∃ c r, y = c :: r ∧ gate c = true)
    (hz : ∀ c, z.head? = some c → gate c = true) (h : w ++ y = x ++ z) : w = x ∧ y = z := by
  induction w generalizing x with
  | nil =>
    obtain ⟨c, r, rfl, hc⟩ := hy
    cases x with
    | nil => exact ⟨rfl, h⟩
    | cons d x =>
      cases h
      rw [hx c (by simp)] at hc
      cases hc
  | cons c w ih =>
    cases x with
    | nil =>
      have hc := hz c (by rw [← List.nil_append z, ← h]; rfl)
      rw [hw c (by simp)] at hc
      cases hc
    | cons d x =>
      obtain ⟨rfl, htail⟩ := List.cons_eq_cons.mp h
      obtain ⟨rfl, rfl⟩ :=
        ih (fun e he => hw e (by simp [he])) (fun e he => hx e (by simp [he])) htail
      exact ⟨rfl, rfl⟩

variable {o : Opening gate} {z : List Char}

theorem OpensWith.read_none (hp : p.OpensWith o) {u v : List Char} (hs : s.rest = v ++ z)
    (hv : ∀ c ∈ v, gate c = false) (hz : ∀ c, z.head? = some c → gate c = true)
    (h : o.Passes (u ++ v) z) : p.read some s = none := by
  refine Classical.byContradiction fun hne => ?_
  obtain ⟨w, hw, y, hrest, hfollow⟩ := hp s hne
  obtain ⟨rfl, rfl⟩ := eq_of_gate (o.words_plain w hw).2 hv (o.follow_gate y hfollow) hz
    (hrest.symm.trans hs)
  rcases h with h | h
  · rw [h] at hfollow
    cases hfollow
  · exact h w hw ⟨u, rfl⟩

theorem scans_segment (hp : p.OpensWith o) {segment : List Char} (hs : s.rest = segment ++ z)
    (hseg : ∀ c ∈ segment, gate c = false) (hz : ∀ c, z.head? = some c → gate c = true)
    (h : o.Passes segment z) : Scans p s [] (s.past segment z) := by
  have hall : ∀ v u, segment = u ++ v → Scans p (s.past u (v ++ z)) [] (s.past segment z) := by
    intro v
    induction v with
    | nil =>
      intro u hu
      rw [hu, List.append_nil]
      exact scans_refl p _
    | cons c v ih =>
      intro u hu
      have hnone : p.read some (s.past u (c :: v ++ z)) = none :=
        hp.read_none rfl (fun d hd => hseg d (by simp [hu, List.mem_cons.mp hd])) hz (hu ▸ h)
      have hstep := scans_char (p := p) (s := s.past u (c :: v ++ z)) rfl hnone
      rw [Spot.past_past] at hstep
      exact hstep.trans (ih (u ++ [c]) (by simp [hu]))
  have hstart := hall segment [] rfl
  rwa [Spot.past_nil s _ hs] at hstart

theorem scans_gate (hp : p.OpensWith o) {g : Char} (hs : s.rest = g :: z) (hg : gate g = true) :
    Scans p s [] (s.past [g] z) := by
  refine scans_char hs ?_
  have hpass : o.Passes ([] ++ []) (g :: z) := .inr fun w hw hsuffix =>
    (o.words_plain w hw).1 (List.suffix_nil.mp hsuffix)
  exact hp.read_none hs (fun c hc => by cases hc) (fun c hc => by cases hc; exact hg) hpass

theorem scans_tile (hp : p.OpensWith o) {segment : List Char} {g : Char}
    (hs : s.rest = segment ++ g :: z) (hseg : ∀ c ∈ segment, gate c = false) (hg : gate g = true)
    (h : o.Passes segment (g :: z)) : Scans p s [] (s.past (segment ++ [g]) z) := by
  have hseg' := scans_segment hp hs hseg (fun c hc => by cases hc; exact hg) h
  have hgate := scans_gate hp (s := s.past segment (g :: z)) rfl hg
  rw [Spot.past_past] at hgate
  exact hseg'.trans hgate

theorem OpensWith.read_end (hp : p.OpensWith o) (hs : s.rest = []) : p.read some s = none := by
  refine hp.read_none (u := []) (v := []) hs (fun c hc => by cases hc) (fun c hc => by cases hc) ?_
  exact .inr fun w hw hsuffix => (o.words_plain w hw).1 (List.suffix_nil.mp hsuffix)

def Covers (p : Pattern) (s : Spot) (marks : List (Nat × List (Nat × List Char)))
    (z : List Char) : Prop :=
  ∃ a, s.rest = a ++ z ∧ Scans p s marks (s.past a z)

def Skips (p : Pattern) (y z : List Char) : Prop :=
  ∀ s : Spot, s.rest = y → Covers p s [] z

section Cover

variable {marks marks' : List (Nat × List (Nat × List Char))} {y : List Char}

theorem Covers.trans (h : Covers p s marks y)
    (h' : ∀ a, s.rest = a ++ y → Covers p (s.past a y) marks' z) : Covers p s (marks ++ marks') z := by
  obtain ⟨a, ha, hscan⟩ := h
  obtain ⟨b, hb, hscan'⟩ := h' a ha
  rw [Spot.past_rest] at hb
  rw [Spot.past_past] at hscan'
  exact ⟨a ++ b, by rw [ha, hb, List.append_assoc], hscan.trans hscan'⟩

theorem Covers.skips (h : Covers p s marks y) (h' : Skips p y z) : Covers p s marks z := by
  have hall := h.trans fun a _ => h' (s.past a y) rfl
  rwa [List.append_nil] at hall

theorem skips_refl (p : Pattern) (z : List Char) : Skips p z z :=
  fun s hs => ⟨[], hs, by rw [Spot.past_nil s z hs]; exact scans_refl p s⟩

theorem Skips.trans {x : List Char} (h : Skips p x y) (h' : Skips p y z) : Skips p x z :=
  fun s hs => (h s hs).skips h'

theorem skips_segment (hp : p.OpensWith o) {segment : List Char}
    (hseg : ∀ c ∈ segment, gate c = false) (hz : ∀ c, z.head? = some c → gate c = true)
    (h : o.Passes segment z) : Skips p (segment ++ z) z :=
  fun _ hs => ⟨segment, hs, scans_segment hp hs hseg hz h⟩

theorem skips_gate (hp : p.OpensWith o) {g : Char} (hg : gate g = true) : Skips p (g :: z) z :=
  fun _ hs => ⟨[g], hs, scans_gate hp hs hg⟩

theorem skips_tile (hp : p.OpensWith o) {segment : List Char} {g : Char}
    (hseg : ∀ c ∈ segment, gate c = false) (hg : gate g = true) (h : o.Passes segment (g :: z)) :
    Skips p (segment ++ g :: z) z :=
  fun _ hs => ⟨segment ++ [g], by simp [hs], scans_tile hp hs hseg hg h⟩

theorem covers_hit {a : List Char} {kept : List (Nat × List Char)} (hs : s.rest = a ++ z)
    (ha : a ≠ []) (hkept : s.kept = [])
    (h : p.read some s = some ((s.past a z).keeping kept)) :
    Covers p s [(s.pos, kept)] z := by
  have hlen : 0 < a.length := List.length_pos_iff.mpr ha
  have hscan := scans_hit h (by simp; omega) (by simp [hs]; omega)
  refine ⟨a, hs, ?_⟩
  have heq : ((s.past a z).keeping kept).keeping [] = s.past a z := by
    simp [Spot.keeping, Spot.past, hkept]
  rwa [← heq]

end Cover

end Pattern

end EdgeAudit.Text
