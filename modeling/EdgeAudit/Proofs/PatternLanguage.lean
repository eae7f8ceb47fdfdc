import EdgeAudit.Proofs.PatternReading
import Mathlib.Logic.Relation

/-!
The readings of a pattern, without the order in which they are tried: a pattern is read if it has a
reading from which the rest goes on.
-/

namespace EdgeAudit.Text

open Relation

namespace Spot

def Ahead (s t : Spot) : Prop :=
  ∃ a, s.rest = a ++ t.rest ∧ t = (s.past a t.rest).keeping t.kept

variable {s t u : Spot}

theorem Ahead.refl (s : Spot) : s.Ahead s := by
  refine ⟨[], rfl, ?_⟩
  rw [past_nil s s.rest rfl]
  rfl

theorem Ahead.trans (h : s.Ahead t) (h' : t.Ahead u) : s.Ahead u := by
  obtain ⟨a, ha, ht⟩ := h
  obtain ⟨b, hb, hu⟩ := h'
  refine ⟨a ++ b, by rw [ha, hb, List.append_assoc], ?_⟩
  rw [hu, ht]
  simp

theorem Ahead.keeping (h : s.Ahead t) (kept : List (Nat × List Char)) : s.Ahead (t.keeping kept) := by
  obtain ⟨a, ha, ht⟩ := h
  refine ⟨a, ha, ?_⟩
  rw [ht]
  simp

theorem ahead_char {c : Char} {cs : List Char} (h : s.rest = c :: cs) :
    s.Ahead { s with before := some c, pos := s.pos + 1, rest := cs } :=
  ⟨[c], h, rfl⟩

theorem Ahead.length_lt (h : s.Ahead t) (hlt : s.pos < t.pos) : t.rest.length < s.rest.length := by
  obtain ⟨a, ha, ht⟩ := h
  have hpos : t.pos = s.pos + a.length := congrArg Spot.pos ht
  rw [ha, List.length_append]
  omega

theorem Ahead.of_le (h : s.Ahead t) (h' : s.Ahead u) (hle : t.pos ≤ u.pos) : t.Ahead u := by
  obtain ⟨a, ha, ht⟩ := h
  obtain ⟨b, hb, hu⟩ := h'
  have hpos : t.pos = s.pos + a.length := congrArg Spot.pos ht
  have hpos' : u.pos = s.pos + b.length := congrArg Spot.pos hu
  obtain ⟨d, rfl⟩ : a <+: b := by
    apply List.prefix_of_prefix_length_le ⟨t.rest, ha.symm⟩ ⟨u.rest, hb.symm⟩
    omega
  have hd : t.rest = d ++ u.rest := by
    rw [ha, List.append_assoc] at hb
    exact List.append_cancel_left hb
  refine ⟨d, hd, ?_⟩
  rw [hu, ht]
  simp

theorem after?_eq_some {cs : List Char} (h : s.after? cs = some t) :
    ∃ r, s.rest = cs ++ r ∧ t = s.past cs r := by
  obtain ⟨r, hr⟩ : cs <+: s.rest := by
    refine Decidable.byContradiction fun hcs => ?_
    simp [after?, hcs] at h
  rw [after?_append hr.symm, Option.some.injEq] at h
  exact ⟨r, hr.symm, h.symm⟩

theorem mem_along_drop {f : Char → Bool} {kept : List (Nat × List Char)} {t : Spot} (least : Nat)
    (before : Option Char) (pos : Nat) (rest : List Char) :
    t ∈ (along f kept before pos rest).drop least ↔ ∃ a r, rest = a ++ r ∧ least ≤ a.length ∧
      (∀ c ∈ a, f c = true) ∧ t = past ⟨before, pos, rest, kept⟩ a r := by
  induction rest generalizing least before pos with
  | nil =>
    cases least with
    | zero =>
      constructor
      · intro h
        exact ⟨[], [], rfl, Nat.le_refl _, by simp, by simpa [along, past] using h⟩
      · rintro ⟨a, r, hr, -, -, rfl⟩
        obtain ⟨rfl, rfl⟩ := List.append_eq_nil_iff.mp hr.symm
        simp [along, past]
    | succ n => simp [along]
  | cons c cs ih =>
    have hstep : ∀ a r, past ⟨some c, pos + 1, cs, kept⟩ a r =
        past ⟨before, pos, c :: cs, kept⟩ (c :: a) r := by
      intro a r
      exact (past_past ⟨before, pos, c :: cs, kept⟩ [c] a r cs)
    have hrest : ∀ n, t ∈ (if f c then along f kept (some c) (pos + 1) cs else []).drop n ↔
        ∃ a r, c :: cs = (c :: a) ++ r ∧ n ≤ a.length ∧ (∀ d ∈ c :: a, f d = true) ∧
          t = past ⟨before, pos, c :: cs, kept⟩ (c :: a) r := by
      intro n
      by_cases hc : f c = true
      · simp only [hc, if_true, ih, hstep, List.cons_append, List.cons.injEq, true_and,
          List.forall_mem_cons]
      · simp [hc]
    cases least with
    | zero =>
      rw [List.drop_zero, along, List.mem_cons, ← List.drop_zero (l := if f c then _ else _), hrest]
      constructor
      · rintro (rfl | ⟨a, r, hr, -, ha, rfl⟩)
        · exact ⟨[], c :: cs, rfl, Nat.zero_le _, by simp, by simp [past]⟩
        · exact ⟨c :: a, r, hr, Nat.zero_le _, ha, rfl⟩
      · rintro ⟨a, r, hr, -, ha, rfl⟩
        cases a with
        | nil =>
          cases hr
          exact .inl (by simp [past])
        | cons d a =>
          cases hr
          exact .inr ⟨a, r, rfl, Nat.zero_le _, ha, rfl⟩
    | succ n =>
      rw [along, List.drop_succ_cons, hrest]
      constructor
      · rintro ⟨a, r, hr, hn, ha, rfl⟩
        exact ⟨c :: a, r, hr, Nat.succ_le_succ hn, ha, rfl⟩
      · rintro ⟨a, r, hr, hn, ha, rfl⟩
        cases a with
        | nil => simp at hn
        | cons d a =>
          cases hr
          exact ⟨a, r, rfl, Nat.le_of_succ_le_succ hn, ha, rfl⟩

theorem mem_along {f : Char → Bool} {kept : List (Nat × List Char)} {t : Spot}
    {before : Option Char} {pos : Nat} {rest : List Char} :
    t ∈ along f kept before pos rest ↔ ∃ a r, rest = a ++ r ∧ (∀ c ∈ a, f c = true) ∧
      t = past ⟨before, pos, rest, kept⟩ a r := by
  rw [← List.drop_zero (l := along f kept before pos rest), mem_along_drop]
  simp only [Nat.zero_le, true_and]

end Spot

namespace Pattern

variable {β : Type} {p q : Pattern} {k : Spot → Option β} {s t : Spot}

/-- A reading of the pattern leads from one place to another. -/
def Reads : Pattern → Spot → Spot → Prop
  | done, s, t => t = s
  | one f, s, t => ∃ c r, s.rest = c :: r ∧ f c = true ∧ t = s.past [c] r
  | text cs, s, t => ∃ r, s.rest = cs ++ r ∧ t = s.past cs r
  | run f least, s, t =>
    ∃ a r, s.rest = a ++ r ∧ least ≤ a.length ∧ (∀ c ∈ a, f c = true) ∧ t = s.past a r
  | fewest f, s, t => ∃ a r, s.rest = a ++ r ∧ (∀ c ∈ a, f c = true) ∧ t = s.past a r
  | seq p q, s, t => ∃ m, Reads p s m ∧ Reads q m t
  | either p q, s, t => Reads p s t ∨ Reads q s t
  | many p, s, t => ReflTransGen (fun s t => Reads p s t ∧ s.pos < t.pos) s t
  | keep slot p, s, t =>
    ∃ m, Reads p s m ∧ t = m.keeping ((slot, s.rest.take (m.pos - s.pos)) :: m.kept)
  | notAfter f, s, t => (s.before.map f).getD false = false ∧ t = s
  | notBefore p, s, t => (∀ m, ¬ Reads p s m) ∧ t = s
  | edge f, s, t =>
    ((s.before.map f).getD false != (s.rest.head?.map f).getD false) = true ∧ t = s

theorem Reads.ahead (h : p.Reads s t) : s.Ahead t := by
  induction p generalizing s t with
  | done => exact h ▸ .refl s
  | one f =>
    obtain ⟨c, r, hs, -, rfl⟩ := h
    exact ⟨[c], hs, rfl⟩
  | text cs =>
    obtain ⟨r, hs, rfl⟩ := h
    exact ⟨cs, hs, rfl⟩
  | run f least =>
    obtain ⟨a, r, hs, -, -, rfl⟩ := h
    exact ⟨a, hs, rfl⟩
  | fewest f =>
    obtain ⟨a, r, hs, -, rfl⟩ := h
    exact ⟨a, hs, rfl⟩
  | seq p q ihp ihq =>
    obtain ⟨m, hp, hq⟩ := h
    exact (ihp hp).trans (ihq hq)
  | either p q ihp ihq => exact h.elim ihp ihq
  | many p ih =>
    induction h with
    | refl => exact .refl s
    | tail _ hstep ihs => exact ihs.trans (ih hstep.1)
  | keep slot p ih =>
    obtain ⟨m, hp, rfl⟩ := h
    exact (ih hp).keeping _
  | notAfter f => exact h.2 ▸ .refl s
  | notBefore p => exact h.2 ▸ .refl s
  | edge f => exact h.2 ▸ .refl s

theorem iterate_reads {step : (Spot → Option β) → Spot → Option β} {R : Spot → Spot → Prop} {x : β}
    (hstep : ∀ (k : Spot → Option β) s x, step k s = some x → ∃ t, R s t ∧ k t = some x)
    {n : Nat} (h : iterate step k n s = some x) :
    ∃ t, ReflTransGen (fun s t => R s t ∧ s.pos < t.pos) s t ∧ k t = some x := by
  induction n generalizing s with
  | zero => exact ⟨s, .refl, h⟩
  | succ n ih =>
    rw [iterate] at h
    split at h
    · rename_i b hb
      cases h
      obtain ⟨m, hm, hk⟩ := hstep _ _ _ hb
      split at hk
      · rename_i hlt
        obtain ⟨t, ht, hk⟩ := ih hk
        exact ⟨t, .head ⟨hm, hlt⟩ ht, hk⟩
      · cases hk
    · exact ⟨s, .refl, h⟩

theorem iterate_returns {step : (Spot → Option β) → Spot → Option β} {R : Spot → Spot → Prop} {x : β}
    (hstep : ∀ (k : Spot → Option β) s t x, R s t → k t = some x → ∃ y, step k s = some y)
    (hahead : ∀ s t, R s t → s.Ahead t) {n : Nat} (hn : s.rest.length ≤ n)
    (hst : ReflTransGen (fun s t => R s t ∧ s.pos < t.pos) s t) (hk : k t = some x) :
    ∃ y, iterate step k n s = some y := by
  -- each step that moves on leaves less to come, so the fuel is enough
  have hshorter : ∀ {s t : Spot}, R s t → s.pos < t.pos → t.rest.length < s.rest.length :=
    fun hst => (hahead _ _ hst).length_lt
  induction n generalizing s with
  | zero =>
    obtain rfl | ⟨m, ⟨hm, hlt⟩, -⟩ := hst.cases_head
    · exact ⟨x, hk⟩
    · have := hshorter hm hlt
      omega
  | succ n ih =>
    rw [iterate]
    cases hmore : step (fun t => if s.pos < t.pos then iterate step k n t else none) s with
    | some y => exact ⟨y, rfl⟩
    | none =>
      obtain rfl | ⟨m, ⟨hm, hlt⟩, hmt⟩ := hst.cases_head
      · exact ⟨x, hk⟩
      · obtain ⟨y, hy⟩ := ih (by have := hshorter hm hlt; omega) hmt
        obtain ⟨z, hz⟩ := hstep (fun t => if s.pos < t.pos then iterate step k n t else none) s m y hm
          (by rw [if_pos hlt, hy])
        rw [hmore] at hz
        cases hz

/-- What is read goes on from one of the readings, and no reading from which the rest goes on is
missed. -/
structure Faithful (p : Pattern) : Prop where
  reads {β : Type} {k : Spot → Option β} {s : Spot} {x : β} :
    p.read k s = some x → ∃ t, p.Reads s t ∧ k t = some x
  returns {β : Type} {k : Spot → Option β} {s t : Spot} {x : β} :
    p.Reads s t → k t = some x → ∃ y, p.read k s = some y

namespace Faithful

theorem read_eq_none (h : p.Faithful) : p.read some s = none ↔ ∀ t, ¬ p.Reads s t := by
  constructor
  · intro hnone t ht
    obtain ⟨y, hy⟩ := h.returns ht rfl
    rw [hnone] at hy
    cases hy
  · intro hno
    cases hread : p.read some s with
    | none => rfl
    | some x =>
      obtain ⟨t, ht, -⟩ := h.reads hread
      exact absurd ht (hno t)

theorem one (f : Char → Bool) : (one f).Faithful where
  reads {_ k s x} h := by
    rw [read_class] at h
    split at h
    · rename_i c r hs
      split at h
      · rename_i hc
        exact ⟨_, ⟨c, r, hs, hc, rfl⟩, h⟩
      · cases h
    · cases h
  returns {_ k s t x} ht hk := by
    obtain ⟨c, r, hs, hc, rfl⟩ := ht
    refine ⟨x, ?_⟩
    simp only [read_class, hs, hc, if_true]
    exact hk

theorem text (cs : List Char) : (text cs).Faithful where
  reads {_ k s x} h := by
    obtain ⟨t, ht, hk⟩ := Option.bind_eq_some_iff.mp (read_text cs ▸ h)
    exact ⟨t, Spot.after?_eq_some ht, hk⟩
  returns {_ k s t x} ht hk := by
    obtain ⟨r, hr, rfl⟩ := ht
    exact ⟨x, by rw [read_text, Spot.after?_append hr]; exact hk⟩

theorem run (f : Char → Bool) (least : Nat) : (run f least).Faithful where
  reads {_ k s x} h := by
    rw [read_repeat] at h
    obtain ⟨t, ht, hk⟩ := List.exists_of_findSome?_eq_some h
    exact ⟨t, (Spot.mem_along_drop ..).mp (List.mem_reverse.mp ht), hk⟩
  returns {_ k s t x} ht hk := by
    have hmem := List.mem_reverse.mpr ((Spot.mem_along_drop ..).mpr ht)
    rw [read_repeat, ← Option.isSome_iff_exists, List.findSome?_isSome_iff]
    exact ⟨t, hmem, by rw [hk]; rfl⟩

theorem fewest (f : Char → Bool) : (fewest f).Faithful where
  reads {_ k s x} h := by
    obtain ⟨t, ht, hk⟩ := List.exists_of_findSome?_eq_some h
    exact ⟨t, Spot.mem_along.mp ht, hk⟩
  returns {_ k s t x} ht hk := by
    have hmem := Spot.mem_along.mpr ht
    rw [read, ← Option.isSome_iff_exists, List.findSome?_isSome_iff]
    exact ⟨t, hmem, by rw [hk]; rfl⟩

theorem seq (hp : p.Faithful) (hq : q.Faithful) : (seq p q).Faithful where
  reads {_ k s x} h := by
    obtain ⟨m, hm, hread⟩ := hp.reads (read_seq ▸ h)
    obtain ⟨t, ht, hk⟩ := hq.reads hread
    exact ⟨t, ⟨m, hm, ht⟩, hk⟩
  returns {_ k s t x} ht hk := by
    obtain ⟨m, hm, ht⟩ := ht
    obtain ⟨y, hy⟩ := hq.returns ht hk
    exact hp.returns hm hy

theorem either (hp : p.Faithful) (hq : q.Faithful) : (either p q).Faithful where
  reads {_ k s x} h := by
    rw [read_either] at h
    split at h
    · rename_i y hy
      cases h
      obtain ⟨t, ht, hk⟩ := hp.reads hy
      exact ⟨t, .inl ht, hk⟩
    · obtain ⟨t, ht, hk⟩ := hq.reads h
      exact ⟨t, .inr ht, hk⟩
  returns {_ k s t x} ht hk := by
    rw [read_either]
    cases hread : p.read k s with
    | some y => exact ⟨y, rfl⟩
    | none =>
      rcases ht with ht | ht
      · obtain ⟨y, hy⟩ := hp.returns ht hk
        rw [hread] at hy
        cases hy
      · exact hq.returns ht hk

theorem many (hp : p.Faithful) : (many p).Faithful where
  reads h := iterate_reads (R := p.Reads) (fun _ _ _ hstep => hp.reads hstep) h
  returns ht hk :=
    iterate_returns (R := p.Reads) (fun _ _ _ _ hst hk => hp.returns hst hk) (fun _ _ h => h.ahead)
      (Nat.le_refl _) ht hk

theorem keep (slot : Nat) (hp : p.Faithful) : (keep slot p).Faithful where
  reads {_ k s x} h := by
    obtain ⟨m, hm, hk⟩ := hp.reads (read_keep slot ▸ h)
    exact ⟨_, ⟨m, hm, rfl⟩, hk⟩
  returns {_ k s t x} ht hk := by
    obtain ⟨m, hm, rfl⟩ := ht
    rw [read_keep]
    exact hp.returns hm hk

theorem notAfter (f : Char → Bool) : (notAfter f).Faithful where
  reads {_ k s x} h := by
    rw [read_notAfter] at h
    split at h
    · cases h
    · rename_i hf
      exact ⟨s, ⟨by simpa using hf, rfl⟩, h⟩
  returns {_ k s t x} ht hk := by
    obtain ⟨hf, rfl⟩ := ht
    exact ⟨x, by rw [read_notAfter, hf]; exact hk⟩

theorem notBefore (hp : p.Faithful) : (notBefore p).Faithful where
  reads {_ k s x} h := by
    rw [read_unless] at h
    split at h
    · cases h
    · rename_i hnone
      exact ⟨s, ⟨hp.read_eq_none.mp hnone, rfl⟩, h⟩
  returns {_ k s t x} ht hk := by
    obtain ⟨hno, rfl⟩ := ht
    exact ⟨x, by rw [read_unless, hp.read_eq_none.mpr hno]; exact hk⟩

theorem edge (f : Char → Bool) : (edge f).Faithful where
  reads {_ k s x} h := by
    rw [read_edge] at h
    split at h
    · rename_i hf
      exact ⟨s, ⟨hf, rfl⟩, h⟩
    · cases h
  returns {_ k s t x} ht hk := by
    obtain ⟨hf, rfl⟩ := ht
    exact ⟨x, by rw [read_edge, if_pos hf]; exact hk⟩

end Faithful

theorem faithful (p : Pattern) : p.Faithful := by
  induction p with
  | done => exact ⟨fun h => ⟨_, rfl, h⟩, fun ht hk => ⟨_, ht ▸ hk⟩⟩
  | one f => exact .one f
  | text cs => exact .text cs
  | run f least => exact .run f least
  | fewest f => exact .fewest f
  | seq p q hp hq => exact hp.seq hq
  | either p q hp hq => exact hp.either hq
  | many p hp => exact hp.many
  | keep slot p hp => exact hp.keep slot
  | notAfter f => exact .notAfter f
  | notBefore p hp => exact hp.notBefore
  | edge f => exact .edge f

theorem read_reads {x : β} (h : p.read k s = some x) : ∃ t, p.Reads s t ∧ k t = some x :=
  p.faithful.reads h

theorem read_returns : (∃ x, p.read k s = some x) ↔ ∃ t, p.Reads s t ∧ ∃ x, k t = some x := by
  constructor
  · rintro ⟨x, h⟩
    obtain ⟨t, ht, hk⟩ := read_reads h
    exact ⟨t, ht, x, hk⟩
  · rintro ⟨t, ht, x, hk⟩
    exact p.faithful.returns ht hk

theorem fits_iff {cs : List Char} :
    p.fits cs = true ↔ ∃ t, p.Reads (Spot.first cs) t ∧ t.rest = [] := by
  rw [fits, readAll?, Option.isSome_iff_exists, read_returns]
  refine exists_congr fun t => and_congr_right fun _ => ?_
  cases t.rest <;> simp

theorem reads_all_cons {a : Pattern} {as : List Pattern} :
    (all (a :: as)).Reads s t ↔ ∃ m, a.Reads s m ∧ (all as).Reads m t := by
  cases as with
  | nil => simp [all, Reads]
  | cons b bs => rfl

end Pattern

end EdgeAudit.Text
