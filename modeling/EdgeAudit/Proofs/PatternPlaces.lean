import EdgeAudit.Proofs.PatternLanguage

namespace EdgeAudit.Text

namespace Spot

structure On (s : Spot) (cs : List Char) : Prop where
  rest : s.rest = cs.drop s.pos
  within : s.pos ≤ cs.length

variable {s t : Spot} {cs : List Char}

theorem on_first (cs : List Char) : (first cs).On cs :=
  ⟨rfl, Nat.zero_le _⟩

theorem On.ahead (h : s.On cs) (ht : s.Ahead t) : t.On cs ∧ s.pos ≤ t.pos := by
  obtain ⟨a, ha, heq⟩ := ht
  have hpos : t.pos = s.pos + a.length := congrArg Spot.pos heq
  have hrest : cs.drop s.pos = a ++ t.rest := h.rest.symm.trans ha
  have hlength := congrArg List.length hrest
  simp only [List.length_drop, List.length_append] at hlength
  have hwithin := h.within
  refine ⟨⟨?_, by omega⟩, by omega⟩
  rw [hpos, ← List.drop_drop, hrest, List.drop_left]

end Spot

namespace Pattern

variable {p : Pattern} {s t u : Spot} {f : Found} {n : Nat} {cs : List Char}

theorem read_on (hs : s.On cs) (h : p.read some s = some t) : t.On cs ∧ s.pos ≤ t.pos := by
  obtain ⟨u, hu, heq⟩ := read_reads h
  cases heq
  exact hs.ahead hu.ahead

structure Found.On (f : Found) (p : Pattern) (cs : List Char) : Prop where
  read : ∃ s : Spot, s.On cs ∧ s.pos = f.start ∧ p.read some s = some f.after
  nonempty : f.start < f.after.pos
  within : f.after.pos ≤ cs.length

theorem findFrom_places (n : Nat) (hs : s.On cs) :
    (∀ f ∈ p.findFrom n s, f.On p cs ∧ s.pos ≤ f.start) ∧
      (p.findFrom n s).Pairwise (fun f g => f.after.pos ≤ g.start) := by
  induction n generalizing s with
  | zero => simp [findFrom]
  | succ n ih =>
    have hnext : (∀ f ∈ findFrom.next p n s, f.On p cs ∧ s.pos ≤ f.start) ∧
        (findFrom.next p n s).Pairwise (fun f g => f.after.pos ≤ g.start) := by
      unfold findFrom.next
      split
      · exact ⟨by simp, .nil⟩
      · rename_i c r hr
        obtain ⟨hon, hle⟩ := hs.ahead (Spot.ahead_char hr)
        obtain ⟨hall, hpair⟩ := ih hon
        exact ⟨fun f hf => ⟨(hall f hf).1, Nat.le_trans hle (hall f hf).2⟩, hpair⟩
    rw [findFrom]
    split
    · rename_i t ht
      obtain ⟨hton, hle⟩ := read_on hs ht
      split
      · rename_i hlt
        have hon : Spot.On { t with kept := [] } cs := ⟨hton.rest, hton.within⟩
        obtain ⟨hall, hpair⟩ := ih hon
        refine ⟨?_, .cons (fun g hg => (hall g hg).2) hpair⟩
        intro f hf
        rcases List.mem_cons.mp hf with rfl | hf
        · exact ⟨⟨⟨s, hs, rfl, ht⟩, hlt, hton.within⟩, Nat.le_refl _⟩
        · exact ⟨(hall f hf).1, Nat.le_trans hle (hall f hf).2⟩
      · exact hnext
    · exact hnext

theorem on_of_mem_findAll (h : f ∈ p.findAll cs) : f.On p cs :=
  ((findFrom_places _ (Spot.on_first cs)).1 f h).1

theorem findAll_disjoint (p : Pattern) (cs : List Char) :
    (p.findAll cs).Pairwise (fun f g => f.after.pos ≤ g.start) :=
  (findFrom_places _ (Spot.on_first cs)).2

theorem findAll_starts (p : Pattern) (cs : List Char) :
    (p.findAll cs).Pairwise (fun f g => f.start < g.start) := by
  refine (findAll_disjoint p cs).imp_of_mem ?_
  intro f g hf _ hfg
  exact Nat.lt_of_lt_of_le (on_of_mem_findAll hf).nonempty hfg

theorem read_of_mem_findFrom (hs : s.kept = []) (h : f ∈ p.findFrom n s) :
    ∃ u, s.Ahead u ∧ u.kept = [] ∧ u.pos = f.start ∧ p.read some u = some f.after := by
  induction n generalizing s with
  | zero => simp [findFrom] at h
  | succ n ih =>
    have hnext : f ∈ findFrom.next p n s →
        ∃ u, s.Ahead u ∧ u.kept = [] ∧ u.pos = f.start ∧ p.read some u = some f.after := by
      intro h
      unfold findFrom.next at h
      split at h
      · cases h
      · rename_i c r hr
        obtain ⟨u, hu, hrest⟩ := ih (by exact hs) h
        exact ⟨u, (Spot.ahead_char hr).trans hu, hrest⟩
    rw [findFrom] at h
    split at h
    · rename_i t ht
      obtain ⟨v, hv, heq⟩ := read_reads ht
      cases heq
      split at h
      · rcases List.mem_cons.mp h with rfl | h
        · exact ⟨s, .refl s, hs, rfl, ht⟩
        · obtain ⟨u, hu, hrest⟩ := ih rfl h
          exact ⟨u, (hv.ahead.keeping []).trans hu, hrest⟩
      · exact hnext h
    · exact hnext h

theorem findFrom_visits (hs : s.kept = []) (hu : u.kept = []) (hahead : s.Ahead u)
    (hread : p.read some u = some t) (hlt : u.pos < t.pos) (hn : s.rest.length < n) :
    ⟨u.pos, t⟩ ∈ p.findFrom n s ∨
      ∃ f ∈ p.findFrom n s, f.start < u.pos ∧ u.pos < f.after.pos := by
  induction n generalizing s with
  | zero => omega
  | succ n ih =>
    obtain ⟨a, ha, hau⟩ := hahead
    cases a with
    | nil =>
      have hsu : u = s := by
        rw [hau, Spot.past_nil s u.rest ha, hu, ← hs]
        rfl
      subst hsu
      rw [findFrom, hread]
      simp [hlt]
    | cons c a =>
      have hpos : u.pos = s.pos + (a.length + 1) := congrArg Spot.pos hau
      have hnext : ⟨u.pos, t⟩ ∈ findFrom.next p n s ∨
          ∃ f ∈ findFrom.next p n s, f.start < u.pos ∧ u.pos < f.after.pos := by
        rw [findFrom.next, ha]
        simp only [List.cons_append]
        apply ih (s := ⟨some c, s.pos + 1, a ++ u.rest, s.kept⟩) hs
        · refine ⟨a, rfl, ?_⟩
          rw [hau]
          exact congrArg (fun s => Spot.keeping s _) (Spot.past_past s [c] a _ _).symm
        · rw [ha] at hn
          simpa using hn
      rw [findFrom]
      split
      · rename_i v hv
        obtain ⟨v', hreads, heq⟩ := read_reads hv
        cases heq
        split
        · rename_i hlt'
          -- a reading found before `u` covers it or ends before it
          by_cases hinside : u.pos < v.pos
          · exact .inr ⟨⟨s.pos, v⟩, List.mem_cons_self, by simp only; omega, hinside⟩
          · have hsu : s.Ahead u := ⟨c :: a, ha, hau⟩
            have hle : v.pos ≤ u.pos := by omega
            have hshort := hreads.ahead.length_lt hlt'
            have hcases := ih rfl ((hreads.ahead.keeping []).of_le hsu hle)
              (Nat.lt_of_lt_of_le hshort (Nat.le_of_lt_succ hn))
            rcases hcases with hmem | ⟨f, hf, hin⟩
            · exact .inl (List.mem_cons_of_mem _ hmem)
            · exact .inr ⟨f, List.mem_cons_of_mem _ hf, hin⟩
        · exact hnext
      · exact hnext

end Pattern

end EdgeAudit.Text
