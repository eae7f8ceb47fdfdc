import EdgeAudit.Proofs.PatternPlaces
import Mathlib.Computability.Language

namespace EdgeAudit.Text.Pattern

open Relation Computability

variable {p q : Pattern} {L M : Language Char} {s t : Spot} {slot : Nat}
  {K N : List Char → Language Char}

def Recognises (p : Pattern) (L : Language Char) : Prop :=
  ∀ s t, p.Reads s t ↔ ∃ w ∈ L, ∃ r, s.rest = w ++ r ∧ t = s.past w r

theorem recognises_done : Recognises done 1 := by
  intro s t
  constructor
  · intro h
    exact ⟨[], Language.nil_mem_one, s.rest, rfl, h.trans (Spot.past_nil s s.rest rfl).symm⟩
  · rintro ⟨w, hw, r, hs, rfl⟩
    rw [Language.mem_one] at hw
    subst hw
    exact Spot.past_nil s r hs

theorem recognises_text (cs : List Char) : Recognises (text cs) {cs} := by
  intro s t
  constructor
  · rintro ⟨r, hs, ht⟩
    exact ⟨cs, rfl, r, hs, ht⟩
  · rintro ⟨w, rfl, r, hs, ht⟩
    exact ⟨r, hs, ht⟩

def runs (kind : Char → Prop) : Language Char :=
  {w | ∀ c ∈ w, kind c}

def someRuns (kind : Char → Prop) : Language Char :=
  {w | w ≠ [] ∧ ∀ c ∈ w, kind c}

theorem recognises_run (f : Char → Bool) : Recognises (run f 0) (runs (f · = true)) := by
  intro s t
  constructor
  · rintro ⟨a, r, hs, -, ha, ht⟩
    exact ⟨a, ha, r, hs, ht⟩
  · rintro ⟨a, ha, r, hs, ht⟩
    exact ⟨a, r, hs, Nat.zero_le _, ha, ht⟩

theorem recognises_run_one (f : Char → Bool) : Recognises (run f 1) (someRuns (f · = true)) := by
  intro s t
  constructor
  · rintro ⟨a, r, hs, hlength, ha, ht⟩
    exact ⟨a, ⟨List.ne_nil_of_length_pos hlength, ha⟩, r, hs, ht⟩
  · rintro ⟨a, ⟨hne, ha⟩, r, hs, ht⟩
    exact ⟨a, r, hs, List.length_pos_of_ne_nil hne, ha, ht⟩

theorem recognises_fewest (f : Char → Bool) : Recognises (fewest f) (runs (f · = true)) := by
  intro s t
  constructor
  · rintro ⟨a, r, hs, ha, ht⟩
    exact ⟨a, ha, r, hs, ht⟩
  · rintro ⟨a, ha, r, hs, ht⟩
    exact ⟨a, r, hs, ha, ht⟩

theorem Recognises.seq (hp : Recognises p L) (hq : Recognises q M) :
    Recognises (seq p q) (L * M) := by
  intro s t
  constructor
  · rintro ⟨m, hm, ht⟩
    obtain ⟨a, ha, r, hs, rfl⟩ := (hp s m).mp hm
    obtain ⟨b, hb, r', rfl, rfl⟩ := (hq _ t).mp ht
    exact ⟨a ++ b, Language.append_mem_mul ha hb, r', by simp [hs], by simp⟩
  · rintro ⟨w, hw, r, hs, rfl⟩
    obtain ⟨a, ha, b, hb, rfl⟩ := Language.mem_mul.mp hw
    refine ⟨s.past a (b ++ r), (hp _ _).mpr ⟨a, ha, b ++ r, by simp [hs], rfl⟩, ?_⟩
    exact (hq _ _).mpr ⟨b, hb, r, rfl, by simp⟩

theorem Recognises.either (hp : Recognises p L) (hq : Recognises q M) :
    Recognises (either p q) (L + M) := by
  intro s t
  rw [Reads, hp s t, hq s t]
  simp only [Language.mem_add, or_and_right, exists_or]

theorem Recognises.optional (hp : Recognises p L) : Recognises (optional p) (1 + L) :=
  add_comm L 1 ▸ hp.either recognises_done

theorem Recognises.many (hp : Recognises p L) : Recognises (many p) L∗ := by
  intro s t
  constructor
  · intro h
    induction h using ReflTransGen.head_induction_on with
    | refl => exact ⟨[], Language.nil_mem_kstar L, t.rest, rfl, (Spot.past_nil t t.rest rfl).symm⟩
    | @head s m hstep _ ih =>
      obtain ⟨a, ha, r, hs, rfl⟩ := (hp s m).mp hstep.1
      obtain ⟨b, hb, r', rfl, rfl⟩ := ih
      refine ⟨a ++ b, ?_, r', by simp [hs], by simp⟩
      rw [← Language.one_add_self_mul_kstar_eq_kstar]
      exact .inr (Language.append_mem_mul ha hb)
  · rintro ⟨w, hw, r, hs, rfl⟩
    rw [Language.kstar_def_nonempty] at hw
    obtain ⟨words, rfl, hwords⟩ := hw
    induction words generalizing s with
    | nil =>
      rw [List.flatten_nil, Spot.past_nil s r hs]
      exact ReflTransGen.refl
    | cons a words ih =>
      obtain ⟨ha, hne⟩ := hwords a List.mem_cons_self
      have hstep : p.Reads s (s.past a (words.flatten ++ r)) :=
        (hp _ _).mpr ⟨a, ha, _, by simpa using hs, rfl⟩
      have hlt : s.pos < (s.past a (words.flatten ++ r)).pos := by
        have := List.length_pos_of_ne_nil hne
        rw [Spot.past_pos]
        omega
      refine ReflTransGen.head ⟨hstep, hlt⟩ ?_
      have hrest := ih (s.past a (words.flatten ++ r))
        (fun y hy => hwords y (List.mem_cons_of_mem _ hy)) rfl
      simpa [Reads] using hrest

/-- The pattern reads the texts of the languages `K v` and keeps the text `v` of each of them. -/
def Extracts (p : Pattern) (slot : Nat) (K : List Char → Language Char) : Prop :=
  ∀ s t, p.Reads s t ↔ ∃ v, ∃ w ∈ K v, ∃ r, s.rest = w ++ r ∧
    t = (s.past w r).keeping ((slot, v) :: s.kept)

def only (L : Language Char) (v : List Char) : Language Char :=
  {w | w = v ∧ v ∈ L}

theorem Recognises.keep (hp : Recognises p L) : Extracts (keep slot p) slot (only L) := by
  intro s t
  constructor
  · rintro ⟨m, hm, rfl⟩
    obtain ⟨w, hw, r, hs, rfl⟩ := (hp s m).mp hm
    exact ⟨w, w, ⟨rfl, hw⟩, r, hs, by simp [hs]⟩
  · rintro ⟨v, w, ⟨rfl, hw⟩, r, hs, rfl⟩
    exact ⟨s.past w r, (hp _ _).mpr ⟨w, hw, r, hs, rfl⟩, by simp [hs]⟩

theorem Recognises.extracts_seq (hp : Recognises p L) (hq : Extracts q slot K) :
    Extracts (Pattern.seq p q) slot fun v => L * K v := by
  intro s t
  constructor
  · rintro ⟨m, hm, ht⟩
    obtain ⟨a, ha, r, hs, rfl⟩ := (hp s m).mp hm
    obtain ⟨v, b, hb, r', rfl, rfl⟩ := (hq _ t).mp ht
    exact ⟨v, a ++ b, Language.append_mem_mul ha hb, r', by simp [hs], by simp⟩
  · rintro ⟨v, w, hw, r, hs, rfl⟩
    obtain ⟨a, ha, b, hb, rfl⟩ := Language.mem_mul.mp hw
    refine ⟨s.past a (b ++ r), (hp _ _).mpr ⟨a, ha, b ++ r, by simp [hs], rfl⟩, ?_⟩
    exact (hq _ _).mpr ⟨v, b, hb, r, rfl, by simp⟩

theorem Extracts.seq (hp : Extracts p slot K) (hq : Recognises q M) :
    Extracts (seq p q) slot fun v => K v * M := by
  intro s t
  constructor
  · rintro ⟨m, hm, ht⟩
    obtain ⟨v, a, ha, r, hs, rfl⟩ := (hp s m).mp hm
    obtain ⟨b, hb, r', rfl, rfl⟩ := (hq _ t).mp ht
    exact ⟨v, a ++ b, Language.append_mem_mul ha hb, r', by simp [hs], by simp⟩
  · rintro ⟨v, w, hw, r, hs, rfl⟩
    obtain ⟨a, ha, b, hb, rfl⟩ := Language.mem_mul.mp hw
    refine ⟨(s.past a (b ++ r)).keeping _, (hp _ _).mpr ⟨v, a, ha, b ++ r, by simp [hs], rfl⟩, ?_⟩
    exact (hq _ _).mpr ⟨b, hb, r, rfl, by simp⟩

theorem Extracts.either (hp : Extracts p slot K) (hq : Extracts q slot N) :
    Extracts (either p q) slot fun v => K v + N v := by
  intro s t
  rw [Reads, hp s t, hq s t]
  simp only [Language.mem_add, or_and_right, exists_or]

theorem Extracts.congr (hp : Extracts p slot K) (h : ∀ v, K v = N v) : Extracts p slot N :=
  funext h ▸ hp

def ExtractsAfter (p : Pattern) (allows : Option Char → Prop) (slot : Nat)
    (K : List Char → Language Char) : Prop :=
  ∀ s t, p.Reads s t ↔ allows s.before ∧ ∃ v, ∃ w ∈ K v, ∃ r, s.rest = w ++ r ∧
    t = (s.past w r).keeping ((slot, v) :: s.kept)

theorem Extracts.notAfter {f : Char → Bool} (hp : Extracts p slot K) :
    ExtractsAfter (Pattern.seq (notAfter f) p) (fun b => ∀ c ∈ b, f c = false) slot K := by
  intro s t
  have hbefore : (s.before.map f).getD false = false ↔ ∀ c ∈ s.before, f c = false := by
    cases s.before <;> simp
  simp only [Reads, hp _ t, hbefore]
  constructor
  · rintro ⟨m, ⟨hf, rfl⟩, h⟩
    exact ⟨hf, h⟩
  · rintro ⟨hf, h⟩
    exact ⟨s, ⟨hf, rfl⟩, h⟩

theorem Extracts.edge {f : Char → Bool} (hp : Extracts p slot K)
    (hhead : ∀ v, ∀ w ∈ K v, ∃ c, w.head? = some c ∧ f c = true) :
    ExtractsAfter (Pattern.seq (edge f) p) (fun b => ∀ c ∈ b, f c = false) slot K := by
  intro s t
  have hedge : p.Reads s t → (((s.before.map f).getD false != (s.rest.head?.map f).getD false) = true ↔
      ∀ c ∈ s.before, f c = false) := by
    intro h
    obtain ⟨v, w, hw, r, hs, -⟩ := (hp s t).mp h
    obtain ⟨c, hc, hf⟩ := hhead v w hw
    have hrest : (s.rest.head?.map f).getD false = true := by
      rw [hs, List.head?_append, hc]
      exact hf
    rw [hrest]
    cases s.before <;> simp
  rw [← hp s t]
  constructor
  · rintro ⟨m, ⟨hf, rfl⟩, h⟩
    exact ⟨(hedge h).mp hf, h⟩
  · rintro ⟨hf, h⟩
    exact ⟨s, ⟨(hedge h).mpr hf, rfl⟩, h⟩

section Scan

variable {allows : Option Char → Prop} {cs a w r v : List Char} {f : Found}

theorem mem_of_findAll (hp : ExtractsAfter p allows slot K) (hf : f ∈ p.findAll cs) :
    ∃ a v w r, cs = a ++ w ++ r ∧ allows a.getLast? ∧ w ∈ K v ∧
      f.start = a.length ∧ f.after.pos = a.length + w.length ∧
      f.after.get? slot = some (String.ofList v) := by
  obtain ⟨u, ⟨a, ha, hau⟩, hkept, hpos, hread⟩ := read_of_mem_findFrom (s := Spot.first cs) rfl hf
  obtain ⟨t, ht, heq⟩ := read_reads hread
  cases heq
  obtain ⟨hallows, v, w, hw, r, hr, hafter⟩ := (hp u f.after).mp ht
  have hbefore : u.before = a.getLast? := by
    rw [hau]
    exact Option.or_none
  have hstart : u.pos = a.length := by
    rw [hau]
    exact Nat.zero_add _
  refine ⟨a, v, w, r, ?_, hbefore ▸ hallows, hw, by rw [← hpos, hstart], ?_, ?_⟩
  · rw [List.append_assoc, ← hr]
    exact ha
  · rw [hafter, Spot.keeping_pos, Spot.past_pos, hstart]
  · simp [hafter, Spot.get?]

theorem findAll_covers (hp : ExtractsAfter p allows slot K) (hne : ∀ v, [] ∉ K v)
    (hcs : cs = a ++ w ++ r) (ha : allows a.getLast?) (hw : w ∈ K v) :
    ∃ f ∈ p.findAll cs, f.start ≤ a.length ∧ a.length < f.after.pos := by
  have hahead : (Spot.first cs).Ahead ((Spot.first cs).past a (w ++ r)) :=
    ⟨a, hcs.trans (List.append_assoc ..), rfl⟩
  generalize hu : (Spot.first cs).past a (w ++ r) = u at hahead
  have hpos : u.pos = a.length := by
    rw [← hu]
    exact Nat.zero_add _
  have hreads : p.Reads u ((u.past w r).keeping ((slot, v) :: u.kept)) := by
    refine (hp _ _).mpr ⟨?_, v, w, hw, r, by rw [← hu]; rfl, rfl⟩
    rw [← hu, Spot.past_before, Spot.first, Option.or_none]
    exact ha
  obtain ⟨t, ht⟩ := (read_returns (k := some)).mpr ⟨_, hreads, _, rfl⟩
  have hlt : u.pos < t.pos := by
    obtain ⟨t', ht', heq⟩ := read_reads ht
    cases heq
    obtain ⟨-, v', w', hw', r', -, rfl⟩ := (hp u t).mp ht'
    have hlength : 0 < w'.length := List.length_pos_of_ne_nil fun h => hne v' (h ▸ hw')
    simp only [Spot.keeping_pos, Spot.past_pos]
    omega
  have hkept : u.kept = [] := by rw [← hu]; rfl
  rcases findFrom_visits rfl hkept hahead ht hlt (Nat.lt_succ_self _) with hmem | ⟨f, hf, hlo, hhi⟩
  · exact ⟨_, hmem, Nat.le_of_eq hpos, hpos ▸ hlt⟩
  · exact ⟨f, hf, by omega, by omega⟩

end Scan

end EdgeAudit.Text.Pattern
