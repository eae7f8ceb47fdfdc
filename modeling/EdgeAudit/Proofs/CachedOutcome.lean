import EdgeAudit.Proofs.CacheRecency
import EdgeAudit.Proofs.Interleaving

namespace EdgeAudit

namespace Cache

variable {ν κ : Type} {P : String → CacheEntry ν κ → Prop} {c : Cache ν κ} {key : String}

def Forall (P : String → CacheEntry ν κ → Prop) (c : Cache ν κ) : Prop :=
  ∀ e ∈ c.entries, P e.1 e.2

theorem forall_create {capacity : Int} (h : Cache.create capacity = .ok c) : c.Forall P := by
  unfold create at h
  split at h
  · cases h
  · cases h
    intro e he
    cases he

theorem forall_place {entry : CacheEntry ν κ} (hc : c.Forall P) (he : P key entry) :
    (c.place key entry).Forall P := by
  intro e hmem
  rcases List.mem_append.mp hmem with hmem | hmem
  · exact hc e (List.mem_of_mem_filter hmem)
  · rw [List.mem_singleton.mp hmem]
    exact he

theorem forall_evict (hc : c.Forall P) : c.evict.Forall P := by
  unfold evict
  split
  · exact fun e he => hc e (List.mem_of_mem_drop he)
  · exact hc

theorem forall_set {value : ν} {stamp : κ} (hc : c.Forall P) (he : P key ⟨value, stamp⟩) :
    (c.set key value stamp).Forall P := by
  unfold set
  split
  · exact forall_place hc he
  · exact forall_place (forall_evict hc) he

variable [BEq κ]

theorem forall_getValid (hc : c.Forall P) (stamp : κ) : (c.getValid key stamp).2.Forall P := by
  unfold getValid get
  cases hf : c.find? key with
  | none => exact hc
  | some entry => exact forall_place hc (hc _ (mem_of_find? hf))

theorem mem_of_getValid [LawfulBEq κ] {stamp : κ} {value : ν}
    (h : (c.getValid key stamp).1 = some value) : (key, ⟨value, stamp⟩) ∈ c.entries := by
  unfold getValid get at h
  cases hf : c.find? key with
  | none => simp [hf] at h
  | some entry =>
    have hmem := mem_of_find? hf
    by_cases hs : entry.stamp == stamp
    · simp only [hf, hs, ↓reduceIte, Option.some.injEq] at h
      rw [← h, ← eq_of_beq hs]
      exact hmem
    · simp [hf, hs] at h

end Cache

namespace ScanState

def Stores (P : String → CacheEntry (List Finding) Int → Prop) (st : ScanState) : Prop :=
  ∀ c, st.cache = some c → c.Forall P

variable {P : String → CacheEntry (List Finding) Int → Prop} {st : ScanState} {path : String}

theorem stores_lookup (h : st.Stores P) (mtime : Int) : (st.lookup path mtime).2.Stores P := by
  unfold lookup
  cases hc : st.cache with
  | none => exact h
  | some c =>
    intro c' hc'
    cases hc'
    exact Cache.forall_getValid (h c hc) mtime

theorem lookup_some {mtime : Int} {findings : List Finding} (h : st.Stores P)
    (hl : (st.lookup path mtime).1 = some findings) : P path ⟨findings, mtime⟩ := by
  unfold lookup at hl
  cases hc : st.cache with
  | none => simp [hc] at hl
  | some c =>
    simp only [hc] at hl
    exact h c hc _ (Cache.mem_of_getValid hl)

end ScanState

namespace Scanner

variable {s : Scanner} {f : Files} {P : String → CacheEntry (List Finding) Int → Prop}

def Serves (s : Scanner) (f : Files) (path : String) (entry : CacheEntry (List Finding) Int) :
    Prop :=
  ∀ file, s.vet f path = .ok file → file.mtime = entry.stamp →
    s.alone f path = .ok { path, findings := entry.value }

/-- `P` holds of what is stored while the files are `f`, and entries with `P` serve them. -/
structure Reliable (s : Scanner) (f : Files) (P : String → CacheEntry (List Finding) Int → Prop) :
    Prop where
  serves : ∀ {path entry}, P path entry → s.Serves f path entry
  stored : ∀ {path file findings}, s.vet f path = .ok file →
    s.alone f path = .ok { path, findings } → P path ⟨findings, file.mtime⟩

theorem serves_reliable (s : Scanner) (f : Files) : s.Reliable f (s.Serves f) where
  serves h := h
  stored _ ha _ _ _ := ha

def Known (s : Scanner) (f : Files) (path : String) : Stage → Prop
  | .waiting => True
  | .reading file => s.vet f path = .ok file
  | .judging file text => s.vet f path = .ok file ∧ f.readText file.place = .ok text
  | .done scan => s.alone f path = .ok { scan with fromCache := false }

theorem fileStep_known (hP : s.Reliable f P) {path : String} {stage stage' : Stage}
    {st st' : ScanState} (h : FileStep s f path stage st stage' st') (hk : s.Known f path stage)
    (hst : st.Stores P) : s.Known f path stage' ∧ st'.Stores P := by
  cases h with
  | finish h =>
    rcases inspect_cases s f st path with ⟨fault, text, hv, hi⟩ | ⟨file, findings, text, hv, hl, hi⟩ |
      ⟨file, hv, hl, hi⟩
    · simp only [hi, Prod.mk.injEq, Inspection.finished.injEq] at h
      obtain ⟨rfl, rfl⟩ := h
      exact ⟨alone_rejected hv, hst⟩
    · simp only [hi, Prod.mk.injEq, Inspection.finished.injEq] at h
      obtain ⟨rfl, rfl⟩ := h
      have hp := ScanState.lookup_some hst hl
      exact ⟨hP.serves hp file hv rfl, ScanState.stores_lookup hst file.mtime⟩
    · simp [hi] at h
  | suspend h =>
    rcases inspect_cases s f st path with ⟨fault, text, hv, hi⟩ | ⟨file, findings, text, hv, hl, hi⟩ |
      ⟨file, hv, hl, hi⟩
    · simp [hi] at h
    · simp [hi] at h
    · simp only [hi, Prod.mk.injEq, Inspection.pending.injEq] at h
      obtain ⟨rfl, rfl⟩ := h
      exact ⟨hv, ScanState.stores_lookup hst file.mtime⟩
  | @fail st st' file fault scan hr h =>
    have hpath := vet_path hk
    simp only [finish, hr, Except.ok.injEq, Prod.mk.injEq, hpath] at h
    obtain ⟨rfl, rfl⟩ := h
    exact ⟨alone_unreadable hk hr, hst⟩
  | read hr => exact ⟨⟨hk, hr⟩, hst⟩
  | @judge st st' file text scan h =>
    obtain ⟨hscan, hc, hcache⟩ := evaluate_eq_ok h
    have hpath := vet_path hk.1
    have ha : s.alone f path = .ok scan := by
      rw [alone, sight_readable hk.1 hk.2, ← hpath]
      exact hscan
    rw [hpath] at hcache
    refine ⟨?_, ?_⟩
    · rw [Known, ha, ← hc]
    · rcases hcache with he | ⟨hs, he⟩
      · intro c hc'
        exact hst c (he ▸ hc')
      · intro c hc'
        rw [he] at hc'
        obtain ⟨c₀, hc₀, rfl⟩ := Option.map_eq_some_iff.mp hc'
        exact Cache.forall_set (hst c₀ hc₀) (hP.stored hk.1 (hs ▸ ha))

theorem scans_known (hP : s.Reliable f P) {changes : ChangeSet} {elapsed : Number.Binary64}
    {cache : Option FindingCache} {out : ScanOutcome} (hcache : ∀ c, cache = some c → c.Forall P)
    (h : s.Scans f changes elapsed cache out) :
    ∃ found notes scans, s.discover f = .ok (found, notes) ∧
      List.Forall₂ (fun path scan => s.alone f path = .ok { scan with fromCache := false })
        (s.selected changes found).1 scans ∧
      out.result = resultOf scans cache.isSome (.real (elapsed.scale 1000)) ∧
      ∀ c, out.cache = some c → c.Forall P := by
  obtain ⟨-, found, notes, scans, p, hd, hrun, rfl⟩ := h
  have hk := hrun.holds (Q := s.Known f) (C := (·.Stores P)) (fun _ => trivial)
    (fun _ _ _ _ _ step => fileStep_known hP step) hcache
  rw [flatten_batches] at hk
  exact ⟨found, notes, scans, hd, hk.1, rfl, hk.2⟩

end Scanner

end EdgeAudit
