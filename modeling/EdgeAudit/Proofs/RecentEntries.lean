import EdgeAudit.Proofs.CacheInclusion
import EdgeAudit.Proofs.CachedOutcome

namespace EdgeAudit.Cache

variable {ν κ : Type} {c : Cache ν κ} {files : List String} {key other : String}
  {entry : CacheEntry ν κ} {value : ν} {stamp : κ}

structure Sound (c : Cache ν κ) : Prop where
  room : 1 ≤ c.capacity
  served : ∃ (s : TimedStore ν κ) (l : List (Touched ν κ)), s.Keeps c l

theorem Sound.nodup (h : c.Sound) : c.keys.Nodup := by
  obtain ⟨s, l, hkeeps⟩ := h.served
  exact hkeeps.nodup

theorem sound_create {capacity : Int} (h : create capacity = .ok c) : c.Sound := by
  unfold create at h
  split at h
  · cases h
  · cases h
    exact ⟨by simp only; omega, _, _, TimedStore.keeps_empty capacity.toNat⟩

theorem Sound.serve [BEq κ] (h : c.Sound) (r : Request ν κ) :
    (c.serve r).2.Sound ∧ (c.serve r).2.capacity = c.capacity := by
  obtain ⟨s, l, hkeeps⟩ := h.served
  have hroom := h.room
  rw [hkeeps.capacity] at hroom
  obtain ⟨-, l', hkeeps'⟩ := TimedStore.serve_keeps hkeeps hroom r
  have hcapacity : (c.serve r).2.capacity = c.capacity := by
    rw [hkeeps'.capacity, TimedStore.serve_capacity, hkeeps.capacity]
  exact ⟨⟨hcapacity ▸ h.room, _, _, hkeeps'⟩, hcapacity⟩

def Stale (key : String) (stamp : κ) (k : String) (e : CacheEntry ν κ) : Prop :=
  k = key → e.stamp ≠ stamp

/-- An entry after which only files among `files` were used. -/
def Guarded (files : List String) (c : Cache ν κ) (key : String) (entry : CacheEntry ν κ) : Prop :=
  ∃ before after, c.entries = before ++ (key, entry) :: after ∧ ∀ e ∈ after, e.1 ∈ files

theorem guarded_place : (c.place key entry).Guarded files key entry :=
  ⟨c.without key, [], rfl, by simp⟩

namespace Guarded

theorem mem (h : c.Guarded files key entry) : (key, entry) ∈ c.entries := by
  obtain ⟨before, after, he, -⟩ := h
  simp [he]

theorem place (h : c.Guarded files key entry) (hother : other ∈ files) (hne : other ≠ key)
    (e : CacheEntry ν κ) : (c.place other e).Guarded files key entry := by
  obtain ⟨before, after, he, hafter⟩ := h
  refine ⟨before.filter fun e => e.1 != other, (after.filter fun e => e.1 != other) ++ [(other, e)],
    ?_, ?_⟩
  · simp [Cache.place, without, he, hne.symm]
  · intro x hx
    rcases List.mem_append.mp hx with hx | hx
    · exact hafter x (List.mem_of_mem_filter hx)
    · rw [List.mem_singleton.mp hx]
      exact hother

theorem evict (h : c.Guarded files key entry) (hn : c.keys.Nodup) (hkey : key ∈ files)
    (hother : other ∈ files) (habsent : c.find? other = none) (hfit : files.length ≤ c.capacity) :
    c.evict.Guarded files key entry := by
  obtain ⟨before, after, he, hafter⟩ := h
  unfold Cache.evict
  split
  next hfull =>
    cases before with
    | cons e before => exact ⟨before, after, by simp [he], hafter⟩
    | nil =>
      have hkeys : c.keys = key :: after.map (·.1) := by simp [keys, he]
      have hnodup : (other :: key :: after.map (·.1)).Nodup :=
        List.nodup_cons.mpr ⟨hkeys ▸ find?_eq_none.mp habsent, hkeys ▸ hn⟩
      have hsub : other :: key :: after.map (·.1) ⊆ files := by
        intro k hk
        simp only [List.mem_cons, List.mem_map] at hk
        rcases hk with rfl | rfl | ⟨e, hmem, rfl⟩
        · exact hother
        · exact hkey
        · exact hafter e hmem
      have hlength := (List.subperm_of_subset hnodup hsub).length_le
      simp only [List.length_cons, List.length_map] at hlength
      have hsize : c.size = after.length + 1 := by simp [size, he]
      omega
  next => exact ⟨before, after, he, hafter⟩

theorem set (h : c.Guarded files key entry) (hn : c.keys.Nodup) (hkey : key ∈ files)
    (hother : other ∈ files) (hne : other ≠ key) (hfit : files.length ≤ c.capacity) (value : ν)
    (stamp : κ) : (c.set other value stamp).Guarded files key entry := by
  cases hf : c.find? other with
  | some e =>
    rw [set_of_some hf]
    exact h.place hother hne _
  | none =>
    rw [set_of_none hf]
    exact (h.evict hn hkey hother hf hfit).place hother hne _

theorem getValid [BEq κ] (h : c.Guarded files key entry) (hn : c.keys.Nodup) (hother : other ∈ files)
    (stamp : κ) : (c.getValid other stamp).2.Guarded files key entry := by
  rw [getValid_eq, get_eq]
  cases hf : c.find? other with
  | none => exact h
  | some e =>
    by_cases hne : other = key
    · have he : c.find? other = some entry := hne ▸ (find?_eq_some hn).mpr h.mem
      rw [hf] at he
      cases he
      exact hne ▸ guarded_place
    · exact h.place hother hne e

end Guarded

theorem guarded_set : (c.set key value stamp).Guarded files key ⟨value, stamp⟩ :=
  guarded_place

section Stamps

variable [BEq κ] [LawfulBEq κ]

theorem getValid_of_mem (hn : c.keys.Nodup) (h : (key, ⟨value, stamp⟩) ∈ c.entries) :
    (c.getValid key stamp).1 = some value := by
  rw [getValid_eq, (find?_eq_some hn).mpr h]
  simp

theorem guarded_getValid (hn : c.keys.Nodup) (h : (c.getValid key stamp).1 = some value) :
    (c.getValid key stamp).2.Guarded files key ⟨value, stamp⟩ := by
  have hf := (find?_eq_some hn).mpr (mem_of_getValid h)
  rw [getValid_eq, get_eq, hf]
  exact guarded_place

theorem stale_of_getValid (hn : c.keys.Nodup) (h : (c.getValid key stamp).1 = none) :
    c.Forall (Stale key stamp) := by
  rintro ⟨k, e⟩ hmem rfl rfl
  rw [getValid_of_mem hn hmem] at h
  cases h

end Stamps

end EdgeAudit.Cache
