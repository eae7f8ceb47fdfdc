import EdgeAudit.Proofs.CacheRecency

namespace EdgeAudit.Cache

variable {ν κ : Type} {c small large : Cache ν κ} {key : String} {entry : CacheEntry ν κ}

section Sizes

theorem length_without_of_none (h : c.find? key = none) : (c.without key).length = c.size := by
  rw [without_of_find?_none h, size]

theorem length_without_of_some (hn : c.keys.Nodup) (h : c.find? key = some entry) :
    (c.without key).length + 1 = c.size := by
  have hone : (c.entries.filter fun e => e.1 == key).length = 1 := by
    have hcount : c.keys.count key = 1 :=
      List.count_eq_one_of_mem hn (List.mem_map_of_mem (mem_of_find? h))
    rw [← hcount, keys, List.count, List.countP_map, List.countP_eq_length_filter]
    rfl
  have hsplit := List.length_eq_length_filter_add (l := c.entries) fun e => e.1 == key
  rw [hone] at hsplit
  rw [size, hsplit, without, Nat.add_comm]
  rfl

theorem evict_sublist : c.evict.entries.Sublist c.entries := by
  unfold evict
  split
  · exact List.drop_sublist 1 c.entries
  · exact List.Sublist.refl _

theorem evict_find? (h : c.find? key = none) : c.evict.find? key = none := by
  rw [find?_eq_none] at h ⊢
  exact fun hmem => h ((evict_sublist.map _).subset hmem)

theorem evict_size : c.evict.size = if c.capacity ≤ c.size then c.size - 1 else c.size := by
  unfold evict
  split
  · simp [size]
  · rfl

theorem evict_capacity : c.evict.capacity = c.capacity := by
  unfold evict
  split <;> rfl

theorem set_of_some {value : ν} {stamp : κ} (h : c.find? key = some entry) :
    c.set key value stamp = c.place key ⟨value, stamp⟩ := by
  simp [set, contains, h]

theorem set_of_none {value : ν} {stamp : κ} (h : c.find? key = none) :
    c.set key value stamp = c.evict.place key ⟨value, stamp⟩ := by
  simp [set, contains, h]

theorem place_size : (c.place key entry).size = (c.without key).length + 1 := by
  simp [size, place]

end Sizes

/-- The entries of one cache are among those of another one, in the same order, and the other one has
no less room left. -/
structure Inside (small large : Cache ν κ) : Prop where
  sublist : small.entries.Sublist large.entries
  slack : small.capacity + large.size ≤ large.capacity + small.size

namespace Inside

theorem keys (h : small.Inside large) : small.keys.Sublist large.keys :=
  h.sublist.map _

theorem find? (h : small.Inside large) (hn : large.keys.Nodup) (he : small.find? key = some entry) :
    large.find? key = some entry :=
  (find?_eq_some hn).mpr (h.sublist.subset (mem_of_find? he))

theorem place (hsub : small.entries.Sublist large.entries) (entry : CacheEntry ν κ)
    (hslack : small.capacity + (large.without key).length ≤ large.capacity + (small.without key).length) :
    (small.place key entry).Inside (large.place key entry) where
  sublist := (hsub.filter _).append (List.Sublist.refl _)
  slack := by
    rw [place_size, place_size]
    simp only [Cache.place]
    omega

theorem get (h : small.Inside large) (hs : small.keys.Nodup) (hl : large.keys.Nodup) (key : String) :
    (small.get key).2.Inside (large.get key).2 := by
  have hslack := h.slack
  rw [get_eq, get_eq]
  cases hsmall : small.find? key with
  | some entry =>
    have hlarge := h.find? hl hsmall
    have hsize := length_without_of_some hs hsmall
    have hsize' := length_without_of_some hl hlarge
    rw [hlarge]
    exact place h.sublist entry (by omega)
  | none =>
    cases hlarge : large.find? key with
    | none => exact h
    | some entry =>
      have hsub : small.entries.Sublist (large.without key) := by
        rw [← without_of_find?_none hsmall]
        exact h.sublist.filter _
      have hsize := length_without_of_some hl hlarge
      refine ⟨hsub.trans (List.sublist_append_left _ _), ?_⟩
      simp only [Option.map_none, Option.getD_none, Option.map_some, Option.getD_some, place_size]
      simp only [Cache.place]
      omega

theorem set (h : small.Inside large) (hs : small.keys.Nodup) (hl : large.keys.Nodup)
    (hcap : 1 ≤ small.capacity) (hroom : small.size ≤ small.capacity)
    (hroom' : large.size ≤ large.capacity) (key : String) (value : ν) (stamp : κ) :
    (small.set key value stamp).Inside (large.set key value stamp) := by
  have hslack := h.slack
  have hfewer : small.size ≤ large.size := h.sublist.length_le
  cases hsmall : small.find? key with
  | some entry =>
    have hlarge := h.find? hl hsmall
    have hsize := length_without_of_some hs hsmall
    have hsize' := length_without_of_some hl hlarge
    rw [set_of_some hsmall, set_of_some hlarge]
    exact place h.sublist _ (by omega)
  | none =>
    have hsize := length_without_of_none (evict_find? hsmall)
    rw [evict_size] at hsize
    rw [set_of_none hsmall]
    cases hlarge : large.find? key with
    | some entry =>
      have hsize' := length_without_of_some hl hlarge
      rw [set_of_some hlarge]
      refine place (evict_sublist.trans h.sublist) _ ?_
      rw [evict_capacity]
      split at hsize <;> omega
    | none =>
      have hsize' := length_without_of_none (evict_find? hlarge)
      rw [evict_size] at hsize'
      rw [set_of_none hlarge]
      refine place ?_ _ ?_
      · by_cases hfull : large.capacity ≤ large.size
        · have hfull' : small.capacity ≤ small.size := by omega
          simp only [evict, if_pos hfull, if_pos hfull', List.drop_one]
          exact h.sublist.tail
        · simp only [evict, if_neg hfull]
          exact evict_sublist.trans h.sublist
      · rw [evict_capacity, evict_capacity]
        split at hsize <;> split at hsize' <;> omega

theorem delete (h : small.Inside large) (hs : small.keys.Nodup) (hl : large.keys.Nodup) (key : String) :
    (small.delete key).Inside (large.delete key) where
  sublist := h.sublist.filter _
  slack := by
    have hslack := h.slack
    change small.capacity + (large.without key).length ≤ large.capacity + (small.without key).length
    cases hsmall : small.find? key with
    | some entry =>
      have hsize := length_without_of_some hs hsmall
      have hsize' := length_without_of_some hl (h.find? hl hsmall)
      omega
    | none =>
      have hsize := length_without_of_none hsmall
      have hsize' : (large.without key).length ≤ large.size := List.length_filter_le _ _
      omega

end Inside

section Runs

variable [BEq κ] {s t : TimedStore ν κ} {l m : List (Touched ν κ)}

theorem serve_inside (hs : s.Keeps small l) (ht : t.Keeps large m) (hcap : 1 ≤ s.capacity)
    (h : small.Inside large) (r : Request ν κ) : (small.serve r).2.Inside (large.serve r).2 := by
  have hsmall := hs.nodup
  have hlarge := ht.nodup
  cases r with
  | get key => exact h.get hsmall hlarge key
  | getValid key stamp =>
    simp only [serve, getValid_eq]
    exact h.get hsmall hlarge key
  | set key value stamp =>
    exact h.set hsmall hlarge (hs.capacity ▸ hcap) hs.size_le ht.size_le key value stamp
  | delete key => exact h.delete hsmall hlarge key
  | clear =>
    refine ⟨List.Sublist.refl _, ?_⟩
    have hslack := h.slack
    have hfewer : small.size ≤ large.size := h.sublist.length_le
    simp only [serve, clear, size, List.length_nil]
    omega
  | contains key => exact h

theorem serveAll_inside (hs : s.Keeps small l) (ht : t.Keeps large m) (hcap : 1 ≤ s.capacity)
    (hcap' : 1 ≤ t.capacity) (h : small.Inside large) (rs : List (Request ν κ)) :
    (small.serveAll rs).2.Inside (large.serveAll rs).2 := by
  induction rs generalizing small large s t l m with
  | nil => exact h
  | cons r rs ih =>
    obtain ⟨-, _, hs'⟩ := TimedStore.serve_keeps hs hcap r
    obtain ⟨-, _, ht'⟩ := TimedStore.serve_keeps ht hcap' r
    apply ih hs' ht'
    · rw [TimedStore.serve_capacity]
      exact hcap
    · rw [TimedStore.serve_capacity]
      exact hcap'
    · exact serve_inside hs ht hcap h r

/-- After every run of requests the keys of a cache come in the same order in one with more room, with
the same values and stamps, and what is found in the one is found in the other. -/
theorem serveAll_included (n m : Int) (hn : 1 ≤ n) (hnm : n ≤ m) (rs : List (Request ν κ)) :
    ∃ small large : Cache ν κ, create n = .ok small ∧ create m = .ok large ∧
      let s := (small.serveAll rs).2
      let l := (large.serveAll rs).2
      s.keys.Sublist l.keys ∧ (∀ key ∈ s.keys, s.find? key = l.find? key) ∧
      (∀ key entry, (s.get key).1 = some entry → (l.get key).1 = some entry) ∧
      ∀ key stamp value, (s.getValid key stamp).1 = some value →
        (l.getValid key stamp).1 = some value := by
  have hs := TimedStore.keeps_empty (ν := ν) (κ := κ) n.toNat
  have hl := TimedStore.keeps_empty (ν := ν) (κ := κ) m.toNat
  have hcap : 1 ≤ n.toNat := by omega
  have hcap' : 1 ≤ m.toNat := by omega
  have hstart : Inside (⟨n.toNat, []⟩ : Cache ν κ) ⟨m.toNat, []⟩ :=
    ⟨List.Sublist.refl _, by simp only [size, List.length_nil]; omega⟩
  refine ⟨_, _, create_eq_ok hn, create_eq_ok (hn.trans hnm), ?_⟩
  have h := serveAll_inside hs hl hcap hcap' hstart rs
  obtain ⟨-, _, hl'⟩ := TimedStore.serveAll_keeps hl hcap' rs
  have hfind : ∀ key entry, (serveAll (⟨n.toNat, []⟩ : Cache ν κ) rs).2.find? key = some entry →
      (serveAll (⟨m.toNat, []⟩ : Cache ν κ) rs).2.find? key = some entry :=
    fun key entry => h.find? hl'.nodup
  refine ⟨h.keys, ?_, ?_, ?_⟩
  · intro key hkey
    cases hf : (serveAll (⟨n.toNat, []⟩ : Cache ν κ) rs).2.find? key with
    | none => exact absurd hkey (find?_eq_none.mp hf)
    | some entry => exact (hfind key entry hf).symm
  · intro key entry hget
    rw [get_eq] at hget ⊢
    exact hfind key entry hget
  · intro key stamp value hget
    rw [getValid_eq] at hget ⊢
    obtain ⟨entry, hentry, hvalue⟩ := Option.bind_eq_some_iff.mp hget
    exact Option.bind_eq_some_iff.mpr ⟨entry, hfind key entry hentry, hvalue⟩

theorem serveAll_included_sample : (1 : Int) ≤ 1 ∧ (1 : Int) ≤ 2 ∧ ∃ small large : Cache Nat Nat,
    create 1 = .ok small ∧ create 2 = .ok large ∧
      (small.serveAll [.set "a" 1 10, .set "b" 2 10, .get "a"]).2.keys.Sublist
        (large.serveAll [.set "a" 1 10, .set "b" 2 10, .get "a"]).2.keys ∧
      (small.serveAll [.set "a" 1 10, .set "b" 2 10, .get "a"]).2.keys = ["b"] ∧
      (large.serveAll [.set "a" 1 10, .set "b" 2 10, .get "a"]).2.keys = ["b", "a"] := by
  refine ⟨by decide, by decide, ?_⟩
  obtain ⟨small, large, hsmall, hlarge, hkeys, -⟩ := serveAll_included (ν := Nat) (κ := Nat) 1 2
    (by decide) (by decide) [.set "a" 1 10, .set "b" 2 10, .get "a"]
  refine ⟨small, large, hsmall, hlarge, hkeys, ?_⟩
  rw [create_eq_ok (by decide)] at hsmall hlarge
  cases hsmall
  cases hlarge
  decide +kernel

end Runs

end EdgeAudit.Cache
