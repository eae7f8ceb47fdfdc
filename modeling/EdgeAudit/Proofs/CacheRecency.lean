import EdgeAudit.Cache
import Mathlib.Data.List.Nodup
import Mathlib.Data.List.Perm.Basic
import Mathlib.Data.List.Sort

/-!
A cache answers every run of requests as a store does in which each key has the time of its last
touch. The keys of the cache are those of the store in the order of these times.
-/

namespace EdgeAudit

theorem find?_key_eq_some {α : Type} {l : List α} {x : α} {k : String} (key : α → String)
    (hn : (l.map key).Nodup) : l.find? (fun y => key y == k) = some x ↔ x ∈ l ∧ key x = k := by
  constructor
  · intro h
    exact ⟨List.mem_of_find?_eq_some h, by simpa using List.find?_some h⟩
  · rintro ⟨hx, rfl⟩
    cases hf : l.find? (fun y => key y == key x) with
    | none => exact absurd (List.find?_eq_none.mp hf x hx) (by simp)
    | some y =>
      have hk : key y = key x := by simpa using List.find?_some hf
      rw [List.inj_on_of_nodup_map hn (List.mem_of_find?_eq_some hf) hx hk]

namespace Cache

variable {ν κ : Type}

inductive Request (ν κ : Type)
  | get (key : String)
  | getValid (key : String) (stamp : κ)
  | set (key : String) (value : ν) (stamp : κ)
  | delete (key : String)
  | clear
  | contains (key : String)

inductive Answer (ν κ : Type)
  | entry (found : Option (CacheEntry ν κ))
  | value (found : Option ν)
  | present (b : Bool)
  | nothing

def serve [BEq κ] (c : Cache ν κ) : Request ν κ → Answer ν κ × Cache ν κ
  | .get key => (.entry (c.get key).1, (c.get key).2)
  | .getValid key stamp => (.value (c.getValid key stamp).1, (c.getValid key stamp).2)
  | .set key value stamp => (.nothing, c.set key value stamp)
  | .delete key => (.nothing, c.delete key)
  | .clear => (.nothing, c.clear)
  | .contains key => (.present (c.contains key), c)

def serveAll [BEq κ] (c : Cache ν κ) : List (Request ν κ) → List (Answer ν κ) × Cache ν κ
  | [] => ([], c)
  | r :: rs => ((c.serve r).1 :: ((c.serve r).2.serveAll rs).1, ((c.serve r).2.serveAll rs).2)

section Entries

variable {c : Cache ν κ} {key : String} {entry : CacheEntry ν κ}

theorem mem_of_find? (h : c.find? key = some entry) : (key, entry) ∈ c.entries := by
  obtain ⟨e, he, rfl⟩ := Option.map_eq_some_iff.mp h
  have hk : e.1 = key := by simpa using List.find?_some he
  rw [← hk]
  exact List.mem_of_find?_eq_some he

theorem find?_eq_none : c.find? key = none ↔ key ∉ c.keys := by
  rw [find?, Option.map_eq_none_iff, List.find?_eq_none, keys, List.mem_map]
  constructor
  · rintro h ⟨e, he, rfl⟩
    exact h e he (by simp)
  · intro h e he hk
    exact h ⟨e, he, by simpa using hk⟩

theorem find?_eq_some (hn : c.keys.Nodup) : c.find? key = some entry ↔ (key, entry) ∈ c.entries := by
  refine ⟨mem_of_find?, ?_⟩
  intro hmem
  rw [find?, (find?_key_eq_some Prod.fst hn).mpr ⟨hmem, rfl⟩]
  rfl

theorem without_of_find?_none (h : c.find? key = none) : c.without key = c.entries := by
  have habsent := find?_eq_none.mp h
  rw [without, List.filter_eq_self]
  intro e he
  have hne : e.1 ≠ key := fun hk => habsent (List.mem_map.mpr ⟨e, he, hk⟩)
  simpa using hne

theorem get_eq : c.get key = (c.find? key, ((c.find? key).map (c.place key)).getD c) := by
  unfold get
  cases c.find? key <;> rfl

theorem getValid_eq [BEq κ] (stamp : κ) : c.getValid key stamp =
    ((c.find? key).bind fun e => if e.stamp == stamp then some e.value else none, (c.get key).2) := by
  unfold getValid
  rw [get_eq]
  cases c.find? key <;> rfl

end Entries

end Cache

structure Touched (ν κ : Type) where
  key : String
  entry : CacheEntry ν κ
  time : Nat

/-- A store that notes when its keys are touched. Its items stand in no order that matters. -/
structure TimedStore (ν κ : Type) where
  capacity : Nat
  clock : Nat := 0
  items : List (Touched ν κ) := []

namespace TimedStore

open Cache

variable {ν κ : Type}

def stored? (s : TimedStore ν κ) (key : String) : Option (CacheEntry ν κ) :=
  (s.items.find? fun i => i.key == key).map (·.entry)

def next (s : TimedStore ν κ) (items : List (Touched ν κ)) : TimedStore ν κ :=
  { s with items, clock := s.clock + 1 }

def touch (s : TimedStore ν κ) (key : String) : List (Touched ν κ) :=
  s.items.map fun i => if i.key = key then { i with time := s.clock } else i

def withoutOldest (s : TimedStore ν κ) : List (Touched ν κ) :=
  s.items.filter fun i => s.items.any fun j => j.time < i.time

def put (s : TimedStore ν κ) (key : String) (entry : CacheEntry ν κ) : List (Touched ν κ) :=
  if (s.stored? key).isSome then
    s.items.map fun i => if i.key = key then ⟨key, entry, s.clock⟩ else i
  else
    ⟨key, entry, s.clock⟩ :: if s.capacity ≤ s.items.length then s.withoutOldest else s.items

def serve [BEq κ] (s : TimedStore ν κ) : Request ν κ → Answer ν κ × TimedStore ν κ
  | .get key => (.entry (s.stored? key), s.next (s.touch key))
  | .getValid key stamp =>
    (.value ((s.stored? key).bind fun e => if e.stamp == stamp then some e.value else none),
      s.next (s.touch key))
  | .set key value stamp => (.nothing, s.next (s.put key ⟨value, stamp⟩))
  | .delete key => (.nothing, s.next (s.items.filter fun i => i.key ≠ key))
  | .clear => (.nothing, s.next [])
  | .contains key => (.present (s.stored? key).isSome, s.next s.items)

def serveAll [BEq κ] (s : TimedStore ν κ) : List (Request ν κ) → List (Answer ν κ) × TimedStore ν κ
  | [] => ([], s)
  | r :: rs => ((s.serve r).1 :: ((s.serve r).2.serveAll rs).1, ((s.serve r).2.serveAll rs).2)

def byTime (s : TimedStore ν κ) : List (Touched ν κ) :=
  s.items.mergeSort fun i j => i.time ≤ j.time

/-- The entries of a cache are the items `l` of a store, of which the oldest comes first. -/
structure Keeps (c : Cache ν κ) (s : TimedStore ν κ) (l : List (Touched ν κ)) : Prop where
  perm : l.Perm s.items
  order : l.Pairwise (·.time < ·.time)
  entries : c.entries = l.map fun i => (i.key, i.entry)
  distinct : (l.map (·.key)).Nodup
  past : ∀ i ∈ l, i.time < s.clock
  capacity : c.capacity = s.capacity
  room : l.length ≤ s.capacity

section Steps

variable {c : Cache ν κ} {s : TimedStore ν κ} {l : List (Touched ν κ)} {key : String}
  {entry : CacheEntry ν κ}

theorem Keeps.keys (h : s.Keeps c l) : c.keys = l.map (·.key) := by
  simp [Cache.keys, h.entries, Function.comp_def]

theorem Keeps.nodup (h : s.Keeps c l) : c.keys.Nodup :=
  h.keys ▸ h.distinct

theorem Keeps.size (h : s.Keeps c l) : c.size = s.items.length := by
  simp [Cache.size, h.entries, h.perm.length_eq]

theorem Keeps.size_le (h : s.Keeps c l) : c.size ≤ c.capacity := by
  rw [h.size, h.capacity, ← h.perm.length_eq]
  exact h.room

theorem Keeps.find? (h : s.Keeps c l) : c.find? key = s.stored? key := by
  have hdistinct : (s.items.map (·.key)).Nodup := (h.perm.map _).nodup_iff.mp h.distinct
  have hsame : ∀ i, l.find? (fun j => j.key == key) = some i ↔
      s.items.find? (fun j => j.key == key) = some i := by
    intro i
    rw [find?_key_eq_some Touched.key h.distinct, find?_key_eq_some Touched.key hdistinct,
      h.perm.mem_iff]
  rw [stored?, ← Option.ext hsame, Cache.find?, h.entries, List.find?_map, Option.map_map]
  rfl

theorem map_key_perm {items : List (Touched ν κ)} {x : Touched ν κ} (hn : (items.map (·.key)).Nodup)
    (hx : x ∈ items) (g : Touched ν κ → Touched ν κ) :
    (items.map fun i => if i.key = x.key then g i else i).Perm
      (g x :: items.filter fun i => i.key ≠ x.key) := by
  obtain ⟨a, b, rfl⟩ := List.append_of_mem hx
  rw [List.map_append, List.map_cons, List.nodup_middle, List.nodup_cons, ← List.map_append] at hn
  have hne : ∀ i ∈ a ++ b, i.key ≠ x.key := by
    intro i hi hk
    exact hn.1 (List.mem_map.mpr ⟨i, hi, hk⟩)
  have hmap : ∀ m : List (Touched ν κ), (∀ i ∈ m, i.key ≠ x.key) →
      (m.map fun i => if i.key = x.key then g i else i) = m ∧
        (m.filter fun i => i.key ≠ x.key) = m := by
    intro m hm
    refine ⟨?_, List.filter_eq_self.mpr fun i hi => by simpa using hm i hi⟩
    calc (m.map fun i => if i.key = x.key then g i else i)
        = m.map id := List.map_congr_left fun i hi => if_neg (hm i hi)
      _ = m := List.map_id m
  obtain ⟨ha, ha'⟩ := hmap a fun i hi => hne i (List.mem_append_left b hi)
  obtain ⟨hb, hb'⟩ := hmap b fun i hi => hne i (List.mem_append_right a hi)
  rw [List.map_append, List.map_cons, List.filter_append, List.filter_cons_of_neg (by simp), ha, hb,
    ha', hb', if_pos rfl]
  exact List.perm_middle

theorem Keeps.without (h : s.Keeps c l) (key : String) :
    c.without key = (l.filter fun i => i.key ≠ key).map fun i => (i.key, i.entry) := by
  rw [Cache.without, h.entries, List.filter_map]
  congr 1
  apply List.filter_congr
  intro i _
  rw [Bool.eq_iff_iff]
  simp

theorem Keeps.place (h : s.Keeps c l) {items : List (Touched ν κ)}
    (hitems : items.Perm (⟨key, entry, s.clock⟩ :: l.filter fun i => i.key ≠ key))
    (hroom : (l.filter fun i => i.key ≠ key).length < s.capacity) :
    (s.next items).Keeps (c.place key entry)
      ((l.filter fun i => i.key ≠ key) ++ [⟨key, entry, s.clock⟩]) where
  perm := (List.perm_append_singleton _ _).trans hitems.symm
  order := by
    rw [List.pairwise_append]
    refine ⟨h.order.filter _, List.pairwise_singleton _ _, ?_⟩
    intro i hi j hj
    rw [List.mem_singleton.mp hj]
    exact h.past i (List.mem_of_mem_filter hi)
  entries := by
    simp only [Cache.place, h.without, List.map_append, List.map_cons, List.map_nil]
  distinct := by
    rw [List.map_append, List.nodup_append]
    refine ⟨(List.filter_sublist.map _).nodup h.distinct, by simp, ?_⟩
    intro a ha b hb
    obtain ⟨i, hi, rfl⟩ := List.mem_map.mp ha
    simp only [List.map_cons, List.map_nil, List.mem_singleton] at hb
    rw [hb]
    simpa using (List.mem_filter.mp hi).2
  past := by
    intro i hi
    rcases List.mem_append.mp hi with hi | hi
    · have := h.past i (List.mem_of_mem_filter hi)
      simp only [next]
      omega
    · rw [List.mem_singleton.mp hi]
      simp [next]
  capacity := h.capacity
  room := by
    simp only [List.length_append, List.length_cons, List.length_nil, next]
    omega

theorem Keeps.tick (h : s.Keeps c l) : (s.next s.items).Keeps c l :=
  { h with past := fun i hi => Nat.lt_succ_of_lt (h.past i hi) }

theorem Keeps.present (h : s.Keeps c l) {x : Touched ν κ} (hx : x ∈ l) :
    (l.filter fun i => i.key ≠ x.key).length < s.capacity := by
  have hfewer : (l.filter fun i => i.key ≠ x.key).length < l.length := by
    rw [List.length_filter_lt_length_iff_exists]
    exact ⟨x, hx, by simp⟩
  exact hfewer.trans_le h.room

theorem Keeps.replace (h : s.Keeps c l) {x : Touched ν κ} (hx : x ∈ l) (entry : CacheEntry ν κ)
    (g : Touched ν κ → Touched ν κ) (hg : g x = ⟨x.key, entry, s.clock⟩) :
    (s.next (s.items.map fun i => if i.key = x.key then g i else i)).Keeps (c.place x.key entry)
      ((l.filter fun i => i.key ≠ x.key) ++ [⟨x.key, entry, s.clock⟩]) := by
  refine h.place ?_ (h.present hx)
  rw [← hg]
  exact (h.perm.symm.map _).trans (map_key_perm h.distinct hx g)

theorem Keeps.withoutOldest (h : s.Keeps c l) : s.withoutOldest.Perm l.tail := by
  have hfilter : s.withoutOldest.Perm (l.filter fun i => s.items.any fun j => j.time < i.time) :=
    h.perm.symm.filter _
  cases l with
  | nil => exact hfilter
  | cons x l =>
    obtain ⟨hx, -⟩ := List.pairwise_cons.mp h.order
    have hold : (s.items.any fun j => j.time < x.time) = false := by
      rw [List.any_eq_false]
      intro j hj
      rcases List.mem_cons.mp (h.perm.mem_iff.mpr hj) with rfl | hj
      · simp
      · have := hx j hj
        simp
        omega
    have hyoung : (l.filter fun i => s.items.any fun j => j.time < i.time) = l := by
      rw [List.filter_eq_self]
      intro i hi
      rw [List.any_eq_true]
      exact ⟨x, h.perm.mem_iff.mp (by simp), by simpa using hx i hi⟩
    rw [List.filter_cons_of_neg (by simp [hold]), hyoung] at hfilter
    exact hfilter

theorem Keeps.find?_some (h : s.Keeps c l) (he : c.find? key = some entry) :
    ∃ x ∈ l, x.key = key ∧ x.entry = entry := by
  have hmem := mem_of_find? he
  rw [h.entries, List.mem_map] at hmem
  obtain ⟨x, hx, hpair⟩ := hmem
  cases hpair
  exact ⟨x, hx, rfl, rfl⟩

theorem Keeps.find?_none (h : s.Keeps c l) (he : c.find? key = none) : ∀ i ∈ l, i.key ≠ key := by
  intro i hi hk
  apply find?_eq_none.mp he
  rw [h.keys]
  exact List.mem_map.mpr ⟨i, hi, hk⟩

theorem Keeps.get (h : s.Keeps c l) (key : String) :
    ∃ l', (s.next (s.touch key)).Keeps (c.get key).2 l' := by
  rw [get_eq]
  cases hf : c.find? key with
  | none =>
    have hsame : s.touch key = s.items := by
      calc s.touch key = s.items.map id := List.map_congr_left fun i hi =>
            if_neg (h.find?_none hf i (h.perm.mem_iff.mpr hi))
        _ = s.items := List.map_id _
    rw [hsame]
    exact ⟨l, h.tick⟩
  | some entry =>
    obtain ⟨x, hx, rfl, rfl⟩ := h.find?_some hf
    exact ⟨_, h.replace hx x.entry (fun i => { i with time := s.clock }) rfl⟩

theorem Keeps.set (h : s.Keeps c l) (hcap : 1 ≤ s.capacity) (key : String) (value : ν) (stamp : κ) :
    ∃ l', (s.next (s.put key ⟨value, stamp⟩)).Keeps (c.set key value stamp) l' := by
  unfold Cache.set Cache.contains put
  rw [← h.find?]
  cases hf : c.find? key with
  | some entry =>
    obtain ⟨x, hx, rfl, -⟩ := h.find?_some hf
    exact ⟨_, h.replace hx ⟨value, stamp⟩ (fun _ => ⟨x.key, ⟨value, stamp⟩, s.clock⟩) rfl⟩
  | none =>
    have habsent := h.find?_none hf
    have hplain : ∀ m : List (Touched ν κ), m.Sublist l → (m.filter fun i => i.key ≠ key) = m := by
      intro m hm
      exact List.filter_eq_self.mpr fun i hi => by simpa using habsent i (hm.subset hi)
    simp only [Option.isSome_none, Bool.false_eq_true, if_false]
    have hsize := h.size
    have hcapacity := h.capacity
    have hlength := h.perm.length_eq
    have hroom := h.room
    unfold Cache.evict
    by_cases hfull : s.capacity ≤ s.items.length
    · rw [if_pos (by omega), if_pos hfull]
      -- Without its oldest item the store has room again, and the cache has lost its first entry.
      have hfewer : ({ s with items := s.withoutOldest } : TimedStore ν κ).Keeps
          { c with entries := c.entries.drop 1 } l.tail :=
        { perm := h.withoutOldest.symm
          order := h.order.tail
          entries := by simp [h.entries, List.map_tail]
          distinct := (List.map_tail ▸ h.distinct.tail)
          past := fun i hi => h.past i (List.mem_of_mem_tail hi)
          capacity := h.capacity
          room := by
            rw [List.length_tail]
            exact (Nat.sub_le _ _).trans hroom }
      refine ⟨_, hfewer.place ?_ ?_⟩
      · rw [hplain _ (List.tail_sublist l)]
        exact h.withoutOldest.cons _
      · rw [hplain _ (List.tail_sublist l), List.length_tail]
        simp only
        omega
    · rw [if_neg (by omega), if_neg hfull]
      refine ⟨_, h.place ?_ ?_⟩
      · rw [hplain _ (List.Sublist.refl l)]
        exact h.perm.symm.cons _
      · rw [hplain _ (List.Sublist.refl l)]
        omega

theorem Keeps.delete (h : s.Keeps c l) (key : String) :
    (s.next (s.items.filter fun i => i.key ≠ key)).Keeps (c.delete key)
      (l.filter fun i => i.key ≠ key) where
  perm := h.perm.filter _
  order := h.order.filter _
  entries := h.without key
  distinct := (List.filter_sublist.map _).nodup h.distinct
  past := fun i hi => Nat.lt_succ_of_lt (h.past i (List.mem_of_mem_filter hi))
  capacity := h.capacity
  room := (List.length_filter_le _ _).trans h.room

theorem Keeps.clear (h : s.Keeps c l) : (s.next []).Keeps c.clear [] where
  perm := .refl []
  order := .nil
  entries := rfl
  distinct := .nil
  past := by simp
  capacity := h.capacity
  room := Nat.zero_le _

theorem serve_keeps [BEq κ] (h : s.Keeps c l) (hcap : 1 ≤ s.capacity) (r : Request ν κ) :
    (c.serve r).1 = (s.serve r).1 ∧ ∃ l', (s.serve r).2.Keeps (c.serve r).2 l' := by
  cases r with
  | get key =>
    refine ⟨?_, h.get key⟩
    simp [Cache.serve, serve, get_eq, h.find?]
  | getValid key stamp =>
    refine ⟨?_, ?_⟩
    · simp [Cache.serve, serve, getValid_eq, h.find?]
    · simpa [Cache.serve, serve, getValid_eq] using h.get key
  | set key value stamp => exact ⟨rfl, h.set hcap key value stamp⟩
  | delete key => exact ⟨rfl, _, h.delete key⟩
  | clear => exact ⟨rfl, _, h.clear⟩
  | contains key =>
    refine ⟨?_, l, h.tick⟩
    simp [Cache.serve, serve, Cache.contains, h.find?]

theorem serve_capacity [BEq κ] (r : Request ν κ) : (s.serve r).2.capacity = s.capacity := by
  cases r <;> rfl

theorem serveAll_capacity [BEq κ] (rs : List (Request ν κ)) :
    (s.serveAll rs).2.capacity = s.capacity := by
  induction rs generalizing s with
  | nil => rfl
  | cons r rs ih => exact ih.trans (serve_capacity r)

theorem serveAll_keeps [BEq κ] (h : s.Keeps c l) (hcap : 1 ≤ s.capacity) (rs : List (Request ν κ)) :
    (c.serveAll rs).1 = (s.serveAll rs).1 ∧ ∃ l', (s.serveAll rs).2.Keeps (c.serveAll rs).2 l' := by
  induction rs generalizing c s l with
  | nil => exact ⟨rfl, l, h⟩
  | cons r rs ih =>
    obtain ⟨hanswer, l', h'⟩ := serve_keeps h hcap r
    obtain ⟨hanswers, hrest⟩ := ih h' (by rw [serve_capacity]; exact hcap)
    exact ⟨by rw [Cache.serveAll, serveAll, hanswer, hanswers], hrest⟩

theorem Keeps.byTime (h : s.Keeps c l) : s.byTime = l := by
  have htimes : (l.map (·.time)).Nodup :=
    List.pairwise_map.mpr (h.order.imp fun hlt => Nat.ne_of_lt hlt)
  have hperm : s.byTime.Perm l := (List.mergeSort_perm _ _).trans h.perm.symm
  have hsorted : s.byTime.Pairwise fun i j => i.time ≤ j.time := by
    refine (List.pairwise_mergeSort ?_ ?_ s.items).imp of_decide_eq_true
    · intro i j k hij hjk
      simp only [decide_eq_true_eq] at hij hjk ⊢
      omega
    · intro i j
      simp only [Bool.or_eq_true, decide_eq_true_eq]
      omega
  refine hperm.eq_of_pairwise ?_ hsorted (h.order.imp Nat.le_of_lt)
  intro i j hi hj hij hji
  exact List.inj_on_of_nodup_map htimes (hperm.mem_iff.mp hi) hj (Nat.le_antisymm hij hji)

end Steps

theorem keeps_empty (capacity : Nat) :
    ({ capacity } : TimedStore ν κ).Keeps (⟨capacity, []⟩ : Cache ν κ) [] where
  perm := .refl []
  order := .nil
  entries := rfl
  distinct := .nil
  past := by simp
  capacity := rfl
  room := Nat.zero_le _

end TimedStore

namespace Cache

variable {ν κ : Type}

theorem create_eq_ok {capacity : Int} (h : 1 ≤ capacity) :
    (create capacity : Except CacheError (Cache ν κ)) = .ok ⟨capacity.toNat, []⟩ :=
  if_neg (by omega)

/-- Over every run of requests a cache answers as the store with times does. It has the items of the
store in the order in which they were last touched, no two of them at one time, and what a full store
gives up is the first of them. -/
theorem serveAll_timed [BEq κ] (capacity : Int) (h : 1 ≤ capacity) (rs : List (Request ν κ)) :
    ∃ c : Cache ν κ, create capacity = .ok c ∧
      (c.serveAll rs).1 = (({ capacity := capacity.toNat } : TimedStore ν κ).serveAll rs).1 ∧
      let s := (({ capacity := capacity.toNat } : TimedStore ν κ).serveAll rs).2
      (c.serveAll rs).2.entries = (s.byTime.map fun i => (i.key, i.entry)) ∧
      (c.serveAll rs).2.keys = s.byTime.map (·.key) ∧ (c.serveAll rs).2.keys.Nodup ∧
      s.byTime.Perm s.items ∧ s.byTime.Pairwise (·.time < ·.time) ∧
      s.withoutOldest.Perm s.byTime.tail ∧ (c.serveAll rs).2.size ≤ capacity.toNat := by
  have hcap : 1 ≤ capacity.toNat := by omega
  obtain ⟨hanswers, l, hkeeps⟩ := TimedStore.serveAll_keeps (TimedStore.keeps_empty capacity.toNat) hcap rs
  refine ⟨_, create_eq_ok h, hanswers, ?_⟩
  simp only [hkeeps.byTime]
  refine ⟨hkeeps.entries, hkeeps.keys, hkeeps.nodup, hkeeps.perm, hkeeps.order,
    hkeeps.withoutOldest, ?_⟩
  have hroom := hkeeps.size_le
  rwa [hkeeps.capacity, TimedStore.serveAll_capacity] at hroom

theorem serveAll_timed_mismatch : (1 : Int) ≤ 2 ∧
    (({ capacity := 2 } : TimedStore Nat Nat).serveAll
      [.set "a" 1 10, .set "b" 2 10, .getValid "a" 11, .set "c" 3 10]).2.byTime.map (·.key) =
      ["a", "c"] := by
  refine ⟨by decide, ?_⟩
  obtain ⟨c, hc, -, -, hkeys, -⟩ := serveAll_timed (ν := Nat) (κ := Nat) 2 (by decide)
    [.set "a" 1 10, .set "b" 2 10, .getValid "a" 11, .set "c" 3 10]
  rw [create_eq_ok (by decide)] at hc
  cases hc
  exact hkeys.symm.trans (by decide +kernel)

end Cache

end EdgeAudit
