import EdgeAudit.Proofs.FileWrites
import EdgeAudit.Proofs.PathParts
import Mathlib.Data.List.Dedup
import Mathlib.Data.List.Perm.Subperm

/-!
What links stand for: a way leads somewhere if every link on it can be replaced by what its target
leads to. The real path of a way that leads somewhere is where it leads, and has no links.
-/

namespace EdgeAudit

namespace Entry

open EdgeAudit.Path

variable {root : Entry} {here ws way mid w w' : List String} {n target : String} {j k k' : Nat}

def linkStart (here : List String) (target : String) : List String :=
  if isAbsolute target then [] else here

/-- The names `ws`, followed from `here`, lead to `w` in `k` steps. Names that are not there stay as
they are, and a link is replaced by what its target leads to. -/
inductive Leads (root : Entry) : Nat → List String → List String → List String → Prop
  | here {here : List String} : Leads root 0 here [] here
  | stay {k : Nat} {here rest w : List String} {n : String} (hn : n = ".")
      (h : Leads root k here rest w) : Leads root (k + 1) here (n :: rest) w
  | up {k : Nat} {here rest w : List String} {n : String} (hn : n = "..")
      (h : Leads root k here.dropLast rest w) : Leads root (k + 1) here (n :: rest) w
  | into {k : Nat} {here rest w : List String} {n : String} (hn : IsOrdinary n)
      (hat : ∀ target, root.at? (here ++ [n]) ≠ some (.link target))
      (h : Leads root k (here ++ [n]) rest w) : Leads root (k + 1) here (n :: rest) w
  | through {j k : Nat} {here rest mid w : List String} {n target : String} (hn : IsOrdinary n)
      (hat : root.at? (here ++ [n]) = some (.link target))
      (ht : Leads root j (linkStart here target) (parts target) mid)
      (h : Leads root k mid rest w) : Leads root (j + k + 1) here (n :: rest) w

theorem Leads.unique (h : root.Leads k here ws w) (h' : root.Leads k' here ws w') :
    k = k' ∧ w = w' := by
  induction h generalizing k' w' with
  | here =>
    cases h'
    exact ⟨rfl, rfl⟩
  | stay hn _ ih =>
    cases h' with
    | stay _ h' =>
      obtain ⟨rfl, rfl⟩ := ih h'
      exact ⟨rfl, rfl⟩
    | up hn' => simp [hn] at hn'
    | into hn' => exact absurd hn hn'.2.1
    | through hn' => exact absurd hn hn'.2.1
  | up hn _ ih =>
    cases h' with
    | stay hn' => simp [hn] at hn'
    | up _ h' =>
      obtain ⟨rfl, rfl⟩ := ih h'
      exact ⟨rfl, rfl⟩
    | into hn' => exact absurd hn hn'.2.2
    | through hn' => exact absurd hn hn'.2.2
  | into hn hat _ ih =>
    cases h' with
    | stay hn' => exact absurd hn' hn.2.1
    | up hn' => exact absurd hn' hn.2.2
    | into _ _ h' =>
      obtain ⟨rfl, rfl⟩ := ih h'
      exact ⟨rfl, rfl⟩
    | through _ hat' => exact absurd hat' (hat _)
  | through hn hat _ _ iht ih =>
    cases h' with
    | stay hn' => exact absurd hn' hn.2.1
    | up hn' => exact absurd hn' hn.2.2
    | into _ hat' => exact absurd hat (hat' _)
    | through _ hat' ht' h' =>
      rw [hat] at hat'
      cases hat'
      obtain ⟨rfl, rfl⟩ := iht ht'
      obtain ⟨rfl, rfl⟩ := ih h'
      exact ⟨rfl, rfl⟩

theorem Leads.split {vs : List String} (h : root.Leads k here (ws ++ vs) w) :
    ∃ i j mid, root.Leads i here ws mid ∧ root.Leads j mid vs w := by
  induction ws generalizing here k with
  | nil => exact ⟨0, k, here, .here, h⟩
  | cons n ws ih =>
    cases h with
    | stay hn h =>
      obtain ⟨i, j, mid, hws, hvs⟩ := ih h
      exact ⟨i + 1, j, mid, .stay hn hws, hvs⟩
    | up hn h =>
      obtain ⟨i, j, mid, hws, hvs⟩ := ih h
      exact ⟨i + 1, j, mid, .up hn hws, hvs⟩
    | into hn hat h =>
      obtain ⟨i, j, mid, hws, hvs⟩ := ih h
      exact ⟨i + 1, j, mid, .into hn hat hws, hvs⟩
    | through hn hat ht h =>
      obtain ⟨i, j, mid, hws, hvs⟩ := ih h
      exact ⟨_, j, mid, .through hn hat ht hws, hvs⟩

section LinkFree

def LinkFree (root : Entry) (way : List String) : Prop :=
  ∀ before n, before ++ [n] <+: way → ∀ target, root.at? (before ++ [n]) ≠ some (.link target)

theorem linkFree_nil : root.LinkFree [] := by
  intro before n h
  simp at h

theorem LinkFree.dropLast (h : root.LinkFree way) : root.LinkFree way.dropLast := by
  intro before n hb
  exact h before n (hb.trans (List.dropLast_prefix way))

theorem LinkFree.snoc (h : root.LinkFree way)
    (hat : ∀ target, root.at? (way ++ [n]) ≠ some (.link target)) : root.LinkFree (way ++ [n]) := by
  intro before m hb
  rcases List.prefix_concat_iff.mp hb with he | hb
  · rw [he]
    exact hat
  · exact h before m hb

theorem LinkFree.linkStart (h : root.LinkFree here) (target : String) :
    root.LinkFree (linkStart here target) := by
  unfold Entry.linkStart
  split
  · exact linkFree_nil
  · exact h

theorem Leads.linkFree (h : root.Leads k here ws w) (hf : root.LinkFree here) : root.LinkFree w := by
  induction h with
  | here => exact hf
  | stay _ _ ih => exact ih hf
  | up _ _ ih => exact ih hf.dropLast
  | into _ hat _ ih => exact ih (hf.snoc hat)
  | through _ _ _ _ iht ih => exact ih (iht (hf.linkStart _))

theorem LinkFree.leads (h : root.LinkFree (here ++ ws)) (hws : ∀ n ∈ ws, IsOrdinary n) :
    root.Leads ws.length here ws (here ++ ws) := by
  induction ws generalizing here with
  | nil =>
    rw [List.append_nil]
    exact .here
  | cons n ws ih =>
    have hsplit : here ++ n :: ws = (here ++ [n]) ++ ws := by simp
    rw [hsplit] at h ⊢
    exact .into (hws n (by simp)) (h here n (List.prefix_append _ _))
      (ih h (fun m hm => hws m (List.mem_cons_of_mem n hm)))

end LinkFree

theorem walk_leads {links : Nat} {e : Entry} (hws : ∀ n ∈ ws, n ≠ "")
    (h : root.walk true links here ws = .ok (w, e)) : ∃ k, root.Leads k here ws w := by
  have hrest : ∀ {n : String} {rest : List String}, (∀ m ∈ n :: rest, m ≠ "") → ∀ m ∈ rest, m ≠ "" :=
    fun hall m hm => hall m (List.mem_cons_of_mem _ hm)
  fun_induction Entry.walk root true links here ws with
  | case1 links here e' hat =>
    cases h
    exact ⟨0, .here⟩
  | case3 links here rest entries hat ih =>
    obtain ⟨k, hk⟩ := ih (hrest hws) h
    exact ⟨k + 1, .stay rfl hk⟩
  | case4 links here rest entries hat _ ih =>
    obtain ⟨k, hk⟩ := ih (hrest hws) h
    exact ⟨k + 1, .up rfl hk⟩
  | case7 links here n rest entries hat hdot hup hlong target hget hlast =>
    simp at hlast
  | case10 here n rest entries hat hdot hup hlong target hget _ links _ ih =>
    have hname : ∀ m ∈ parts target ++ rest, m ≠ "" := by
      intro m hm
      rcases List.mem_append.mp hm with hm | hm
      · exact (isName_of_mem_parts hm).1
      · exact hrest hws m hm
    obtain ⟨k, hk⟩ := ih hname h
    -- the walk goes over target and rest at once; the steps of the target end at `mid`
    obtain ⟨i, j, mid, ht, hk⟩ := hk.split
    exact ⟨i + j + 1, .through ⟨hws n (by simp), hdot, hup⟩ (at?_entry hat n ▸ hget) ht hk⟩
  | case11 links here n rest entries hat hdot hup hlong e' hne hget ih =>
    obtain ⟨k, hk⟩ := ih (hrest hws) h
    refine ⟨k + 1, .into ⟨hws n (by simp), hdot, hup⟩ ?_ hk⟩
    intro target ht
    rw [← at?_entry hat n, hget] at ht
    cases ht
    exact hne target rfl
  | case2 | case5 | case6 | case8 | case9 | case12 | case13 => cases h

section Enumeration

mutual

def linkWays : Entry → List (List String)
  | .file _ _ => []
  | .link _ => [[]]
  | .dir entries => linkWaysEach entries

def linkWaysEach : List (String × Entry) → List (List String)
  | [] => []
  | (name, e) :: es => (linkWays e).map (name :: ·) ++ linkWaysEach es

end

mutual

theorem length_linkWays : ∀ e : Entry, e.linkWays.length = e.linkCount
  | .file _ _ => rfl
  | .link _ => rfl
  | .dir entries => length_linkWaysEach entries

theorem length_linkWaysEach :
    ∀ entries : List (String × Entry), (linkWaysEach entries).length = linkCounts entries
  | [] => rfl
  | (name, e) :: es => by
    rw [linkWaysEach, linkCounts, List.length_append, List.length_map, length_linkWays e,
      length_linkWaysEach es]

end

theorem mem_linkWaysEach {entries : List (String × Entry)} {e : Entry} (he : (n, e) ∈ entries)
    (hw : w ∈ e.linkWays) : n :: w ∈ linkWaysEach entries := by
  induction entries with
  | nil => cases he
  | cons pair entries ih =>
    obtain ⟨m, e'⟩ := pair
    rw [linkWaysEach, List.mem_append]
    rcases List.mem_cons.mp he with he | he
    · cases he
      exact .inl (List.mem_map_of_mem hw)
    · exact .inr (ih he)

theorem mem_linkWays (h : root.at? w = some (.link target)) : w ∈ root.linkWays := by
  induction w generalizing root with
  | nil =>
    cases h
    simp [linkWays]
  | cons n w ih =>
    obtain ⟨entries, child, rfl, hchild, h⟩ := at?_cons h
    obtain ⟨pair, hpair, rfl⟩ := Option.map_eq_some_iff.mp hchild
    have hn : pair.1 = n := by simpa using List.find?_some hpair
    rw [linkWays]
    exact mem_linkWaysEach (hn ▸ List.mem_of_find?_eq_some hpair) (ih h)

theorem length_le_linkCount {ways : List (List String)} (hn : ways.Nodup)
    (hl : ∀ way ∈ ways, ∃ target, root.at? way = some (.link target)) :
    ways.length ≤ root.linkCount := by
  rw [← length_linkWays]
  refine (hn.subperm ?_).length_le
  intro way hway
  obtain ⟨target, ht⟩ := hl way hway
  exact mem_linkWays ht

end Enumeration

section RealWay

variable {links : Nat} {seen : List (List String × Option (List String))} {todo : List WayStep}
  {link link' place : List String}

def status (seen : List (List String × Option (List String))) (link : List String) :
    Option (Option (List String)) :=
  (seen.find? fun s => s.1 == link).map (·.2)

theorem status_cons_self (o : Option (List String)) : status ((link, o) :: seen) link = some o := by
  simp [status]

theorem status_cons_ne (h : link' ≠ link) (o : Option (List String)) :
    status ((link, o) :: seen) link' = status seen link' := by
  simp [status, Ne.symm h]

theorem status_eq_none : status seen link = none ↔ link ∉ seen.map (·.1) := by
  rw [status, Option.map_eq_none_iff, List.find?_eq_none]
  constructor
  · intro h hm
    obtain ⟨s, hs, rfl⟩ := List.mem_map.mp hm
    exact h s hs (by simp)
  · intro h s hs he
    exact h (List.mem_map.mpr ⟨s, hs, eq_of_beq he⟩)

theorem realWay_stay (hn : n = ".") :
    root.realWay links seen here (.name n :: todo) = root.realWay links seen here todo := by
  rw [realWay]
  simp [hn]

theorem realWay_up (hn : n = "..") :
    root.realWay links seen here (.name n :: todo) = root.realWay links seen here.dropLast todo := by
  rw [realWay]
  simp [hn]

theorem realWay_into (hn : IsOrdinary n)
    (hat : ∀ target, root.at? (here ++ [n]) ≠ some (.link target)) :
    root.realWay links seen here (.name n :: todo) = root.realWay links seen (here ++ [n]) todo := by
  rw [realWay]
  simp only [hn.1, hn.2.1, hn.2.2, or_self, if_false]

theorem realWay_known (hn : IsOrdinary n) (hat : root.at? (here ++ [n]) = some (.link target))
    (hs : status seen (here ++ [n]) = some (some place)) :
    root.realWay links seen here (.name n :: todo) = root.realWay links seen place todo := by
  obtain ⟨⟨link, o⟩, hfind, ho⟩ := Option.map_eq_some_iff.mp hs
  cases ho
  rw [realWay]
  simp only [hn.1, hn.2.1, hn.2.2, or_self, if_false, hat, hfind]

theorem realWay_through (hn : IsOrdinary n) (hat : root.at? (here ++ [n]) = some (.link target))
    (hs : status seen (here ++ [n]) = none) :
    root.realWay (links + 1) seen here (.name n :: todo) =
      root.realWay links ((here ++ [n], none) :: seen) (linkStart here target)
        ((parts target).map .name ++ .arrived (here ++ [n]) :: todo) := by
  have hfind := Option.map_eq_none_iff.mp hs
  rw [realWay]
  simp only [hn.1, hn.2.1, hn.2.2, or_self, if_false, hat, hfind]
  rfl

def LinkLeads (root : Entry) (k : Nat) (link place : List String) : Prop :=
  ∃ here n target, link = here ++ [n] ∧ root.at? link = some (.link target) ∧
    root.Leads k (linkStart here target) (parts target) place

theorem LinkLeads.of_target (hat : root.at? (here ++ [n]) = some (.link target))
    (h : root.Leads k (linkStart here target) (parts target) place) :
    root.LinkLeads k (here ++ [n]) place :=
  ⟨here, n, target, rfl, hat, h⟩

theorem LinkLeads.unique {place' : List String} (h : root.LinkLeads k link place)
    (h' : root.LinkLeads k' link place') : k = k' ∧ place = place' := by
  obtain ⟨here, n, target, rfl, hat, h⟩ := h
  obtain ⟨here', n', target', hlink, hat', h'⟩ := h'
  obtain ⟨rfl, hn⟩ := List.append_inj' hlink rfl
  rw [hat] at hat'
  cases hat'
  exact h.unique h'

/-- What holds of the links met so far: where they are said to lead they lead, and those that were not
met yet can still be opened. -/
structure Tracks (root : Entry) (links : Nat) (seen : List (List String × Option (List String))) :
    Prop where
  known : ∀ link place, status seen link = some (some place) → ∃ k, root.LinkLeads k link place
  are_links : ∀ link ∈ seen.map (·.1), ∃ target, root.at? link = some (.link target)
  enough : root.linkCount ≤ links + (seen.map (·.1)).dedup.length

theorem Tracks.links_ne_zero (h : root.Tracks links seen)
    (hat : root.at? link = some (.link target)) (hs : status seen link = none) : links ≠ 0 := by
  rintro rfl
  have hnew := status_eq_none.mp hs
  have hnodup : (link :: (seen.map (·.1)).dedup).Nodup :=
    List.nodup_cons.mpr ⟨fun hm => hnew (List.mem_dedup.mp hm), List.nodup_dedup _⟩
  have hlinks : ∀ way ∈ link :: (seen.map (·.1)).dedup, ∃ target, root.at? way = some (.link target) := by
    intro way hway
    rcases List.mem_cons.mp hway with rfl | hway
    · exact ⟨target, hat⟩
    · exact h.are_links way (List.mem_dedup.mp hway)
  have hlength := length_le_linkCount hnodup hlinks
  have henough := h.enough
  rw [List.length_cons] at hlength
  omega

theorem Tracks.opened (h : root.Tracks (links + 1) seen)
    (hat : root.at? link = some (.link target)) (hs : status seen link = none) :
    root.Tracks links ((link, none) :: seen) where
  known link' place hp := by
    by_cases hl : link' = link
    · rw [hl, status_cons_self] at hp
      cases hp
    · rw [status_cons_ne hl] at hp
      exact h.known link' place hp
  are_links link' hm := by
    rcases List.mem_cons.mp hm with rfl | hm
    · exact ⟨target, hat⟩
    · exact h.are_links link' hm
  enough := by
    have henough := h.enough
    rw [List.map_cons, List.dedup_cons_of_notMem (status_eq_none.mp hs), List.length_cons]
    omega

theorem Tracks.arrived (h : root.Tracks links seen) (hl : root.LinkLeads k link place) :
    root.Tracks links ((link, some place) :: seen) where
  known link' place' hp := by
    by_cases he : link' = link
    · rw [he, status_cons_self] at hp
      cases hp
      exact ⟨k, he ▸ hl⟩
    · rw [status_cons_ne he] at hp
      exact h.known link' place' hp
  are_links link' hm := by
    rcases List.mem_cons.mp hm with rfl | hm
    · obtain ⟨_, _, target, -, hat, -⟩ := hl
      exact ⟨target, hat⟩
    · exact h.are_links link' hm
  enough := by
    have hsub : (seen.map (·.1)).dedup.length ≤ (link :: seen.map (·.1)).dedup.length := by
      refine ((List.nodup_dedup _).subperm ?_).length_le
      intro other hother
      exact List.mem_dedup.mpr (List.mem_cons_of_mem link (List.mem_dedup.mp hother))
    exact h.enough.trans (Nat.add_le_add_left hsub links)

def Clear (root : Entry) (seen : List (List String × Option (List String))) (k : Nat) : Prop :=
  ∀ link, status seen link = some none → ∀ j place, root.LinkLeads j link place → k ≤ j

theorem Clear.mono (h : root.Clear seen k) (hk : k' ≤ k) : root.Clear seen k' :=
  fun link hl j place hj => hk.trans (h link hl j place hj)

theorem Clear.opened (h : root.Clear seen k) (hl : root.LinkLeads j link place) (hj : j ≤ k) :
    root.Clear ((link, none) :: seen) j := by
  intro link' hs i place' hi
  by_cases he : link' = link
  · rw [he] at hi
    exact (hl.unique hi).1.le
  · rw [status_cons_ne he] at hs
    exact hj.trans (h link' hs i place' hi)

theorem Leads.realWay (h : root.Leads k here ws w) (todo : List WayStep)
    (htracks : root.Tracks links seen) (hclear : root.Clear seen k) :
    ∃ links' seen', root.realWay links seen here (ws.map .name ++ todo) =
        root.realWay links' seen' w todo ∧ root.Tracks links' seen' ∧
      ∀ link, status seen' link = some none → status seen link = some none := by
  induction h generalizing links seen todo with
  | here => exact ⟨links, seen, rfl, htracks, fun _ h => h⟩
  | stay hn _ ih =>
    rw [List.map_cons, List.cons_append, realWay_stay hn]
    exact ih todo htracks (hclear.mono (by omega))
  | up hn _ ih =>
    rw [List.map_cons, List.cons_append, realWay_up hn]
    exact ih todo htracks (hclear.mono (by omega))
  | into hn hat _ ih =>
    rw [List.map_cons, List.cons_append, realWay_into hn hat]
    exact ih todo htracks (hclear.mono (by omega))
  | @through i k here rest mid w n target hn hat ht _ iht ih =>
    rw [List.map_cons, List.cons_append]
    have hlink := LinkLeads.of_target hat ht
    cases hs : status seen (here ++ [n]) with
    | some o =>
      cases o with
      | some place =>
        obtain ⟨j, hj⟩ := htracks.known _ _ hs
        obtain ⟨-, rfl⟩ := hlink.unique hj
        rw [realWay_known hn hat hs]
        exact ih todo htracks (hclear.mono (by omega))
      | none =>
        have hle := hclear _ hs _ _ hlink
        omega
    | none =>
      -- not met before: the target is followed with the link open, then the rest from where it ends
      obtain ⟨links, rfl⟩ := Nat.exists_eq_succ_of_ne_zero (htracks.links_ne_zero hat hs)
      obtain ⟨links₁, seen₁, heq₁, htracks₁, hopen₁⟩ :=
        iht (.arrived (here ++ [n]) :: (rest.map .name ++ todo)) (htracks.opened hat hs)
          (hclear.opened hlink (by omega))
      have hopen : ∀ link, status ((here ++ [n], some mid) :: seen₁) link = some none →
          status seen link = some none := by
        intro link hl
        by_cases he : link = here ++ [n]
        · rw [he, status_cons_self] at hl
          cases hl
        · rw [status_cons_ne he] at hl
          rw [← status_cons_ne he none]
          exact hopen₁ link hl
      obtain ⟨links₂, seen₂, heq₂, htracks₂, hopen₂⟩ := ih todo (htracks₁.arrived hlink)
        (fun link hl j place hj => by have hle := hclear link (hopen link hl) j place hj; omega)
      refine ⟨links₂, seen₂, ?_, htracks₂, fun link hl => hopen link (hopen₂ link hl)⟩
      rw [realWay_through hn hat hs, heq₁, Entry.realWay, heq₂]

theorem tracks_nil : root.Tracks root.linkCount [] where
  known := by simp [status]
  are_links := by simp
  enough := Nat.le_add_right _ _

theorem clear_nil : root.Clear [] k := by
  simp [Clear, status]

theorem circle_names {n : String} (hhere : ∀ m ∈ here, IsOrdinary m ∧ IsName m)
    (htodo : ∀ m, WayStep.name m ∈ .name n :: todo → '/' ∉ m.toList) :
    ∀ m ∈ resolveDots true (here ++ [n] ++ todo.filterMap WayStep.name?), IsOrdinary m ∧ IsName m := by
  apply resolveDots_ordinary
  intro m hm
  rcases List.mem_append.mp hm with hm | hm
  · rcases List.mem_append.mp hm with hm | hm
    · exact (hhere m hm).2.2
    · rw [List.mem_singleton.mp hm]
      exact htodo n (by simp)
  · obtain ⟨step, hstep, hname⟩ := List.mem_filterMap.mp hm
    cases step with
    | name n' =>
      cases hname
      exact htodo m (List.mem_cons_of_mem _ hstep)
    | arrived start => cases hname

theorem realWay_names (hhere : ∀ n ∈ here, IsOrdinary n ∧ IsName n)
    (hseen : ∀ s ∈ seen, ∀ place, s.2 = some place → ∀ n ∈ place, IsOrdinary n ∧ IsName n)
    (htodo : ∀ n, WayStep.name n ∈ todo → '/' ∉ n.toList) :
    ∀ n ∈ root.realWay links seen here todo, IsOrdinary n ∧ IsName n := by
  have hrest : ∀ {step : WayStep} {todo : List WayStep},
      (∀ n, WayStep.name n ∈ step :: todo → '/' ∉ n.toList) →
        ∀ n, WayStep.name n ∈ todo → '/' ∉ n.toList :=
    fun h n hn => h n (List.mem_cons_of_mem _ hn)
  fun_induction Entry.realWay root links seen here todo with
  | case1 => exact hhere
  | case2 links seen here start todo ih =>
    refine ih hhere ?_ (hrest htodo)
    intro s hs place hplace
    rcases List.mem_cons.mp hs with rfl | hs
    · cases hplace
      exact hhere
    · exact hseen s hs place hplace
  | case3 links seen here n todo hn ih => exact ih hhere hseen (hrest htodo)
  | case4 links seen here todo hn ih =>
    exact ih (fun m hm => hhere m (List.dropLast_subset _ hm)) hseen (hrest htodo)
  | case5 links seen here n todo hn hd new target hl start place hf ih =>
    exact ih (hseen _ (List.mem_of_find?_eq_some hf) place rfl) hseen (hrest htodo)
  | case6 links seen here n todo hn hd new target hl start hf => exact circle_names hhere htodo
  | case7 seen here n todo hn hd new target hl hf => exact circle_names hhere htodo
  | case8 seen here n todo hn hd new target hl hf k ih =>
    refine ih ?_ ?_ ?_
    · split
      · simp
      · exact hhere
    · intro s hs place hplace
      rcases List.mem_cons.mp hs with rfl | hs
      · cases hplace
      · exact hseen s hs place hplace
    · intro m hm
      rcases List.mem_append.mp hm with hm | hm
      · obtain ⟨m', hm', he⟩ := List.mem_map.mp hm
        cases he
        exact (isName_of_mem_parts hm').2
      · rcases List.mem_cons.mp hm with he | hm
        · cases he
        · exact htodo m (List.mem_cons_of_mem _ hm)
  | case9 links seen here n todo hn hd new hne ih =>
    refine ih ?_ hseen (hrest htodo)
    rw [not_or] at hn
    intro m hm
    rcases List.mem_append.mp hm with hm | hm
    · exact hhere m hm
    · rw [List.mem_singleton.mp hm]
      exact ⟨⟨hn.1, hn.2, hd⟩, hn.1, htodo n (by simp)⟩

end RealWay

end Entry

namespace Files

open EdgeAudit.Path

variable {f : Files} {path : String} {k : Nat} {w : List String}

theorem realParts_names (f : Files) (path : String) :
    ∀ n ∈ f.realParts path, IsOrdinary n ∧ IsName n := by
  refine Entry.realWay_names (by simp) (by simp) ?_
  intro n hn
  obtain ⟨m, hm, he⟩ := List.mem_map.mp hn
  cases he
  exact (isName_of_mem_parts hm).2

theorem realParts_of_leads (h : f.root.Leads k [] (parts path) w) : f.realParts path = w := by
  obtain ⟨links, seen, heq, -, -⟩ := h.realWay [] Entry.tracks_nil Entry.clear_nil
  rw [List.append_nil] at heq
  rw [realParts, heq, Entry.realWay]

end Files

end EdgeAudit
