import EdgeAudit.Proofs.LinkResolution
import EdgeAudit.Proofs.LiteralDirectory

namespace EdgeAudit

open EdgeAudit.Path

variable {root root' : Entry} {dir here way ws : List String} {name n : String} {bytes : ByteArray}
  {mtime : Int} {links : Nat}

namespace Entry

section Put

variable {e child new : Entry} {entries : List (String × Entry)}

theorem everyDirEach_assocSet {p : List (String × Entry) → Bool} (h : everyDirEach p entries = true)
    (hnew : new.everyDir p = true) :
    everyDirEach p (assocSet (· == ·) name new entries) = true := by
  induction entries with
  | nil => simp [assocSet, everyDirEach, hnew]
  | cons pair entries ih =>
    obtain ⟨m, x⟩ := pair
    rw [everyDirEach, Bool.and_eq_true] at h
    by_cases hm : m = name
    · simp [assocSet, hm, everyDirEach, hnew, h.2]
    · simp [assocSet, hm, everyDirEach, h.1, ih h.2]

theorem Proper.put (h : root.Proper) (hname : IsOrdinary name ∧ IsName name)
    (hdir : root.at? dir = some (.dir entries)) (hfresh : root.at? (dir ++ [name]) = none) :
    (root.put (.file bytes mtime) (dir ++ [name])).Proper := by
  induction dir generalizing root with
  | nil =>
    cases hdir
    obtain ⟨hhere, hbelow⟩ := Bool.and_eq_true_iff.mp h
    have hnone : assocGet? (· == ·) name entries = none := by
      have hroot : (Entry.dir entries).at? [] = some (.dir entries) := rfl
      rw [at?_entry hroot]
      exact hfresh
    have hput : (Entry.dir entries).put (.file bytes mtime) ([] ++ [name]) =
        .dir (entries ++ [(name, .file bytes mtime)]) := by
      rw [List.nil_append, Entry.put, Entry.put, Entry.entries, assocSet_fresh hnone]
    rw [hput]
    refine Bool.and_eq_true_iff.mpr ⟨?_, ?_⟩
    · obtain ⟨hnodup, hnames⟩ := Bool.and_eq_true_iff.mp hhere
      refine Bool.and_eq_true_iff.mpr ⟨decide_eq_true ?_, ?_⟩
      · rw [← assocSet_fresh hnone]
        exact nodup_assocSet (of_decide_eq_true hnodup)
      · rw [List.all_append, hnames]
        simpa using hname
    · rw [← assocSet_fresh hnone]
      exact everyDirEach_assocSet hbelow rfl
  | cons m dir ih =>
    obtain ⟨es, child, rfl, hchild, hdir⟩ := at?_cons hdir
    obtain ⟨hhere, hbelow⟩ := Bool.and_eq_true_iff.mp h
    have hmem := mem_of_assocGet? hchild
    have hfresh' : child.at? (dir ++ [name]) = none := by
      rw [List.cons_append, at?, hchild] at hfresh
      exact hfresh
    have hput : (Entry.dir es).put (.file bytes mtime) (m :: dir ++ [name]) =
        .dir (assocSet (· == ·) m (child.put (.file bytes mtime) (dir ++ [name])) es) := by
      rw [List.cons_append, Entry.put, hchild]
      rfl
    rw [hput]
    refine Bool.and_eq_true_iff.mpr ⟨?_, ?_⟩
    · obtain ⟨hnodup, hnames⟩ := Bool.and_eq_true_iff.mp hhere
      have hkeys : (assocSet (· == ·) m (child.put (.file bytes mtime) (dir ++ [name])) es).map (·.1) =
          es.map (·.1) := map_fst_assocSet hchild
      refine Bool.and_eq_true_iff.mpr ⟨by rw [hkeys]; exact hnodup, ?_⟩
      have hall : ∀ k ∈ es.map (·.1), IsOrdinary k ∧ IsName k := by
        intro k hk
        obtain ⟨⟨k, x⟩, hx, rfl⟩ := List.mem_map.mp hk
        exact h.dir.2.1 k x hx
      rw [List.all_eq_true]
      rintro ⟨k, x⟩ hx
      exact decide_eq_true (hall k (hkeys ▸ List.mem_map_of_mem (f := (·.1)) hx))
    · exact everyDirEach_assocSet hbelow (ih (everyDir_of_mem hbelow hmem) hdir hfresh')

/-- What stands at a place of two trees is the same, or a directory in both. -/
inductive Kept : Option Entry → Option Entry → Prop
  | same (o : Option Entry) : Kept o o
  | dir {entries entries' : List (String × Entry)} : Kept (some (.dir entries)) (some (.dir entries'))

theorem at?_put_kept (hdir : root.at? dir = some (.dir entries))
    (hfresh : root.at? (dir ++ [name]) = none) (hway : way ≠ dir ++ [name]) :
    Kept (root.at? way) ((root.put (.file bytes mtime) (dir ++ [name])).at? way) := by
  -- down the way to the directory: a way that leaves it on the way down meets nothing new
  induction dir generalizing root way with
  | nil =>
    cases hdir
    cases way with
    | nil => exact .dir
    | cons m way =>
      by_cases hm : m = name
      · subst hm
        have hnone : (Entry.dir entries).child? m = none := by
          rw [List.nil_append, at?] at hfresh
          cases hchild : (Entry.dir entries).child? m with
          | none => rfl
          | some child =>
            rw [hchild] at hfresh
            cases hfresh
        cases way with
        | nil => exact absurd rfl hway
        | cons k way =>
          have hold : (Entry.dir entries).at? (m :: k :: way) = none := by
            rw [at?, hnone]
          have hnew : ((Entry.dir entries).put (.file bytes mtime) [m]).at? (m :: k :: way) = none := by
            rw [Entry.put, Entry.put, at?, child?, assocGet?_assocSet_self]
            rfl
          rw [hold, List.nil_append, hnew]
          exact .same _
      · rw [List.nil_append, at?_put_cons_ne hm _ _ rfl]
        exact .same _
  | cons m dir ih =>
    obtain ⟨es, child, rfl, hchild, hbelow⟩ := at?_cons hdir
    cases way with
    | nil => exact .dir
    | cons k way =>
      by_cases hk : k = m
      · subst hk
        have hold : (Entry.dir es).at? (k :: way) = child.at? way := by
          rw [at?, hchild]
        have hfresh' : child.at? (dir ++ [name]) = none := by
          rw [List.cons_append, at?, hchild] at hfresh
          exact hfresh
        rw [List.cons_append, at?_put_cons hchild, hold]
        exact ih hbelow hfresh' fun he => hway (by rw [he]; rfl)
      · rw [List.cons_append, at?_put_cons_ne hk _ _ rfl]
        exact .same _

end Put

structure Gains (root root' : Entry) (dir : List String) (name : String) (bytes : ByteArray)
    (mtime : Int) : Prop where
  proper : root.Proper
  proper' : root'.Proper
  named : IsOrdinary name ∧ IsName name
  there : ∃ entries, root.at? dir = some (.dir entries)
  fresh : root.at? (dir ++ [name]) = none
  file : root'.at? (dir ++ [name]) = some (.file bytes mtime)
  kept : ∀ way, way ≠ dir ++ [name] → Kept (root.at? way) (root'.at? way)

theorem gains_put {entries : List (String × Entry)} (h : root.Proper)
    (hname : IsOrdinary name ∧ IsName name) (hdir : root.at? dir = some (.dir entries))
    (hfresh : root.at? (dir ++ [name]) = none) (bytes : ByteArray) (mtime : Int) :
    Gains root (root.put (.file bytes mtime) (dir ++ [name])) dir name bytes mtime where
  proper := h
  proper' := h.put hname hdir hfresh
  named := hname
  there := ⟨entries, hdir⟩
  fresh := hfresh
  file := at?_put_self _ _ _
  kept _ hway := at?_put_kept hdir hfresh hway

inductive Ends (new : List String) (file : Entry) :
    Except LookupFault (List String × Entry) → Except LookupFault (List String × Entry) → Prop
  | found {way : List String} {e e' : Entry} : Ends new file (.ok (way, e)) (.ok (way, e'))
  | lost {fault : LookupFault} : Ends new file (.error fault) (.error fault)
  | file : Ends new file (.error .notFound) (.ok (new, file))
  | past : Ends new file (.error .notFound) (.error .notDirectory)

namespace Gains

variable (h : Gains root root' dir name bytes mtime)

include h

theorem ne_of_at? {e : Entry} (hat : root.at? way = some e) : way ≠ dir ++ [name] := by
  rintro rfl
  rw [h.fresh] at hat
  cases hat

theorem at?_dir {entries : List (String × Entry)} (hat : root.at? way = some (.dir entries)) :
    ∃ entries', root'.at? way = some (.dir entries') := by
  have hk := h.kept way (h.ne_of_at? hat)
  rw [hat] at hk
  generalize root'.at? way = o at hk
  cases hk with
  | same => exact ⟨entries, rfl⟩
  | dir => exact ⟨_, rfl⟩

theorem at?_other {e : Entry} (hat : root.at? way = some e) (he : ∀ entries, e ≠ .dir entries) :
    root'.at? way = some e := by
  have hk := h.kept way (h.ne_of_at? hat)
  rw [hat] at hk
  generalize root'.at? way = o at hk
  cases hk with
  | same => rfl
  | dir => exact absurd rfl (he _)

theorem at?_none (hat : root.at? way = none) (hway : way ≠ dir ++ [name]) : root'.at? way = none := by
  have hk := h.kept way hway
  rw [hat] at hk
  generalize root'.at? way = o at hk
  cases hk
  rfl

theorem entry_link {entries entries' : List (String × Entry)} {target : String}
    (hat : root.at? here = some (.dir entries)) (hat' : root'.at? here = some (.dir entries'))
    (hget : assocGet? (· == ·) n entries = some (.link target)) :
    assocGet? (· == ·) n entries' = some (.link target) := by
  rw [at?_entry hat']
  exact h.at?_other (at?_entry hat n ▸ hget) (by simp)

theorem entry_other {entries entries' : List (String × Entry)} {e : Entry}
    (hat : root.at? here = some (.dir entries)) (hat' : root'.at? here = some (.dir entries'))
    (hget : assocGet? (· == ·) n entries = some e) (hne : ∀ target, e ≠ .link target) :
    ∃ e', assocGet? (· == ·) n entries' = some e' ∧ ∀ target, e' ≠ .link target := by
  have hold : root.at? (here ++ [n]) = some e := at?_entry hat n ▸ hget
  have hk := h.kept _ (h.ne_of_at? hold)
  rw [hold] at hk
  rw [at?_entry hat']
  generalize root'.at? (here ++ [n]) = o at hk
  cases hk with
  | same => exact ⟨e, rfl, hne⟩
  | dir => exact ⟨_, rfl, by simp⟩

theorem walk_at_new (links : Nat) (rest : List String) :
    Ends (dir ++ [name]) (.file bytes mtime) (.error .notFound)
      (root'.walk true links (dir ++ [name]) rest) := by
  cases rest with
  | nil =>
    have hend : root'.walk true links (dir ++ [name]) [] = .ok (dir ++ [name], .file bytes mtime) := by
      simp [Entry.walk, h.file]
    rw [hend]
    exact .file
  | cons m rest =>
    have hend : root'.walk true links (dir ++ [name]) (m :: rest) = .error .notDirectory := by
      simp [Entry.walk, h.file]
    rw [hend]
    exact .past

theorem walk_at_none (hat : root.at? here = none) (links : Nat) (rest : List String) :
    Ends (dir ++ [name]) (.file bytes mtime) (.error .notFound) (root'.walk true links here rest) := by
  by_cases hhere : here = dir ++ [name]
  · rw [hhere]
    exact h.walk_at_new links rest
  · have hat' := h.at?_none hat hhere
    have hlost : root'.walk true links here rest = .error .notFound := by
      cases rest <;> simp [Entry.walk, hat']
    rw [hlost]
    exact .lost

theorem walk_missing {entries : List (String × Entry)} (hat : root.at? here = some (.dir entries))
    (hget : assocGet? (· == ·) n entries = none) (hdot : n ≠ ".") (hup : n ≠ "..")
    (hlong : ¬ maxNameBytes < n.utf8ByteSize) (links : Nat) (rest : List String) :
    Ends (dir ++ [name]) (.file bytes mtime) (.error .notFound)
      (root'.walk true links here (n :: rest)) := by
  obtain ⟨entries', hat'⟩ := h.at?_dir hat
  have hnone : root.at? (here ++ [n]) = none := at?_entry hat n ▸ hget
  by_cases hway : here ++ [n] = dir ++ [name]
  · have hget' : assocGet? (· == ·) n entries' = some (.file bytes mtime) := by
      rw [at?_entry hat', hway, h.file]
    have hon : root'.walk true links here (n :: rest) = root'.walk true links (dir ++ [name]) rest := by
      rw [Entry.walk, ← hway]
      simp [hat', hdot, hup, hlong, hget']
    rw [hon]
    exact h.walk_at_new links rest
  · have hget' : assocGet? (· == ·) n entries' = none := by
      rw [at?_entry hat']
      exact h.at?_none hnone hway
    have hlost : root'.walk true links here (n :: rest) = .error .notFound := by
      simp [Entry.walk, hat', hdot, hup, hlong, hget']
    rw [hlost]
    exact .lost

theorem walk (links : Nat) (here rest : List String) :
    Ends (dir ++ [name]) (.file bytes mtime) (root.walk true links here rest)
      (root'.walk true links here rest) := by
  -- along the first walk: as long as it finds its way, the second takes the same steps
  fun_induction Entry.walk root true links here rest with
  | case1 links here e hat =>
    have hk := h.kept here (h.ne_of_at? hat)
    rw [hat] at hk
    generalize hat' : root'.at? here = o at hk
    cases hk <;> (simp only [Entry.walk, hat']; exact .found)
  | case2 links here hat => exact h.walk_at_none hat links []
  | case3 links here rest entries hat ih =>
    obtain ⟨entries', hat'⟩ := h.at?_dir hat
    rw [Entry.walk]
    simpa [hat'] using ih
  | case4 links here rest entries hat _ ih =>
    obtain ⟨entries', hat'⟩ := h.at?_dir hat
    rw [Entry.walk]
    simpa [hat'] using ih
  | case5 links here n rest entries hat hdot hup hlong =>
    obtain ⟨entries', hat'⟩ := h.at?_dir hat
    have hlost : root'.walk true links here (n :: rest) = .error .nameTooLong := by
      simp [Entry.walk, hat', hdot, hup, hlong]
    rw [hlost]
    exact .lost
  | case6 links here n rest entries hat hdot hup hlong hget =>
    exact h.walk_missing hat hget hdot hup hlong links rest
  | case7 links here n rest entries hat hdot hup hlong target hget hlast => simp at hlast
  | case8 here n rest entries hat hdot hup hlong target hget hlast =>
    obtain ⟨entries', hat'⟩ := h.at?_dir hat
    have hget' := h.entry_link hat hat' hget
    have hlost : root'.walk true 0 here (n :: rest) = .error .tooManyLinks := by
      simp [Entry.walk, hat', hdot, hup, hlong, hget']
    rw [hlost]
    exact .lost
  | case9 here n rest entries hat hdot hup hlong hlast links hget =>
    obtain ⟨entries', hat'⟩ := h.at?_dir hat
    have hget' := h.entry_link hat hat' hget
    have hlost : root'.walk true (links + 1) here (n :: rest) = .error .notFound := by
      simp [Entry.walk, hat', hdot, hup, hlong, hget']
    rw [hlost]
    exact .lost
  | case10 here n rest entries hat hdot hup hlong target hget hlast links htarget ih =>
    obtain ⟨entries', hat'⟩ := h.at?_dir hat
    have hget' := h.entry_link hat hat' hget
    rw [Entry.walk.eq_def root' true (links + 1)]
    simpa [hat', hdot, hup, hlong, hget', htarget] using ih
  | case11 links here n rest entries hat hdot hup hlong e hne hget ih =>
    obtain ⟨entries', hat'⟩ := h.at?_dir hat
    obtain ⟨e', hget', hne'⟩ := h.entry_other hat hat' hget fun target he => hne target he
    rw [Entry.walk.eq_def root' true links here]
    simpa [hat', hdot, hup, hlong, hget'] using ih
  | case12 links here n rest e hne hat =>
    have hat' := h.at?_other hat hne
    have hlost : root'.walk true links here (n :: rest) = .error .notDirectory := by
      cases e <;> simp_all [Entry.walk]
    rw [hlost]
    exact .lost
  | case13 links here n rest hat => exact h.walk_at_none hat links (n :: rest)

theorem kept_some {e' : Entry} (hat : root'.at? way = some e') (hway : way ≠ dir ++ [name]) :
    ∃ e, root.at? way = some e ∧ Kept (some e) (some e') := by
  have hk := h.kept way hway
  rw [hat] at hk
  cases hold : root.at? way with
  | none =>
    rw [hold] at hk
    cases hk
  | some e =>
    rw [hold] at hk
    exact ⟨e, rfl, hk⟩

end Gains

/-- No link that leads nowhere comes to lead through a file, which would be no directory. -/
def NoneThrough (root root' : Entry) : Prop :=
  ∀ way n target, root.at? (way ++ [n]) = some (.link target) →
    root.walk true maxLinks way [n] = .error .notFound →
      root'.walk true maxLinks way [n] ≠ .error .notDirectory

theorem Gains.leadsToDir? (h : Gains root root' dir name bytes mtime) (hthrough : NoneThrough root root')
    {e e' : Entry} (hat : root.at? (way ++ [n]) = some e) (hkept : Kept (some e) (some e')) :
    root'.leadsToDir? way n e' = root.leadsToDir? way n e := by
  cases hkept with
  | dir => rfl
  | same =>
    cases e with
    | file _ _ => rfl
    | dir _ => rfl
    | link target =>
      have hends := h.walk maxLinks way [n]
      have hpast := hthrough way n target hat
      simp only [Entry.leadsToDir?]
      generalize hold : root.walk true maxLinks way [n] = o at hends hpast
      generalize hnew : root'.walk true maxLinks way [n] = o' at hends hpast
      cases hends with
      | lost => rfl
      | file => rfl
      | past => exact absurd rfl (hpast rfl)
      | @found w x x' =>
        have hx := walk_at? hold
        have hk := h.kept w (h.ne_of_at? hx)
        rw [hx, walk_at? hnew] at hk
        cases hk <;> rfl

section Leads

theorem Leads.append {vs mid w : List String} {i j : Nat} (h : root.Leads i here ws mid)
    (h' : root.Leads j mid vs w) : root.Leads (i + j) here (ws ++ vs) w := by
  induction h with
  | here => simpa using h'
  | stay hn _ ih =>
    have hk := ih h'
    rw [Nat.add_right_comm]
    exact .stay hn hk
  | up hn _ ih =>
    have hk := ih h'
    rw [Nat.add_right_comm]
    exact .up hn hk
  | into hn hat _ ih =>
    have hk := ih h'
    rw [Nat.add_right_comm]
    exact .into hn hat hk
  | through hn hat ht _ _ ih =>
    have hk := Leads.through hn hat ht (ih h')
    rwa [← Nat.add_assoc, Nat.add_right_comm] at hk

theorem linkFree_of_at? {e : Entry} (hat : root.at? way = some e) (he : ∀ target, e ≠ .link target) :
    root.LinkFree way := by
  intro before n hb target hlink
  obtain ⟨rest, rfl⟩ := hb
  rw [at?_append, hlink, Option.bind_some] at hat
  cases rest with
  | nil =>
    cases hat
    exact he target rfl
  | cons m rest => cases hat

end Leads

end Entry

namespace Path

variable {base d : String}

theorem parts_join_name (base d : String) (h : IsName n) :
    parts (join base (join d n)) = parts (join base d) ++ [n] := by
  by_cases hd : isAbsolute d = true
  · have hlong : isAbsolute (join d n) = true := by
      have hhead : d.toList.head? = some '/' := by simpa [isAbsolute] using hd
      unfold join
      rw [h.isAbsolute]
      have hne : d.toList ≠ [] := by
        intro hnil
        rw [hnil] at hhead
        cases hhead
      have happend : ∀ x : String, isAbsolute (d ++ x) = true := by
        intro x
        simp [isAbsolute, List.head?_append_of_ne_nil _ hne, hhead]
      split
      · simp_all
      · split
        · exact happend n
        · rw [String.append_assoc]
          exact happend _
    have hshort : ∀ x, isAbsolute x = true → join base x = x := fun x hx => if_pos hx
    rw [hshort _ hlong, hshort _ hd, parts_join h.isAbsolute, h.parts]
  · rw [Bool.not_eq_true] at hd
    rw [parts_join (isAbsolute_join hd h.isAbsolute), parts_join hd, parts_join h.isAbsolute, h.parts,
      List.append_assoc]

theorem parts_join_foldl (base d : String) (h : ∀ n ∈ ws, IsName n) :
    parts (join base (ws.foldl join d)) = parts (join base d) ++ ws := by
  induction ws generalizing d with
  | nil => simp
  | cons m ws ih =>
    rw [List.forall_mem_cons] at h
    rw [List.foldl_cons, ih (join d m) h.2, parts_join_name base d h.1, List.append_assoc]
    rfl

end Path

namespace Files

variable {f f' : Files} {base d path : String} {l : Listed} {segments : List Glob.Segment}

def PathLeads (f : Files) (path : String) (way : List String) : Prop :=
  ∃ k, f.root.Leads k [] (parts path) way

theorem pathLeads_of_find {e : Entry} (h : f.find path = .ok (way, e)) : f.PathLeads path way :=
  Entry.walk_leads (fun _ hn => (isName_of_mem_parts hn).1) h

theorem PathLeads.unique {way' : List String} (h : f.PathLeads path way) (h' : f.PathLeads path way') :
    way = way' := by
  obtain ⟨k, hk⟩ := h
  obtain ⟨k', hk'⟩ := h'
  exact (hk.unique hk').2

theorem pathLeads_below {path' : String} {e x : Entry} (hproper : f.root.Proper)
    (hfind : f.find path = .ok (way, e)) (hat : f.root.at? (way ++ ws) = some x)
    (hx : ∀ target, x ≠ .link target) (hparts : parts path' = parts path ++ ws) :
    f.PathLeads path' (way ++ ws) := by
  obtain ⟨k, hway⟩ := pathLeads_of_find hfind
  have hordinary : ∀ n ∈ ws, IsOrdinary n :=
    fun n hn => (hproper.names hat n (List.mem_append_right way hn)).1
  refine ⟨k + ws.length, ?_⟩
  rw [hparts]
  exact hway.append ((Entry.linkFree_of_at? hat hx).leads hordinary)

def ListedFrom (f : Files) (base d : String) (ws : List String) (l : Listed) : Prop :=
  ∃ way e, f.find (Path.join base d) = .ok (way, e) ∧ Entry.LeadsTo f.root way d e ws l

theorem mem_list_iff (hproper : f.root.Proper) : l ∈ f.list base d ↔ f.ListedFrom base d [] l := by
  constructor
  · intro hl
    have hdir : ∃ way entries, f.find (Path.join base d) = .ok (way, .dir entries) := by
      unfold list at hl
      split at hl
      · rename_i way entries hfind
        exact ⟨way, entries, hfind⟩
      · cases hl
    obtain ⟨way, entries, hfind⟩ := hdir
    have hdir := Entry.everyDir_at? hproper (Entry.walk_at? hfind)
    obtain ⟨e, hmem, hpath, hleads⟩ := (mem_list hfind).mp hl
    refine ⟨way, .dir entries, hfind, (Entry.leadsTo_nil hdir).mpr ⟨e, hmem, ?_⟩⟩
    simp [Entry.listedChild, hleads, ← hpath]
  · rintro ⟨way, e, hfind, hleads⟩
    obtain ⟨entries, rfl⟩ := hleads.isDir
    have hdir := Entry.everyDir_at? hproper (Entry.walk_at? hfind)
    obtain ⟨x, hmem, hchild⟩ := (Entry.leadsTo_nil hdir).mp hleads
    rw [list, hfind]
    exact List.mem_filterMap.mpr ⟨(l.name, x), hmem, hchild⟩

theorem mem_listBelow_iff (hproper : f.root.Proper) :
    l ∈ f.listBelow base d ↔ ∃ ws, f.ListedFrom base d ws l := by
  unfold listBelow ListedFrom
  cases hfind : f.find (Path.join base d) with
  | error fault => simp
  | ok found =>
    obtain ⟨way, e⟩ := found
    have he := Entry.everyDir_at? hproper (Entry.walk_at? hfind)
    simp only [Entry.mem_listedBelow f.root way d l e he, Except.ok.injEq, Prod.mk.injEq]
    refine exists_congr fun ws => ?_
    constructor
    · intro hl
      exact ⟨way, e, ⟨rfl, rfl⟩, hl⟩
    · rintro ⟨_, _, ⟨rfl, rfl⟩, hl⟩
      exact hl

theorem mem_filter_paths {old new : List Listed} {q : Listed → Bool} {P : String → Prop} {x : String}
    (hmono : ∀ l ∈ old, l ∈ new) (hcases : ∀ l ∈ new, l ∈ old ∨ P l.path) :
    (x ∈ (old.filter q).map (·.path) → x ∈ (new.filter q).map (·.path)) ∧
      (x ∈ (new.filter q).map (·.path) → x ∈ (old.filter q).map (·.path) ∨ P x) := by
  simp only [List.mem_map, List.mem_filter]
  constructor
  · rintro ⟨l, ⟨hl, hq⟩, hx⟩
    exact ⟨l, ⟨hmono l hl, hq⟩, hx⟩
  · rintro ⟨l, ⟨hl, hq⟩, rfl⟩
    rcases hcases l hl with hold | hP
    · exact .inl ⟨l, ⟨hold, hq⟩, rfl⟩
    · exact .inr hP

theorem mem_flatMap_paths {old new : List String} {g g' : String → List String} {P : Prop} {x : String}
    (hsame : ∀ d, d ∈ new ↔ d ∈ old) (h : ∀ d, (x ∈ g d → x ∈ g' d) ∧ (x ∈ g' d → x ∈ g d ∨ P)) :
    (x ∈ old.flatMap g → x ∈ new.flatMap g') ∧ (x ∈ new.flatMap g' → x ∈ old.flatMap g ∨ P) := by
  simp only [List.mem_flatMap]
  constructor
  · rintro ⟨d, hd, hx⟩
    exact ⟨d, (hsame d).mpr hd, (h d).1 hx⟩
  · rintro ⟨d, hd, hx⟩
    exact ((h d).2 hx).imp_left fun hold => ⟨d, (hsame d).mp hd, hold⟩

section Gains

variable (h : Entry.Gains f.root f'.root dir name bytes mtime) (hthrough : Entry.NoneThrough f.root f'.root)

include h hthrough

omit hthrough in
theorem find_mono {e : Entry} (hfind : f.find path = .ok (way, e)) : ∃ e', f'.find path = .ok (way, e') := by
  have hends := h.walk maxLinks [] (parts path)
  change Entry.Ends _ _ (f.find _) (f'.find _) at hends
  rw [hfind] at hends
  generalize f'.find path = o at hends
  cases hends
  exact ⟨_, rfl⟩

omit hthrough in
theorem below_mono {entries : List (String × Entry)} {x : Entry}
    (hfind : f.find path = .ok (way, .dir entries)) (hx : (Entry.dir entries).at? ws = some x) :
    ∃ entries' x', f'.find path = .ok (way, .dir entries') ∧ (Entry.dir entries').at? ws = some x' ∧
      f.root.at? (way ++ ws) = some x ∧ Entry.Kept (some x) (some x') := by
  obtain ⟨entries', hat'⟩ := h.at?_dir (Entry.walk_at? hfind)
  obtain ⟨e', hfind'⟩ := find_mono h hfind
  cases (Entry.walk_at? hfind').symm.trans hat'
  have hold : f.root.at? (way ++ ws) = some x := by
    rw [Entry.at?_append, Entry.walk_at? hfind]
    exact hx
  have hk := h.kept _ (h.ne_of_at? hold)
  rw [hold, Entry.at?_append, hat'] at hk
  change Entry.Kept _ ((Entry.dir entries').at? ws) at hk
  generalize hx' : (Entry.dir entries').at? ws = o at hk
  cases hk with
  | same => exact ⟨entries', x, hfind', hx', hold, .same _⟩
  | dir => exact ⟨entries', _, hfind', hx', hold, .dir⟩

omit hthrough in
theorem below_cases {entries' : List (String × Entry)} {x' : Entry}
    (hfind' : f'.find path = .ok (way, .dir entries')) (hx' : (Entry.dir entries').at? ws = some x') :
    way ++ ws = dir ++ [name] ∧ x' = .file bytes mtime ∨
      ∃ entries x, f.find path = .ok (way, .dir entries) ∧ (Entry.dir entries).at? ws = some x ∧
        f.root.at? (way ++ ws) = some x ∧ Entry.Kept (some x) (some x') := by
  have hat' := Entry.walk_at? hfind'
  have hplace : f'.root.at? (way ++ ws) = some x' := by
    rw [Entry.at?_append, hat']
    exact hx'
  by_cases hnew : way ++ ws = dir ++ [name]
  · left
    rw [hnew, h.file] at hplace
    exact ⟨hnew, (Option.some.inj hplace).symm⟩
  · right
    obtain ⟨x, hx, hk⟩ := h.kept_some hplace hnew
    have hway : way ≠ dir ++ [name] := by
      rintro rfl
      rw [h.file] at hat'
      cases hat'
    obtain ⟨e, hat, hke⟩ := h.kept_some hat' hway
    obtain ⟨entries, rfl⟩ : ∃ entries, e = .dir entries := by
      cases hke <;> exact ⟨_, rfl⟩
    have hfind : f.find path = .ok (way, .dir entries) := by
      have hends := h.walk maxLinks [] (parts path)
      change Entry.Ends _ _ (f.find _) (f'.find _) at hends
      rw [hfind'] at hends
      generalize hold : f.find path = o at hends
      cases hends
      cases (Entry.walk_at? hold).symm.trans hat
      rfl
    refine ⟨entries, x, hfind, ?_, hx, hk⟩
    rw [Entry.at?_append, hat] at hx
    exact hx

theorem listedFrom_mono (hl : f.ListedFrom base d ws l) : f'.ListedFrom base d ws l := by
  obtain ⟨way, e, hfind, hleads⟩ := hl
  obtain ⟨entries, rfl⟩ := hleads.isDir
  obtain ⟨x, hx, hdir⟩ := hleads.entry
  obtain ⟨entries', x', hfind', hx', hold, hk⟩ := below_mono h hfind hx
  rw [← List.append_assoc] at hold
  exact ⟨way, _, hfind', hleads.entered, hleads.path, x', hx',
    (h.leadsToDir? hthrough hold hk).trans hdir⟩

theorem listedFrom_cases (hl : f'.ListedFrom base d ws l) : f.ListedFrom base d ws l ∨
    l.isDir = false ∧ f'.PathLeads (Path.join base l.path) (dir ++ [name]) := by
  obtain ⟨way, e', hfind', hleads⟩ := hl
  obtain ⟨entries', rfl⟩ := hleads.isDir
  obtain ⟨x', hx', hdir⟩ := hleads.entry
  rcases below_cases h hfind' hx' with ⟨hnew, rfl⟩ | ⟨entries, x, hfind, hx, hold, hk⟩
  · right
    refine ⟨by simpa [Entry.leadsToDir?] using hdir.symm, ?_⟩
    have hfile : f'.root.at? (way ++ (ws ++ [l.name])) = some (.file bytes mtime) := by
      rw [hnew, h.file]
    have hnames : ∀ n ∈ ws ++ [l.name], IsName n :=
      fun n hn => (h.proper'.names hfile n (List.mem_append_right way hn)).2
    rw [hleads.path, ← hnew]
    exact pathLeads_below h.proper' hfind' hfile (by simp) (parts_join_foldl base d hnames)
  · left
    rw [← List.append_assoc] at hold
    refine ⟨way, _, hfind, hleads.entered, hleads.path, x, hx, ?_⟩
    rw [← h.leadsToDir? hthrough hold hk]
    exact hdir

theorem mem_list_dirs (hl : l.isDir = true) : l ∈ f'.list base d ↔ l ∈ f.list base d := by
  rw [mem_list_iff h.proper', mem_list_iff h.proper]
  refine ⟨fun hnew => ?_, listedFrom_mono h hthrough⟩
  rcases listedFrom_cases h hthrough hnew with hold | ⟨hfile, -⟩
  · exact hold
  · rw [hl] at hfile
    cases hfile

theorem mem_listBelow_dirs (hl : l.isDir = true) : l ∈ f'.listBelow base d ↔ l ∈ f.listBelow base d := by
  rw [mem_listBelow_iff h.proper', mem_listBelow_iff h.proper]
  refine exists_congr fun ws => ⟨fun hnew => ?_, listedFrom_mono h hthrough⟩
  rcases listedFrom_cases h hthrough hnew with hold | ⟨hfile, -⟩
  · exact hold
  · rw [hl] at hfile
    cases hfile

theorem mem_list_mono (hl : l ∈ f.list base d) : l ∈ f'.list base d := by
  rw [mem_list_iff h.proper] at hl
  exact (mem_list_iff h.proper').mpr (listedFrom_mono h hthrough hl)

theorem mem_list_cases (hl : l ∈ f'.list base d) :
    l ∈ f.list base d ∨ f'.PathLeads (Path.join base l.path) (dir ++ [name]) := by
  rw [mem_list_iff h.proper'] at hl
  rw [mem_list_iff h.proper]
  exact (listedFrom_cases h hthrough hl).imp_right And.right

theorem mem_listBelow_mono (hl : l ∈ f.listBelow base d) : l ∈ f'.listBelow base d := by
  obtain ⟨ws, hl⟩ := (mem_listBelow_iff h.proper).mp hl
  exact (mem_listBelow_iff h.proper').mpr ⟨ws, listedFrom_mono h hthrough hl⟩

theorem mem_listBelow_cases (hl : l ∈ f'.listBelow base d) :
    l ∈ f.listBelow base d ∨ f'.PathLeads (Path.join base l.path) (dir ++ [name]) := by
  obtain ⟨ws, hl⟩ := (mem_listBelow_iff h.proper').mp hl
  rw [mem_listBelow_iff h.proper]
  exact (listedFrom_cases h hthrough hl).imp (fun hold => ⟨ws, hold⟩) And.right

theorem mem_dirsIn (s : Glob.Segment) (path : String) :
    path ∈ f'.dirsIn base d s ↔ path ∈ f.dirsIn base d s := by
  unfold dirsIn
  simp only [List.mem_append, List.mem_map, List.mem_filter, Bool.and_eq_true]
  refine or_congr_right (exists_congr fun l => and_congr_left' ?_)
  constructor
  · rintro ⟨hl, hdir, hfits⟩
    exact ⟨(mem_list_dirs h hthrough hdir).mp hl, hdir, hfits⟩
  · rintro ⟨hl, hdir, hfits⟩
    exact ⟨(mem_list_dirs h hthrough hdir).mpr hl, hdir, hfits⟩

theorem mem_search (segments : List Glob.Segment) (d : String) :
    (path ∈ f.search base d segments → path ∈ f'.search base d segments) ∧
      (path ∈ f'.search base d segments → path ∈ f.search base d segments ∨
        f'.PathLeads (Path.join base path) (dir ++ [name])) := by
  have hbelow := fun (d : String) (p : Listed → Bool) => mem_filter_paths
    (P := fun path => f'.PathLeads (Path.join base path) (dir ++ [name])) (q := p) (x := path)
    (fun l => mem_listBelow_mono h hthrough) (fun l => mem_listBelow_cases h hthrough (d := d))
  have hhere := fun (d : String) (p : Listed → Bool) => mem_filter_paths
    (P := fun path => f'.PathLeads (Path.join base path) (dir ++ [name])) (q := p) (x := path)
    (fun l => mem_list_mono h hthrough) (fun l => mem_list_cases h hthrough (d := d))
  fun_induction Files.search f base d segments with
  | case1 => exact ⟨id, .inl⟩
  | case2 d => exact hbelow d _
  | case3 d s hs =>
    rw [Files.search]
    · exact hhere d _
    · exact hs
  | case4 d s => exact hbelow d _
  | case5 d s rest hrest ih =>
    rw [Files.search]
    on_goal 2 => exact hrest
    refine mem_flatMap_paths ?_ ih
    intro e
    simp only [List.mem_map, List.mem_filter, Bool.and_eq_true]
    refine exists_congr fun l => and_congr_left' ?_
    constructor
    · rintro ⟨hl, hdir, hfits⟩
      exact ⟨(mem_listBelow_dirs h hthrough hdir).mp hl, hdir, hfits⟩
    · rintro ⟨hl, hdir, hfits⟩
      exact ⟨(mem_listBelow_dirs h hthrough hdir).mpr hl, hdir, hfits⟩
  | case6 d s rest h1 h2 h3 h4 ih =>
    rw [Files.search]
    · exact mem_flatMap_paths (mem_dirsIn h hthrough s) ih
    · exact h1
    · exact h2
    · exact h3
    · exact h4

end Gains

end Files

end EdgeAudit
