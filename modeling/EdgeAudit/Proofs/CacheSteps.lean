import EdgeAudit.Proofs.CacheHistory
import EdgeAudit.Proofs.RecentEntries

namespace EdgeAudit

open Relation

inductive CacheStep (s : Scanner) (f : Files) (path : String) :
    Stage → FindingCache → Stage → FindingCache → Prop
  | reject {c : FindingCache} {fault : PathFault} (hv : s.vet f path = .error fault) :
      CacheStep s f path .waiting c (.done { path }) c
  | hit {c : FindingCache} {file : Pending} {findings : List Finding} (hv : s.vet f path = .ok file)
      (hl : (c.getValid path file.mtime).1 = some findings) :
      CacheStep s f path .waiting c (.done { path, findings, fromCache := true })
        (c.getValid path file.mtime).2
  | miss {c : FindingCache} {file : Pending} (hv : s.vet f path = .ok file)
      (hl : (c.getValid path file.mtime).1 = none) :
      CacheStep s f path .waiting c (.reading file) (c.getValid path file.mtime).2
  | fail {c : FindingCache} {file : Pending} {fault : ReadFault}
      (hr : f.readText file.place = .error fault) :
      CacheStep s f path (.reading file) c (.done { path := file.path }) c
  | read {c : FindingCache} {file : Pending} {text : List Char}
      (hr : f.readText file.place = .ok text) :
      CacheStep s f path (.reading file) c (.judging file text) c
  | refuse {c : FindingCache} {file : Pending} {text : List Char} {failure : ExecutionFailure}
      (ho : (s.executor.execute (s.task file.path text) none).1 = .ok (.error failure)) :
      CacheStep s f path (.judging file text) c
        (.done { path := file.path, error := some failure }) c
  | store {c : FindingCache} {file : Pending} {text : List Char} {found findings : List Finding}
      (ho : (s.executor.execute (s.task file.path text) none).1 = .ok (.ok found)) :
      CacheStep s f path (.judging file text) c (.done { path := file.path, findings })
        (c.set file.path findings file.mtime)

section Steps

variable {s : Scanner} {f : Files} {path : String} {stage stage' : Stage} {st st' : ScanState}
  {c c' : FindingCache}

theorem ScanState.lookup_eq {mtime : Int} (h : st.cache = some c) :
    st.lookup path mtime =
      ((c.getValid path mtime).1, { st with cache := some (c.getValid path mtime).2 }) := by
  simp only [lookup, h]

theorem FileStep.cacheStep (h : FileStep s f path stage st stage' st') (hc : st.cache = some c) :
    ∃ c', st'.cache = some c' ∧ CacheStep s f path stage c stage' c' := by
  cases h with
  | finish h =>
    rcases Scanner.inspect_cases s f st path with ⟨fault, text, hv, hi⟩ |
      ⟨file, findings, text, hv, hl, hi⟩ | ⟨file, hv, hl, hi⟩
    · simp only [hi, Prod.mk.injEq, Inspection.finished.injEq] at h
      obtain ⟨rfl, rfl⟩ := h
      exact ⟨c, hc, .reject hv⟩
    · rw [ScanState.lookup_eq hc] at hl hi
      simp only [hi, Prod.mk.injEq, Inspection.finished.injEq] at h
      obtain ⟨rfl, rfl⟩ := h
      exact ⟨_, rfl, .hit hv hl⟩
    · simp [hi] at h
  | suspend h =>
    rcases Scanner.inspect_cases s f st path with ⟨fault, text, hv, hi⟩ |
      ⟨file, findings, text, hv, hl, hi⟩ | ⟨file, hv, hl, hi⟩
    · simp [hi] at h
    · simp [hi] at h
    · rw [ScanState.lookup_eq hc] at hl hi
      simp only [hi, Prod.mk.injEq, Inspection.pending.injEq] at h
      obtain ⟨rfl, rfl⟩ := h
      exact ⟨_, rfl, .miss hv hl⟩
  | fail hr h =>
    simp only [Scanner.finish, hr, Except.ok.injEq, Prod.mk.injEq] at h
    obtain ⟨rfl, rfl⟩ := h
    exact ⟨c, hc, .fail hr⟩
  | read hr => exact ⟨c, hc, .read hr⟩
  | @judge st st' file text scan h =>
    simp only [Scanner.evaluate] at h
    cases ho : (s.executor.execute (s.task file.path text) none).1 with
    | error cause =>
      rw [ho] at h
      cases h
    | ok outcome =>
      cases outcome with
      | error failure =>
        simp only [ho, pure, Except.pure, Except.ok.injEq, Prod.mk.injEq] at h
        obtain ⟨rfl, rfl⟩ := h
        exact ⟨c, hc, .refuse ho⟩
      | ok found =>
        cases hf : s.config.applySettings (s.relative file.path) found with
        | error e => simp [ho, hf, bind, Except.bind] at h
        | ok findings =>
          simp only [ho, hf, mapError_ok, bind, Except.bind, pure, Except.pure, Except.ok.injEq,
            Prod.mk.injEq] at h
          obtain ⟨rfl, rfl⟩ := h
          exact ⟨c.set file.path findings file.mtime, by simp only [ScanState.store, hc, Option.map_some],
            .store ho⟩

theorem CacheStep.sound (h : CacheStep s f path stage c stage' c') (hc : c.Sound) :
    c'.Sound ∧ c'.capacity = c.capacity := by
  cases h with
  | reject | fail | read | refuse => exact ⟨hc, rfl⟩
  | hit | miss => exact hc.serve (.getValid path _)
  | store => exact hc.serve (.set _ _ _)

theorem CacheStep.request (h : CacheStep s f path stage c stage' c')
    (hfile : ∀ file text, stage = .judging file text → file.path = path) :
    c' = c ∨ (∃ stamp, c' = (c.getValid path stamp).2) ∨
      ∃ value stamp, c' = c.set path value stamp := by
  cases h with
  | reject | fail | read | refuse => exact .inl rfl
  | hit | miss => exact .inr (.inl ⟨_, rfl⟩)
  | @store c file text found findings =>
    exact .inr (.inr ⟨findings, file.mtime, by rw [hfile file text rfl]⟩)

theorem CacheStep.guarded {files : List String} {k : String} {entry : CacheEntry (List Finding) Int}
    (h : CacheStep s f path stage c stage' c')
    (hfile : ∀ file text, stage = .judging file text → file.path = path) (hn : c.keys.Nodup)
    (hfit : files.length ≤ c.capacity) (hpath : path ∈ files) (hk : k ∈ files) (hne : k ≠ path)
    (hg : c.Guarded files k entry) : c'.Guarded files k entry := by
  rcases h.request hfile with rfl | ⟨stamp, rfl⟩ | ⟨value, stamp, rfl⟩
  · exact hg
  · exact hg.getValid hn hpath stamp
  · exact hg.set hn hk hpath hne.symm hfit value stamp

theorem CacheStep.stale {k : String} {mtime : Int} (h : CacheStep s f path stage c stage' c')
    (hfile : ∀ file text, stage = .judging file text → file.path = path) (hne : k ≠ path)
    (hs : c.Forall (Cache.Stale k mtime)) : c'.Forall (Cache.Stale k mtime) := by
  rcases h.request hfile with rfl | ⟨stamp, rfl⟩ | ⟨value, stamp, rfl⟩
  · exact hs
  · exact Cache.forall_getValid hs stamp
  · exact Cache.forall_set hs fun heq => absurd heq.symm hne

end Steps

/-- `C` holds of the cache at each step of the files in `files`, and `R` of each of them with the cache:
its own steps lead to the next stage, and the steps of the other ones change nothing. -/
structure Sustains (s : Scanner) (f : Files) (files : List String) (C : FindingCache → Prop)
    (R : String → Stage → FindingCache → Prop) : Prop where
  waiting : ∀ path c, R path .waiting c
  own : ∀ {path stage c stage' c'}, path ∈ files → CacheStep s f path stage c stage' c' → C c →
    R path stage c → C c' ∧ R path stage' c'
  other : ∀ {path stage c stage' c' k known}, path ∈ files → CacheStep s f path stage c stage' c' →
    C c → R path stage c → k ∈ files → k ≠ path → R k known c → R k known c'

section Runs

variable {s : Scanner} {f : Files} {files : List String} {C : FindingCache → Prop}
  {R : String → Stage → FindingCache → Prop} {past : List (String × Stage)}

def Batch.Shares (C : FindingCache → Prop) (R : String → Stage → FindingCache → Prop)
    (past : List (String × Stage)) (b : Batch) : Prop :=
  ∃ c, b.progress.cache = some c ∧ C c ∧ ∀ x ∈ past ++ b.stages, R x.1 x.2 c

theorem Batch.step_shares (hs : Sustains s f files C R) {b b' : Batch} (h : Step s f b b')
    (hin : ∀ x ∈ past ++ b.stages, x.1 ∈ files) (hn : ((past ++ b.stages).map (·.1)).Nodup)
    (hb : b.Shares C R past) : b'.Shares C R past := by
  cases h with
  | @turn p st before after path stage stage' _ h =>
    obtain ⟨c, hc, hC, hR⟩ := hb
    obtain ⟨c', hc', hstep⟩ := h.cacheStep hc
    have hpath : path ∈ files := hin (path, stage) (by simp)
    have hown : R path stage c := hR (path, stage) (by simp)
    obtain ⟨hC', hR'⟩ := hs.own hpath hstep hC hown
    have hothers : ∀ x ∈ (past ++ before) ++ after, R x.1 x.2 c' := by
      intro x hx
      have hmem : x ∈ past ++ (before ++ (path, stage) :: after) := by
        simp only [List.mem_append, List.mem_cons] at hx ⊢
        grind
      refine hs.other hpath hstep hC hown (hin x hmem) ?_ (hR x hmem)
      intro heq
      simp only [← List.append_assoc, List.map_append, List.map_cons] at hn
      rw [← List.map_append, List.nodup_middle, ← List.map_append, List.nodup_cons] at hn
      exact hn.1 (List.mem_map.mpr ⟨x, hx, heq⟩)
    refine ⟨c', by simpa using hc', hC', ?_⟩
    intro x hx
    simp only [List.mem_append, List.mem_cons] at hx
    rcases hx with hx | hx | rfl | hx
    · exact hothers x (by simp [hx])
    · exact hothers x (by simp [hx])
    · exact hR'
    · exact hothers x (by simp [hx])

theorem Batch.reachable_shares (hs : Sustains s f files C R) {b b' : Batch}
    (h : ReflTransGen (Step s f) b b') (hin : ∀ k ∈ (past ++ b.stages).map (·.1), k ∈ files)
    (hn : ((past ++ b.stages).map (·.1)).Nodup) (hb : b.Shares C R past) : b'.Shares C R past := by
  induction h with
  | refl => exact hb
  | @tail b₁ b₂ hrun step ih =>
    have hpaths : (past ++ b₁.stages).map (·.1) = (past ++ b.stages).map (·.1) := by
      rw [List.map_append, List.map_append, run_paths hrun]
    refine step_shares hs step ?_ (hpaths ▸ hn) ih
    intro x hx
    exact hin x.1 (hpaths ▸ List.mem_map_of_mem hx)

theorem Batch.start_shares (hs : Sustains s f files C R) {p : Progress} {c : FindingCache}
    (hc : p.cache = some c) (hC : C c) (hpast : ∀ x ∈ past, R x.1 x.2 c) (paths : List String) :
    (Batch.start p paths).Shares C R past := by
  refine ⟨c, hc, hC, ?_⟩
  intro x hx
  rcases List.mem_append.mp hx with hx | hx
  · exact hpast x hx
  · obtain ⟨path, -, rfl⟩ := List.mem_map.mp hx
    exact hs.waiting path c

theorem Batch.start_paths (p : Progress) (paths : List String) :
    (Batch.start p paths).stages.map (·.1) = paths := by
  simp [start, Function.comp_def]

theorem BatchesRun.shares (hs : Sustains s f files C R) {p p' : Progress}
    {batches : List (List String)} {scans : List FileScan} (h : BatchesRun s f p batches scans p')
    (past : List (String × Stage)) {c : FindingCache} (hin : ∀ k ∈ past.map (·.1) ++ batches.flatten, k ∈ files)
    (hn : (past.map (·.1) ++ batches.flatten).Nodup) (hc : p.cache = some c) (hC : C c)
    (hpast : ∀ x ∈ past, R x.1 x.2 c) :
    ∃ (c' : FindingCache) (ended : List (String × Stage)), p'.cache = some c' ∧ C c' ∧
      ended.map (·.1) = batches.flatten ∧ ended.map (·.2) = scans.map .done ∧
      ∀ x ∈ past ++ ended, R x.1 x.2 c' := by
  -- over the batches, where `past` has the files of those before: what is known of them is kept
  induction h generalizing c past with
  | nil p => exact ⟨c, [], hc, hC, rfl, rfl, by simpa using hpast⟩
  | @cons p p₁ p₂ batch batches scans more h rest ih =>
    obtain ⟨b, hrun, hdone, rfl⟩ := h
    simp only [List.flatten_cons, ← List.append_assoc] at hin hn
    have hpaths : (past ++ (Batch.start p batch).stages).map (·.1) = past.map (·.1) ++ batch := by
      rw [List.map_append, Batch.start_paths]
    have hshares := Batch.reachable_shares hs hrun
      (fun k hk => hin k (List.mem_append_left _ (hpaths ▸ hk)))
      (hpaths ▸ (List.nodup_append.mp hn).1) (Batch.start_shares hs hc hC hpast batch)
    obtain ⟨c₁, hc₁, hC₁, hR₁⟩ := hshares
    have hstages : b.stages.map (·.1) = batch := (Batch.run_paths hrun).trans (Batch.start_paths p batch)
    have hpast₁ : (past ++ b.stages).map (·.1) = past.map (·.1) ++ batch := by
      rw [List.map_append, hstages]
    obtain ⟨c₂, ended, hc₂, hC₂, hflat, hscans, hR₂⟩ :=
      ih (past ++ b.stages) (hpast₁ ▸ hin) (hpast₁ ▸ hn) hc₁ hC₁ hR₁
    refine ⟨c₂, b.stages ++ ended, hc₂, hC₂, ?_, ?_, ?_⟩
    · rw [List.map_append, hstages, hflat, List.flatten_cons]
    · rw [List.map_append, hdone, hscans, List.map_append]
    · rwa [← List.append_assoc]

theorem BatchesRun.shares_done (hs : Sustains s f files C R) {p p' : Progress}
    {batches : List (List String)} {scans : List FileScan} (h : BatchesRun s f p batches scans p')
    {c : FindingCache} (hin : ∀ k ∈ batches.flatten, k ∈ files) (hn : batches.flatten.Nodup)
    (hc : p.cache = some c) (hC : C c) :
    ∃ c', p'.cache = some c' ∧ C c' ∧
      List.Forall₂ (fun path scan => R path (.done scan) c') batches.flatten scans := by
  obtain ⟨c', ended, hc', hC', hpaths, hdone, hall⟩ :=
    h.shares hs [] hin hn hc hC (by simp)
  refine ⟨c', hc', hC', ?_⟩
  have hrel : List.Forall₂ (fun path stage => R path stage c') (ended.map (·.1)) (ended.map (·.2)) := by
    rw [List.forall₂_map_left_iff, List.forall₂_map_right_iff]
    exact List.forall₂_same.mpr hall
  rw [hpaths, hdone, List.forall₂_map_right_iff] at hrel
  exact hrel

theorem BatchesRun.shares_next (hs : Sustains s f files C R) {p p' : Progress}
    {finished : List (List String)} {scans : List FileScan} (h : BatchesRun s f p finished scans p')
    {batch : List String} {b : Batch} (hsteps : ReflTransGen (Batch.Step s f) (Batch.start p' batch) b)
    {c : FindingCache} (hin : ∀ k ∈ finished.flatten ++ batch, k ∈ files)
    (hn : (finished.flatten ++ batch).Nodup) (hc : p.cache = some c) (hC : C c) :
    ∃ c', C c' ∧ ∀ x ∈ b.stages, R x.1 x.2 c' := by
  obtain ⟨c₁, ended, hc₁, hC₁, hpaths, -, hall⟩ := h.shares hs []
    (fun k hk => hin k (List.mem_append_left _ hk)) (List.nodup_append.mp hn).1 hc hC (by simp)
  have hstart : (ended ++ (Batch.start p' batch).stages).map (·.1) = finished.flatten ++ batch := by
    rw [List.map_append, hpaths, Batch.start_paths]
  obtain ⟨c', -, hC', hR⟩ := Batch.reachable_shares hs hsteps (hstart ▸ hin) (hstart ▸ hn)
    (Batch.start_shares hs hc₁ hC₁ hall batch)
  exact ⟨c', hC', fun x hx => hR x (List.mem_append_right _ hx)⟩

theorem Sustains.returns (hs : Sustains s f files C R)
    (hread : ∀ path file c, path ∈ files → C c → R path (.reading file) c → s.Returns f path)
    (batches : List (List String)) (past : List (String × Stage)) {p : Progress} {c : FindingCache}
    (hin : ∀ k ∈ past.map (·.1) ++ batches.flatten, k ∈ files)
    (hn : (past.map (·.1) ++ batches.flatten).Nodup) (hc : p.cache = some c) (hC : C c)
    (hpast : ∀ x ∈ past, R x.1 x.2 c) : ∃ r, s.scanBatches f p batches = .ok r := by
  induction batches generalizing past p c with
  | nil => exact ⟨_, rfl⟩
  | cons batch batches ih =>
    simp only [List.flatten_cons, ← List.append_assoc] at hin hn
    have hpaths : (past ++ (Batch.start p batch).stages).map (·.1) = past.map (·.1) ++ batch := by
      rw [List.map_append, Batch.start_paths]
    have hin' : ∀ k ∈ past.map (·.1) ++ batch, k ∈ files := fun k hk => hin k (List.mem_append_left _ hk)
    have hn' : (past.map (·.1) ++ batch).Nodup := (List.nodup_append.mp hn).1
    obtain ⟨hstart, hof⟩ := Scanner.startAll_steps (s := s) (f := f) batch p
      (by simp : ∀ x ∈ ([] : List (String × Stage)), x.2 ≠ .waiting)
    obtain ⟨c₁, -, hC₁, hR₁⟩ := Batch.reachable_shares hs hstart (hpaths ▸ hin') (hpaths ▸ hn')
      (Batch.start_shares hs hc hC hpast batch)
    have hpending : ∀ path file,
        (path, Inspection.pending file) ∈ batch.zip (s.startAll f p batch).1 → s.Returns f path := by
      intro path file hmem
      have hpath : path ∈ batch := (List.of_mem_zip hmem).1
      refine hread path file c₁ (hin' path (by simp [hpath])) hC₁ (hR₁ (path, .reading file) ?_)
      rw [List.nil_append, List.zip_map_right, List.mem_append]
      exact .inr (List.mem_map.mpr ⟨_, hmem, rfl⟩)
    obtain ⟨⟨scans, p₁⟩, hb⟩ := Scanner.resumeAll_returns hof hpending (s.startAll f p batch).2
    have hb' : s.scanBatch f p batch = .ok (scans, p₁) := hb
    obtain ⟨c₂, ended, hc₂, hC₂, hflat, -, hR₂⟩ :=
      (BatchesRun.cons (Scanner.scanBatch_run hb') (.nil p₁)).shares hs past
        (by simpa using hin') (by simpa using hn') hc hC hpast
    have hpast₂ : (past ++ ended).map (·.1) = past.map (·.1) ++ batch := by
      rw [List.map_append, hflat]
      simp
    obtain ⟨⟨more, p₂⟩, hm⟩ := ih (past ++ ended) (hpast₂ ▸ hin) (hpast₂ ▸ hn) hc₂ hC₂ hR₂
    exact ⟨(scans ++ more, p₂), by
      simp [Scanner.scanBatches, hb', hm, bind, Except.bind, pure, Except.pure]⟩

end Runs

def ScanState.HasCache (st : ScanState) : Prop :=
  ∃ c, st.cache = some c ∧ c.Sound

namespace Scanner

variable {s : Scanner} {f : Files}

theorem fileStep_hasCache (path : String) (stage : Stage) (st : ScanState) (stage' : Stage)
    (st' : ScanState) (h : FileStep s f path stage st stage' st') (_ : True) (hst : st.HasCache) :
    True ∧ st'.HasCache := by
  obtain ⟨c, hc, hsound⟩ := hst
  obtain ⟨c', hc', hstep⟩ := h.cacheStep hc
  exact ⟨trivial, c', hc', (hstep.sound hsound).1⟩

theorem keeps_hasCache (late : Bool) :
    Beside.Keeps s f late (fun _ _ => True) (fun _ _ => True) ScanState.HasCache where
  own := fileStep_hasCache
  stray path stage st stage' st' _ := fileStep_hasCache path stage st stage' st'

theorem history_sound {past : List Occasion} {cache : Option FindingCache}
    (h : s.History past cache) : ∃ c, cache = some c ∧ c.Sound := by
  obtain ⟨late, strays, h⟩ := h
  induction h with
  | opened h => exact ⟨_, rfl, Cache.sound_create h⟩
  | scanned _ h ih =>
    obtain ⟨-, found, notes, scans, p, -, hrun, rfl⟩ := h
    exact (hrun.holds (keeps_hasCache late) (fun _ => trivial) (fun _ _ => trivial) ih).2.2
  | stopped _ h ih =>
    obtain ⟨found, notes, finished, batch, rest, scans, between, p, more, b, -, -, hrun, hsteps, rfl, rfl⟩ := h
    have hp := (hrun.holds (keeps_hasCache late) (fun _ => trivial) (fun _ _ => trivial) ih).2.2
    exact (Beside.reachable_holds (keeps_hasCache late) hsteps
      ⟨fun _ _ => trivial, Batch.start_holds (fun _ => trivial) batch hp⟩).2.2
  | strayed _ h ih =>
    obtain ⟨b, hsteps, rfl⟩ := h
    exact (Beside.reachable_holds (keeps_hasCache late) hsteps
      ⟨fun _ _ => trivial, fun _ _ => trivial, ih⟩).2.2

end Scanner

end EdgeAudit
