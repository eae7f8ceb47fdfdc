import EdgeAudit.Proofs.CacheHistory

namespace EdgeAudit

open Relation

structure World where
  files : Files
  state : ScanState
  tasks : List (String × Stage) := []

/-- Any scan may take up any file, any file under way may take its next step, and any file may be
written, all at any time. -/
inductive World.Step (s : Scanner) : World → World → Prop
  | begin {w : World} (path : String) : Step s w { w with tasks := w.tasks ++ [(path, .waiting)] }
  | turn {files : Files} {st st' : ScanState} {left right : List (String × Stage)} {path : String}
      {stage stage' : Stage} (h : FileStep s files path stage st stage' st') :
      Step s ⟨files, st, left ++ (path, stage) :: right⟩ ⟨files, st', left ++ (path, stage') :: right⟩
  | write {w : World} {files : Files} (h : w.files.Rewritten files) : Step s w { w with files }

namespace Scanner

variable {s : Scanner} {f g : Files} {path : String}

/-- An entry is never newer than the file, and if it is as new it has what the file gives. -/
def Dated (s : Scanner) (f : Files) (path : String) (entry : CacheEntry (List Finding) Int) : Prop :=
  ∃ bytes mtime, f.version? s.cwd path = some (bytes, mtime) ∧ entry.stamp ≤ mtime ∧
    (entry.stamp = mtime → ∃ text, Files.textOf bytes = .ok text ∧
      (Sight.readable text).scanned s.executor s.config s.rules s.cwd path =
        .ok { path, findings := entry.value })

def Underway (s : Scanner) (f : Files) (path : String) : Stage → Prop
  | .waiting => True
  | .reading file => file.path = path ∧ f.validatePath path s.cwd = .ok file.place ∧
      ∃ bytes mtime, f.version? s.cwd path = some (bytes, mtime) ∧ file.mtime ≤ mtime
  | .judging file text => file.path = path ∧
      ∃ bytes mtime, f.version? s.cwd path = some (bytes, mtime) ∧ file.mtime ≤ mtime ∧
        (file.mtime = mtime → Files.textOf bytes = .ok text)
  | .done _ => True

theorem dated_rewritten (h : f.Rewritten g) {entry : CacheEntry (List Finding) Int}
    (hd : s.Dated f path entry) : s.Dated g path entry := by
  obtain ⟨bytes, mtime, hv, hle, hsame⟩ := hd
  obtain ⟨bytes', mtime', hv', hlt | ⟨rfl, rfl⟩⟩ := h.version? hv
  · exact ⟨bytes', mtime', hv', by omega, fun heq => by omega⟩
  · exact ⟨bytes', mtime', hv', hle, hsame⟩

theorem underway_rewritten (h : f.Rewritten g) {stage : Stage} (hu : s.Underway f path stage) :
    s.Underway g path stage := by
  cases stage with
  | waiting => trivial
  | done => trivial
  | reading file =>
    obtain ⟨hpath, hplace, bytes, mtime, hv, hle⟩ := hu
    refine ⟨hpath, (h.validatePath path s.cwd).trans hplace, ?_⟩
    obtain ⟨bytes', mtime', hv', hlt | ⟨rfl, rfl⟩⟩ := h.version? hv
    · exact ⟨bytes', mtime', hv', by omega⟩
    · exact ⟨bytes', mtime', hv', hle⟩
  | judging file text =>
    obtain ⟨hpath, bytes, mtime, hv, hle, hsame⟩ := hu
    refine ⟨hpath, ?_⟩
    obtain ⟨bytes', mtime', hv', hlt | ⟨rfl, rfl⟩⟩ := h.version? hv
    · exact ⟨bytes', mtime', hv', by omega, fun heq => by omega⟩
    · exact ⟨bytes', mtime', hv', hle, hsame⟩

theorem fileStep_underway {stage stage' : Stage} {st st' : ScanState}
    (h : FileStep s f path stage st stage' st') (hu : s.Underway f path stage)
    (hst : st.Stores (s.Dated f)) : s.Underway f path stage' ∧ st'.Stores (s.Dated f) := by
  cases h with
  | finish h =>
    rcases inspect_cases s f st path with ⟨fault, text, hv, hi⟩ | ⟨file, findings, text, hv, hl, hi⟩ |
      ⟨file, hv, hl, hi⟩
    · simp only [hi, Prod.mk.injEq, Inspection.finished.injEq] at h
      obtain ⟨rfl, rfl⟩ := h
      exact ⟨trivial, hst⟩
    · simp only [hi, Prod.mk.injEq, Inspection.finished.injEq] at h
      obtain ⟨rfl, rfl⟩ := h
      exact ⟨trivial, ScanState.stores_lookup hst file.mtime⟩
    · simp [hi] at h
  | suspend h =>
    rcases inspect_cases s f st path with ⟨fault, text, hv, hi⟩ | ⟨file, findings, text, hv, hl, hi⟩ |
      ⟨file, hv, hl, hi⟩
    · simp [hi] at h
    · simp [hi] at h
    · simp only [hi, Prod.mk.injEq, Inspection.pending.injEq] at h
      obtain ⟨rfl, rfl⟩ := h
      obtain ⟨bytes, hver, hplace⟩ := vet_version hv
      exact ⟨⟨vet_path hv, hplace, bytes, file.mtime, hver, Int.le_refl _⟩,
        ScanState.stores_lookup hst file.mtime⟩
  | @fail st st' file fault scan hr h =>
    simp only [Scanner.finish, hr, Except.ok.injEq, Prod.mk.injEq] at h
    obtain ⟨-, rfl⟩ := h
    exact ⟨trivial, hst⟩
  | @read st file text hr =>
    obtain ⟨hpath, hplace, bytes, mtime, hver, hle⟩ := hu
    have htext : Files.textOf bytes = .ok text := by
      rw [← hr, Files.readText_of_readBytes (Files.readBytes_version hplace hver)]
    exact ⟨⟨hpath, bytes, mtime, hver, hle, fun _ => htext⟩, hst⟩
  | @judge st st' file text scan h =>
    obtain ⟨rfl, bytes, mtime, hver, hle, hsame⟩ := hu
    obtain ⟨hscan, -, hcache⟩ := evaluate_eq_ok h
    refine ⟨trivial, ?_⟩
    rcases hcache with he | ⟨hs, he⟩
    · intro c hc
      exact hst c (he ▸ hc)
    · intro c hc
      rw [he] at hc
      obtain ⟨c₀, hc₀, rfl⟩ := Option.map_eq_some_iff.mp hc
      refine Cache.forall_set (hst c₀ hc₀) ⟨bytes, mtime, hver, hle, fun heq => ?_⟩
      exact ⟨text, hsame heq, hs ▸ hscan⟩

structure Dates (s : Scanner) (w : World) : Prop where
  entries : w.state.Stores (s.Dated w.files)
  tasks : ∀ task ∈ w.tasks, s.Underway w.files task.1 task.2

theorem step_dates {w w' : World} (h : World.Step s w w') (hw : s.Dates w) : s.Dates w' := by
  cases h with
  | begin path =>
    refine ⟨hw.entries, fun task ht => ?_⟩
    rcases List.mem_append.mp ht with ht | ht
    · exact hw.tasks task ht
    · rw [List.mem_singleton.mp ht]
      trivial
  | @turn files st st' left right path stage stage' h =>
    obtain ⟨hu, hst⟩ := fileStep_underway h (hw.tasks (path, stage) (by simp)) hw.entries
    refine ⟨hst, fun task ht => ?_⟩
    rcases List.mem_append.mp ht with ht | ht
    · exact hw.tasks task (List.mem_append_left _ ht)
    · rcases List.mem_cons.mp ht with rfl | ht
      · exact hu
      · exact hw.tasks task (List.mem_append_right _ (List.mem_cons_of_mem _ ht))
  | write h =>
    exact ⟨fun c hc e he => dated_rewritten h (hw.entries c hc e he),
      fun task ht => underway_rewritten h (hw.tasks task ht)⟩

theorem reachable_dates {w w' : World} (h : ReflTransGen (World.Step s) w w') (hw : s.Dates w) :
    s.Dates w' := by
  induction h with
  | refl => exact hw
  | tail _ step ih => exact step_dates step ih

theorem sample_evaluate (st : ScanState) (mtime : Int) : ∃ notes,
    sampleScanner.evaluate st ⟨"/p/a.js", "/p/a.js", mtime⟩ ['c'] =
      .ok ({ path := "/p/a.js" }, ⟨st.cache.map fun c => c.set "/p/a.js" [] mtime, notes⟩) := by
  have hrun : (sampleScanner.executor.execute (sampleScanner.task "/p/a.js" ['c']) none).1 = .ok (.ok []) :=
    rfl
  have hset : sampleScanner.config.applySettings (sampleScanner.relative "/p/a.js") [] = .ok [] := rfl
  exact ⟨_, by simp only [evaluate, hrun, hset, mapError_ok, bind, Except.bind]; rfl⟩

theorem sample_look (bytes : ByteArray) (mtime : Int) (st : ScanState)
    (tasks : List (String × Stage)) (h : bytes.size ≤ 10)
    (hmiss : (st.lookup "/p/a.js" mtime).1 = none) :
    ReflTransGen (World.Step sampleScanner) ⟨sampleFiles bytes mtime, st, tasks⟩
      ⟨sampleFiles bytes mtime, (st.lookup "/p/a.js" mtime).2,
        tasks ++ [("/p/a.js", .reading ⟨"/p/a.js", "/p/a.js", mtime⟩)]⟩ :=
  (ReflTransGen.single (.begin "/p/a.js")).tail
    (.turn (.suspend (inspect_miss (sample_vet bytes mtime h) hmiss)))

theorem sample_store (st : ScanState) (tasks : List (String × Stage)) (since mtime : Int) :
    ∃ notes, ReflTransGen (World.Step sampleScanner)
      ⟨sampleFiles ⟨#[99]⟩ mtime, st,
        tasks ++ [("/p/a.js", .reading ⟨"/p/a.js", "/p/a.js", since⟩)]⟩
      ⟨sampleFiles ⟨#[99]⟩ mtime, ⟨st.cache.map fun c => c.set "/p/a.js" [] since, notes⟩,
        tasks ++ [("/p/a.js", .done { path := "/p/a.js" })]⟩ := by
  obtain ⟨notes, he⟩ := sample_evaluate st since
  exact ⟨notes, (ReflTransGen.single (.turn (.read (sample_readText _ mtime (by decide +kernel))))).tail
    (.turn (.judge he))⟩

/-- However scans and writes are interleaved, a hit in the cache has the findings of the text that the
file has at that moment. -/
theorem hit_current_text (s : Scanner) (f : Files) (capacity : Int) (cache : FindingCache)
    (notes : List LogLine) (w : World) (path : String) (scan : FileScan) (st : ScanState)
    (hcache : Cache.create capacity = .ok cache)
    (hw : ReflTransGen (World.Step s) ⟨f, ⟨some cache, notes⟩, []⟩ w)
    (hi : s.inspect w.files w.state path = (.finished scan, st)) (hit : scan.fromCache = true) :
    ∃ text, w.files.sight s.cwd s.maxSize path = .readable text ∧
      (Sight.readable text).scanned s.executor s.config s.rules s.cwd path =
        .ok { scan with fromCache := false } := by
  have hstart : s.Dates ⟨f, ⟨some cache, notes⟩, []⟩ := by
    refine ⟨fun c hc => ?_, fun task ht => by cases ht⟩
    cases hc
    exact Cache.forall_create hcache
  have hd := reachable_dates hw hstart
  rcases inspect_cases s w.files w.state path with ⟨fault, note, hv, hi'⟩ |
    ⟨file, findings, note, hv, hl, hi'⟩ | ⟨file, hv, hl, hi'⟩
  · rw [hi'] at hi
    cases hi
    cases hit
  · rw [hi'] at hi
    cases hi
    obtain ⟨bytes, mtime, hver, -, hsame⟩ := ScanState.lookup_some hd.entries hl
    obtain ⟨bytes', hver', hplace⟩ := vet_version hv
    rw [hver'] at hver
    cases hver
    obtain ⟨text, ht, hscan⟩ := hsame rfl
    refine ⟨text, sight_readable hv ?_, hscan⟩
    rw [Files.readText_of_readBytes (Files.readBytes_version hplace hver'), ht]
  · rw [hi'] at hi
    cases hi

theorem hit_current_text_sample : ∃ w scan st,
    ReflTransGen (World.Step sampleScanner)
      ⟨sampleFiles ⟨#[98]⟩ 1, ⟨some ⟨1, []⟩, []⟩, []⟩ w ∧
    sampleScanner.inspect w.files w.state "/p/a.js" = (.finished scan, st) ∧
    scan.fromCache = true ∧ ∃ text, w.files.sight "/p" sampleScanner.maxSize "/p/a.js" = .readable text ∧
      (Sight.readable text).scanned sampleScanner.executor sampleScanner.config sampleScanner.rules "/p"
        "/p/a.js" = .ok { scan with fromCache := false } := by
  let stale : FindingCache := Cache.set ⟨1, []⟩ "/p/a.js" [] 1
  have hlook := sample_look ⟨#[98]⟩ 1 ⟨some ⟨1, []⟩, []⟩ [] (by decide) rfl
  have hnew : (sampleFiles ⟨#[98]⟩ 1).Rewritten (sampleFiles ⟨#[99]⟩ 2) :=
    sample_rewritten (by decide)
  obtain ⟨notes, hstale⟩ := sample_store ⟨some ⟨1, []⟩, []⟩ [] 1 2
  have hagain := sample_look ⟨#[99]⟩ 2 ⟨some stale, notes⟩ [("/p/a.js", .done { path := "/p/a.js" })]
    (by decide) rfl
  obtain ⟨notes', hstore⟩ := sample_store (ScanState.lookup ⟨some stale, notes⟩ "/p/a.js" 2).2
    [("/p/a.js", .done { path := "/p/a.js" })] 2 2
  have hrun := (hlook.tail (.write hnew)).trans (hstale.trans (hagain.trans hstore))
  obtain ⟨st, hhit⟩ : ∃ st, sampleScanner.inspect (sampleFiles ⟨#[99]⟩ 2)
      ⟨(ScanState.lookup ⟨some stale, notes⟩ "/p/a.js" 2).2.cache.map
        fun c => c.set "/p/a.js" [] 2, notes'⟩ "/p/a.js" =
      (.finished { path := "/p/a.js", fromCache := true }, st) := by
    rw [inspect, sample_vet _ _ (by decide)]
    exact ⟨_, rfl⟩
  exact ⟨_, _, _, hrun, hhit, rfl,
    hit_current_text sampleScanner _ 1 ⟨1, []⟩ [] _ _ _ _ rfl hrun hhit rfl⟩

end Scanner

end EdgeAudit
