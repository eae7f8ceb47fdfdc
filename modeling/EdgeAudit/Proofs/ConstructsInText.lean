import EdgeAudit.Proofs.LineHits
import EdgeAudit.Proofs.WholeDelay

namespace EdgeAudit

def Occurrence.bare (o : Occurrence) : Occurrence :=
  { o with stop := o.start }

namespace Listing

open InText Number Text Pattern

theorem program_cons (closed : Bool) (l : Line) (ls : List Line) :
    (ls = [] ∧ program closed (l :: ls) = l.write []) ∨
      program closed (l :: ls) = l.write ('\n' :: program closed ls) := by
  cases ls with
  | nil =>
    cases closed with
    | false => exact .inl ⟨rfl, rfl⟩
    | true => exact .inr rfl
  | cons m ls => exact .inr rfl

theorem covers_program (c : Construct) (closed : Bool) (lines : List Line) {s : Spot}
    (hfresh : Fresh s) (hkept : s.kept = []) (hs : s.rest = program closed lines) :
    Covers (pattern c) s ((placed s.pos lines).flatMap fun l => l.2.marks c l.1) [] := by
  induction lines generalizing s with
  | nil => exact skips_refl (pattern c) [] s hs
  | cons l ls ih =>
    rw [placed, List.flatMap_cons]
    rcases program_cons closed l ls with ⟨rfl, hl⟩ | hl
    · have hline := covers_line (z := []) (fun d hd => by cases hd) c l hfresh hkept (hs.trans hl)
      rwa [placed, List.flatMap_nil, List.append_nil]
    · have hgate : ∀ d, ('\n' :: program closed ls).head? = some d → isGate d = true := by
        intro d hd
        cases hd
        decide
      have hline := (covers_line hgate c l hfresh hkept (hs.trans hl)).skips
        (skips_gate (pattern_opens c) (by decide))
      refine hline.trans fun a ha => ?_
      have ha' : a = l.text ++ ['\n'] := by
        have htext : l.text ++ ['\n'] ++ program closed ls = a ++ program closed ls := by
          rw [← ha, hs, hl, Line.write_eq]
          simp
        exact (List.append_cancel_right htext).symm
      subst ha'
      have hrest := ih (s := s.past (l.text ++ ['\n']) (program closed ls)) (.inr (.inr (by simp)))
        hkept rfl
      rwa [Spot.past_pos, List.length_append, List.length_singleton, ← Nat.add_assoc] at hrest

theorem findAll_program (c : Construct) (closed : Bool) (lines : List Line) :
    ((pattern c).findAll (program closed lines)).map Found.mark =
      (placed 0 lines).flatMap fun l => l.2.marks c l.1 := by
  obtain ⟨a, -, hscan⟩ := covers_program c closed lines (s := Spot.first (program closed lines))
    (.inl rfl) rfl rfl
  exact findAll_marks hscan rfl ((pattern_opens c).read_end rfl)

def sites (cs : List Construct) (lines : List Line) : List Occurrence :=
  ((placed 0 lines).map fun l => l.2.occurrence l.1).filter fun o => cs.contains o.construct

theorem lead_le (l : Line) : l.lead ≤ l.text.length := by
  cases l with
  | imports taken source => exact Nat.zero_le _
  | statement binding use =>
    show _ ≤ (writeBinding binding ([] ++ use.write [])).length
    rw [writeBinding_append, List.length_append, writeBinding_length binding use]
    exact Nat.le_add_right _ _

theorem placed_starts (pos : Nat) (lines : List Line) :
    ((placed pos lines).map fun l => l.2.occurrence l.1).Pairwise (fun a b => a.start < b.start) ∧
      ∀ l ∈ placed pos lines, pos ≤ l.1 := by
  induction lines generalizing pos with
  | nil => exact ⟨.nil, fun l hl => by cases hl⟩
  | cons l ls ih =>
    obtain ⟨hsorted, hge⟩ := ih (pos + l.text.length + 1)
    refine ⟨.cons (fun o ho => ?_) hsorted, fun m hm => ?_⟩
    · obtain ⟨m, hm, rfl⟩ := List.mem_map.mp ho
      have hle := lead_le l
      have hm' := hge m hm
      show pos + l.lead < m.1 + m.2.lead
      omega
    · rcases List.mem_cons.mp hm with rfl | hm
      · exact Nat.le_refl _
      · have hm' := hge m hm
        omega

theorem sites_starts (cs : List Construct) (lines : List Line) :
    (sites cs lines).Pairwise fun a b => a.start < b.start :=
  (placed_starts 0 lines).1.filter _

section Order

variable {os es : List Occurrence}

theorem starts_nodup (hes : es.Pairwise fun a b => a.start < b.start) :
    (es.map Occurrence.start).Nodup :=
  List.pairwise_map.mpr (hes.imp Nat.ne_of_lt)

theorem mergeSort_bare (hperm : (os.map Occurrence.bare).Perm es)
    (hes : es.Pairwise fun a b => a.start < b.start) :
    (os.mergeSort fun a b => a.start ≤ b.start).map Occurrence.bare = es := by
  have hsorted : ((os.mergeSort fun a b => a.start ≤ b.start).map Occurrence.bare).Pairwise
      fun a b => a.start ≤ b.start := by
    refine List.pairwise_map.mpr ((List.pairwise_mergeSort ?_ ?_ os).imp of_decide_eq_true)
    · simp only [decide_eq_true_eq]
      exact fun a b c => Nat.le_trans
    · simp only [Bool.or_eq_true, decide_eq_true_eq]
      exact fun a b => Nat.le_total _ _
  have hmem := ((List.mergeSort_perm os fun a b => a.start ≤ b.start).map Occurrence.bare).trans hperm
  refine List.Perm.eq_of_pairwise ?_ hsorted (hes.imp Nat.le_of_lt) hmem
  intro a b ha hb hab hba
  exact List.inj_on_of_nodup_map (starts_nodup hes) (hmem.mem_iff.mp ha) hb (Nat.le_antisymm hab hba)

theorem inOrder_of_nodup (h : (os.map Occurrence.start).Nodup) :
    inOrder os = os.mergeSort fun a b => a.start ≤ b.start := by
  have hkeep : ∀ (xs acc : List Occurrence), ((acc ++ xs).map Occurrence.start).Nodup →
      xs.foldl (fun acc o => if acc.any (·.start == o.start) then acc else acc ++ [o]) acc =
        acc ++ xs := by
    intro xs
    induction xs with
    | nil => exact fun acc _ => (List.append_nil acc).symm
    | cons o xs ih =>
      intro acc hnodup
      have hnew : acc.any (·.start == o.start) = false := by
        refine Bool.eq_false_iff.mpr fun hany => ?_
        obtain ⟨o', ho', heq⟩ := List.any_eq_true.mp hany
        rw [List.map_append, List.nodup_append] at hnodup
        exact hnodup.2.2 o'.start (List.mem_map_of_mem ho') o.start (by simp) (by simpa using heq)
      rw [List.foldl_cons, hnew, if_neg Bool.false_ne_true, ih _ (by simpa using hnodup)]
      simp
  rw [inOrder, hkeep os [] h, List.nil_append]

theorem inOrder_bare (hperm : (os.map Occurrence.bare).Perm es)
    (hes : es.Pairwise fun a b => a.start < b.start) : (inOrder os).map Occurrence.bare = es := by
  have hnodup : (os.map Occurrence.start).Nodup := by
    have hmap : os.map Occurrence.start = (os.map Occurrence.bare).map Occurrence.start := by
      rw [List.map_map]
      rfl
    rw [hmap, (hperm.map Occurrence.start).nodup_iff]
    exact starts_nodup hes
  rw [inOrder_of_nodup hnodup, mergeSort_bare hperm hes]

end Order

theorem sites_perm {cs : List Construct} (h : cs.Nodup) (lines : List Line) :
    (cs.flatMap fun c => sites [c] lines).Perm (sites cs lines) := by
  induction cs with
  | nil => simp [sites]
  | cons c cs ih =>
    obtain ⟨hc, hcs⟩ := List.nodup_cons.mp h
    rw [List.flatMap_cons]
    refine ((ih hcs).append_left _).trans ?_
    have hsplit := List.filter_append_perm (fun o => [c].contains o.construct) (sites (c :: cs) lines)
    have hfirst : (sites (c :: cs) lines).filter (fun o => [c].contains o.construct) =
        sites [c] lines := by
      rw [sites, List.filter_filter]
      refine List.filter_congr fun o _ => ?_
      by_cases ho : o.construct = c <;> simp [ho]
    have hothers : (sites (c :: cs) lines).filter (fun o => !List.contains [c] o.construct) =
        sites cs lines := by
      rw [sites, List.filter_filter]
      refine List.filter_congr fun o _ => ?_
      by_cases ho : o.construct = c
      · simpa [ho] using hc
      · simp [ho]
    rwa [hfirst, hothers] at hsplit

def named : Construct → String → String
  | .reference _ => id
  | .evalCall => fun _ => "eval"
  | .newFunction => fun _ => "Function"
  | .wasmSync => ("WebAssembly." ++ ·)
  | .timer => id
  | .bufferCall => ("Buffer." ++ ·)

theorem named_kept {s : Spot} (l : Line) (hs : s.kept = l.kept) :
    named l.construct ((s.get? valueSlot).getD "") = l.value := by
  rw [Spot.get?, hs]
  cases l with
  | imports taken source => rfl
  | statement binding use =>
    cases use with
    | require source => rfl
    | load source => rfl
    | evaluate code => rfl
    | function code => rfl
    | wasm kind code => exact congrArg ("WebAssembly." ++ ·) String.ofList_toList
    | buffer method content => exact congrArg ("Buffer." ++ ·) String.ofList_toList
    | timer name callback delay => exact String.ofList_toList

section Scan

variable {c : Construct} (closed : Bool) (lines : List Line)

theorem filterMap_findAll {g : Found → Option Occurrence}
    (h : ∀ f pos (l : Line), l.construct = c → f.mark = (pos + l.lead, l.kept) →
      (g f).map Occurrence.bare = some (l.occurrence pos)) :
    (((pattern c).findAll (program closed lines)).filterMap g).map Occurrence.bare =
      sites [c] lines := by
  have hall : ∀ (ps : List (Nat × Line)) (fs : List Found),
      fs.map Found.mark = (ps.flatMap fun l => l.2.marks c l.1) →
        (fs.filterMap g).map Occurrence.bare =
          (ps.map fun l => l.2.occurrence l.1).filter fun o => [c].contains o.construct := by
    intro ps
    induction ps with
    | nil =>
      intro fs hfs
      rw [List.map_eq_nil_iff.mp hfs]
      rfl
    | cons l ps ih =>
      intro fs hfs
      rw [List.flatMap_cons, Line.marks] at hfs
      by_cases hc : l.2.construct = c
      · rw [if_pos hc, List.singleton_append] at hfs
        obtain ⟨f, fs, rfl, hf, hfs⟩ := List.map_eq_cons_iff.mp hfs
        obtain ⟨o, ho, heq⟩ := Option.map_eq_some_iff.mp (h f l.1 l.2 hc hf)
        have hin : [c].contains (l.2.occurrence l.1).construct = true := by simp [Line.occurrence, hc]
        rw [List.filterMap_cons_some ho, List.map_cons, heq, ih fs hfs, List.map_cons,
          List.filter_cons, if_pos hin]
      · rw [if_neg hc, List.nil_append] at hfs
        have hout : ¬ [c].contains (l.2.occurrence l.1).construct = true := by
          simp [Line.occurrence, hc]
        rw [ih fs hfs, List.map_cons, List.filter_cons, if_neg hout]
  exact hall _ _ (findAll_program c closed lines)

theorem delay_eq_none {l : Line} (h : l.construct ≠ .timer) : l.delay = none := by
  cases l with
  | imports taken source => rfl
  | statement binding use =>
    cases use with
    | timer name callback delay => exact absurd rfl h
    | _ => rfl

theorem occurrences_bare (hc : c ≠ .timer) :
    (occurrences (pattern c) c (named c) (program closed lines)).map Occurrence.bare =
      sites [c] lines := by
  have hscan := filterMap_findAll (c := c) (g := some ∘ fun f => ⟨f.start, f.after.pos, c,
    named c ((f.after.get? valueSlot).getD ""), none⟩) closed lines fun f pos l hl hf => ?_
  · rwa [List.filterMap_eq_map] at hscan
  · subst hl
    obtain ⟨hpos, hkept⟩ := Prod.mk.inj hf
    simp [Occurrence.bare, Line.occurrence, named_kept l hkept, delay_eq_none hc, hpos]

theorem moduleReferences_text (links : List Link) :
    (InText.moduleReferences links (program closed lines)).map Occurrence.bare =
      sites ((Link.all.filter links.contains).map .reference) lines := by
  have hnodup : ((Link.all.filter links.contains).map Construct.reference).Nodup := by
    have hall : Link.all.Nodup := by decide
    exact (hall.filter _).map fun a b h => Construct.reference.inj h
  refine inOrder_bare ?_ (sites_starts _ _)
  have hfound : ∀ link, (occurrences (reference link) (.reference link) id
      (program closed lines)).map Occurrence.bare = sites [.reference link] lines :=
    fun link => occurrences_bare (c := .reference link) closed lines (by simp)
  have hperm := sites_perm hnodup lines
  rw [List.flatMap_map] at hperm
  simpa only [List.map_flatMap, hfound] using hperm

theorem evalCalls_text : (InText.evalCalls (program closed lines)).map Occurrence.bare =
    sites [.evalCall, .newFunction] lines := by
  refine inOrder_bare ?_ (sites_starts _ _)
  have heval := occurrences_bare (c := .evalCall) closed lines (by simp)
  have hfunction := occurrences_bare (c := .newFunction) closed lines (by simp)
  have hperm := sites_perm (show [Construct.evalCall, .newFunction].Nodup by decide) lines
  simp only [List.flatMap_cons, List.flatMap_nil, List.append_nil, ← heval, ← hfunction] at hperm
  rwa [← List.map_append] at hperm

theorem timerCalls_text :
    (InText.timerCalls (program closed lines)).map Occurrence.bare = sites [.timer] lines := by
  refine inOrder_bare (List.Perm.of_eq ?_) (sites_starts _ _)
  refine filterMap_findAll (c := .timer) closed lines fun f pos l hl hf => ?_
  obtain ⟨hpos, hkept⟩ := Prod.mk.inj hf
  have hvalue := named_kept l hkept
  have hdelay : parse? ((f.after.get? delaySlot).getD "") = l.delay ∧ l.delay.isSome = true := by
    rw [Spot.get?, hkept]
    cases l with
    | imports taken source => cases hl
    | statement binding use =>
      cases use with
      | timer name callback delay =>
        obtain ⟨q, text, hq, -⟩ := delay.parse_digits
        exact ⟨rfl, Option.isSome_iff_exists.mpr ⟨q, hq⟩⟩
      | _ => cases hl
  obtain ⟨q, hq⟩ := Option.isSome_iff_exists.mp hdelay.2
  rw [hl] at hvalue
  simp [hdelay.1, hq, Occurrence.bare, Line.occurrence, hl, ← hvalue, named, hpos]

end Scan

inductive Family
  | references (links : List Link)
  | dynamicCode
  | wasmSync
  | timers
  | buffers

namespace Family

def constructs : Family → List Construct
  | references links => (Link.all.filter links.contains).map .reference
  | dynamicCode => [.evalCall, .newFunction]
  | wasmSync => [.wasmSync]
  | timers => [.timer]
  | buffers => [.bufferCall]

def inText (cs : List Char) : Family → List Occurrence
  | references links => InText.moduleReferences links cs
  | dynamicCode => InText.evalCalls cs
  | wasmSync => InText.wasmInstantiations cs
  | timers => InText.timerCalls cs
  | buffers => InText.bufferCalls cs

theorem inText_program (family : Family) (closed : Bool) (lines : List Line) :
    (family.inText (program closed lines)).map Occurrence.bare = sites family.constructs lines := by
  have hsingle : ∀ c, c ≠ .timer → (inOrder (occurrences (pattern c) c (named c)
      (program closed lines))).map Occurrence.bare = sites [c] lines :=
    fun c hc => inOrder_bare (List.Perm.of_eq (occurrences_bare closed lines hc)) (sites_starts _ _)
  cases family with
  | references links => exact moduleReferences_text closed lines links
  | dynamicCode => exact evalCalls_text closed lines
  | wasmSync => exact hsingle .wasmSync (by simp)
  | timers => exact timerCalls_text closed lines
  | buffers => exact hsingle .bufferCall (by simp)

end Family

end Listing

end EdgeAudit
