import EdgeAudit.Proofs.PatternPlaces
import EdgeAudit.Proofs.StrategyAgreement
import EdgeAudit.Proofs.TreeOrder

namespace EdgeAudit

open Listing Number Script Text

section Order

variable {os : List Occurrence}

theorem mergeSort_starts (h : (os.map Occurrence.start).Nodup) :
    (os.mergeSort fun a b => a.start ≤ b.start).Pairwise fun a b => a.start < b.start := by
  have hle : (os.mergeSort fun a b => a.start ≤ b.start).Pairwise fun a b => a.start ≤ b.start := by
    refine (List.pairwise_mergeSort ?_ ?_ os).imp of_decide_eq_true
    · simp only [decide_eq_true_eq]
      exact fun a b c => Nat.le_trans
    · simp only [Bool.or_eq_true, decide_eq_true_eq]
      exact fun a b => Nat.le_total _ _
  have hperm := (List.mergeSort_perm os fun a b => a.start ≤ b.start).map Occurrence.start
  have hne := List.pairwise_map.mp (hperm.nodup_iff.mpr h)
  refine (hle.and hne).imp ?_
  rintro a b ⟨hab, hab'⟩
  omega

theorem keepFirst_starts (os acc : List Occurrence) (h : (acc.map Occurrence.start).Nodup) :
    ((os.foldl (fun acc o => if acc.any (·.start == o.start) then acc else acc ++ [o]) acc).map
      Occurrence.start).Nodup := by
  induction os generalizing acc with
  | nil => exact h
  | cons o os ih =>
    rw [List.foldl_cons]
    apply ih
    split
    · exact h
    · rename_i hnew
      rw [List.map_append, List.nodup_append]
      refine ⟨h, by simp, ?_⟩
      rintro _ ha _ hb rfl
      obtain ⟨a, ha, heq⟩ := List.mem_map.mp ha
      apply hnew
      simp only [List.map_cons, List.map_nil, List.mem_singleton] at hb
      exact List.any_eq_true.mpr ⟨a, ha, by simp [heq, hb]⟩

theorem mem_of_keepFirst {o : Occurrence} (os acc : List Occurrence)
    (h : o ∈ os.foldl (fun acc o => if acc.any (·.start == o.start) then acc else acc ++ [o]) acc) :
    o ∈ acc ∨ o ∈ os := by
  induction os generalizing acc with
  | nil => exact .inl h
  | cons x os ih =>
    rw [List.foldl_cons] at h
    rcases ih _ h with hacc | hos
    · split at hacc
      · exact .inl hacc
      · rcases List.mem_append.mp hacc with hacc | hx
        · exact .inl hacc
        · exact .inr (by simp [List.mem_singleton.mp hx])
    · exact .inr (List.mem_cons_of_mem x hos)

theorem inOrder_starts (os : List Occurrence) :
    (InText.inOrder os).Pairwise fun a b => a.start < b.start :=
  mergeSort_starts (keepFirst_starts os [] List.nodup_nil)

theorem mem_of_inOrder {o : Occurrence} (h : o ∈ InText.inOrder os) : o ∈ os := by
  rw [InText.inOrder, List.mem_mergeSort] at h
  rcases mem_of_keepFirst os [] h with hnil | hos
  · cases hnil
  · exact hos

end Order

namespace InText

open Pattern

def made (c : Construct) (f : Found) : Occurrence :=
  ⟨f.start, f.after.pos, c, named c ((f.after.get? valueSlot).getD ""),
    if c = .timer then parse? ((f.after.get? delaySlot).getD "") else none⟩

theorem made_of_mem {c : Construct} {o : Occurrence} {cs : List Char} (hc : c ≠ .timer)
    (h : o ∈ occurrences (pattern c) c (named c) cs) :
    ∃ f ∈ (pattern c).findAll cs, o = made c f := by
  obtain ⟨f, hf, rfl⟩ := List.mem_map.mp h
  refine ⟨f, hf, ?_⟩
  rw [made, if_neg hc]

theorem made_of_inText {family : Family} {o : Occurrence} {cs : List Char} (h : o ∈ family.inText cs) :
    ∃ c ∈ family.constructs, ∃ f ∈ (pattern c).findAll cs, o = made c f := by
  cases family with
  | references links =>
    obtain ⟨link, hlink, hin⟩ := List.mem_flatMap.mp (mem_of_inOrder h)
    exact ⟨.reference link, List.mem_map_of_mem hlink, made_of_mem (by simp) hin⟩
  | dynamicCode =>
    rcases List.mem_append.mp (mem_of_inOrder h) with hin | hin
    · exact ⟨.evalCall, by simp [Family.constructs], made_of_mem (by simp) hin⟩
    · exact ⟨.newFunction, by simp [Family.constructs], made_of_mem (by simp) hin⟩
  | wasmSync =>
    exact ⟨.wasmSync, by simp [Family.constructs], made_of_mem (by simp) (mem_of_inOrder h)⟩
  | timers =>
    obtain ⟨f, hf, hmade⟩ := List.mem_filterMap.mp (mem_of_inOrder h)
    obtain ⟨delay, hdelay, heq⟩ := Option.bind_eq_some_iff.mp hmade
    cases heq
    refine ⟨.timer, by simp [Family.constructs], f, hf, ?_⟩
    rw [made, if_pos rfl, hdelay]
    rfl
  | buffers =>
    exact ⟨.bufferCall, by simp [Family.constructs], made_of_mem (by simp) (mem_of_inOrder h)⟩

theorem inText_starts (family : Family) (cs : List Char) :
    (family.inText cs).Pairwise fun a b => a.start < b.start := by
  cases family <;> exact inOrder_starts _

def leads : Construct → Char → Bool
  | .reference .staticImport => startsClause
  | .newFunction => (· == 'F')
  | .wasmSync => (· == 'W')
  | _ => (· == '(')

theorem next_of_afterBlanks {least : Nat} {next : List Char → Bool} {z : List Char}
    (h : afterBlanks least next z = true) : next (z.dropWhile isBlank) = true := by
  rw [afterBlanks, Bool.and_eq_true] at h
  exact h.2

theorem leads_of_follow {c : Construct} {z : List Char} (h : (opening c).follow z = true) :
    ∃ d, (z.dropWhile isBlank).head? = some d ∧ leads c d = true := by
  have hcall : afterBlanks 0 (fun r => r.head? == some '(') z = true →
      ∃ d, (z.dropWhile isBlank).head? = some d ∧ (d == '(') = true := by
    intro h
    exact ⟨'(', eq_of_beq (next_of_afterBlanks h), rfl⟩
  have hnew : ∀ (name : String) (d : Char) (w : List Char), name.toList = d :: w →
      afterBlanks 1 (fun r => name.toList.isPrefixOf r) z = true →
        ∃ e, (z.dropWhile isBlank).head? = some e ∧ (e == d) = true := by
    intro name d w hname h
    obtain ⟨r, hr⟩ := List.isPrefixOf_iff_prefix.mp (next_of_afterBlanks h)
    rw [← hr, hname]
    exact ⟨d, rfl, beq_self_eq_true d⟩
  match c with
  | .reference .staticImport =>
    have hclause : afterBlanks 1 (fun r => r.head?.any startsClause) z = true := h
    have hhead := next_of_afterBlanks hclause
    rwa [Option.any_eq_true] at hhead
  | .reference .require => exact hcall h
  | .reference .dynamicImport => exact hcall h
  | .evalCall => exact hcall h
  | .newFunction => exact hnew "Function" 'F' "unction".toList rfl h
  | .wasmSync => exact hnew "WebAssembly." 'W' "ebAssembly.".toList rfl h
  | .timer => exact hcall h
  | .bufferCall => exact hcall h

def shareWord (c c' : Construct) : Bool :=
  (opening c).words.any (opening c').words.contains

theorem shareWord_cases {c c' : Construct} (h : shareWord c c' = true) : c = c' ∨
    [c, c'].Perm [.reference .staticImport, .reference .dynamicImport] ∨
      [c, c'].Perm [.newFunction, .wasmSync] := by
  revert h
  rcases c with ⟨_ | _ | _⟩ | _ | _ | _ | _ | _ <;>
    rcases c' with ⟨_ | _ | _⟩ | _ | _ | _ | _ | _ <;> decide

theorem construct_unique {c c' : Construct} {w : List Char} {d : Char} (hw : w ∈ (opening c).words)
    (hw' : w ∈ (opening c').words) (hd : leads c d = true) (hd' : leads c' d = true) : c = c' := by
  have hshare : shareWord c c' = true := List.any_eq_true.mpr ⟨w, hw, List.contains_iff_mem.mpr hw'⟩
  have hboth : ∀ x ∈ [c, c'], leads x d = true := by simp [hd, hd']
  rcases shareWord_cases hshare with heq | hperm | hperm
  · exact heq
  · have hstatic := hboth (.reference .staticImport) (hperm.mem_iff.mpr (by simp))
    have hdynamic := hboth (.reference .dynamicImport) (hperm.mem_iff.mpr (by simp))
    obtain rfl : d = '(' := eq_of_beq hdynamic
    exact absurd hstatic (by decide)
  · have hfunction := hboth .newFunction (hperm.mem_iff.mpr (by simp))
    have hwasm := hboth .wasmSync (hperm.mem_iff.mpr (by simp))
    obtain rfl : d = 'F' := eq_of_beq hfunction
    exact absurd hwasm (by decide)

theorem construct_of_read {c c' : Construct} {s s' : Spot} (hrest : s.rest = s'.rest)
    (hread : (pattern c).read some s ≠ none) (hread' : (pattern c').read some s' ≠ none) : c = c' := by
  obtain ⟨w, hw, z, hz, hfollow⟩ := pattern_opens c s hread
  obtain ⟨w', hw', z', hz', hfollow'⟩ := pattern_opens c' s' hread'
  obtain ⟨rfl, rfl⟩ : w = w' ∧ z = z' := by
    refine eq_of_gate ((opening c).words_plain w hw).2 ((opening c').words_plain w' hw').2
      ((opening c).follow_gate z hfollow) ?_ ?_
    · intro e he
      obtain ⟨g, r, rfl, hg⟩ := (opening c').follow_gate z' hfollow'
      cases he
      exact hg
    · rw [← hz, ← hz', hrest]
  obtain ⟨d, hd, hlead⟩ := leads_of_follow hfollow
  obtain ⟨d', hd', hlead'⟩ := leads_of_follow hfollow'
  obtain rfl : d = d' := Option.some.inj (hd.symm.trans hd')
  exact construct_unique hw hw' hlead hlead'

theorem construct_of_start {c c' : Construct} {cs : List Char} {f f' : Found}
    (hf : f ∈ (pattern c).findAll cs) (hf' : f' ∈ (pattern c').findAll cs)
    (hstart : f.start = f'.start) : c = c' := by
  obtain ⟨s, hs, hpos, hread⟩ := (on_of_mem_findAll hf).read
  obtain ⟨s', hs', hpos', hread'⟩ := (on_of_mem_findAll hf').read
  have hrest : s.rest = s'.rest := by rw [hs.rest, hs'.rest, hpos, hpos', hstart]
  exact construct_of_read hrest (by simp [hread]) (by simp [hread'])

end InText

namespace InTree

open Tree

/-- The construct that the head of a node makes it, whatever its arguments are. -/
def construct? (cs : Array Char) (t : Tree) : Option Construct :=
  match t.kind with
  | .importStatement => some (.reference .staticImport)
  | .call =>
    let callee := t.child? .callee
    if (callee.map (·.kind)) = some .importWord then some (.reference .dynamicImport)
    else if isName cs callee "require" then some (.reference .require)
    else if isName cs callee "eval" then some .evalCall
    else if timerNames.any (isName cs callee) then some .timer
    else if (memberName? cs "Buffer" callee).isSome then some .bufferCall
    else none
  | .construction =>
    let constructor := t.child? .constructor
    if isName cs constructor "Function" then some .newFunction
    else if (memberName? cs "WebAssembly" constructor).isSome then some .wasmSync
    else none
  | _ => none

variable {cs : Array Char} {t u h : Tree} {c : Construct} {o o' : Occurrence} {family family' : Family}

theorem isName_iff {x : Option Tree} {name : String} :
    isName cs x name = true ↔ ∃ u, x = some u ∧ u.kind = .identifier ∧ nodeText cs u = name := by
  cases x with
  | none => simp [isName]
  | some u => simp [isName]

theorem memberName?_iff {x : Option Tree} {object name : String} :
    memberName? cs object x = some name ↔ ∃ u, x = some u ∧ u.kind = .member ∧
      isName cs (u.child? .object) object = true ∧ (u.child? .property).map (nodeText cs) = some name := by
  cases x with
  | none => simp [memberName?]
  | some u => simp [memberName?, and_assoc]

theorem span_of_nodeText (h : nodeText cs t ≠ "") : t.start < t.stop := by
  apply Classical.byContradiction
  intro hle
  apply h
  rw [nodeText, Array.extract_empty_of_stop_le_start (by omega)]

theorem construct?_of_reference {link : Link} {source : Option Tree}
    (h : reference? cs t = some (link, source)) : construct? cs t = some (.reference link) := by
  rw [reference?] at h
  rw [construct?]
  split at h
  · rename_i hkind
    cases h
    rw [hkind]
  · rename_i hkind
    rw [hkind]
    simp only at h ⊢
    split at h
    · rename_i hword
      cases h
      rw [if_pos hword]
    · rename_i hword
      split at h
      · rename_i hname
        cases h
        rw [if_neg hword, if_pos hname]
      · cases h
  · cases h

theorem construct?_of_name {name : String} (hkind : t.kind = .call)
    (h : isName cs (t.child? .callee) name = true) : construct? cs t =
      if name = "require" then some (.reference .require)
      else if name = "eval" then some .evalCall
      else if timerNames.contains name then some .timer
      else none := by
  obtain ⟨u, hu, hident, rfl⟩ := isName_iff.mp h
  simp [construct?, hkind, hu, hident, isName, memberName?, timerNames]

structure Spans (family : Family) (cs : Array Char) (t : Tree) (o : Occurrence) : Prop where
  construct : construct? cs t = some o.construct
  mem : o.construct ∈ family.constructs
  start : o.start = t.start
  stop : o.stop = t.stop

theorem mem_links (link : Link) : link ∈ Link.all := by
  cases link <;> decide

theorem spans_of_atNode (h : family.atNode cs t = some o) : Spans family cs t o := by
  cases family with
  | references links =>
    obtain ⟨⟨link, source⟩, href, hrest⟩ := Option.bind_eq_some_iff.mp h
    obtain ⟨value, -, hif⟩ := Option.bind_eq_some_iff.mp hrest
    split at hif
    · rename_i hlink
      cases hif
      have hmem := List.mem_filter.mpr ⟨mem_links link, hlink⟩
      exact ⟨construct?_of_reference href, List.mem_map_of_mem hmem, rfl, rfl⟩
    · cases hif
  | dynamicCode =>
    simp only [Family.atNode, evalCall?] at h
    split at h
    · rename_i hcall
      cases h
      exact ⟨construct?_of_name hcall.1 hcall.2, .head _, rfl, rfl⟩
    · split at h
      · rename_i hnew
        cases h
        have hconstruct : construct? cs t = some .newFunction := by simp [construct?, hnew.1, hnew.2]
        exact ⟨hconstruct, .tail _ (.head _), rfl, rfl⟩
      · cases h
  | wasmSync =>
    simp only [Family.atNode, wasmInstantiation?] at h
    split at h
    · rename_i hkind
      obtain ⟨name, hname, hif⟩ := Option.bind_eq_some_iff.mp h
      split at hif
      · cases hif
        obtain ⟨u, hu, hmember, -⟩ := memberName?_iff.mp hname
        rw [hu] at hname
        have hconstruct : construct? cs t = some .wasmSync := by
          simp [construct?, hkind, hu, isName, hmember, hname]
        exact ⟨hconstruct, .head _, rfl, rfl⟩
      · cases hif
    · cases h
  | timers =>
    obtain ⟨name, hname, hrest⟩ := Option.bind_eq_some_iff.mp h
    obtain ⟨second, -, hif⟩ := Option.bind_eq_some_iff.mp hrest
    rw [timerName?] at hname
    split at hname
    · rename_i hkind
      split at hif
      · obtain ⟨delay, -, heq⟩ := Option.bind_eq_some_iff.mp hif
        cases heq
        have hmem := List.mem_of_find?_eq_some hname
        have hconstruct := construct?_of_name hkind (List.find?_some hname)
        simp only [timerNames, List.mem_cons, List.not_mem_nil, or_false] at hmem
        rcases hmem with rfl | rfl <;> exact ⟨hconstruct, .head _, rfl, rfl⟩
      · cases hif
    · cases hname
  | buffers =>
    simp only [Family.atNode, bufferCall?] at h
    split at h
    · rename_i hkind
      obtain ⟨name, hname, hif⟩ := Option.bind_eq_some_iff.mp h
      split at hif
      · cases hif
        obtain ⟨u, hu, hmember, -⟩ := memberName?_iff.mp hname
        rw [hu] at hname
        have hconstruct : construct? cs t = some .bufferCall := by
          simp [construct?, hkind, hu, isName, hmember, hname, timerNames]
        exact ⟨hconstruct, .head _, rfl, rfl⟩
      · cases hif
    · cases h

inductive Head (cs : Array Char) (h : Tree) : Prop
  | word (kind : h.kind = .importWord)
  | name (kind : h.kind = .identifier) (text : nodeText cs h ≠ "")
  | member (kind : h.kind = .member) (object : Tree) (child : h.child? .object = some object)
      (isName : object.kind = .identifier) (text : nodeText cs object ≠ "")

theorem Head.of_isName {x : Option Tree} {name : String} (hname : isName cs x name = true)
    (hne : name ≠ "") : ∃ h, x = some h ∧ Head cs h := by
  obtain ⟨h, hx, hkind, rfl⟩ := isName_iff.mp hname
  exact ⟨h, hx, .name hkind hne⟩

theorem Head.of_memberName {x : Option Tree} {object : String}
    (hmember : (memberName? cs object x).isSome = true) (hne : object ≠ "") :
    ∃ h, x = some h ∧ Head cs h := by
  obtain ⟨name, hname⟩ := Option.isSome_iff_exists.mp hmember
  obtain ⟨h, hx, hkind, hobject, -⟩ := memberName?_iff.mp hname
  obtain ⟨u, hu, hident, rfl⟩ := isName_iff.mp hobject
  exact ⟨h, hx, .member hkind u hu hident hne⟩

theorem head_of_call (hkind : t.kind = .call) (h : (construct? cs t).isSome = true) :
    ∃ h, t.child? .callee = some h ∧ Head cs h := by
  simp only [construct?, hkind] at h
  split at h
  · rename_i hword
    obtain ⟨u, hu, hkind⟩ := Option.map_eq_some_iff.mp hword
    exact ⟨u, hu, .word hkind⟩
  split at h
  · exact Head.of_isName ‹_› (by decide)
  split at h
  · exact Head.of_isName ‹_› (by decide)
  split at h
  · rename_i hany
    obtain ⟨name, hmem, hname⟩ := List.any_eq_true.mp hany
    refine Head.of_isName hname ?_
    rintro rfl
    exact absurd hmem (by decide)
  split at h
  · exact Head.of_memberName ‹_› (by decide)
  · cases h

theorem construct?_token (h : t.kind = .identifier ∨ t.kind = .importWord ∨ t.kind = .member) :
    construct? cs t = none := by
  rcases h with h | h | h <;> rw [construct?, h]

theorem Head.front (hh : h.WellFormed) (head : Head cs h) : h.start < h.stop ∧
    ∀ u ∈ h.preorder, (construct? cs u).isSome = true → u.start < u.stop → h.start < u.start := by
  have htoken : ∀ {v : Tree}, v.children = [] → (v.kind = .identifier ∨ v.kind = .importWord) →
      ∀ u ∈ v.preorder, ¬ (construct? cs u).isSome = true := by
    intro v hv hkind u hu
    obtain rfl := eq_of_token hv hu
    rw [construct?_token (by tauto)]
    exact Bool.false_ne_true
  have hheaded := hh.headed
  cases head with
  | word kind =>
    rw [Headed, kind] at hheaded
    exact ⟨hheaded.1, fun u hu hsite => absurd hsite (htoken hheaded.2 (.inr kind) u hu)⟩
  | name kind text =>
    rw [Headed, kind] at hheaded
    exact ⟨span_of_nodeText text, fun u hu hsite => absurd hsite (htoken hheaded (.inl kind) u hu)⟩
  | member kind object child isName text =>
    rw [Headed, kind] at hheaded
    have hobject := mem_of_child? child
    have hstart := hheaded object child
    have hspan := span_of_nodeText text
    have hin := hh.row.within hobject
    have htokens := (hh.child hobject).headed
    rw [Headed, isName] at htokens
    refine ⟨by omega, ?_⟩
    intro u hu hsite hne
    rcases mem_preorder.mp hu with rfl | hu
    · rw [construct?_token (.inr (.inr kind))] at hsite
      cases hsite
    · rcases hh.behind_head hobject hstart hspan hu hne with hu | hlt
      · exact absurd hsite (htoken htokens (.inl isName) u hu)
      · exact hlt

theorem kind_of_construct? (h : (construct? cs t).isSome = true) :
    t.kind = .call ∨ t.kind = .construction ∨ t.kind = .importStatement := by
  rw [construct?] at h
  split at h <;> simp_all

theorem keyword (ht : t.WellFormed) (h : t.kind = .construction ∨ t.kind = .importStatement) :
    t.start < t.stop ∧ ∀ c ∈ t.children, t.start < c.start := by
  have hheaded := ht.headed
  rcases h with hkind | hkind
  · rwa [Headed, hkind] at hheaded
  · rwa [Headed, hkind] at hheaded

theorem callee (ht : t.WellFormed) (hkind : t.kind = .call) (h : (construct? cs t).isSome = true) :
    ∃ u ∈ t.children, u.start = t.start ∧ Head cs u := by
  obtain ⟨u, hu, head⟩ := head_of_call hkind h
  have hheaded := ht.headed
  rw [Headed, hkind] at hheaded
  exact ⟨u, mem_of_child? hu, hheaded u hu, head⟩

theorem span_of_construct? (ht : t.WellFormed) (h : (construct? cs t).isSome = true) :
    t.start < t.stop := by
  rcases kind_of_construct? h with hkind | hkind
  · obtain ⟨u, hu, hstart, head⟩ := callee ht hkind h
    have hin := ht.row.within hu
    have hspan := (head.front (ht.child hu)).1
    omega
  · exact (keyword ht hkind).1

theorem start_lt_below (ht : t.WellFormed) (h : (construct? cs t).isSome = true)
    (hu : u ∈ preorderAll t.children) (h' : (construct? cs u).isSome = true) : t.start < u.start := by
  have hne := span_of_construct? (ht.node (mem_preorder.mpr (.inr hu))) h'
  rcases kind_of_construct? h with hkind | hkind
  · obtain ⟨v, hv, hstart, head⟩ := callee ht hkind h
    have hfront := head.front (ht.child hv)
    rcases ht.behind_head hv hstart hfront.1 hu hne with hin | hlt
    · have hlt := hfront.2 u hin h' hne
      omega
    · exact hlt
  · obtain ⟨c, hc, hin⟩ := mem_preorderAll.mp hu
    have hlt := (keyword ht hkind).2 c hc
    have hbelow := (ht.child hc).nested.within hin
    omega

theorem construct_starts (cs : Array Char) (ht : t.WellFormed) : t.preorder.Pairwise fun u v =>
    (construct? cs u).isSome = true → (construct? cs v).isSome = true → u.start < v.start :=
  ht.starts_lt (fun _ ht h => span_of_construct? ht h) fun _ ht h _ hu h' => start_lt_below ht h hu h'

theorem node_of_start (cs : Array Char) (ht : t.WellFormed) {v : Tree} (hu : u ∈ t.preorder)
    (hv : v ∈ t.preorder) (hu' : (construct? cs u).isSome = true)
    (hv' : (construct? cs v).isSome = true) (hstart : u.start = v.start) : u = v := by
  obtain ⟨xs, ys, hsplit⟩ := List.append_of_mem hu
  have hpair := construct_starts cs ht
  rw [hsplit, List.pairwise_append] at hpair
  obtain ⟨-, hys, hxs⟩ := hpair
  rw [hsplit, List.mem_append, List.mem_cons] at hv
  rcases hv with hv | rfl | hv
  · have hlt := hxs v hv u (by simp) hv' hu'
    omega
  · rfl
  · have hlt := List.rel_of_pairwise_cons hys hv hu' hv'
    omega

theorem moduleReference?_all {links : List Link} (h : moduleReference? links cs t = some o) :
    moduleReference? Link.all cs t = some o := by
  obtain ⟨⟨link, source⟩, href, hrest⟩ := Option.bind_eq_some_iff.mp h
  obtain ⟨value, hvalue, hif⟩ := Option.bind_eq_some_iff.mp hrest
  split at hif
  · cases hif
    simp [moduleReference?, href, hvalue, mem_links link]
  · cases hif

theorem family_of_construct (hc : c ∈ family.constructs) (hc' : c ∈ family'.constructs) :
    family = family' ∨ ∃ links links', family = .references links ∧ family' = .references links' := by
  cases family <;> cases family' <;> simp [Family.constructs] at hc hc' ⊢ <;> grind

theorem atNode_unique (h : family.atNode cs t = some o) (h' : family'.atNode cs t = some o') :
    o = o' := by
  have hspans := spans_of_atNode h
  have hspans' := spans_of_atNode h'
  have hsame : o.construct = o'.construct :=
    Option.some.inj (hspans.construct.symm.trans hspans'.construct)
  have hmem : o.construct ∈ family'.constructs := hsame ▸ hspans'.mem
  rcases family_of_construct hspans.mem hmem with rfl | ⟨links, links', rfl, rfl⟩
  · exact Option.some.inj (h.symm.trans h')
  · exact Option.some.inj ((moduleReference?_all h).symm.trans (moduleReference?_all h'))

end InTree

namespace Source

variable {s : Source} {family family' : Family} {o o' : Occurrence} {t : Tree}

/-- The tree of a source, if it has one, is well formed and lies in the text. -/
def WellFormed (s : Source) : Prop :=
  ∀ t, s.tree = some t → t.WellFormed ∧ t.stop ≤ s.text.length

theorem found_inText (h : s.tree = none) (family : Family) : s.found family = family.inText s.text := by
  cases family <;> simp only [found, moduleReferences, evalCalls, wasmInstantiations, timerCalls,
    bufferCalls, h, Family.inText]

theorem found_inTree (h : s.tree = some t) (family : Family) :
    s.found family = t.preorder.filterMap (family.atNode s.text.toArray) := by
  rw [← family.inTree_eq]
  cases family <;> simp only [found, moduleReferences, evalCalls, wasmInstantiations, timerCalls,
    bufferCalls, h, Family.inTree]

theorem found_starts (hs : s.WellFormed) (family : Family) :
    (s.found family).Pairwise fun a b => a.start < b.start := by
  cases htree : s.tree with
  | none =>
    rw [found_inText htree]
    exact InText.inText_starts family s.text
  | some t =>
    rw [found_inTree htree, List.pairwise_filterMap]
    refine (InTree.construct_starts s.text.toArray (hs t htree).1).imp ?_
    intro u v huv o ho o' ho'
    have hspans := InTree.spans_of_atNode ho
    have hspans' := InTree.spans_of_atNode ho'
    rw [hspans.start, hspans'.start]
    exact huv (by simp [hspans.construct]) (by simp [hspans'.construct])

theorem found_construct (h : o ∈ s.found family) : o.construct ∈ family.constructs := by
  cases htree : s.tree with
  | none =>
    rw [found_inText htree] at h
    obtain ⟨c, hc, f, -, rfl⟩ := InText.made_of_inText h
    exact hc
  | some t =>
    rw [found_inTree htree] at h
    obtain ⟨u, -, hu⟩ := List.mem_filterMap.mp h
    exact (InTree.spans_of_atNode hu).mem

theorem found_span (hs : s.WellFormed) (h : o ∈ s.found family) :
    o.start < o.stop ∧ o.stop ≤ s.text.length := by
  cases htree : s.tree with
  | none =>
    rw [found_inText htree] at h
    obtain ⟨c, -, f, hf, rfl⟩ := InText.made_of_inText h
    have hon := Pattern.on_of_mem_findAll hf
    exact ⟨hon.nonempty, hon.within⟩
  | some t =>
    rw [found_inTree htree] at h
    obtain ⟨u, hu, ho⟩ := List.mem_filterMap.mp h
    obtain ⟨ht, hstop⟩ := hs t htree
    have hspans := InTree.spans_of_atNode ho
    have hsite : (InTree.construct? s.text.toArray u).isSome = true := by simp [hspans.construct]
    have hne := InTree.span_of_construct? (ht.node hu) hsite
    have hin := ht.nested.within hu
    rw [hspans.start, hspans.stop]
    omega

theorem found_unique (hs : s.WellFormed) (h : o ∈ s.found family) (h' : o' ∈ s.found family')
    (hstart : o.start = o'.start) : o = o' := by
  cases htree : s.tree with
  | none =>
    rw [found_inText htree] at h h'
    obtain ⟨c, -, f, hf, rfl⟩ := InText.made_of_inText h
    obtain ⟨c', -, f', hf', rfl⟩ := InText.made_of_inText h'
    obtain rfl := InText.construct_of_start hf hf' hstart
    have hnodup : (((InText.pattern c).findAll s.text).map Pattern.Found.start).Nodup :=
      List.pairwise_map.mpr ((Pattern.findAll_starts _ _).imp Nat.ne_of_lt)
    rw [List.inj_on_of_nodup_map hnodup hf hf' hstart]
  | some t =>
    rw [found_inTree htree] at h h'
    obtain ⟨u, hu, ho⟩ := List.mem_filterMap.mp h
    obtain ⟨v, hv, ho'⟩ := List.mem_filterMap.mp h'
    have hspans := InTree.spans_of_atNode ho
    have hspans' := InTree.spans_of_atNode ho'
    have hsame : u.start = v.start := by rw [← hspans.start, ← hspans'.start, hstart]
    obtain rfl : u = v := InTree.node_of_start s.text.toArray (hs t htree).1 hu hv
      (by simp [hspans.construct]) (by simp [hspans'.construct]) hsame
    exact InTree.atNode_unique ho ho'

end Source

end EdgeAudit
