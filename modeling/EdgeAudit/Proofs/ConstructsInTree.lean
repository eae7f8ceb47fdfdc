import EdgeAudit.Proofs.ConstructsInText

namespace EdgeAudit

namespace Script.Tree

theorem preorderAll_append (xs ys : List Tree) :
    preorderAll (xs ++ ys) = preorderAll xs ++ preorderAll ys := by
  induction xs with
  | nil => simp [preorderAll]
  | cons x xs ih => simp [preorderAll, ih]

theorem walkStack_eq (stack : List Tree) : walkStack stack = preorderAll stack := by
  fun_induction walkStack stack with
  | case1 => simp [preorderAll]
  | case2 k r s e cs rest ih => simp [preorderAll, preorder, ih, preorderAll_append]

theorem walk_eq (t : Tree) : t.walk = t.preorder := by
  simp [walk, walkStack_eq, preorderAll]

end Script.Tree

namespace Listing

open Number Script

def WrittenAt (text : List Char) (pos : Nat) (w : List Char) : Prop :=
  ∃ u v, text = u ++ (w ++ v) ∧ u.length = pos

variable {text w : List Char} {pos start : Nat} {t : Option Tree}

theorem WrittenAt.part (h : WrittenAt text pos w) {n : Nat} (a b : List Char) {z : List Char}
    (hw : w = a ++ (b ++ z)) (hn : n = pos + a.length) : WrittenAt text n b := by
  obtain ⟨u, v, rfl, rfl⟩ := h
  subst hw hn
  exact ⟨u ++ a, z ++ v, by simp, by simp⟩

theorem WrittenAt.extract (h : WrittenAt text pos w) {stop : Nat} (hstop : stop = pos + w.length) :
    (text.toArray.extract pos stop).toList = w := by
  obtain ⟨u, v, rfl, rfl⟩ := h
  subst hstop
  simp

theorem placed_written (closed : Bool) (lines : List Line) (u : List Char) :
    ∀ l ∈ placed u.length lines, WrittenAt (u ++ program closed lines) l.1 l.2.text := by
  induction lines generalizing u with
  | nil => exact fun l hl => by cases hl
  | cons l ls ih =>
    intro m hm
    rcases List.mem_cons.mp hm with rfl | hm
    · rcases program_cons closed l ls with ⟨-, hl⟩ | hl
      · exact ⟨u, [], by rw [hl, Line.write_eq], rfl⟩
      · exact ⟨u, _, by rw [hl, Line.write_eq], rfl⟩
    · rcases program_cons closed l ls with ⟨rfl, -⟩ | hl
      · cases hm
      · have hrest := ih (u ++ (l.text ++ ['\n'])) m (by simpa [← Nat.add_assoc] using hm)
        rw [hl, Line.write_eq]
        simpa using hrest

section Node

theorem nodeText_written {u : Tree} (h : WrittenAt text u.start w) (hstop : u.stop = u.start + w.length) :
    InTree.nodeText text.toArray u = String.ofList w := by
  rw [InTree.nodeText, h.extract hstop]

theorem isName_of_kind {cs : Array Char} {name : String}
    (h : t.map (·.kind) ≠ some .identifier) : InTree.isName cs t name = false := by
  cases t with
  | none => rfl
  | some t => simp_all [InTree.isName]

theorem memberName?_of_kind {cs : Array Char} {object : String}
    (h : t.map (·.kind) ≠ some .member) : InTree.memberName? cs object t = none := by
  cases t with
  | none => rfl
  | some t => simp_all [InTree.memberName?]

theorem IsIdent.kind (h : IsIdent t start w) : t.map (·.kind) = some .identifier := by
  obtain ⟨u, rfl, hkind, -⟩ := h
  simp [hkind]

theorem IsIdent.isName (h : IsIdent t start w) (hw : WrittenAt text start w) (name : String) :
    InTree.isName text.toArray t name = (String.ofList w == name) := by
  obtain ⟨u, rfl, hkind, hstart, hstop⟩ := h
  subst hstart
  simp [InTree.isName, hkind, nodeText_written hw hstop]

theorem IsString.value {source : Quoted} (h : IsString t start source)
    (hw : WrittenAt text start source.text) :
    InTree.stringValue? text.toArray t = some (String.ofList source.chars) := by
  obtain ⟨u, rfl, hkind, hstart, hstop⟩ := h
  have hlength : source.text.length = source.chars.length + 2 := by simp [Quoted.text]
  have hinside : WrittenAt text (u.start + 1) source.chars :=
    hw.part [source.quote] source.chars rfl (by simp [hstart])
  have hlong : u.start + 2 ≤ u.stop := by omega
  show (if _ then some (String.ofList _) else none) = _
  rw [if_pos ⟨hkind, hlong⟩, hinside.extract (by omega)]

theorem IsMember.kind {object property : List Char} (h : IsMember t start object property) :
    t.map (·.kind) = some .member := by
  obtain ⟨u, rfl, hkind, -⟩ := h
  simp [hkind]

theorem IsMember.memberName? {object property : List Char} (h : IsMember t start object property)
    (hw : WrittenAt text start (object ++ '.' :: property)) (name : String) :
    InTree.memberName? text.toArray name t =
      if String.ofList object == name then some (String.ofList property) else none := by
  obtain ⟨u, rfl, hkind, hobject, v, hproperty, hstart, hstop⟩ := h
  have hname := hobject.isName (hw.part [] object rfl rfl) name
  have htext : WrittenAt text v.start property :=
    hw.part (object ++ ['.']) property (z := []) (by simp) (by simp [hstart, Nat.add_assoc])
  simp [InTree.memberName?, hkind, hname, hproperty, nodeText_written htext (by rw [hstop, hstart])]

end Node

def Family.atNode (cs : Array Char) : Family → Tree → Option Occurrence
  | references links => InTree.moduleReference? links cs
  | dynamicCode => InTree.evalCall? cs
  | wasmSync => InTree.wasmInstantiation? cs
  | timers => InTree.timerCall? cs
  | buffers => InTree.bufferCall? cs

def Family.inTree (cs : Array Char) (root : Tree) : Family → List Occurrence
  | references links => InTree.moduleReferences links cs root
  | dynamicCode => InTree.evalCalls cs root
  | wasmSync => InTree.wasmInstantiations cs root
  | timers => InTree.timerCalls cs root
  | buffers => InTree.bufferCalls cs root

theorem Family.inTree_eq (family : Family) (cs : Array Char) (root : Tree) :
    family.inTree cs root = root.preorder.filterMap (family.atNode cs) := by
  rw [← Tree.walk_eq]
  cases family <;> rfl

theorem Family.atNode_of_not_site (family : Family) (cs : Array Char) {t : Tree}
    (h : isSite t = false) : family.atNode cs t = none := by
  simp only [isSite, Bool.or_eq_false_iff, beq_eq_false_iff_ne] at h
  obtain ⟨⟨himport, hcall⟩, hnew⟩ := h
  cases family with
  | references links =>
    have hnone : InTree.reference? cs t = none := by
      rw [InTree.reference?]
      split <;> simp_all
    simp [atNode, InTree.moduleReference?, hnone]
  | dynamicCode => simp [atNode, InTree.evalCall?, hcall, hnew]
  | wasmSync => simp [atNode, InTree.wasmInstantiation?, hnew]
  | timers => simp [atNode, InTree.timerCall?, InTree.timerName?, hcall]
  | buffers => simp [atNode, InTree.bufferCall?, hcall]

def Use.named? : Use → Option String
  | require _ => some "require"
  | evaluate _ => some "eval"
  | function _ => some "Function"
  | timer name _ _ => some name.1
  | _ => none

def Use.member? : Use → Option (String × String)
  | wasm kind _ => some ("WebAssembly", kind.1)
  | buffer method _ => some ("Buffer", method.1)
  | _ => none

def Use.isConstruction : Use → Bool
  | function _ => true
  | wasm _ _ => true
  | _ => false

structure Use.Heads (use : Use) (cs : Array Char) (head : Option Tree) : Prop where
  isName : ∀ name, InTree.isName cs head name = (use.named? == some name)
  memberName? : ∀ object, InTree.memberName? cs object head =
    use.member?.bind fun m => if m.1 == object then some m.2 else none
  isImport : head.map (·.kind) = some .importWord ↔ use.construct = .reference .dynamicImport

section Head

variable {use : Use}

theorem IsIdent.heads (h : IsIdent t start w) (hw : WrittenAt text start w)
    (hname : use.named? = some (String.ofList w)) (hmember : use.member? = none)
    (himport : use.construct ≠ .reference .dynamicImport) : use.Heads text.toArray t where
  isName name := by rw [h.isName hw, hname]; simp
  memberName? object := by rw [hmember, memberName?_of_kind (by simp [h.kind])]; rfl
  isImport := by simp [h.kind, himport]

theorem IsMember.heads {object property : List Char} (h : IsMember t start object property)
    (hw : WrittenAt text start (object ++ '.' :: property)) (hname : use.named? = none)
    (hmember : use.member? = some (String.ofList object, String.ofList property))
    (himport : use.construct ≠ .reference .dynamicImport) : use.Heads text.toArray t where
  isName name := by rw [hname, isName_of_kind (by simp [h.kind])]; rfl
  memberName? name := by rw [h.memberName? hw, hmember]; rfl
  isImport := by simp [h.kind, himport]

theorem Use.IsNode.heads {t : Tree} (h : use.IsNode start t) (hw : WrittenAt text start (use.write [])) :
    (use.isConstruction = false ∧ t.kind = .call ∧
        use.Heads text.toArray (t.child? .callee)) ∨
      (use.isConstruction = true ∧ t.kind = .construction ∧
        use.Heads text.toArray (t.child? .constructor)) := by
  cases use with
  | require source =>
    refine .inl ⟨rfl, h.1, h.2.1.heads (hw.part [] _ rfl rfl) ?_ rfl (by simp [construct])⟩
    rw [String.ofList_toList, named?]
  | load source =>
    have hkind := h.2.1
    refine .inl ⟨rfl, h.1, fun name => ?_, fun object => ?_, by simp [hkind, construct]⟩
    · rw [isName_of_kind (by simp [hkind])]
      rfl
    · rw [memberName?_of_kind (by simp [hkind])]
      rfl
  | evaluate code =>
    refine .inl ⟨rfl, h.1, h.2.heads (hw.part [] _ rfl rfl) ?_ rfl (by simp [construct])⟩
    rw [String.ofList_toList, named?]
  | function code =>
    refine .inr ⟨rfl, h.1, h.2.heads (hw.part ("new".toList ++ [' ']) _ rfl rfl) ?_ rfl
      (by simp [construct])⟩
    rw [String.ofList_toList, named?]
  | wasm kind code =>
    have hdot : "WebAssembly.".toList = "WebAssembly".toList ++ ['.'] := by decide
    refine .inr ⟨rfl, h.1, h.2.heads (hw.part (z := '(' :: (code.chars ++ [')', ';']))
      ("new".toList ++ [' ']) _ ?_ rfl) rfl ?_ (by simp [construct])⟩
    · simp only [write, words, spaced, argument, String.toList_append, hdot]
      simp
    · rw [String.ofList_toList, String.ofList_toList, member?]
  | buffer method content =>
    have hdot : "Buffer.".toList = "Buffer".toList ++ ['.'] := by decide
    refine .inl ⟨rfl, h.1, h.2.heads (hw.part (z := '(' :: (content.chars ++ [')', ';']))
      [] _ ?_ rfl) rfl ?_ (by simp [construct])⟩
    · simp only [write, words, spaced, argument, String.toList_append, hdot]
      simp
    · rw [String.ofList_toList, String.ofList_toList, member?]
  | timer name callback delay =>
    refine .inl ⟨rfl, h.1, h.2.1.heads (hw.part [] _ rfl rfl) ?_ rfl (by simp [construct])⟩
    rw [String.ofList_toList, named?]

theorem Use.IsNode.source {t : Tree} {link : Link} (h : use.IsNode start t)
    (hw : WrittenAt text start (use.write [])) (hc : use.construct = .reference link) :
    InTree.stringValue? text.toArray (InTree.arguments t).head? = some use.value := by
  cases use with
  | require source => exact h.2.2.value (hw.part ("require".toList ++ ['(']) source.text rfl rfl)
  | load source => exact h.2.2.value (hw.part ("import".toList ++ ['(']) source.text rfl rfl)
  | _ => cases hc

theorem timerName_ne (name : { name // name ∈ timerNames }) :
    name.1 ≠ "require" ∧ name.1 ≠ "eval" := by
  have hall : ∀ name ∈ timerNames, name ≠ "require" ∧ name ≠ "eval" := by decide
  exact hall name.1 name.2

theorem reference?_use {t : Tree} (h : use.IsNode start t) (hw : WrittenAt text start (use.write [])) :
    InTree.reference? text.toArray t =
      match use.construct with
      | .reference link => some (link, (InTree.arguments t).head?)
      | _ => none := by
  rcases h.heads hw with ⟨hu, hkind, hheads⟩ | ⟨hu, hkind, -⟩
  · simp only [InTree.reference?, hkind, hheads.isImport, hheads.isName]
    revert hu
    cases use <;> simp [Use.isConstruction, Use.construct, Use.named?, timerName_ne]
  · simp only [InTree.reference?, hkind]
    revert hu
    cases use <;> simp [Use.isConstruction, Use.construct]

theorem timerName?_use {t : Tree} (h : use.IsNode start t) (hw : WrittenAt text start (use.write [])) :
    InTree.timerName? text.toArray t = if use.construct = .timer then some use.value else none := by
  have hfind : ∀ name ∈ timerNames, timerNames.find? (fun n => some name == some n) = some name := by
    decide
  rcases h.heads hw with ⟨hu, hkind, hheads⟩ | ⟨hu, hkind, -⟩
  · rw [InTree.timerName?, if_pos hkind, funext hheads.isName]
    cases use with
    | timer name callback delay => exact hfind name.1 name.2
    | _ => simp [Use.construct, Use.named?, timerNames]
  · rw [InTree.timerName?, if_neg (by simp [hkind])]
    revert hu
    cases use <;> simp [Use.isConstruction, Use.construct]

theorem Use.IsNode.second {t : Tree} (h : use.IsNode start t)
    (hw : WrittenAt text start (use.write [])) (hc : use.construct = .timer) :
    ∃ u, (InTree.arguments t)[1]? = some u ∧ u.kind = .number ∧
      parse? (InTree.nodeText text.toArray u) = use.delay ∧ use.delay.isSome = true := by
  cases use with
  | timer name callback delay =>
    obtain ⟨-, -, u, hu, hkind, hstart, hstop⟩ := h
    obtain ⟨q, -, hq, -⟩ := delay.parse_digits
    have hdigits : WrittenAt text u.start delay.digits := by
      refine hw.part (z := [')', ';']) (name.1.toList ++ '(' :: (callback.chars ++ [',', ' '])) _ ?_ ?_
      · simp [write, words, spaced, argument]
      · simp [hstart]
        omega
    refine ⟨u, hu, hkind, ?_, Option.isSome_iff_exists.mpr ⟨q, hq⟩⟩
    rw [nodeText_written hdigits hstop]
    rfl
  | _ => cases hc

theorem Family.contains_reference (links : List Link) (link : Link) :
    (references links).constructs.contains (.reference link) = links.contains link := by
  rw [Bool.eq_iff_iff]
  cases link <;> simp [constructs, Link.all]

theorem Family.atNode_use (family : Family) {t : Tree} (hstart : t.start = start)
    (h : use.IsNode start t) (hw : WrittenAt text start (use.write [])) :
    (family.atNode text.toArray t).map Occurrence.bare =
      if family.constructs.contains use.construct then
        some ⟨start, start, use.construct, use.value, use.delay⟩
      else none := by
  have hbare : ∀ c value delay, (InTree.occurrence t c value delay).bare =
      ⟨start, start, c, value, delay⟩ := by
    intro c value delay
    rw [InTree.occurrence, Occurrence.bare, hstart]
  -- the head of a use has one form, so every test but the one for this form fails
  cases family with
  | references links =>
    rw [atNode, InTree.moduleReference?, reference?_use h hw]
    cases hc : use.construct with
    | reference link =>
      have hdelay : use.delay = none := by cases use <;> simp_all [Use.construct, Use.delay]
      rw [contains_reference]
      simp [h.source hw hc, hbare, hdelay]
    | _ => simp [constructs]
  | dynamicCode =>
    rw [atNode, InTree.evalCall?]
    rcases h.heads hw with ⟨hu, hkind, hheads⟩ | ⟨hu, hkind, hheads⟩
    · simp only [hkind, hheads.isName]
      revert hu
      cases use <;> simp [Use.isConstruction, Use.construct, Use.named?, constructs, Use.value,
        Use.delay, hbare, timerName_ne]
    · simp only [hkind, hheads.isName]
      revert hu
      cases use <;> simp [Use.isConstruction, Use.construct, Use.named?, constructs, Use.value,
        Use.delay, hbare]
  | wasmSync =>
    rw [atNode, InTree.wasmInstantiation?]
    rcases h.heads hw with ⟨hu, hkind, -⟩ | ⟨hu, hkind, hheads⟩
    · simp only [hkind]
      revert hu
      cases use <;> simp [Use.isConstruction, Use.construct, constructs]
    · simp only [hkind, hheads.memberName?]
      revert hu
      cases use with
      | wasm kind code =>
        simp [Use.member?, kind.2, Use.construct, constructs, hbare, Use.value, Use.delay]
      | _ => simp [Use.isConstruction, Use.construct, constructs, Use.member?]
  | timers =>
    rw [atNode, InTree.timerCall?, timerName?_use h hw]
    by_cases hc : use.construct = .timer
    · obtain ⟨u, hu, hkind, hparse, hsome⟩ := h.second hw hc
      obtain ⟨q, hq⟩ := Option.isSome_iff_exists.mp hsome
      simp [hc, hu, hkind, hparse, hq, hbare, constructs]
    · simp [hc, constructs]
  | buffers =>
    rw [atNode, InTree.bufferCall?]
    rcases h.heads hw with ⟨hu, hkind, hheads⟩ | ⟨hu, hkind, -⟩
    · simp only [hkind, hheads.memberName?]
      revert hu
      cases use with
      | buffer method content =>
        simp [Use.member?, method.2, Use.construct, constructs, hbare, Use.value, Use.delay]
      | _ => simp [Use.isConstruction, Use.construct, constructs, Use.member?]
    · simp only [hkind]
      revert hu
      cases use <;> simp [Use.isConstruction, Use.construct, constructs]

end Head

namespace Family

theorem atNode_imports (family : Family) {t : Tree} {taken : Taken} {source : Quoted}
    (h : Line.IsNode pos t (.imports taken source))
    (hw : WrittenAt text pos (Line.imports taken source).text) :
    (family.atNode text.toArray t).map Occurrence.bare =
      if family.constructs.contains (.reference .staticImport) then
        some ((Line.imports taken source).occurrence pos)
      else none := by
  obtain ⟨hstart, hkind, hsource⟩ := h
  cases family with
  | references links =>
    have htext : (Line.imports taken source).text =
        ("import".toList ++ ' ' :: taken.write []) ++ (source.text ++ [';']) := by
      rw [Line.text, Line.write_imports, ← List.nil_append (source.text ++ _), Taken.write_append]
      simp
    have hvalue := hsource.value (hw.part _ _ htext (by simp; omega))
    have hchild : InTree.importSource? t = t.child? .source := by
      obtain ⟨u, hu, -⟩ := hsource
      rw [InTree.importSource?, hu]
    rw [contains_reference]
    simp [atNode, InTree.moduleReference?, InTree.reference?, hkind, hchild, hvalue,
      InTree.occurrence, Occurrence.bare, hstart, Line.occurrence, Line.construct, Line.value,
      Line.delay]
  | dynamicCode => simp [atNode, InTree.evalCall?, hkind, constructs]
  | wasmSync => simp [atNode, InTree.wasmInstantiation?, hkind, constructs]
  | timers => simp [atNode, InTree.timerCall?, InTree.timerName?, hkind, constructs]
  | buffers => simp [atNode, InTree.bufferCall?, hkind, constructs]

theorem atNode_line (family : Family) {t : Tree} (l : Line) (h : l.IsNode pos t)
    (hw : WrittenAt text pos l.text) :
    (family.atNode text.toArray t).map Occurrence.bare =
      if family.constructs.contains l.construct then some (l.occurrence pos) else none := by
  cases l with
  | imports taken source => exact family.atNode_imports h hw
  | statement binding use =>
    refine family.atNode_use h.1 h.2 (hw.part (z := []) (writeBinding binding []) _ ?_ ?_)
    · rw [List.append_nil, ← writeBinding_append]
      rfl
    · rw [writeBinding_length binding use]

theorem filterMap_nodes (family : Family) {ps : List (Nat × Line)} {ts : List Tree}
    (h : List.Forall₂ (fun l t => l.2.IsNode l.1 t) ps ts)
    (hw : ∀ l ∈ ps, WrittenAt text l.1 l.2.text) :
    (ts.filterMap (family.atNode text.toArray)).map Occurrence.bare =
      (ps.map fun l => l.2.occurrence l.1).filter fun o => family.constructs.contains o.construct := by
  induction h with
  | nil => rfl
  | @cons l t ps ts hl _ ih =>
    have hnode := family.atNode_line l.2 hl (hw l (by simp))
    have hrest := ih fun m hm => hw m (by simp [hm])
    have hconstruct : (l.2.occurrence l.1).construct = l.2.construct := rfl
    rw [List.map_cons, List.filter_cons, hconstruct]
    by_cases hc : family.constructs.contains l.2.construct = true
    · rw [if_pos hc] at hnode
      obtain ⟨o, ho, heq⟩ := Option.map_eq_some_iff.mp hnode
      rw [if_pos hc, List.filterMap_cons_some ho, List.map_cons, heq, hrest]
    · rw [if_neg hc] at hnode
      rw [if_neg hc, List.filterMap_cons_none (Option.map_eq_none_iff.mp hnode), hrest]

theorem inTree_program (family : Family) (closed : Bool) {lines : List Line} {root : Tree}
    (h : Parsed root lines) :
    (family.inTree (program closed lines).toArray root).map Occurrence.bare =
      sites family.constructs lines := by
  have hsites : family.atNode (program closed lines).toArray = fun t =>
      if isSite t then family.atNode (program closed lines).toArray t else none := by
    funext t
    cases ht : isSite t with
    | true => rfl
    | false => exact family.atNode_of_not_site _ ht
  rw [inTree_eq, hsites, ← List.filterMap_filter]
  exact family.filterMap_nodes h (placed_written closed lines [])

end Family

end Listing

end EdgeAudit
