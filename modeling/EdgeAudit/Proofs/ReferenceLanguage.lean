import EdgeAudit.Proofs.MergedReferences
import EdgeAudit.Proofs.RecognisedLanguage

namespace EdgeAudit

open Computability Text Pattern

namespace Written

def exactly (s : String) : Language Char := {s.toList}

def spaces : Language Char := runs (isBlank · = true)

def gaps : Language Char := someRuns (isBlank · = true)

def names : Language Char := someRuns fun c => isWord c = true ∨ c = '$'

def IsSpecifier (v : List Char) : Prop :=
  v ≠ [] ∧ ∀ c ∈ v, c ≠ '\'' ∧ c ≠ '"' ∧ c ≠ '\n'

def specifiers (v : List Char) : Language Char :=
  {w | IsSpecifier v ∧ (w = '\'' :: v ++ ['\''] ∨ w = '"' :: v ++ ['"'])}

def comments : Language Char := (exactly "/*" * runs (fun _ => True) * exactly "*/" * spaces)∗

def calls (f : String) (v : List Char) : Language Char :=
  exactly f * spaces * exactly "(" * spaces * comments * specifiers v * spaces * exactly ")"

def taken : Language Char :=
  names + exactly "*" * spaces * exactly "as" * gaps * names +
    exactly "\x7b" * runs (· ≠ '\x7d') * exactly "\x7d"

def clauses : Language Char :=
  (1 + names * spaces * exactly "," * spaces) * taken * spaces * exactly "from" * spaces

def imports (v : List Char) : Language Char :=
  exactly "import" * gaps * (1 + exactly "type" * gaps) * (1 + clauses) * specifiers v

end Written

namespace Link

open Written

/-- The texts that refer to the module `v`. -/
def written : Link → List Char → Language Char
  | .staticImport => imports
  | .require => calls "require"
  | .dynamicImport => calls "import"

/-- Whether a reference may stand behind a character or at the beginning. -/
def mayFollow : Link → Option Char → Prop
  | .staticImport, before => ∀ c ∈ before, isWord c = false
  | _, before => ∀ c ∈ before, isWord c = false ∧ c ≠ '$' ∧ c ≠ '.'

end Link

namespace InText

open Written

theorem recognises_word (s : String) : Recognises (word s) (exactly s) :=
  recognises_text s.toList

theorem recognises_blanks : Recognises blanks spaces :=
  recognises_run isBlank

theorem recognises_gap : Recognises gap gaps :=
  recognises_run_one isBlank

theorem recognises_name : Recognises name names := by
  have h := recognises_run_one isNameChar
  simp only [isNameChar, Bool.or_eq_true, beq_iff_eq] at h
  exact h

theorem recognises_comments : Recognises comments Written.comments := by
  have hany := recognises_fewest fun _ => true
  simp only at hany
  simp only [Written.comments, mul_assoc]
  exact ((recognises_word "/*").seq (hany.seq ((recognises_word "*/").seq recognises_blanks))).many

theorem extracts_specifier : Extracts specifier valueSlot specifiers := by
  have hinside := @Recognises.keep _ _ valueSlot
    (recognises_run_one fun c => c != '\'' && c != '"' && c != '\n')
  have hbetween := fun q : String => (recognises_word q).extracts_seq (hinside.seq (recognises_word q))
  refine ((hbetween "'").either (hbetween "\"")).congr fun v => ?_
  ext w
  have hv : v ∈ someRuns (fun c => (c != '\'' && c != '"' && c != '\n') = true) ↔ IsSpecifier v := by
    simp only [Bool.and_eq_true, bne_iff_ne, and_assoc]
    exact Iff.rfl
  have hside : ∀ q : Char, w ∈ exactly (String.ofList [q]) *
      (only (someRuns fun c => (c != '\'' && c != '"' && c != '\n') = true) v *
        exactly (String.ofList [q])) ↔ IsSpecifier v ∧ w = q :: v ++ [q] := by
    intro q
    simp only [Language.mem_mul, exactly]
    constructor
    · rintro ⟨_, rfl, _, ⟨_, ⟨rfl, hspecifier⟩, _, rfl, rfl⟩, rfl⟩
      exact ⟨hv.mp hspecifier, by simp⟩
    · rintro ⟨hspecifier, rfl⟩
      exact ⟨_, rfl, _, ⟨v, ⟨rfl, hv.mpr hspecifier⟩, _, rfl, rfl⟩, by simp⟩
  exact ((hside '\'').or (hside '"')).trans and_or_left.symm

theorem extracts_call (f : String) : Extracts
    (all [word f, blanks, word "(", blanks, comments, specifier, blanks, word ")"]) valueSlot
    (calls f) := by
  refine ((recognises_word f).extracts_seq (recognises_blanks.extracts_seq
    ((recognises_word "(").extracts_seq (recognises_blanks.extracts_seq
      (recognises_comments.extracts_seq (extracts_specifier.seq
        (recognises_blanks.seq (recognises_word ")")))))))).congr fun v => ?_
  simp only [calls, mul_assoc]

theorem recognises_taken : Recognises (oneOf [name, all [word "*", blanks, word "as", gap, name],
    all [word "\x7b", run (· != '\x7d') 0, word "\x7d"]]) taken := by
  have hinside := recognises_run (· != '\x7d')
  simp only [bne_iff_ne] at hinside
  simp only [taken, add_assoc, mul_assoc]
  refine recognises_name.either (.either ?_ ?_)
  · exact (recognises_word "*").seq (recognises_blanks.seq
      ((recognises_word "as").seq (recognises_gap.seq recognises_name)))
  · exact (recognises_word "\x7b").seq (hinside.seq (recognises_word "\x7d"))

theorem recognises_clause : Recognises clause clauses := by
  simp only [clauses, mul_assoc]
  refine .seq (.optional ?_) (recognises_taken.seq
    (recognises_blanks.seq ((recognises_word "from").seq recognises_blanks)))
  exact recognises_name.seq (recognises_blanks.seq ((recognises_word ",").seq recognises_blanks))

theorem extracts_import : Extracts
    (all [word "import", gap, optional (all [word "type", gap]), optional clause, specifier])
    valueSlot imports := by
  refine ((recognises_word "import").extracts_seq (recognises_gap.extracts_seq
    (((recognises_word "type").seq recognises_gap).optional.extracts_seq
      (recognises_clause.optional.extracts_seq extracts_specifier)))).congr fun v => ?_
  simp only [imports, mul_assoc]

theorem exists_append_of_mem_written {link : Link} {v w : List Char} (h : w ∈ link.written v) :
    ∃ b, w = (if link = .require then "require" else "import").toList ++ b := by
  cases link <;> simp only [Link.written, imports, calls, mul_assoc] at h <;>
  · obtain ⟨a, rfl, b, -, rfl⟩ := Language.mem_mul.mp h
    exact ⟨b, rfl⟩

theorem extracts_reference (link : Link) :
    ExtractsAfter (reference link) link.mayFollow valueSlot link.written := by
  have hcall := fun f : String => (extracts_call f).notAfter
    (f := fun c => isNameChar c || c == '.')
  have hfree : (fun b : Option Char => ∀ c ∈ b, (isNameChar c || c == '.') = false) =
      fun b => ∀ c ∈ b, isWord c = false ∧ c ≠ '$' ∧ c ≠ '.' := by
    funext b
    simp [isNameChar, and_assoc]
  rw [hfree] at hcall
  cases link with
  | staticImport =>
    apply extracts_import.edge
    intro v w hw
    obtain ⟨b, rfl⟩ := @exists_append_of_mem_written .staticImport v w hw
    exact ⟨'i', rfl, by decide⟩
  | require => exact hcall "require"
  | dynamicImport => exact hcall "import"

theorem isSpecifier_of_mem_written {link : Link} {v w : List Char} (h : w ∈ link.written v) :
    IsSpecifier v := by
  cases link with
  | staticImport =>
    obtain ⟨_, _, _, hv, -⟩ := Language.mem_mul.mp h
    exact hv.1
  | require | dynamicImport =>
    obtain ⟨_, h, -⟩ := Language.mem_mul.mp h
    obtain ⟨_, h, -⟩ := Language.mem_mul.mp h
    obtain ⟨_, _, _, hv, -⟩ := Language.mem_mul.mp h
    exact hv.1

theorem references_of_link {links : List Link} {link : Link} (h : link ∈ links) (cs : List Char) :
    (moduleReferences links cs).filter (fun o => o.construct = .reference link) =
      occurrences (reference link) (.reference link) id cs :=
  (mergeOf_moduleReferences links cs).each _ (List.mem_map_of_mem h)

theorem occurrences_disjoint (p : Pattern) (c : Construct) (value : String → String)
    (cs : List Char) :
    (occurrences p c value cs).Pairwise fun o o' => o.stop ≤ o'.start := by
  apply List.pairwise_map.mpr
  exact findAll_disjoint p cs

theorem eq_of_overlap {os : List Occurrence} (h : os.Pairwise fun o o' => o.stop ≤ o'.start)
    {n : Nat} {o o' : Occurrence} (ho : o ∈ os) (ho' : o' ∈ os)
    (hn : o.start ≤ n ∧ n < o.stop) (hn' : o'.start ≤ n ∧ n < o'.stop) : o = o' := by
  refine Decidable.byContradiction fun hne => ?_
  have happart : os.Pairwise fun a b => a.stop ≤ b.start ∨ b.stop ≤ a.start := h.imp .inl
  have : Std.Symm fun a b : Occurrence => a.stop ≤ b.start ∨ b.stop ≤ a.start := ⟨fun _ _ => Or.symm⟩
  have := happart.forall ho ho' hne
  omega

/-- The references of each kind that are found in a text are texts of its language, each text of the
language begins in exactly one of them, and they do not overlap. -/
theorem moduleReferences_language (links : List Link) (cs : List Char) (link : Link)
    (hlink : link ∈ links) :
    (∀ o ∈ moduleReferences links cs, o.construct = .reference link →
      IsSpecifier o.value.toList ∧ ∃ a w r, cs = a ++ w ++ r ∧ link.mayFollow a.getLast? ∧
        w ∈ link.written o.value.toList ∧ o.start = a.length ∧ o.stop = a.length + w.length) ∧
    (∀ a w r v, cs = a ++ w ++ r → link.mayFollow a.getLast? → w ∈ link.written v →
      ∃! o, o ∈ moduleReferences links cs ∧ o.construct = .reference link ∧
        o.start ≤ a.length ∧ a.length < o.stop) ∧
    ((moduleReferences links cs).filter fun o => o.construct = .reference link).Pairwise
      fun o o' => o.stop ≤ o'.start := by
  have hmem : ∀ o, o ∈ moduleReferences links cs ∧ o.construct = .reference link ↔
      o ∈ occurrences (reference link) (.reference link) id cs := by
    intro o
    rw [← references_of_link hlink, List.mem_filter, decide_eq_true_eq]
  have hdisjoint := occurrences_disjoint (reference link) (.reference link) id cs
  refine ⟨?_, ?_, references_of_link hlink cs ▸ hdisjoint⟩
  · intro o ho hconstruct
    obtain ⟨f, hf, rfl⟩ := List.mem_map.mp ((hmem o).mp ⟨ho, hconstruct⟩)
    obtain ⟨a, v, w, r, hcs, ha, hw, hstart, hstop, hvalue⟩ :=
      mem_of_findAll (extracts_reference link) hf
    have hv : ((f.after.get? valueSlot).getD "").toList = v := by
      rw [hvalue]
      exact String.toList_ofList
    simp only [id, hv]
    exact ⟨isSpecifier_of_mem_written hw, a, w, r, hcs, ha, hw, hstart, hstop⟩
  · intro a w r v hcs ha hw
    have hne : ∀ v, [] ∉ link.written v := by
      intro v hv
      obtain ⟨b, hb⟩ := exists_append_of_mem_written hv
      cases link <;> simp at hb
    obtain ⟨f, hf, hlo, hhi⟩ := findAll_covers (extracts_reference link) hne hcs ha hw
    have ho := List.mem_map_of_mem (f := fun f : Found => (⟨f.start, f.after.pos, .reference link,
      id ((f.after.get? valueSlot).getD ""), none⟩ : Occurrence)) hf
    refine ⟨_, ⟨((hmem _).mpr ho).1, ((hmem _).mpr ho).2, hlo, hhi⟩, ?_⟩
    rintro o ⟨hmem', hconstruct, hn⟩
    exact eq_of_overlap hdisjoint ((hmem o).mp ⟨hmem', hconstruct⟩) ho hn ⟨hlo, hhi⟩

theorem moduleReferences_language_type :
    ∃! o, o ∈ moduleReferences [.require, .staticImport] "x;import type from'm' ".toList ∧
      o.construct = .reference .staticImport ∧ o.start ≤ 2 ∧ 2 < o.stop := by
  have hskip : ∀ L : Language Char, [] ∈ 1 + L := fun L => .inl Language.nil_mem_one
  have hspace : [' '] ∈ spaces := by
    intro c hc
    rw [List.mem_singleton.mp hc]
    decide
  have hgap : [' '] ∈ gaps := ⟨List.cons_ne_nil _ _, hspace⟩
  have hname : "type".toList.all (fun c => decide (isWord c = true ∨ c = '$')) = true := by decide
  have htaken : "type".toList ∈ taken := .inl (.inl ⟨List.cons_ne_nil _ _, fun c hc =>
    of_decide_eq_true (List.all_eq_true.mp hname c hc)⟩)
  have hword : ∀ s : String, s.toList ∈ exactly s := fun _ => rfl
  have hclause : "type from".toList ∈ 1 + clauses := by
    refine .inr (Language.append_mem_mul (b := []) (Language.append_mem_mul (Language.append_mem_mul
      (Language.append_mem_mul (hskip _) htaken) hspace) (hword "from")) ?_)
    exact fun c hc => nomatch hc
  have hm : "'m'".toList ∈ specifiers ['m'] := ⟨⟨List.cons_ne_nil _ _, by simp⟩, .inl rfl⟩
  have himport : "import type from'm'".toList ∈ Link.staticImport.written ['m'] :=
    Language.append_mem_mul (Language.append_mem_mul (Language.append_mem_mul
      (Language.append_mem_mul (hword "import") hgap) (hskip _)) hclause) hm
  have hbefore : ∀ c ∈ some ';', isWord c = false := by
    rintro c ⟨⟩
    decide
  exact (moduleReferences_language [.require, .staticImport] _ .staticImport (by decide)).2.1
    ['x', ';'] _ [' '] ['m'] rfl hbefore himport

end InText

end EdgeAudit
