import EdgeAudit.Proofs.ReaderSteps

namespace EdgeAudit.Script

def closers : List Char :=
  [',', ')', ';']

theorem closers_mark : ∀ ch ∈ '(' :: closers, ch ∈ marks ∧ ch ≠ '\\' := by
  simp [closers, marks]

def Cursor.Closed (c : Cursor) : Prop :=
  ∃ ch ∈ closers, c.rest.head? = some ch

structure IsNumeral (literal : List Char) : Prop where
  start : literal.head?.any isDecimal = true
  length : ∀ r, numberLength (literal ++ ')' :: r) = literal.length

theorem IsNumeral.exists_cons {literal : List Char} (h : IsNumeral literal) :
    ∃ d ds, literal = d :: ds ∧ isDecimal d = true := by
  have hstart := h.start
  cases literal with
  | nil => cases hstart
  | cons d ds => exact ⟨d, ds, rfl, hstart⟩

theorem plain_numeral {n pos : Nat} {literal r : List Char} (h : IsNumeral literal) :
    Reader.Plain ⟨n, pos, literal ++ r⟩ := by
  obtain ⟨d, ds, rfl, hd⟩ := h.exists_cons
  exact Reader.plain_digit hd

theorem Cursor.Closed.cases {c : Cursor} (hc : c.Closed) :
    ∃ n pos r, c = ⟨n, pos, ',' :: r⟩ ∨ c = ⟨n, pos, ')' :: r⟩ ∨ c = ⟨n, pos, ';' :: r⟩ := by
  obtain ⟨ch, hch, hhead⟩ := hc
  obtain ⟨n, pos, rest⟩ := c
  obtain ⟨r, rfl⟩ := List.head?_eq_some_iff.mp hhead
  simp only [closers, List.mem_cons, List.not_mem_nil, or_false] at hch
  rcases hch with rfl | rfl | rfl
  · exact ⟨n, pos, r, .inl rfl⟩
  · exact ⟨n, pos, r, .inr (.inl rfl)⟩
  · exact ⟨n, pos, r, .inr (.inr rfl)⟩

theorem Cursor.Closed.trivia {c : Cursor} (hc : c.Closed) : Reader.trivia c = some ((), c) := by
  obtain ⟨n, pos, r, rfl | rfl | rfl⟩ := hc.cases <;> rfl

namespace Grammar

open Reader

variable {g : Grammar} {setting : Setting} {c c' c'' : Cursor} {p q : Parsed} {s : Nat} {calls : Bool}

section Closed

variable (hc : c.Closed)

include hc

theorem chainStep_closed : g.chainStep setting calls s p c = none := by
  obtain ⟨t, reading⟩ := p
  obtain ⟨n, pos, r, rfl | rfl | rfl⟩ := hc.cases <;> cases reading <;> rfl

theorem chain_closed (fuel : Nat) : g.chain setting calls s fuel p c = some (p, c) := by
  cases fuel with
  | zero => rfl
  | succ fuel =>
    rw [chain, bind_run (maybe_fails (chainStep_closed hc))]
    rfl

theorem updatedAll_closed (fuel : Nat) : g.updatedAll setting s fuel p c = some (p, c) := by
  have hupdated : updated setting c = none := by
    rw [updated, bind_run (lineEndsAhead_token hc.trivia), Bool.and_false]
    obtain ⟨n, pos, r, rfl | rfl | rfl⟩ := hc.cases <;> rfl
  cases fuel with
  | zero => rfl
  | succ fuel =>
    obtain ⟨t, reading⟩ := p
    cases reading
    case pattern => rfl
    all_goals
      show (maybe (updated setting) >>= _) c = _
      rw [bind_run (maybe_fails hupdated)]
      rfl

theorem assigned_closed : g.assigned setting s p c = none := by
  obtain ⟨t, reading⟩ := p
  obtain ⟨n, pos, r, rfl | rfl | rfl⟩ := hc.cases <;> cases reading <;> rfl

theorem binaryOperator_closed : binaryOperator setting c = none := by
  obtain ⟨n, pos, r, rfl | rfl | rfl⟩ := hc.cases <;> rfl

theorem ascription_closed : g.ascription setting c = none := by
  have hword : oneWord ["as", "satisfies"] c = none := by
    obtain ⟨n, pos, r, rfl | rfl | rfl⟩ := hc.cases <;> rfl
  rw [ascription]
  cases g.dialect.typed with
  | false => rfl
  | true =>
    rw [check_bind, bind_run (lineEndsAhead_token hc.trivia), Bool.and_false, Bool.not_false, check_bind]
    exact bind_fails hword

theorem branches_closed : g.branches setting c = none := by
  obtain ⟨n, pos, r, rfl | rfl | rfl⟩ := hc.cases <;> rfl

end Closed

theorem anyOperand_closed (hplain : Plain c) (hprimary : g.primary setting c = some (p, c'))
    (hchain : g.chainAll setting true c.pos p c' = some (q, c'')) (hc : c''.Closed) :
    g.anyOperand setting c = some (q, c'') := by
  have hword : g.prefixedByWord setting c = none := by
    rw [prefixedByWord, bind_run (begin_eq hplain.trivia)]
    exact bind_fails (discard_fails (hplain.oneWord_fails (by decide)))
  have hhead : g.operandHead setting c = some (p, c') := by
    rw [operandHead, bind_run (hplain.wordAhead (by decide))]
    exact hprimary
  rw [anyOperand, bind_run (begin_eq hplain.trivia), get_bind]
  obtain ⟨ch, r, hr, hch⟩ := hplain.head
  have hmarks := isNamePart_not_mark hch
  have hsign : ['!', '~', '+', '-'].contains ch = false := by
    rw [List.contains_eq_mem, decide_eq_false_iff_not]
    intro hmem
    simp only [List.mem_cons, List.not_mem_nil, or_false] at hmem
    rcases hmem with rfl | rfl | rfl | rfl <;> exact hmarks _ (by decide) rfl
  refine apply_eq fun k hk => ?_
  rw [hr] at hk
  split at hk
  case h_4 heq =>
    cases heq
    rw [hsign, if_neg Bool.false_ne_true] at hk
    rw [hk, bind_run (hplain.wordAhead (by decide)), if_neg Bool.false_ne_true,
      bind_run (maybe_fails hword)]
    refine (bind_run hhead).trans ((bind_run hchain).trans ?_)
    rw [get_bind, bind_run (updatedAll_closed hc _), bind_run (maybe_fails (assigned_closed hc))]
    rfl
  case h_5 heq => cases heq
  all_goals
    rename_i heq
    cases heq
    exact absurd rfl (hmarks _ (by decide))

theorem anyExpression_closed (hbegin : trivia c = some ((), c))
    (hoperand : g.read (.operand setting) c = some (p, c')) (hc : c'.Closed) :
    g.anyExpression setting c = some (p, c') := by
  rw [anyExpression, bind_run (begin_eq hbegin), bind_run hoperand]
  cases p.reading.isValue with
  | false => rfl
  | true =>
    simp only [if_true]
    rw [bind_run (many_fails ?_)]
    · rw [bind_run (maybe_fails (branches_closed hc))]
      rfl
    · rw [bind_run (maybe_fails (ascription_closed hc))]
      exact bind_fails (binaryOperator_closed hc)

theorem primary_plain (hplain : Plain c) {ch : Char} {r : List Char} (hr : c.rest = ch :: r)
    (hch : isNamePart ch = true) : g.primary setting c = (if isDecimal ch || ch == '.' then do
      numberToken
      return ⟨← finish .number c.pos [], .value⟩
    else do
      let before ← get
      let w ← bareName
      set before
      g.wordOperand setting w : Reader Parsed) c := by
  have hmarks := isNamePart_not_mark hch
  rw [primary, bind_run (begin_eq hplain.trivia), get_bind]
  refine apply_eq fun k hk => ?_
  rw [hr] at hk
  split at hk
  case h_10 heq =>
    cases heq
    rw [hk]
  case h_11 heq => cases heq
  all_goals
    rename_i heq
    cases heq
    exact absurd rfl (hmarks _ (by decide))

theorem primary_numeral {n pos : Nat} {literal r : List Char} (h : IsNumeral literal) :
    g.primary setting ⟨n, pos, literal ++ ')' :: r⟩ =
      some (⟨.node .number .plain pos (pos + literal.length) [], .value⟩,
        ⟨n, pos + literal.length, ')' :: r⟩) := by
  obtain ⟨d, ds, rfl, hd⟩ := h.exists_cons
  have hplain : Plain ⟨n, pos, d :: (ds ++ ')' :: r)⟩ := plain_digit hd
  obtain ⟨ch, rest, hr, hch⟩ := hplain.head
  cases hr
  have htoken : numberToken ⟨n, pos, d :: (ds ++ ')' :: r)⟩ =
      some ((), ⟨n, pos + (d :: ds).length, (d :: ds ++ ')' :: r).drop (d :: ds).length⟩) := by
    rw [numberToken, get_bind]
    simp only [h.length r, ← List.cons_append]
    rfl
  rw [List.drop_left] at htoken
  rw [List.cons_append, primary_plain hplain rfl hch, hd, Bool.true_or, if_pos rfl, bind_run htoken]
  rfl

theorem wordOperand_name {w : String} (hw : IsName w) : g.wordOperand setting w = g.nameOperand setting := by
  have hleaf : ["this", "super", "null", "true", "false"].contains w = false :=
    hw.not_contains (by decide)
  rw [wordOperand, if_neg (hw.ne (by decide)), if_neg (hw.ne (by decide)), if_neg (hw.ne (by decide)),
    if_neg (hw.ne (by decide)), if_neg (hw.ne (by decide)), hleaf, if_neg Bool.false_ne_true]

theorem nameLeaf_name {n pos : Nat} {w : String} {ch : Char} {r : List Char} {kind : NodeKind}
    {barred : List String} (hw : IsName w) (hch : ch ∈ marks) (hslash : ch ≠ '\\')
    (hbarred : ∀ v ∈ barred, v ∈ keywords) :
    nameLeaf kind barred ⟨n, pos, w.toList ++ ch :: r⟩ =
      some (.node kind .plain pos (pos + w.length) [], ⟨n, pos + w.length, ch :: r⟩) := by
  rw [nameLeaf, bind_run (begin_eq (plain_name hw hch hslash).trivia), bind_run (bareName_run hw hch hslash),
    hw.not_contains hbarred]
  rfl

theorem barred_keywords : ∀ v ∈ g.barredInExpression, v ∈ keywords := by
  rw [barredInExpression]
  cases g.dialect.typed
  · exact fun v hv => List.mem_append_left _ hv
  · decide

theorem primary_name {n pos : Nat} {w : String} {ch : Char} {r : List Char} (hw : IsName w)
    (hch : ch ∈ '(' :: closers) :
    g.primary setting ⟨n, pos, w.toList ++ ch :: r⟩ =
      some (⟨.node .identifier .plain pos (pos + w.length) [], .reference⟩,
        ⟨n, pos + w.length, ch :: r⟩) := by
  obtain ⟨hmark, hslash⟩ := closers_mark ch hch
  have hplain : Plain ⟨n, pos, w.toList ++ ch :: r⟩ := plain_name hw hmark hslash
  obtain ⟨c, cs, hcs, hstart⟩ := hw.exists_cons
  have hc : isNamePart c = true := hw.isNamePart c (by simp [hcs])
  have hr : w.toList ++ ch :: r = c :: (cs ++ ch :: r) := by rw [hcs]; rfl
  have hletter : (isDecimal c || c == '.') = false := by
    have hdot : c ≠ '.' := (isNamePart_not_mark hc _ (by decide)).symm
    rw [isNameStart, hc, Bool.true_and, Bool.not_eq_true'] at hstart
    rw [isDecimal, hstart, Bool.false_or, beq_eq_false_iff_ne]
    exact hdot
  have harrow : markAhead "=>" ⟨n, pos + w.length, ch :: r⟩ =
      some (false, ⟨n, pos + w.length, ch :: r⟩) := by
    simp only [closers, List.mem_cons, List.not_mem_nil, or_false] at hch
    rcases hch with rfl | rfl | rfl | rfl <;> rfl
  rw [primary_plain hplain hr hc, hletter, if_neg Bool.false_ne_true, get_bind,
    bind_run (bareName_run hw hmark hslash), wordOperand_name hw]
  show g.nameOperand setting _ = _
  rw [nameOperand, bind_run (begin_eq hplain.trivia),
    bind_run (nameLeaf_name hw hmark hslash barred_keywords), bind_run harrow]
  rfl

def holedPart {α : Type} (close : String) (item : Reader α) : Reader (Option α) := do
  if ← markIf "," then return none
  check !(← markAhead close)
  let x ← item
  if !(← markIf ",") then check (← markAhead close)
  return some x

theorem holedList_eq {α : Type} (close : String) (item : Reader α) :
    holedList close item = (do
      let parts ← many (holedPart close item)
      mark close
      return parts.filterMap id) := rfl

def argument (g : Grammar) : Reader Tree := do
  let t ← begin
  if ← markIf "..." then
    let e ← g.expression .inner
    finish .other t [e]
  else g.expression .inner

theorem arguments_eq : g.arguments = (do
    let s ← begin
    mark "("
    let xs ← holedList ")" g.argument
    return (← finish .other s xs).playing .arguments) := rfl

theorem expression_run (h : g.read (.expression setting) c = some (p, c')) (hp : p.reading.isValue = true) :
    g.expression setting c = some (p.tree, c') := by
  rw [expression, bind_run h, hp]
  rfl

section Argument

variable {start : Cursor} (htrivia : trivia start = some ((), c)) (hplain : Plain c)
  (hread : g.read (.expression .inner) c = some (p, c')) (hp : p.reading.isValue = true)

include htrivia hplain hread hp

theorem argument_run : g.argument start = some (p.tree, c') := by
  have hspread := hplain.mark_fails (s := "...") hplain.trivia rfl (by decide)
  rw [argument, bind_run (begin_eq htrivia), bind_run (markIf_fails hspread),
    if_neg Bool.false_ne_true, expression_run hread hp]

theorem holedPart_argument {comma : Bool} (hcomma : markIf "," c' = some (comma, c''))
    (hclose : comma = true ∨ markAhead ")" c'' = some (true, c'')) :
    holedPart ")" g.argument start = some (some p.tree, c'') := by
  have hhole := hplain.mark_fails (s := ",") htrivia rfl (by decide)
  have hend := hplain.mark_fails (s := ")") htrivia rfl (by decide)
  rw [holedPart, bind_run (markIf_fails hhole), if_neg Bool.false_ne_true,
    bind_run (markAhead_fails hend), Bool.not_false, check_bind,
    bind_run (argument_run htrivia hplain hread hp), bind_run hcomma]
  cases comma with
  | true => rfl
  | false =>
    have hclose := hclose.resolve_left Bool.false_ne_true
    show (markAhead ")" >>= _) c'' = _
    rw [bind_run hclose]
    rfl

end Argument

theorem arguments_two {n pos i j : Nat} {r r₁ r₂ : List Char} {p₁ p₂ : Parsed}
    (hfirst : Plain ⟨n, pos + 1, r⟩) (hsecond : Plain ⟨n, i + 2, r₁⟩)
    (hread₁ : g.read (.expression .inner) ⟨n, pos + 1, r⟩ = some (p₁, ⟨n, i, ',' :: ' ' :: r₁⟩))
    (hread₂ : g.read (.expression .inner) ⟨n, i + 2, r₁⟩ = some (p₂, ⟨n, j, ')' :: r₂⟩))
    (hp₁ : p₁.reading.isValue = true) (hp₂ : p₂.reading.isValue = true)
    (hi : pos + 1 < i + 1) (hj : i + 1 < j) (hn : pos + 1 < n) :
    g.arguments ⟨n, pos, '(' :: r⟩ =
      some (.node .other .arguments pos (j + 1) [p₁.tree, p₂.tree], ⟨n, j + 1, r₂⟩) := by
  have hspace : trivia ⟨n, i + 1, ' ' :: r₁⟩ = trivia ⟨n, i + 2, r₁⟩ := rfl
  have hpart₁ := holedPart_argument hfirst.trivia hfirst hread₁ hp₁
    (show markIf "," ⟨n, i, ',' :: ' ' :: r₁⟩ = some (true, ⟨n, i + 1, ' ' :: r₁⟩) from rfl) (.inl rfl)
  have hpart₂ := holedPart_argument (hspace.trans hsecond.trivia) hsecond hread₂ hp₂
    (show markIf "," ⟨n, j, ')' :: r₂⟩ = some (false, ⟨n, j, ')' :: r₂⟩) from rfl) (.inr rfl)
  have hstop : holedPart ")" g.argument ⟨n, j, ')' :: r₂⟩ = none := rfl
  have hparts : many (holedPart ")" g.argument) ⟨n, pos + 1, r⟩ =
      some ([some p₁.tree, some p₂.tree], ⟨n, j, ')' :: r₂⟩) := by
    obtain ⟨k, hk⟩ : ∃ k, n - (pos + 1) = k + 1 := ⟨n - (pos + 1) - 1, by omega⟩
    have hlast := repeatUpTo_run hpart₂ hj (repeatUpTo_fails k hstop)
    show repeatUpTo (n - (pos + 1) + 1) _ _ = _
    rw [hk]
    exact repeatUpTo_run hpart₁ hi hlast
  have hlist : holedList ")" g.argument ⟨n, pos + 1, r⟩ = some ([p₁.tree, p₂.tree], ⟨n, j + 1, r₂⟩) := by
    rw [holedList_eq, bind_run hparts]
    rfl
  have hopen : mark "(" ⟨n, pos, '(' :: r⟩ = some ((), ⟨n, pos + 1, r⟩) := rfl
  rw [arguments_eq, bind_run (begin_eq (trivia_token (by decide) (by decide))), bind_run hopen,
    bind_run hlist]
  rfl

theorem chainAll_call {n pos : Nat} {r : List Char} {args : Tree} (hp : p.reading.isValue = true)
    (hn : pos < n) (hargs : g.arguments ⟨n, pos, '(' :: r⟩ = some (args, c')) (hc : c'.Closed) :
    g.chainAll setting true s p ⟨n, pos, '(' :: r⟩ =
      some (⟨.node .call .plain s c'.pos [p.tree.playing .callee, args], .value⟩, c') := by
  have hstep : g.chainStep setting true s p ⟨n, pos, '(' :: r⟩ =
      some (⟨.node .call .plain s c'.pos [p.tree.playing .callee, args], .value⟩, c') := by
    rw [chainStep, hp, check_bind,
      bind_run (lineEndsAhead_token (trivia_token (by decide) (by decide))),
      bind_run (trivia_token (by decide) (by decide)), get_bind]
    show (g.arguments >>= _) _ = _
    rw [bind_run hargs]
    rfl
  obtain ⟨k, hk⟩ : ∃ k, n - pos = k + 1 := ⟨n - pos - 1, by omega⟩
  show g.chain setting true s (n - pos) p _ = _
  rw [hk, chain, bind_run (maybe_run hstep)]
  exact chain_closed hc k

theorem anySequence_single (hbegin : trivia c = some ((), c))
    (hread : g.read (.expression setting) c = some (p, c')) (hp : p.reading.isValue = true)
    (hsemicolon : c'.rest.head? = some ';') : g.anySequence setting c = some (⟨p.tree, .value⟩, c') := by
  have hcomma : (do mark ","; g.expression setting : Reader Tree) c' = none := by
    obtain ⟨n, pos, rest⟩ := c'
    obtain ⟨r, rfl⟩ := List.head?_eq_some_iff.mp hsemicolon
    rfl
  have hitems : commaItems (g.expression setting) c = some ([p.tree], c') := by
    rw [commaItems, bind_run (expression_run hread hp), bind_run (many_fails hcomma)]
    rfl
  rw [anySequence, bind_run (begin_eq hbegin), bind_run hitems]
  rfl

theorem expressionStatement_run {n pos : Nat} {r : List Char}
    (hread : g.read (.sequence .line) c = some (p, ⟨n, pos, ';' :: r⟩)) :
    g.expressionStatement c = some (p.tree, ⟨n, pos + 1, r⟩) := by
  have hsequence : g.sequence .line c = some (p.tree, ⟨n, pos, ';' :: r⟩) := by
    rw [sequence, bind_run hread]
    rfl
  rw [expressionStatement, bind_run hsequence]
  rfl

theorem wordStatement_name {w : String} (hw : IsName w) (hlabel : g.labeled c = none) :
    g.wordStatement w c = g.expressionStatement c := by
  have hinner : innerWords.contains w = false := hw.not_contains (by decide)
  have hdeclared : ["function", "async", "class", "var", "let", "const", "using", "await"].contains w =
      false := hw.not_contains (by decide)
  have htyped : ["abstract", "enum", "interface", "type", "namespace", "module"].contains w = false :=
    hw.not_contains (by decide)
  have hambient : (w == "declare") = false := beq_eq_false_iff_ne.mpr (hw.ne (by decide))
  have hjump : ¬ (w = "break" ∨ w = "continue") :=
    not_or.mpr ⟨hw.ne (by decide), hw.ne (by decide)⟩
  rw [wordStatement, if_neg (hw.ne (by decide)), if_neg (hw.ne (by decide)), if_neg (hw.ne (by decide)),
    if_neg (hw.ne (by decide)), if_neg (hw.ne (by decide)), if_neg (hw.ne (by decide)),
    if_neg (hw.ne (by decide)), if_neg hjump, if_neg (hw.ne (by decide)), if_neg (hw.ne (by decide)),
    if_neg (hw.ne (by decide)), if_neg (hw.ne (by decide)), if_neg (hw.ne (by decide)), hinner,
    if_neg Bool.false_ne_true, hdeclared, if_neg Bool.false_ne_true, orElse_fails hlabel, htyped,
    hambient]
  rfl

theorem labeled_name {w : String} {n pos : Nat} {r : List Char} (hw : IsName w) :
    g.labeled ⟨n, pos, w.toList ++ '(' :: r⟩ = none := by
  have hleaf : discard (nameLeaf .other reservedWords) ⟨n, pos, w.toList ++ '(' :: r⟩ =
      some ((), ⟨n, pos + w.length, '(' :: r⟩) :=
    discard_run (nameLeaf_name hw (by decide) (by decide) fun v hv => List.mem_append_left _ hv)
  have hplain : Plain ⟨n, pos, w.toList ++ '(' :: r⟩ := plain_name hw (by decide) (by decide)
  rw [labeled, bind_run (begin_eq hplain.trivia), bind_run hleaf]
  rfl

theorem beginStatement_plain (hplain : Plain c) : beginStatement c = some (c.pos, c) := by
  obtain ⟨ch, r, hr, hch⟩ := hplain.head
  have hcomment : pageComment c = none := by
    have hmarks := isNamePart_not_mark hch
    rw [pageComment, bind_run hplain.trivia, get_bind, hr,
      isPrefixOf_other (s := "<!--") rfl (hmarks '<' (by decide)),
      isPrefixOf_other (s := "-->") rfl (hmarks '-' (by decide))]
    rfl
  rw [beginStatement, bind_run (discard_run (many_fails hcomment)), begin_eq hplain.trivia]

theorem anyStatement_name {w : String} {n pos : Nat} {r : List Char} (hw : IsName w) :
    g.anyStatement ⟨n, pos, w.toList ++ '(' :: r⟩ =
      g.expressionStatement ⟨n, pos, w.toList ++ '(' :: r⟩ := by
  have hplain : Plain ⟨n, pos, w.toList ++ '(' :: r⟩ := plain_name hw (by decide) (by decide)
  obtain ⟨ch, cs, hr, hch⟩ := hplain.head
  have hmarks := isNamePart_not_mark hch
  rw [anyStatement, bind_run (beginStatement_plain hplain), get_bind]
  refine apply_eq fun k hk => ?_
  rw [hr] at hk
  split at hk
  case h_5 heq =>
    rw [hk, get_bind, bind_run (maybe_run (bareName_run hw (by decide) (by decide)))]
    show g.wordStatement w _ = _
    exact wordStatement_name hw (labeled_name hw)
  case h_4 heq => cases heq
  all_goals
    rename_i heq
    cases heq
    exact absurd rfl (hmarks _ (by decide))

end Grammar

open Reader Grammar

def callText (f a : String) (literal : List Char) : List Char :=
  f.toList ++ '(' :: (a.toList ++ ',' :: ' ' :: (literal ++ [')', ';']))

def literalStart (f a : String) : Nat :=
  f.length + 1 + a.length + 2

def callTree (f a : String) (literal : List Char) : Tree :=
  let first := literalStart f a
  let last := first + literal.length
  .node .call .plain 0 (last + 1)
    [.node .identifier .callee 0 f.length [],
     .node .other .arguments f.length (last + 1)
      [.node .identifier .plain (f.length + 1) (f.length + 1 + a.length) [],
       .node .number .plain first last []]]

def Grammar.nested (dialect : Dialect) (depth : Nat) : Grammar :=
  ⟨dialect, readUpTo dialect depth⟩

section Call

variable {dialect : Dialect} {depth n pos : Nat} {setting : Setting} {r : List Char}

theorem read_name {w : String} {ch : Char} (hw : IsName w) (hch : ch ∈ closers) :
    (nested dialect (depth + 2)).read (.expression setting) ⟨n, pos, w.toList ++ ch :: r⟩ =
      some (⟨.node .identifier .plain pos (pos + w.length) [], .reference⟩,
        ⟨n, pos + w.length, ch :: r⟩) := by
  have hclosed : Cursor.Closed ⟨n, pos + w.length, ch :: r⟩ := ⟨ch, hch, rfl⟩
  have hfollow : ch ∈ '(' :: closers := List.mem_cons_of_mem _ hch
  have hplain : Plain ⟨n, pos, w.toList ++ ch :: r⟩ :=
    plain_name hw (closers_mark ch hfollow).1 (closers_mark ch hfollow).2
  show (nested dialect (depth + 1)).anyExpression setting _ = _
  apply anyExpression_closed hplain.trivia _ hclosed
  exact anyOperand_closed hplain (primary_name hw hfollow) (chain_closed hclosed _) hclosed

theorem read_numeral {literal : List Char} (h : IsNumeral literal) :
    (nested dialect (depth + 2)).read (.expression setting) ⟨n, pos, literal ++ ')' :: r⟩ =
      some (⟨.node .number .plain pos (pos + literal.length) [], .value⟩,
        ⟨n, pos + literal.length, ')' :: r⟩) := by
  have hclosed : Cursor.Closed ⟨n, pos + literal.length, ')' :: r⟩ := ⟨')', by decide, rfl⟩
  have hplain : Plain ⟨n, pos, literal ++ ')' :: r⟩ := plain_numeral h
  show (nested dialect (depth + 1)).anyExpression setting _ = _
  apply anyExpression_closed hplain.trivia _ hclosed
  exact anyOperand_closed hplain (primary_numeral h) (chain_closed hclosed _) hclosed

theorem read_arguments {a : String} {literal : List Char} (ha : IsName a) (hliteral : IsNumeral literal)
    (hn : pos + 1 < n) :
    (nested dialect (depth + 2)).arguments
      ⟨n, pos, '(' :: (a.toList ++ ',' :: ' ' :: (literal ++ ')' :: r))⟩ =
        some (.node .other .arguments pos (pos + 1 + a.length + 2 + literal.length + 1)
          [.node .identifier .plain (pos + 1) (pos + 1 + a.length) [],
           .node .number .plain (pos + 1 + a.length + 2) (pos + 1 + a.length + 2 + literal.length) []],
          ⟨n, pos + 1 + a.length + 2 + literal.length + 1, r⟩) := by
  have hfirst : Plain ⟨n, pos + 1, a.toList ++ ',' :: ' ' :: (literal ++ ')' :: r)⟩ :=
    plain_name ha (by decide) (by decide)
  have hpos : 0 < literal.length := by
    obtain ⟨d, ds, rfl, -⟩ := hliteral.exists_cons
    exact Nat.succ_pos _
  apply arguments_two hfirst (plain_numeral hliteral) (read_name ha (by decide))
    (read_numeral hliteral) rfl rfl
  · omega
  · omega
  · exact hn

variable {f a : String} {literal : List Char} (hf : IsName f) (ha : IsName a)
  (hliteral : IsNumeral literal)

include hf ha hliteral

theorem read_call (hn : f.length + 1 < n) :
    (nested dialect (depth + 4)).read (.expression setting) ⟨n, 0, callText f a literal⟩ =
      some (⟨callTree f a literal, .value⟩, ⟨n, literalStart f a + literal.length + 1, [';']⟩) := by
  have hplain : Plain ⟨n, 0, callText f a literal⟩ := plain_name hf (by decide) (by decide)
  have hclosed : Cursor.Closed ⟨n, literalStart f a + literal.length + 1, [';']⟩ :=
    ⟨';', by decide, rfl⟩
  show (nested dialect (depth + 3)).anyExpression setting _ = _
  apply anyExpression_closed hplain.trivia _ hclosed
  show (nested dialect (depth + 2)).anyOperand setting _ = _
  apply anyOperand_closed hplain (primary_name hf (by decide)) _ hclosed
  rw [Nat.zero_add]
  exact chainAll_call rfl (by omega) (read_arguments ha hliteral hn) hclosed

theorem read_callStatement (hn : f.length + 1 < n) :
    (nested dialect (depth + 6)).statement ⟨n, 0, callText f a literal⟩ =
      some (callTree f a literal, ⟨n, literalStart f a + literal.length + 2, []⟩) := by
  have hplain : Plain ⟨n, 0, callText f a literal⟩ := plain_name hf (by decide) (by decide)
  have hsequence : (nested dialect (depth + 5)).read (.sequence .line) ⟨n, 0, callText f a literal⟩ =
      some (⟨callTree f a literal, .value⟩, ⟨n, literalStart f a + literal.length + 1, [';']⟩) :=
    anySequence_single hplain.trivia (read_call hf ha hliteral hn) rfl rfl
  have hstatement : (nested dialect (depth + 5)).anyStatement ⟨n, 0, callText f a literal⟩ =
      some (callTree f a literal, ⟨n, literalStart f a + literal.length + 2, []⟩) :=
    (anyStatement_name hf).trans (expressionStatement_run hsequence)
  have hread : (nested dialect (depth + 6)).read .statement ⟨n, 0, callText f a literal⟩ =
      some (⟨callTree f a literal, .value⟩, ⟨n, literalStart f a + literal.length + 2, []⟩) :=
    bind_run hstatement
  rw [statement, bind_run hread]
  rfl

/-- The text of a call is read as its tree. -/
theorem parse?_callText : parse? dialect (callText f a literal) =
    some (.node .other .plain 0 (literalStart f a + literal.length + 2) [callTree f a literal]) := by
  have hsize : f.length + 1 < (callText f a literal).length := by
    simp only [callText, List.length_append, List.length_cons, String.length_toList]
    omega
  have hplain : Plain (Cursor.first (callText f a literal)) :=
    plain_name hf (by decide) (by decide)
  obtain ⟨depth, hdepth⟩ : ∃ depth, 8 * (callText f a literal).length + 64 = depth + 6 := ⟨_, rfl⟩
  have hstatements : (nested dialect (depth + 6)).statements (Cursor.first (callText f a literal)) =
      some ([callTree f a literal],
        ⟨(callText f a literal).length, literalStart f a + literal.length + 2, []⟩) := by
    have hmany : many (nested dialect (depth + 6)).statement (Cursor.first (callText f a literal)) =
        some ([callTree f a literal],
          ⟨(callText f a literal).length, literalStart f a + literal.length + 2, []⟩) :=
      repeatUpTo_run (read_callStatement hf ha hliteral hsize) (Nat.succ_pos _)
        (repeatUpTo_fails _ rfl)
    rw [statements, bind_run hmany]
    rfl
  have hskip : skipInterpreter (Cursor.first (callText f a literal)) =
      some ((), Cursor.first (callText f a literal)) := by
    obtain ⟨ch, r, hr, hch⟩ := hplain.head
    have hstart : startsWith "#!" (Cursor.first (callText f a literal)) =
        some (false, Cursor.first (callText f a literal)) := by
      rw [← isPrefixOf_other (s := "#!") (r := r) rfl (isNamePart_not_mark hch _ (by decide)), ← hr]
      rfl
    rw [skipInterpreter, bind_run hstart]
    rfl
  show Option.map _ (program (nested dialect (8 * (callText f a literal).length + 64)) _) = _
  rw [hdepth, program, bind_run hskip, bind_run hstatements]
  rfl

end Call

end EdgeAudit.Script
