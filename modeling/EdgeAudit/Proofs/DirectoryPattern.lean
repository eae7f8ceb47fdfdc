import EdgeAudit.Discovery
import EdgeAudit.Proofs.EscapedPattern

namespace EdgeAudit.Glob

open Text

variable {n depth : Nat} {c : Char} {w rest name cs : List Char} {words : List (List Char)}

section Options

open Braced

def IsLiteral (c : Char) : Prop :=
  c ∉ ['$', '\\', '\x7b', '\x7d', ',']

instance (c : Char) : Decidable (IsLiteral c) :=
  inferInstanceAs (Decidable (_ ∉ _))

theorem isLiteral_of_all (h : w.all (fun c => decide (IsLiteral c)) = true) : ∀ c ∈ w, IsLiteral c :=
  fun c hc => of_decide_eq_true (List.all_eq_true.mp h c hc)

theorem IsLiteral.ne (h : IsLiteral c) :
    c ≠ '$' ∧ c ≠ '\\' ∧ c ≠ '\x7b' ∧ c ≠ '\x7d' ∧ c ≠ ',' := by
  simpa [IsLiteral] using h

def plainRow (w : List Char) : List Braced :=
  (w.map fun c => [c]).map .text

theorem countRow_plainRow (w : List Char) (row : List Braced) :
    Braced.countRow (plainRow w ++ row) = Braced.countRow row :=
  countRow_texts _ row

theorem textsRow_plainRow (w : List Char) (row : List Braced) :
    textsRow (plainRow w ++ row) = (textsRow row).map (w ++ ·) := by
  rw [plainRow, textsRow_texts, ← List.flatMap_def, List.flatMap_singleton']

theorem readRow_literal (hc : IsLiteral c) (inside dollar start : Bool) :
    readRow (n + 1) depth inside dollar start (c :: rest) =
      (readRow n depth inside false false rest).map fun (row, rest) => (.text [c] :: row, rest) := by
  obtain ⟨hdollar, hback, hopen, hclose, hcomma⟩ := hc.ne
  simp [readRow, hdollar, hback, hopen, hclose, hcomma]

theorem readRow_literals (hw : ∀ c ∈ w, IsLiteral c) (inside : Bool) :
    readRow (w.length + n) depth inside false false (w ++ rest) =
      (readRow n depth inside false false rest).map fun (row, rest) => (plainRow w ++ row, rest) := by
  induction w with
  | nil => simp [plainRow]
  | cons c w ih =>
    rw [List.forall_mem_cons] at hw
    rw [List.length_cons, Nat.add_right_comm, List.cons_append, readRow_literal hw.1, ih hw.2,
      Option.map_map]
    rfl

theorem readRow_option (hw : ∀ c ∈ w, IsLiteral c) (hc : c = ',' ∨ c = '\x7d') (hn : w.length < n) :
    readRow n depth true false false (w ++ c :: rest) = some (plainRow w, c :: rest) := by
  obtain ⟨k, rfl⟩ := Nat.exists_eq_add_of_le (show w.length + 1 ≤ n from hn)
  have hend : readRow (1 + k) depth true false false (c :: rest) = some ([], c :: rest) := by
    rw [Nat.add_comm]
    rcases hc with rfl | rfl <;> simp [readRow]
  rw [Nat.add_assoc, readRow_literals hw, hend]
  simp

theorem readOptions_words (hwords : ∀ w ∈ words, w ≠ [] ∧ ∀ c ∈ w, IsLiteral c) (hne : words ≠ [])
    {comma : Bool} (hcomma : comma = true ∨ 1 < words.length) (before : List (List Braced))
    (hn : (List.intercalate [','] words).length + 1 < n) :
    readOptions n depth before none comma (List.intercalate [','] words ++ '\x7d' :: rest) =
      some ([.choice (before.reverse ++ words.map plainRow)], rest) := by
  induction words generalizing n before comma with
  | nil => exact absurd rfl hne
  | cons w words ih =>
    obtain ⟨hw, hliteral⟩ := hwords w (by simp)
    obtain ⟨c, w', rfl⟩ := List.exists_cons_of_ne_nil hw
    obtain ⟨-, -, -, hclose, hsep⟩ := (hliteral c (by simp)).ne
    obtain _ | _ | n := n
    · omega
    · omega
    have hoption : ∀ {d : Char} (r : List Char), (d = ',' ∨ d = '\x7d') → w'.length < n →
        readOptions (n + 1 + 1) depth before none comma ((c :: w') ++ d :: r) =
          readOptions (n + 1) depth before (some (plainRow (c :: w'))) comma (d :: r) := by
      intro d r hd hlength
      have hrow : readRow (n + 1) depth true false false (c :: w' ++ d :: r) =
          some (plainRow (c :: w'), d :: r) :=
        readRow_option hliteral hd (by simpa using hlength)
      rw [List.cons_append] at hrow ⊢
      rw [readOptions]
      simp [hsep, hclose, hrow]
    cases words with
    | nil =>
      have htrue : comma = true := by simpa using hcomma
      rw [List.intercalate_singleton] at hn ⊢
      rw [hoption rest (.inr rfl) (by simpa using hn), readOptions]
      simp [htrue]
    | cons v words =>
      rw [List.intercalate_cons_cons, List.append_assoc, List.singleton_append] at hn
      simp only [List.length_append, List.length_cons] at hn
      rw [List.intercalate_cons_cons, List.append_assoc, List.append_assoc, List.singleton_append,
        hoption _ (.inl rfl) (by omega), readOptions]
      simp only [if_true, Option.getD_some]
      rw [ih (fun x hx => hwords x (List.mem_cons_of_mem _ hx)) (by simp) (.inl rfl) _ (by omega)]
      simp

theorem textsEach_words (words : List (List Char)) : textsEach (words.map plainRow) = words := by
  induction words with
  | nil => rfl
  | cons w words ih =>
    have hword := textsRow_plainRow w []
    rw [List.append_nil] at hword
    rw [List.map_cons, textsEach, ih, hword]
    simp [textsRow]

theorem countEach_words (words : List (List Char)) :
    countEach (words.map plainRow) = words.length := by
  induction words with
  | nil => rfl
  | cons w words ih =>
    have hword := countRow_plainRow w []
    rw [List.append_nil] at hword
    rw [List.map_cons, countEach, ih, hword, Braced.countRow, List.length_cons, Nat.add_comm]

theorem readGroup_words (hwords : ∀ w ∈ words, w ≠ [] ∧ ∀ c ∈ w, IsLiteral c)
    (hmany : 1 < words.length)
    (hrange : range? (List.intercalate [','] words ++ '\x7d' :: rest) = none) (start : Bool)
    (hn : (List.intercalate [','] words).length + 1 < n) :
    readGroup (n + 1) depth start (List.intercalate [','] words ++ '\x7d' :: rest) =
      some ([.choice (words.map plainRow)], rest) := by
  have hne : words ≠ [] := List.ne_nil_of_length_pos (by omega)
  have hoptions : readOptions n depth [] none false
      (List.intercalate [','] words ++ '\x7d' :: rest) = some ([.choice (words.map plainRow)], rest) :=
    readOptions_words hwords hne (.inr hmany) [] hn
  have hhead : ∀ r, List.intercalate [','] words ++ '\x7d' :: rest ≠ '\x7d' :: r := by
    obtain ⟨v, words, rfl⟩ := List.exists_cons_of_ne_nil hne
    obtain ⟨hv, hliteral⟩ := hwords v (by simp)
    obtain ⟨c, v, rfl⟩ := List.exists_cons_of_ne_nil hv
    obtain ⟨-, -, -, hclose, -⟩ := (hliteral c (by simp)).ne
    intro r hr
    cases words <;> simp [List.intercalate_cons_cons] at hr <;> exact hclose hr.1
  rw [readGroup, hrange]
  · exact hoptions
  · exact hhead

theorem readRow_choice (hw : ∀ c ∈ w, IsLiteral c) (hne : w ≠ [])
    (hwords : ∀ w ∈ words, w ≠ [] ∧ ∀ c ∈ w, IsLiteral c) (hmany : 1 < words.length)
    (hrange : range? (List.intercalate [','] words ++ ['\x7d']) = none) (dollar start : Bool)
    (hn : w.length + (List.intercalate [','] words).length + 3 < n) :
    readRow n 0 false dollar start (w ++ '\x7b' :: (List.intercalate [','] words ++ ['\x7d'])) =
      some (plainRow w ++ [.choice (words.map plainRow)], []) := by
  obtain ⟨c, w, rfl⟩ := List.exists_cons_of_ne_nil hne
  rw [List.forall_mem_cons] at hw
  rw [List.length_cons] at hn
  obtain ⟨k, rfl⟩ := Nat.exists_eq_add_of_le (show w.length + 3 ≤ n by omega)
  have hbrace : readRow (k + 1 + 1) 0 false false false
      ('\x7b' :: (List.intercalate [','] words ++ ['\x7d'])) =
        some ([.choice (words.map plainRow)], []) := by
    have hgroup := @readGroup_words k 1 [] words hwords hmany hrange false (by omega)
    simp [readRow, hgroup]
  have hfuel : w.length + 3 + k = w.length + (k + 1 + 1) + 1 := by omega
  rw [List.cons_append, hfuel, readRow_literal hw.1, readRow_literals hw.2, hbrace]
  rfl

theorem dropEmptyEnd_full {texts : List (List Char)} (h : ∀ t ∈ texts, t ≠ []) (hne : texts ≠ []) :
    dropEmptyEnd texts = texts := by
  have hreverse : texts.reverse.dropWhile List.isEmpty = texts.reverse := by
    cases hr : texts.reverse with
    | nil => rfl
    | cons t ts =>
      have ht : t ≠ [] := h t (List.mem_reverse.mp (by simp [hr]))
      rw [List.dropWhile_cons_of_neg (by simpa using ht)]
  rw [dropEmptyEnd, hreverse, List.reverse_reverse]
  split
  · exact absurd rfl hne
  · rfl

end Options

def extensions : List String :=
  [".ts", ".tsx", ".js", ".jsx", ".mts", ".mjs", ".cts", ".cjs"]

def belowText (suffix : List Char) : List Char :=
  '*' :: '*' :: '/' :: '*' :: escaped suffix

section Expansion

open Braced

theorem expandBraces_choice {p : String} (path : List Char)
    (hp : p.toList = escaped path ++ (w ++ '\x7b' :: (List.intercalate [','] words ++ ['\x7d'])))
    (hw : ∀ c ∈ w, IsLiteral c) (hne : w ≠ [])
    (hwords : ∀ w ∈ words, w ≠ [] ∧ ∀ c ∈ w, IsLiteral c) (hmany : 1 < words.length)
    (hfew : words.length ≤ maxTexts)
    (hrange : range? (List.intercalate [','] words ++ ['\x7d']) = none) :
    expandBraces [p] = .ok (words.map fun v => escaped path ++ (w ++ v)).eraseDups := by
  have hbraced : braced p.toList =
      escapedRow path ++ (plainRow w ++ [.choice (words.map plainRow)]) := by
    have hlength := length_le_escaped path
    have hsize : p.toList.length = (escaped path).length +
        (w.length + (List.intercalate [','] words).length + 2) := by
      rw [hp]
      simp only [List.length_append, List.length_cons, List.length_nil]
      omega
    obtain ⟨k, hk⟩ := Nat.exists_eq_add_of_le (show path.length ≤ 2 * p.toList.length + 2 by omega)
    obtain ⟨dollar, start, hrow⟩ := readRow_escaped path k false true
      (w ++ '\x7b' :: (List.intercalate [','] words ++ ['\x7d']))
    rw [← hp, ← hk, readRow_choice hw hne hwords hmany hrange dollar start (by omega)] at hrow
    rw [braced, hrow]
    rfl
  have htexts : textsRow (braced p.toList) = words.map fun v => escaped path ++ (w ++ v) := by
    rw [hbraced, textsRow_escapedRow, textsRow_plainRow, textsRow, textsRow, texts, textsEach_words]
    simp
  have hcount : Braced.countRow (braced p.toList) = words.length := by
    rw [hbraced, countRow_escapedRow, countRow_plainRow, Braced.countRow, Braced.countRow, count,
      countEach_words, Nat.mul_one]
  have hfull : dropEmptyEnd (words.map fun v => escaped path ++ (w ++ v)) =
      words.map fun v => escaped path ++ (w ++ v) := by
    apply dropEmptyEnd_full
    · intro t ht
      obtain ⟨v, -, rfl⟩ := List.mem_map.mp ht
      simp [hne]
    · exact List.ne_nil_of_length_pos (by simpa using Nat.lt_of_succ_lt hmany)
  simp only [expandBraces, List.map_cons, List.map_nil, List.foldr_cons, List.foldr_nil, hcount,
    htexts, hfull, List.flatMap_cons, List.flatMap_nil, List.append_nil]
  rw [if_neg (by omega)]
  rfl

theorem belowText_extension : ∀ e ∈ extensions,
    belowText e.toList = "**/*.".toList ++ e.toList.drop 1 := by
  decide

theorem expandBraces_start {start : String} (path : List Char)
    (hstart : start.toList ++ "**/*.".toList = escaped path ++ w) (hw : ∀ c ∈ w, IsLiteral c)
    (hne : w ≠ []) : ∃ texts, expandBraces (defaultIncluded.map (start ++ ·)) = .ok texts ∧
      ∀ t, t ∈ texts ↔ ∃ e ∈ extensions, t = start.toList ++ belowText e.toList := by
  have htext : (start ++ "**/*.\x7bts,tsx,js,jsx,mts,mjs,cts,cjs\x7d").toList = escaped path ++
      (w ++ '\x7b' :: (List.intercalate [','] (extensions.map fun e => e.toList.drop 1) ++
        ['\x7d'])) := by
    rw [← List.append_assoc, ← hstart, String.toList_append, List.append_assoc]
    rfl
  have hwords : ∀ v ∈ extensions.map fun e => e.toList.drop 1,
      v ≠ [] ∧ v.all (fun c => decide (IsLiteral c)) = true := by
    decide
  have hexpand := expandBraces_choice path htext hw hne
    (fun v hv => (hwords v hv).imp_right isLiteral_of_all) (by decide) (by decide) (by decide)
  refine ⟨_, hexpand, ?_⟩
  intro t
  rw [List.mem_eraseDups, List.mem_map]
  simp only [List.mem_map, exists_exists_and_eq_and]
  refine exists_congr fun e => and_congr_right fun he => ?_
  rw [belowText_extension e he, ← List.append_assoc, ← List.append_assoc, hstart, eq_comm]

/-- The patterns of the usual files below the directory with the given names. -/
def usualBelow (names : List String) : List String :=
  defaultIncluded.map ((if names = [] then "" else escape (joinWith "/" names) ++ "/") ++ ·)

def textBelow (names : List String) (suffix : List Char) : List Char :=
  if names = [] then belowText suffix
  else escaped (joinWith "/" names).toList ++ '/' :: belowText suffix

theorem expandBraces_usual (names : List String) :
    ∃ texts, expandBraces (usualBelow names) = .ok texts ∧
      ∀ t, t ∈ texts ↔ ∃ e ∈ extensions, t = textBelow names e.toList := by
  unfold usualBelow textBelow
  by_cases hne : names = []
  · simp only [if_pos hne]
    exact expandBraces_start [] rfl (isLiteral_of_all (by decide)) (by simp)
  · simp only [if_neg hne]
    have hstart : (escape (joinWith "/" names) ++ "/").toList =
        escaped (joinWith "/" names).toList ++ ['/'] := by
      rw [String.toList_append, toList_escape]
      rfl
    obtain ⟨texts, htexts, hmem⟩ := expandBraces_start (w := "/**/*.".toList)
      (joinWith "/" names).toList (by rw [hstart, List.append_assoc]; rfl) (isLiteral_of_all (by decide))
      (by simp)
    refine ⟨texts, htexts, ?_⟩
    simpa only [hstart, List.append_assoc, List.singleton_append] using hmem

end Expansion

section Segments

theorem splitSegments_plain {before : List Char} (hc : c ≠ '/' ∧ c ≠ '\\' ∧ c ≠ '[') :
    splitSegments (n + 1) before (c :: cs) = splitSegments n (c :: before) cs := by
  obtain ⟨hslash, hback, hbracket⟩ := hc
  rw [splitSegments]
  all_goals simp_all

theorem splitSegments_below (hname : '/' ∉ name) (hn : (belowText name).length < n) :
    splitSegments n [] (belowText name) = [['*', '*'], '*' :: escaped name] := by
  have hlength := length_le_escaped name
  simp only [belowText, List.length_cons] at hn
  obtain ⟨k, rfl⟩ := Nat.exists_eq_add_of_le (show name.length + 4 ≤ n by omega)
  have hfuel : name.length + 4 + k = name.length + k + 1 + 1 + 1 + 1 := by omega
  have hstar : '*' ≠ '/' ∧ '*' ≠ '\\' ∧ '*' ≠ '[' := by decide
  have hend := splitSegments_escaped hname k ['*'] []
  rw [List.append_nil] at hend
  rw [belowText, hfuel, splitSegments_plain hstar, splitSegments_plain hstar, splitSegments,
    splitSegments_plain hstar, hend]
  cases k <;> simp [splitSegments]

theorem ofText_star (name : List Char) : Segment.ofText ('*' :: escaped name) =
    .wild ('*' :: escaped name) := by
  have hstars : '*' :: escaped name ≠ ['*', '*'] := by
    intro h
    have hhead := head?_of_escaped (c := '*') (by rw [(List.cons.inj h).2]; rfl) (by decide)
    obtain ⟨cs, rfl⟩ := List.head?_eq_some_iff.mp hhead
    rw [escaped_special (by decide)] at h
    simp at h
  rw [Segment.ofText, if_neg hstars, if_pos (by simp [magic])]

theorem segments_below {names : List String} (hnames : ∀ n ∈ names, Path.IsName n)
    (hname : '/' ∉ name) :
    segments (textBelow names name) =
      names.map nameSegment ++ [.names, .wild ('*' :: escaped name)] := by
  unfold textBelow
  have hparts : collapse ([['*', '*'], '*' :: escaped name].map Segment.ofText) =
      [.names, .wild ('*' :: escaped name)] := by
    rw [List.map_cons, List.map_cons, ofText_star]
    rfl
  by_cases hne : names = []
  · rw [if_pos hne, hne, segments, splitSegments_below hname (Nat.lt_succ_self _)]
    exact hparts
  · have hrest : ∀ k before, ('/' :: belowText name).length < k →
        splitSegments k before ('/' :: belowText name) =
          before.reverse :: [['*', '*'], '*' :: escaped name] := by
      intro k before hk
      rw [List.length_cons] at hk
      obtain _ | k := k
      · omega
      rw [splitSegments, splitSegments_below hname (by omega)]
    rw [if_neg hne, segments_append hnames hne (by simp) hrest, hparts]

end Segments

section Star

variable {s t : Spot}

theorem reads_ahead {p : Pattern} : (ahead p).Reads s t ↔ (∃ m, p.Reads s m) ∧ t = s := by
  simp [ahead, Pattern.Reads]

theorem reads_star : (Piece.pattern .plain (.star true)).Reads s t ↔
    (s.rest.head? ≠ some '.' ∧ ∃ c, s.rest.head? = some c ∧ c ≠ '/') ∧
      ∃ a r, s.rest = a ++ r ∧ '/' ∉ a ∧ t = s.past a r := by
  have hname : (∃ m, (Pattern.one notSlash).Reads s m) ↔ ∃ c, s.rest.head? = some c ∧ c ≠ '/' := by
    cases hs : s.rest <;> simp [Pattern.Reads, notSlash, hs]
  have hguard : ∀ m, (Dots.plain.guard true).Reads s m ↔ s.rest.head? ≠ some '.' ∧ m = s := by
    intro m
    cases hs : s.rest <;> simp [Dots.guard, Dots.barred, Pattern.Reads, hs, eq_comm]
  have hrun : ∀ m, (Pattern.run notSlash 0).Reads s m ↔
      ∃ a r, s.rest = a ++ r ∧ '/' ∉ a ∧ m = s.past a r := by
    intro m
    have hall : ∀ a : List Char, (∀ c ∈ a, notSlash c = true) ↔ '/' ∉ a := by
      intro a
      simp only [notSlash, bne_iff_ne]
      exact ⟨fun h ha => h _ ha rfl, fun h c hc he => h (he ▸ hc)⟩
    simp only [Pattern.Reads, Nat.zero_le, true_and, hall]
  constructor
  · rintro ⟨m, hahead, m', hg, ht⟩
    obtain ⟨hone, rfl⟩ := reads_ahead.mp hahead
    obtain ⟨hdot, rfl⟩ := (hguard m').mp hg
    exact ⟨⟨hdot, hname.mp hone⟩, (hrun t).mp ht⟩
  · rintro ⟨⟨hdot, hone⟩, ht⟩
    exact ⟨s, reads_ahead.mpr ⟨hname.mpr hone, rfl⟩, s, (hguard s).mpr ⟨hdot, rfl⟩, (hrun t).mpr ht⟩

theorem pieces_star (hname : '/' ∉ name) :
    pieces ('*' :: escaped name) = .star true :: name.map Piece.char := by
  have hhead : (escaped name).head? ≠ some '*' := by
    intro h
    obtain ⟨cs, rfl⟩ := List.head?_eq_some_iff.mp (head?_of_escaped h (by decide))
    rw [escaped_special (by decide)] at h
    simp at h
  have hlength := length_le_escaped name
  obtain ⟨k, hk⟩ := Nat.exists_eq_add_of_le (show name.length ≤ (escaped name).length + 1 by omega)
  have hread := readPieces_escaped hname k [.star true] false []
  rw [List.append_nil] at hread
  have hstep : readPieces ((escaped name).length + 1 + 1) [] true ('*' :: escaped name) =
      readPieces ((escaped name).length + 1) [.star true] false (escaped name) := by
    cases he : escaped name with
    | nil => simp [readPieces]
    | cons c cs =>
      have hc : c ≠ '*' := by simpa [he] using hhead
      rw [readPieces]
      simp [hc]
  rw [pieces, List.length_cons, hstep, hk, hread]
  cases k <;> simp [readPieces]

theorem fits_star (hname : '/' ∉ name) (hne : name ≠ []) (hcs : '/' ∉ cs) :
    fits .plain ('*' :: escaped name) cs = true ↔ cs.head? ≠ some '.' ∧ name <:+ cs := by
  rw [fits, pieces_star hname, Pattern.fits_iff]
  constructor
  · rintro ⟨t, ⟨m, hpieces, b, r, hr, -, hb, rfl⟩, hend⟩
    rw [List.map_cons, Pattern.reads_all_cons] at hpieces
    obtain ⟨m', hstar, hchars⟩ := hpieces
    obtain ⟨⟨hdot, -⟩, a, r', hcs', -, rfl⟩ := reads_star.mp hstar
    obtain ⟨r'', rfl, rfl⟩ := reads_chars.mp hchars
    obtain rfl : r = [] := hend
    rw [Spot.past_rest, List.append_nil] at hr
    subst hr
    refine ⟨hdot, a, ?_⟩
    have hsplit : cs = a ++ (name ++ r'') := hcs'
    cases r'' with
    | nil => simpa using hsplit.symm
    | cons c r'' =>
      obtain rfl : c = '/' := by simpa [isSlash] using hb c (by simp)
      exact absurd (by simp [hsplit]) hcs
  · rintro ⟨hdot, a, rfl⟩
    have ha : '/' ∉ a := fun h => hcs (List.mem_append_left _ h)
    have hfull : ∃ c, (a ++ name).head? = some c ∧ c ≠ '/' := by
      obtain ⟨c, rest, hrest⟩ := List.exists_cons_of_ne_nil
        (List.append_ne_nil_of_right_ne_nil a hne)
      refine ⟨c, by rw [hrest]; rfl, ?_⟩
      rintro rfl
      exact hcs (by rw [hrest]; exact List.mem_cons_self)
    have hstar := (reads_star (s := Spot.first (a ++ name))
      (t := (Spot.first (a ++ name)).past a name)).mpr ⟨⟨hdot, hfull⟩, a, name, rfl, ha, rfl⟩
    refine ⟨(Spot.first (a ++ name)).past (a ++ name) [], ⟨_, ?_, [], [], rfl, Nat.le_refl _,
      by simp, (Spot.past_nil _ _ rfl).symm⟩, rfl⟩
    rw [List.map_cons, Pattern.reads_all_cons]
    exact ⟨_, hstar, reads_chars.mpr ⟨[], by simp, by simp⟩⟩

end Star

end EdgeAudit.Glob
