import CucumberExpression.ParameterTypes

/-!
# The single-pass parser

`CucumberExpressionpressionParser` walks the expression once with a cursor `pos` and appends regex
text to an output buffer `result`. At each position it handles an escape `\c` (`c` one of
`( ) { } /`), a parameter `{name}`, an optional `(text)`, an alternation separator `/`, or a literal
character.

At a `/` the parser calls `collectAlternativesFromHere(pos - 1)` (with `pos - 1` computed in
`size_t`). Its backward scan re-reads the expression from just before the `/` to recover the first
alternative. Its forward scan collects the following ones and moves the cursor past them. When
there are two or more alternatives, `parseAlternatives` cuts the buffer back to just after its last
space and appends the group `(?:alt₁|…|altₙ)`.

Every loop of the source is a function with an explicit iteration bound (`fuel`); the bounds are
the ones the source's loops cannot exceed, and running out is the failure `outOfFuel`.

## Main definitions

* `escapeRegexChar`, `escapeRegexChars`, `parseAlternativeText`.
* `backtrackParen`, `backtrackWord`, `scanForward`, `collectAlternativesFromHere`.
* `parseEscaping`, `parseOpenBrace`, `parseOpenParenthesis`, `parseAlternatives`.
* `parseStep`, `parseLoop`, `parse`.

Source: `src/src/CucumberExpression.cpp`, lines 75–120 (`parse`), 123–224
(`collectAlternativesFromHere`), 226–235 (`escapeRegexChars`), 238–270 (`parseAlternativeText`)
and 272–349 (`parseEscaping`, `parseOpenBrace`, `parseOpenParenthesis`, `parseAlternatives`).
-/

namespace CucumberExpression

/-! ### Escaping regex metacharacters -/

/-- The characters `.^$|()[]{}*+?\` that the parser prefixes with a backslash. -/
def IsRegexSpecial (c : Char) : Prop :=
  c ∈ ['.', '^', '$', '|', '(', ')', '[', ']', '{', '}', '*', '+', '?', '\\']

instance : DecidablePred IsRegexSpecial := fun c => inferInstanceAs (Decidable (c ∈ _))

/-- A letter is not a regex metacharacter. -/
theorem not_special_of_isAlpha {x : Char} (hx : x.isAlpha = true) : ¬ IsRegexSpecial x := by
  intro h
  simp only [IsRegexSpecial, List.mem_cons, List.mem_singleton, List.not_mem_nil, or_false] at h
  revert hx
  rcases h with rfl | rfl | rfl | rfl | rfl | rfl | rfl | rfl | rfl | rfl | rfl | rfl | rfl | rfl <;>
    decide

/-- One character as the parser writes it into the regex. -/
def escapeRegexChar (c : Char) : List Char :=
  if IsRegexSpecial c then ['\\', c] else [c]

theorem escapeRegexChar_ne_nil (c : Char) : escapeRegexChar c ≠ [] := by
  unfold escapeRegexChar
  split <;> simp

/-- `escapeRegexChars(text)`. -/
def escapeRegexChars (text : List Char) : List Char :=
  text.flatMap escapeRegexChar

/-- The characters that `\` escapes in an expression: `( ) { } /`. -/
def IsEscapable (c : Char) : Prop :=
  c = '(' ∨ c = ')' ∨ c = '{' ∨ c = '}' ∨ c = '/'

instance : DecidablePred IsEscapable := fun _ => inferInstanceAs (Decidable (_ ∨ _))

/-- The loop of `parseAlternativeText` from index `i`, with the text produced so far. -/
def parseAlternativeTextFrom (text : List Char) : Nat → Nat → List Char → Except Failure (List Char)
  | 0, i, result => if i < text.length then .error .outOfFuel else .ok result
  | fuel + 1, i, result =>
    if i < text.length then
      (readAt text i).bind fun c =>
        match if c = '(' then find text ')' i else none with
        | some closePos =>
          let optionalContent := substr text (i + 1) (closePos - i - 1)
          if optionalContent = [] then
            .error (.thrown (.base "Empty optional text is not allowed"))
          else
            parseAlternativeTextFrom text fuel (closePos + 1)
              (result ++ "(?:".toList ++ escapeRegexChars optionalContent ++ ")?".toList)
        | none => parseAlternativeTextFrom text fuel (i + 1) (result ++ escapeRegexChar c)
    else .ok result

/-- `parseAlternativeText(text)`: one alternative, each `(…)` in it an optional group and every
other character escaped. -/
def parseAlternativeText (text : List Char) : Except Failure (List Char) :=
  parseAlternativeTextFrom text (text.length + 1) 0 []

/-! ### `collectAlternativesFromHere` -/

/-- The inner loop of the backward scan, entered just left of a `)` with `depth = 1`: prepend
`expression[i]`, `expression[i - 1]`, … while `depth > 0`, breaking after index `0`. Returns the
index where the outer loop resumes. -/
def backtrackParen (expression : List Char) :
    Nat → Nat → Int → List Char → Except Failure (Nat × List Char)
  | 0, _, _, _ => .error .outOfFuel
  | fuel + 1, i, depth, current =>
    if depth > 0 then
      (readAt expression i).bind fun pc =>
      (if pc = ')' then intAdd depth 1 else .ok depth).bind fun depth =>
      (if pc = '(' then intAdd depth (-1) else .ok depth).bind fun depth =>
        if i = 0 then .ok (0, pc :: current)
        else backtrackParen expression fuel (i - 1) depth (pc :: current)
    else .ok (i, current)

/-- The backward scan of `collectAlternativesFromHere` from index `i`: the word that ends there,
read right to left up to a space or a `{`, a `(` met outside a parenthesised span, or index `0`.
A `)` takes in the whole span back to its matching `(`. -/
def backtrackWord (expression : List Char) : Nat → Nat → List Char → Except Failure (List Char)
  | 0, _, _ => .error .outOfFuel
  | fuel + 1, i, current =>
    (readAt expression i).bind fun c =>
      if c = ' ' ∨ c = '{' then .ok current
      else if c = ')' then
        if i = 0 then .ok (c :: current)
        else (backtrackParen expression i (i - 1) 1 (c :: current)).bind fun r =>
          backtrackWord expression fuel r.1 r.2
      else if c = '(' then .ok current
      else if i = 0 then .ok (c :: current)
      else backtrackWord expression fuel (i - 1) (c :: current)

/-- The forward scan of `collectAlternativesFromHere` from `fwdPos`: `/` separates alternatives,
a `(` after some text takes in everything up to the next `)`, and `\/` is skipped. It stops at a
space, a `{`, a `(` with no text before it, or the end. Returns where it stopped, the word in
progress and the alternatives finished so far. The escaped slash goes only into the source's
`allWords`, which nothing reads. -/
def scanForward (expression : List Char) :
    Nat → Nat → List Char → List (List Char) →
      Except Failure (Nat × List Char × List (List Char))
  | 0, fwdPos, current, alternatives =>
    if fwdPos < expression.length then .error .outOfFuel else .ok (fwdPos, current, alternatives)
  | fuel + 1, fwdPos, current, alternatives =>
    if fwdPos < expression.length then
      (readAt expression fwdPos).bind fun c =>
        if c = ' ' ∨ c = '{' then .ok (fwdPos, current, alternatives)
        else if c = '(' ∧ current = [] then .ok (fwdPos, current, alternatives)
        else if c = '(' then
          match find expression ')' fwdPos with
          | some parenEnd =>
            scanForward expression fuel (parenEnd + 1)
              (current ++ substr expression fwdPos (parenEnd + 1 - fwdPos)) alternatives
          | none => scanForward expression fuel (fwdPos + 1) (current ++ [c]) alternatives
        else if c = '\\' ∧ fwdPos + 1 < expression.length ∧ expression[fwdPos + 1]? = some '/' then
          scanForward expression fuel (fwdPos + 2) current alternatives
        else if c = '/' then
          scanForward expression fuel (fwdPos + 1) []
            (if current = [] then alternatives else alternatives ++ [current])
        else scanForward expression fuel (fwdPos + 1) (current ++ [c]) alternatives
    else .ok (fwdPos, current, alternatives)

/-- `collectAlternativesFromHere(startPos)`: the alternatives around the `/` at `startPos + 1`,
and the position where the forward scan stopped, which becomes the parser's `pos`. Positions are
`size_t`: the scan forward starts at `startPos + 1` modulo `2^64`. -/
def collectAlternativesFromHere (expression : List Char) (startPos : Nat) :
    Except Failure (List (List Char) × Nat) :=
  (backtrackWord expression (startPos + 1) startPos []).bind fun first =>
  (scanForward expression (expression.length + 1) ((startPos + 1) % 2 ^ 64) []
      (if first = [] then [] else [first])).bind fun r =>
    .ok (if r.2.1 = [] then r.2.2 else r.2.2 ++ [r.2.1], r.1)

/-! ### The parser's steps -/

/-- The cursor and the output buffer of the parser. -/
structure ParserState where
  pos : Nat
  result : List Char
  deriving DecidableEq, Repr

/-- `parseEscaping`: the escaped character, prefixed with `\` when it is a brace or a
parenthesis; `\/` becomes a bare `/`. -/
def parseEscaping (expression : List Char) (s : ParserState) : Except Failure ParserState :=
  (readAt expression (s.pos + 1)).bind fun next =>
    .ok ⟨s.pos + 2, s.result ++
      if next = '{' ∨ next = '}' ∨ next = '(' ∨ next = ')' then ['\\', next] else [next]⟩

/-- `parseOpenBrace`: the parameter up to the next `}`, as a capturing group around its
registered fragment. -/
def parseOpenBrace (expression : List Char) (s : ParserState) : Except Failure ParserState :=
  match find expression '}' s.pos with
  | none => .error (.thrown (.unclosedParameter
      ("Unclosed parameter type: missing \x27\x7d\x27 at position " ++ toString s.pos)))
  | some closePos =>
    let paramType := substr expression (s.pos + 1) (closePos - s.pos - 1)
    match lookupParameterType paramType with
    | none => .error (.thrown (.unknownParameterType paramType))
    | some fragment => .ok ⟨closePos + 1, s.result ++ '(' :: fragment ++ [')']⟩

/-- `parseOpenParenthesis`: the optional text up to the next `)`, escaped, as `(?:text)?`. -/
def parseOpenParenthesis (expression : List Char) (s : ParserState) :
    Except Failure ParserState :=
  match find expression ')' s.pos with
  | none => .error (.thrown (.unclosedOptional
      ("Unclosed optional text: missing \x27)\x27 at position " ++ toString s.pos)))
  | some closePos =>
    let optionalContent := substr expression (s.pos + 1) (closePos - s.pos - 1)
    if optionalContent = [] then
      .error (.thrown (.base ("Empty optional text is not allowed at position " ++ toString s.pos)))
    else
      .ok ⟨closePos + 1,
        s.result ++ "(?:".toList ++ escapeRegexChars optionalContent ++ ")?".toList⟩

/-- The loop at the head of `parseAlternatives`. Its `wordEnd` is never used; each iteration
reads `result.back()`. -/
def backtrackWordEnd (result : List Char) : Nat → Except Failure Nat
  | 0 => .ok 0
  | wordEnd + 1 =>
    match result.getLast? with
    | none => .error .backOfEmpty
    | some b => if b ≠ ' ' ∧ b ≠ ')' then backtrackWordEnd result wordEnd else .ok (wordEnd + 1)

/-- The buffer `parseAlternatives` keeps: `result.substr(0, lastSpace + 1)` after its last space,
or nothing. -/
def keepThroughLastSpace (result : List Char) : List Char :=
  match rfind result ' ' with
  | some lastSpace => substr result 0 (lastSpace + 1)
  | none => []

theorem keepThroughLastSpace_of_not_mem {result : List Char} (h : ' ' ∉ result) :
    keepThroughLastSpace result = [] := by
  simp [keepThroughLastSpace, rfind_eq_none h]

theorem keepThroughLastSpace_append (u : List Char) {v : List Char} (h : ' ' ∉ v) :
    keepThroughLastSpace (u ++ ' ' :: v) = u ++ [' '] := by
  simp [keepThroughLastSpace, rfind_append_cons u h, substr, List.take_append_eq_append_take]

/-- `parseAlternatives` at an unescaped `/`. With two or more alternatives the buffer is cut back
to its last space and the group `(?:alt₁|…|altₙ)` appended; otherwise only the cursor moves. -/
def parseAlternatives (expression : List Char) (s : ParserState) : Except Failure ParserState :=
  (backtrackWordEnd s.result s.pos).bind fun _ =>
  (collectAlternativesFromHere expression ((s.pos + 2 ^ 64 - 1) % 2 ^ 64)).bind fun r =>
    if r.1.length > 1 then
      (r.1.mapM parseAlternativeText).bind fun rendered =>
        .ok ⟨r.2, keepThroughLastSpace s.result ++ "(?:".toList ++
          List.intercalate ['|'] rendered ++ [')']⟩
    else .ok ⟨r.2, s.result⟩

/-- One iteration of the loop of `parse`. -/
def parseStep (expression : List Char) (s : ParserState) : Except Failure ParserState :=
  (readAt expression s.pos).bind fun current =>
  (if current = '\\' ∧ s.pos + 1 < expression.length then
      (readAt expression (s.pos + 1)).map fun next => decide (IsEscapable next)
    else .ok false).bind fun escape =>
    if escape then parseEscaping expression s
    else if current = '{' then parseOpenBrace expression s
    else if current = '(' then parseOpenParenthesis expression s
    else if current = '/' then parseAlternatives expression s
    else .ok ⟨s.pos + 1, s.result ++ escapeRegexChar current⟩

/-- The loop of `parse`, `while (pos < expression.length())`. -/
def parseLoop (expression : List Char) : Nat → ParserState → Except Failure (List Char)
  | 0, s => if s.pos < expression.length then .error .outOfFuel else .ok s.result
  | fuel + 1, s =>
    if s.pos < expression.length then (parseStep expression s).bind (parseLoop expression fuel)
    else .ok s.result

/-- `CucumberExpressionpressionParser(expression).parse()`: the regex text before anchoring. -/
def parse (expression : List Char) : Except Failure (List Char) :=
  parseLoop expression (expression.length + 1) ⟨0, []⟩

/-! ### What one step can do -/

/-- The dead loop at the head of `parseAlternatives` matters only through `back()` of an empty
buffer, which it reaches exactly when the buffer is empty and `pos > 0`. -/
theorem backtrackWordEnd_bind {β : Type} (result : List Char) (wordEnd : Nat)
    (k : Except Failure β) :
    (backtrackWordEnd result wordEnd).bind (fun _ => k) =
      if result = [] ∧ 0 < wordEnd then .error .backOfEmpty else k := by
  induction wordEnd with
  | zero => simp [backtrackWordEnd]
  | succ w ih =>
    cases h : result.getLast? with
    | none => simp [backtrackWordEnd, h, List.getLast?_eq_none_iff.mp h]
    | some b =>
      have hne : result ≠ [] := by rintro rfl; simp at h
      simp only [backtrackWordEnd, h]
      split_ifs <;> simp_all

/-- The escape test of the main loop: `current == '\\'` and an escapable character follows. -/
theorem escape_flag {expression : List Char} {pos : Nat} {current : Char} {escape : Bool}
    (h : (if current = '\\' ∧ pos + 1 < expression.length then
      (readAt expression (pos + 1)).map fun next => decide (IsEscapable next)
      else .ok false) = .ok escape) :
    escape = true ↔ current = '\\' ∧ ∃ next, expression[pos + 1]? = some next ∧ IsEscapable next := by
  split at h
  · rename_i hc
    rw [readAt_of_lt hc.2] at h
    cases h
    simp [hc.1, List.getElem?_eq_getElem hc.2]
  · rename_i hc
    cases h
    simp only [Bool.false_eq_true, false_iff, not_and, not_exists]
    intro h1 next hn _
    exact hc ⟨h1, (List.getElem?_eq_some_iff.mp hn).1⟩

/-- Everything one iteration of the loop of `parse` can do when it returns normally. -/
inductive StepSpec (expression : List Char) (s : ParserState) : ParserState → Prop
  /-- `\c` with `c` one of `( ) { } /`: a brace or parenthesis keeps its backslash. -/
  | escaping (next : Char) (hcur : expression[s.pos]? = some '\\')
      (hnext : expression[s.pos + 1]? = some next) (hesc : IsEscapable next) :
      StepSpec expression s ⟨s.pos + 2, s.result ++
        if next = '{' ∨ next = '}' ∨ next = '(' ∨ next = ')' then ['\\', next] else [next]⟩
  /-- A registered parameter `{name}`. -/
  | openBrace (closePos : Nat) (fragment : List Char) (hcur : expression[s.pos]? = some '{')
      (hclose : find expression '}' s.pos = some closePos)
      (hlookup : lookupParameterType (substr expression (s.pos + 1) (closePos - s.pos - 1)) =
        some fragment) :
      StepSpec expression s ⟨closePos + 1, s.result ++ '(' :: fragment ++ [')']⟩
  /-- A non-empty optional `(text)`. -/
  | openParenthesis (closePos : Nat) (hcur : expression[s.pos]? = some '(')
      (hclose : find expression ')' s.pos = some closePos)
      (hne : substr expression (s.pos + 1) (closePos - s.pos - 1) ≠ []) :
      StepSpec expression s ⟨closePos + 1, s.result ++ "(?:".toList ++
        escapeRegexChars (substr expression (s.pos + 1) (closePos - s.pos - 1)) ++ ")?".toList⟩
  /-- A `/` that yields at most one alternative: only the cursor moves. -/
  | separator (alternatives : List (List Char)) (fwdPos : Nat)
      (hcur : expression[s.pos]? = some '/')
      (hcollect : collectAlternativesFromHere expression ((s.pos + 2 ^ 64 - 1) % 2 ^ 64) =
        .ok (alternatives, fwdPos))
      (hlen : alternatives.length ≤ 1) :
      StepSpec expression s ⟨fwdPos, s.result⟩
  /-- A `/` with two or more alternatives: the buffer is cut after its last space and the group
  appended. -/
  | alternation (alternatives : List (List Char)) (fwdPos : Nat) (rendered : List (List Char))
      (hcur : expression[s.pos]? = some '/')
      (hcollect : collectAlternativesFromHere expression ((s.pos + 2 ^ 64 - 1) % 2 ^ 64) =
        .ok (alternatives, fwdPos))
      (hlen : 1 < alternatives.length)
      (hrender : alternatives.mapM parseAlternativeText = .ok rendered) :
      StepSpec expression s ⟨fwdPos, keepThroughLastSpace s.result ++ "(?:".toList ++
        List.intercalate ['|'] rendered ++ [')']⟩
  /-- Any other character, escaped if it is a regex metacharacter. -/
  | literal (current : Char) (hcur : expression[s.pos]? = some current)
      (hesc : current = '\\' → ∀ next, expression[s.pos + 1]? = some next → ¬ IsEscapable next)
      (hbrace : current ≠ '{') (hparen : current ≠ '(') (hslash : current ≠ '/') :
      StepSpec expression s ⟨s.pos + 1, s.result ++ escapeRegexChar current⟩

private theorem parseAlternatives_spec {expression : List Char} {s s' : ParserState}
    (hcur : expression[s.pos]? = some '/') (h : parseAlternatives expression s = .ok s') :
    StepSpec expression s s' := by
  unfold parseAlternatives at h
  rw [backtrackWordEnd_bind] at h
  split_ifs at h
  obtain ⟨⟨alternatives, fwdPos⟩, hcollect, h⟩ := bind_eq_ok.mp h
  split_ifs at h with hlen
  · obtain ⟨rendered, hrender, h⟩ := bind_eq_ok.mp h
    cases h
    exact .alternation alternatives fwdPos rendered hcur hcollect hlen hrender
  · cases h
    exact .separator alternatives fwdPos hcur hcollect (Nat.le_of_not_lt hlen)

theorem parseStep_spec {expression : List Char} {s s' : ParserState}
    (h : parseStep expression s = .ok s') : StepSpec expression s s' := by
  unfold parseStep at h
  rw [bind_eq_ok] at h
  obtain ⟨current, hcur, h⟩ := h
  rw [readAt_eq_ok] at hcur
  rw [bind_eq_ok] at h
  obtain ⟨escape, hflag, h⟩ := h
  have hflag := escape_flag hflag
  split_ifs at h with hesc hbrace hparen hslash
  · obtain ⟨hc, next, hnext, hn⟩ := hflag.mp hesc
    simp only [parseEscaping, readAt_eq_ok.mpr hnext, bind_ok, Except.ok.injEq] at h
    subst h
    exact .escaping next (hc ▸ hcur) hnext hn
  · rw [hbrace] at hcur
    unfold parseOpenBrace at h
    split at h
    · cases h
    · rename_i closePos hclose
      dsimp only at h
      split at h
      · cases h
      · rename_i fragment hlookup
        cases h
        exact .openBrace closePos fragment hcur hclose hlookup
  · rw [hparen] at hcur
    unfold parseOpenParenthesis at h
    split at h
    · cases h
    · rename_i closePos hclose
      dsimp only at h
      split_ifs at h with hne
      cases h
      exact .openParenthesis closePos hcur hclose hne
  · rw [hslash] at hcur
    exact parseAlternatives_spec hcur h
  · cases h
    exact .literal current hcur (fun h1 next hn hn' => hesc (hflag.mpr ⟨h1, next, hn, hn'⟩))
      hbrace hparen hslash

/-- An invariant of the parser's state that every step keeps holds of the text `parse` returns. -/
theorem parseLoop_induction {expression : List Char} (P : ParserState → Prop)
    (hstep : ∀ s s', s.pos < expression.length → P s → StepSpec expression s s' → P s') :
    ∀ fuel s r, P s → parseLoop expression fuel s = .ok r → ∃ t, P t ∧ t.result = r := by
  intro fuel
  induction fuel with
  | zero =>
    intro s r hs h
    simp only [parseLoop] at h
    split_ifs at h
    cases h
    exact ⟨s, hs, rfl⟩
  | succ fuel ih =>
    intro s r hs h
    simp only [parseLoop] at h
    split_ifs at h with hlt
    · obtain ⟨s', hs', h⟩ := bind_eq_ok.mp h
      exact ih s' r (hstep s s' hlt hs (parseStep_spec hs')) h
    · cases h
      exact ⟨s, hs, rfl⟩

theorem parse_induction {expression r : List Char} (P : List Char → Prop) (hnil : P [])
    (hstep : ∀ s s', s.pos < expression.length → P s.result → StepSpec expression s s' →
      P s'.result)
    (h : parse expression = .ok r) : P r := by
  obtain ⟨t, ht, rfl⟩ := parseLoop_induction (fun s => P s.result) hstep _ _ _ hnil h
  exact ht

end CucumberExpression
