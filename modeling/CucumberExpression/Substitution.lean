import CucumberExpression.Validator
import CucumberExpression.Parser

/-!
# The parser on an expression with one character renamed

Write a fresh letter `x` where an expression has a literal character `c`, and run the validator
and the parser on both expressions. This file shows that the two runs take the same steps.

The parser compares characters only with `( ) { } / \` and the space, and neither `x` nor `c` is
one of them. So each branch of `parseStep` reads the same in both runs, and the two output
buffers differ only where `x` was written: `c` stands there, escaped when it is a regex
metacharacter (`parseStep_restore`, `parse_restore`). Two tests need more than that:

* the escape test at a backslash, when `c` is the backslash itself;
* the parameter lookup, when `x` stands between a `{` the parser's cursor reaches and the next
  `}`; an escaped `{` is reached too, after an alternation whose forward scan stops on it.

`LiteralSlot` rules both out. The validator counts the same brackets in both runs
(`validate_restore`).

## Main definitions

* `restore`, `restoreRegex`: the substitution, on the expression and on the pattern.
* `cursors`: the indices where the parser's cursor stands.
* `LiteralSlot`: the letter, the character it stands for, and where it may stand.
* `restoreState`: the parser's state in one run, from its state in the other.

## Main results

* `parseStep_restore`, `parse_restore`, `validate_restore`.

Source: `src/src/CucumberExpression.cpp`, lines 75–120 (`parse`) and 272–349 (its steps), and the
validator's loop, lines 358–395.
-/

namespace CucumberExpression

/-- The expression's character where the letter `x` stands: `c` for `x`, any other character
itself. -/
def restore (x c a : Char) : Char :=
  if a = x then c else a

/-- The pattern's text for a character of the pattern: the literal `c`, escaped, for `x`; any
other character itself. -/
def restoreRegex (x c a : Char) : List Char :=
  if a = x then escapeRegexChar c else [a]

/-- A test against a character that is neither `x` nor `c` reads the same after renaming. -/
private theorem restore_eq_iff {x c t : Char} (hx : x ≠ t) (hc : c ≠ t) (a : Char) :
    restore x c a = t ↔ a = t := by
  unfold restore
  split_ifs with h <;> simp_all

/-- A piece of pattern without `x` is left as it is. -/
private theorem flatMap_restoreRegex_of_not_mem {x c : Char} {w : List Char} (h : x ∉ w) :
    w.flatMap (restoreRegex x c) = w := by
  induction w with
  | nil => rfl
  | cons a w ih =>
    simp only [List.mem_cons, not_or] at h
    simp [restoreRegex, Ne.symm h.1, ih h.2]

private theorem map_append_singleton {α β : Type} {f : α → β} (l : List α) (a : α) :
    l.map f ++ [f a] = (l ++ [a]).map f := by simp

/-- A substitution that keeps `|` acts on an alternation group alternative by alternative. -/
private theorem flatMap_intercalate {f : Char → List Char} (hbar : f '|' = ['|']) (ws : List (List Char)) :
    (List.intercalate ['|'] ws).flatMap f = List.intercalate ['|'] (ws.map (List.flatMap · f)) := by
  induction ws with
  | nil => rfl
  | cons w ws ih =>
    cases ws with
    | nil => simp [List.intercalate]
    | cons w' ws =>
      simp only [List.intercalate, List.intersperse_cons₂, List.flatten_cons, List.map_cons] at ih ⊢
      simp [hbar, ih]

/-- A piece of expression without `x` is left as it is. -/
private theorem map_restore_of_not_mem {x c : Char} {w : List Char} (h : x ∉ w) : w.map (restore x c) = w := by
  induction w with
  | nil => rfl
  | cons a w ih =>
    simp only [List.mem_cons, not_or] at h
    simp [restore, Ne.symm h.1, ih h.2]

/-- The substitution leaves no character out: a pattern is empty exactly when its image is. -/
private theorem flatMap_restoreRegex_eq_nil {x c : Char} {r : List Char} :
    r.flatMap (restoreRegex x c) = [] ↔ r = [] := by
  cases r with
  | nil => simp
  | cons a r =>
    have : restoreRegex x c a ≠ [] := by
      unfold restoreRegex escapeRegexChar
      split_ifs <;> simp
    simp [this]

/-- The parser's state in the run on the expression, from its state in the run where `x` stands
for the literal. -/
def restoreState (x c : Char) (s : ParserState) : ParserState :=
  ⟨s.pos, s.result.flatMap (restoreRegex x c)⟩

@[simp] theorem restoreState_pos (x c : Char) (s : ParserState) : (restoreState x c s).pos = s.pos :=
  rfl

@[simp] theorem restoreState_result (x c : Char) (s : ParserState) :
    (restoreState x c s).result = s.result.flatMap (restoreRegex x c) :=
  rfl

/-- The indices where the cursor of `parseLoop` stands, from `s` with `fuel` iterations left:
every index the loop reads at, the one where a step throws included. -/
def cursorsFrom (expression : List Char) : Nat → ParserState → List Nat
  | 0, _ => []
  | fuel + 1, s =>
    if s.pos < expression.length then
      s.pos :: match parseStep expression s with
        | .ok s' => cursorsFrom expression fuel s'
        | .error _ => []
    else []

/-- The indices where the cursor of `parse` stands. -/
def cursors (expression : List Char) : List Nat :=
  cursorsFrom expression (expression.length + 1) ⟨0, []⟩

/-- The letter `x` stands in `ex` where a literal `c` stood: `c` is not a space or one of
`( ) { } /`, it is not the backslash of an escape, and no `x` stands between a `{` where the
parser's cursor stands, in the run on the expression, and the next `}`. -/
structure LiteralSlot (ex : List Char) (x c : Char) : Prop where
  letter : x.isAlpha = true
  not_fragment : ¬ InFragment x
  not_space : c ≠ ' '
  not_escapable : ¬ IsEscapable c
  backslash : c = '\\' → ∀ i : Nat, ex[i]? = some x → ∀ n, ex[i + 1]? = some n → ¬ IsEscapable n
  outside_braces : ∀ i : Nat, ex[i]? = some x → ∀ p : Nat, p < i →
    p ∈ cursors (ex.map (restore x c)) → ex[p]? = some '{' →
      ∃ j : Nat, p < j ∧ j < i ∧ ex[j]? = some '}'

section Slot

variable {ex : List Char} {x c : Char} (hs : LiteralSlot ex x c)
include hs

/-- `x` is a letter, so it is none of the characters the parser tests for. -/
private theorem LiteralSlot.x_ne {t : Char} (ht : t.isAlpha = false) : x ≠ t := by
  rintro rfl
  simp [hs.letter] at ht

/-- The parser's tests read the same in both runs. -/
private theorem LiteralSlot.restore_eq (t : Char) (ht : t = ' ' ∨ IsEscapable t) (a : Char) :
    restore x c a = t ↔ a = t := by
  refine restore_eq_iff (hs.x_ne ?_) ?_ a
  · rcases ht with rfl | rfl | rfl | rfl | rfl | rfl <;> decide
  · rcases ht with rfl | ht
    · exact hs.not_space
    · exact fun h => hs.not_escapable (h ▸ ht)

private theorem LiteralSlot.ne_of_escapable {a : Char} (ha : IsEscapable a) : a ≠ x := by
  rintro rfl
  rcases ha with h | h | h | h | h <;> exact hs.x_ne (by decide) h

private theorem LiteralSlot.escapable_restore (a : Char) : IsEscapable (restore x c a) ↔ IsEscapable a := by
  by_cases ha : a = x
  · rw [restore, if_pos ha]
    exact ⟨fun h => absurd h hs.not_escapable, fun h => absurd ha (hs.ne_of_escapable h)⟩
  · rw [restore, if_neg ha]

/-- Escaping a character of the expression commutes with the substitution. -/
private theorem LiteralSlot.escapeRegexChar_restore (a : Char) :
    escapeRegexChar (restore x c a) = (escapeRegexChar a).flatMap (restoreRegex x c) := by
  by_cases ha : a = x
  · subst ha
    simp [restore, escapeRegexChar, not_special_of_isAlpha hs.letter, restoreRegex]
  · have hb : x ≠ '\\' := hs.x_ne rfl
    rw [show restore x c a = a from if_neg ha]
    unfold escapeRegexChar
    split_ifs <;> simp [restoreRegex, ha, Ne.symm hb]

private theorem LiteralSlot.escapeRegexChars_restore (text : List Char) :
    escapeRegexChars (text.map (restore x c)) = (escapeRegexChars text).flatMap (restoreRegex x c) := by
  simp only [escapeRegexChars, List.flatMap_map, List.flatMap_assoc, hs.escapeRegexChar_restore]

/-- The escaped-slash test of the forward scan reads the same in both runs. -/
private theorem LiteralSlot.escaped_slash_iff {p : Nat} {a : Char} (ha : ex[p]? = some a) :
    (restore x c a = '\\' ∧ p + 1 < ex.length ∧ (ex.map (restore x c))[p + 1]? = some '/') ↔
      (a = '\\' ∧ p + 1 < ex.length ∧ ex[p + 1]? = some '/') := by
  have hslash := hs.restore_eq '/' (by decide)
  simp only [List.getElem?_map, Option.map_eq_some', hslash, exists_eq_right]
  by_cases hax : a = x
  · subst hax
    have hxb : a ≠ '\\' := hs.x_ne rfl
    simp only [restore, if_true, hxb, false_and, iff_false, not_and]
    intro hc _ hn
    exact hs.backslash hc p ha '/' hn (by decide)
  · simp [restore, hax]

/-- The forward scan of an alternation, in both runs. -/
private theorem scanForward_restore : ∀ fuel fwdPos current alternatives,
    scanForward (ex.map (restore x c)) fuel fwdPos (current.map (restore x c))
        (alternatives.map (List.map (restore x c))) =
      (scanForward ex fuel fwdPos current alternatives).map
        fun r => (r.1, r.2.1.map (restore x c), r.2.2.map (List.map (restore x c))) := by
  intro fuel
  induction fuel with
  | zero =>
    intro fwdPos current alternatives
    simp only [scanForward, List.length_map]
    split_ifs <;> rfl
  | succ fuel ih =>
    intro fwdPos current alternatives
    simp only [scanForward, List.length_map]
    by_cases hlt : fwdPos < ex.length
    · simp only [hlt, if_true]
      cases hc : readAt ex fwdPos with
      | error f => simp [readAt_map, hc]
      | ok a =>
        have ha : ex[fwdPos]? = some a := readAt_eq_ok.mp hc
        simp only [readAt_map, hc, except_map_ok, bind_ok, hs.restore_eq ' ' (Or.inl rfl),
          hs.restore_eq '{' (by decide), hs.restore_eq '(' (by decide),
          hs.restore_eq '/' (by decide), List.map_eq_nil_iff, hs.escaped_slash_iff ha,
          find_map (hs.restore_eq ')' (by decide))]
        -- both runs take the same branch: a stop, a span in parentheses, an escaped slash, a
        -- separator or a word character
        simp only [apply_ite (Except.map _), except_map_ok]
        refine ite_congr rfl (fun _ => rfl) fun _ => ite_congr rfl (fun _ => rfl) fun _ => ?_
        refine ite_congr rfl (fun _ => ?_) fun _ => ite_congr rfl (fun _ => ih _ _ _) fun _ => ?_
        · split
          · rw [substr_map, ← List.map_append, ih]
          · rw [map_append_singleton, ih]
        · refine ite_congr rfl (fun _ => ?_) fun _ => by rw [map_append_singleton, ih]
          have h := ih (fwdPos + 1) [] (if current = [] then alternatives else alternatives ++ [current])
          rwa [apply_ite (List.map (List.map (restore x c))), List.map_append, List.map_singleton,
            List.map_nil] at h
    · simp only [hlt, if_false, except_map_ok]

/-- The inner loop of the backward scan, in both runs. -/
private theorem backtrackParen_restore : ∀ fuel i depth current,
    backtrackParen (ex.map (restore x c)) fuel i depth (current.map (restore x c)) =
      (backtrackParen ex fuel i depth current).map fun r => (r.1, r.2.map (restore x c)) := by
  intro fuel
  induction fuel with
  | zero => intro i depth current; rfl
  | succ fuel ih =>
    intro i depth current
    by_cases hpos : depth > 0
    · simp only [backtrackParen, hpos, if_true, readAt_map, except_bind_map, except_map_bind,
        hs.restore_eq ')' (by decide), hs.restore_eq '(' (by decide), ← List.map_cons, ih,
        apply_ite (Except.map _), except_map_ok]
    · simp only [backtrackParen, hpos, if_false, except_map_ok]

/-- The backward scan, in both runs. -/
private theorem backtrackWord_restore : ∀ fuel i current,
    backtrackWord (ex.map (restore x c)) fuel i (current.map (restore x c)) =
      (backtrackWord ex fuel i current).map (List.map (restore x c)) := by
  intro fuel
  induction fuel with
  | zero => intro i current; rfl
  | succ fuel ih =>
    intro i current
    simp only [backtrackWord, readAt_map, except_bind_map, except_map_bind,
      hs.restore_eq ' ' (Or.inl rfl), hs.restore_eq '{' (by decide), hs.restore_eq ')' (by decide),
      hs.restore_eq '(' (by decide), ← List.map_cons, backtrackParen_restore hs, ih,
      apply_ite (Except.map _), except_map_ok]

/-- Both runs collect the same alternatives up to the renaming, and stop at the same place. -/
private theorem collectAlternativesFromHere_restore (startPos : Nat) :
    collectAlternativesFromHere (ex.map (restore x c)) startPos =
      (collectAlternativesFromHere ex startPos).map
        fun r => (r.1.map (List.map (restore x c)), r.2) := by
  have hb := backtrackWord_restore hs (startPos + 1) startPos []
  rw [List.map_nil] at hb
  simp only [collectAlternativesFromHere, hb, except_bind_map, except_map_bind, List.length_map,
    List.map_eq_nil_iff]
  congr 1
  funext first
  have hf := scanForward_restore hs (ex.length + 1) ((startPos + 1) % 2 ^ 64) []
    (if first = [] then [] else [first])
  simp only [List.map_nil, apply_ite (List.map (List.map (restore x c))), List.map_cons] at hf
  rw [hf, except_bind_map]
  congr 1
  funext r
  simp only [except_map_ok, List.map_eq_nil_iff, apply_ite (List.map (List.map (restore x c))),
    List.map_append, List.map_cons, List.map_nil]

private theorem LiteralSlot.flatMap_of_not_alpha (w : List Char) (hw : ∀ a ∈ w, a.isAlpha = false) :
    w.flatMap (restoreRegex x c) = w :=
  flatMap_restoreRegex_of_not_mem fun h => hs.x_ne (hw x h) rfl

private theorem LiteralSlot.literal_restore (result : List Char) (a : Char) :
    result.flatMap (restoreRegex x c) ++ escapeRegexChar (restore x c a) =
      (result ++ escapeRegexChar a).flatMap (restoreRegex x c) := by
  rw [List.flatMap_append, hs.escapeRegexChar_restore]

private theorem LiteralSlot.optional_restore (result text : List Char) :
    result.flatMap (restoreRegex x c) ++ "(?:".toList ++ escapeRegexChars (text.map (restore x c)) ++
        ")?".toList =
      (result ++ "(?:".toList ++ escapeRegexChars text ++ ")?".toList).flatMap (restoreRegex x c) := by
  simp only [List.flatMap_append, hs.escapeRegexChars_restore,
    hs.flatMap_of_not_alpha "(?:".toList (by decide),
    hs.flatMap_of_not_alpha ")?".toList (by decide)]

/-- Rendering an alternative commutes with the substitution. -/
private theorem parseAlternativeTextFrom_restore (text : List Char) : ∀ fuel i result,
    parseAlternativeTextFrom (text.map (restore x c)) fuel i (result.flatMap (restoreRegex x c)) =
      (parseAlternativeTextFrom text fuel i result).map (List.flatMap · (restoreRegex x c)) := by
  intro fuel
  induction fuel with
  | zero =>
    intro i result
    simp only [parseAlternativeTextFrom, List.length_map]
    split_ifs <;> rfl
  | succ fuel ih =>
    intro i result
    simp only [parseAlternativeTextFrom, List.length_map]
    by_cases hlt : i < text.length
    · simp only [hlt, if_true]
      cases hc : readAt text i with
      | error f => simp [readAt_map, hc]
      | ok a =>
        simp only [readAt_map, hc, except_map_ok, bind_ok, hs.restore_eq '(' (by decide),
          find_map (hs.restore_eq ')' (by decide))]
        split
        · simp only [substr_map, List.map_eq_nil_iff]
          split_ifs
          · rfl
          · rw [hs.optional_restore, ih]
        · rw [hs.literal_restore, ih]
    · simp only [hlt, if_false, except_map_ok]

private theorem parseAlternativeText_restore (text : List Char) :
    parseAlternativeText (text.map (restore x c)) =
      (parseAlternativeText text).map (List.flatMap · (restoreRegex x c)) := by
  simpa only [parseAlternativeText, List.length_map, List.flatMap_nil] using
    parseAlternativeTextFrom_restore hs text (text.length + 1) 0 []

private theorem mapM_parseAlternativeText_restore (alternatives : List (List Char)) :
    (alternatives.map (List.map (restore x c))).mapM parseAlternativeText =
      (alternatives.mapM parseAlternativeText).map (List.map (List.flatMap · (restoreRegex x c))) := by
  induction alternatives with
  | nil => rfl
  | cons a alternatives ih =>
    simp only [List.map_cons, List.mapM_cons, parseAlternativeText_restore hs, ih]
    cases parseAlternativeText a <;> cases alternatives.mapM parseAlternativeText <;> rfl

private theorem LiteralSlot.space_mem_restoreRegex (a : Char) : ' ' ∈ restoreRegex x c a ↔ a = ' ' := by
  have hx : x ≠ ' ' := hs.x_ne rfl
  unfold restoreRegex escapeRegexChar
  split_ifs with h1 h2 <;> simp [h1, Ne.symm hs.not_space, hx, eq_comm]

/-- The cut after the last space commutes with the substitution: neither `x` nor the escaped
literal is a space. -/
private theorem LiteralSlot.keepThroughLastSpace_restore (r : List Char) :
    keepThroughLastSpace (r.flatMap (restoreRegex x c)) =
      (keepThroughLastSpace r).flatMap (restoreRegex x c) := by
  have hmem (w : List Char) : ' ' ∈ w.flatMap (restoreRegex x c) ↔ ' ' ∈ w := by
    simp [List.mem_flatMap, hs.space_mem_restoreRegex]
  rcases not_mem_or_split_last ' ' r with h | ⟨u, v, rfl, hv⟩
  · rw [keepThroughLastSpace_of_not_mem h, keepThroughLastSpace_of_not_mem (by rwa [hmem])]
    rfl
  · have hsp : restoreRegex x c ' ' = [' '] := if_neg (Ne.symm (hs.x_ne rfl : x ≠ ' '))
    rw [List.flatMap_append, List.flatMap_cons, hsp, List.singleton_append,
      keepThroughLastSpace_append _ (by rwa [hmem]), keepThroughLastSpace_append _ hv]
    simp [hsp]

/-- No `x` stands in the name of a parameter the parser opens. -/
private theorem LiteralSlot.not_mem_param {pos closePos : Nat} (hpos : pos ∈ cursors (ex.map (restore x c)))
    (hcur : ex[pos]? = some '{') (hclose : find ex '}' pos = some closePos) :
    x ∉ substr ex (pos + 1) (closePos - pos - 1) := by
  rw [mem_substr]
  rintro ⟨m, hm1, hm2, hm⟩
  obtain ⟨j, hj1, hj2, hj⟩ := hs.outside_braces m hm pos (by omega) hpos hcur
  exact (find_spec hclose).2.2 j (by omega) (by omega) hj

/-- A parameter reads the same name in both runs and writes the same group. -/
private theorem parseOpenBrace_restore {s : ParserState} (hpos : s.pos ∈ cursors (ex.map (restore x c)))
    (hcur : ex[s.pos]? = some '{') :
    parseOpenBrace (ex.map (restore x c)) (restoreState x c s) =
      (parseOpenBrace ex s).map (restoreState x c) := by
  simp only [parseOpenBrace, restoreState, find_map (hs.restore_eq '}' (by decide))]
  split
  · rfl
  · rename_i closePos hclose
    have hparam := hs.not_mem_param hpos hcur hclose
    simp only [substr_map, map_restore_of_not_mem hparam]
    split
    · rfl
    · rename_i fragment hlookup
      have hfrag : x ∉ '(' :: fragment ++ [')'] := by
        simp [not_inFragment_of_mem hlookup hs.not_fragment, (hs.x_ne rfl : x ≠ '('),
          (hs.x_ne rfl : x ≠ ')')]
      simp only [except_map_ok, restoreState, List.append_assoc, List.flatMap_append,
        flatMap_restoreRegex_of_not_mem hfrag]

/-- An optional, in both runs. -/
private theorem parseOpenParenthesis_restore (s : ParserState) :
    parseOpenParenthesis (ex.map (restore x c)) (restoreState x c s) =
      (parseOpenParenthesis ex s).map (restoreState x c) := by
  simp only [parseOpenParenthesis, restoreState, find_map (hs.restore_eq ')' (by decide))]
  split
  · rfl
  · simp only [substr_map, List.map_eq_nil_iff]
    split_ifs
    · rfl
    · simp only [except_map_ok, restoreState, hs.optional_restore]

/-- An escape, in both runs: the escaped character is not `x`. -/
private theorem parseEscaping_restore {s : ParserState} {next : Char}
    (hnext : readAt ex (s.pos + 1) = .ok next) (hesc : IsEscapable next) :
    parseEscaping (ex.map (restore x c)) (restoreState x c s) =
      (parseEscaping ex s).map (restoreState x c) := by
  have hx : next ≠ x := hs.ne_of_escapable hesc
  have hb : '\\' ≠ x := Ne.symm (hs.x_ne rfl)
  simp only [parseEscaping, restoreState, readAt_map, hnext, except_map_ok, bind_ok, restore,
    if_neg hx, List.flatMap_append]
  split_ifs <;> simp [restoreRegex, hx, hb]

/-- An alternation, in both runs. -/
private theorem parseAlternatives_restore (s : ParserState) :
    parseAlternatives (ex.map (restore x c)) (restoreState x c s) =
      (parseAlternatives ex s).map (restoreState x c) := by
  simp only [parseAlternatives, restoreState, backtrackWordEnd_bind, flatMap_restoreRegex_eq_nil,
    collectAlternativesFromHere_restore hs]
  split_ifs
  · rfl
  · rw [except_bind_map, except_map_bind]
    congr 1
    funext r
    simp only [List.length_map, mapM_parseAlternativeText_restore hs, except_bind_map,
      apply_ite (Except.map (restoreState x c)), except_map_bind, except_map_ok]
    split_ifs
    · congr 1
      funext rendered
      simp only [restoreState, List.flatMap_append, hs.keepThroughLastSpace_restore,
        flatMap_intercalate (show restoreRegex x c '|' = ['|'] from if_neg (Ne.symm (hs.x_ne rfl : x ≠ '|'))),
        hs.flatMap_of_not_alpha "(?:".toList (by decide),
        hs.flatMap_of_not_alpha [')'] (by decide)]
    · rfl

/-- The escape test of the main loop reads the same in both runs: where `x` stands for a backslash,
no escapable character follows it. -/
private theorem LiteralSlot.escape_restore {pos : Nat} {a : Char} (ha : ex[pos]? = some a) :
    (if restore x c a = '\\' ∧ pos + 1 < ex.length then
        (readAt (ex.map (restore x c)) (pos + 1)).map fun next => decide (IsEscapable next)
      else .ok false) =
    (if a = '\\' ∧ pos + 1 < ex.length then
        (readAt ex (pos + 1)).map fun next => decide (IsEscapable next)
      else .ok false) := by
  by_cases hax : a = x
  · have hb : ¬ (a = '\\' ∧ pos + 1 < ex.length) := fun h => (hs.x_ne rfl : x ≠ '\\') (hax ▸ h.1)
    rw [show restore x c a = c from if_pos hax, if_neg hb]
    split_ifs with h
    · rw [readAt_map, readAt_of_lt h.2]
      simp [hs.escapable_restore, hs.backslash h.1 pos (hax ▸ ha) _ (List.getElem?_eq_getElem h.2)]
    · rfl
  · rw [show restore x c a = a from if_neg hax, readAt_map]
    cases readAt ex (pos + 1) <;> simp [hs.escapable_restore]

/-- One step of the parser on the expression, at an index where its cursor stands, is the step
on `ex`, with the literal put back. -/
theorem parseStep_restore (s : ParserState) (hpos : s.pos ∈ cursors (ex.map (restore x c))) :
    parseStep (ex.map (restore x c)) (restoreState x c s) =
      (parseStep ex s).map (restoreState x c) := by
  unfold parseStep
  rw [restoreState_pos, readAt_map]
  cases hc : readAt ex s.pos with
  | error f => rfl
  | ok a =>
    have ha := readAt_eq_ok.mp hc
    simp only [except_map_ok, bind_ok, List.length_map, hs.escape_restore ha]
    cases hflag : (if a = '\\' ∧ s.pos + 1 < ex.length then
        (readAt ex (s.pos + 1)).map fun next => decide (IsEscapable next) else .ok false) with
    | error f => rfl
    | ok escape =>
      simp only [bind_ok]
      cases escape
      · simp only [Bool.false_eq_true, if_false, hs.restore_eq '{' (by decide),
          hs.restore_eq '(' (by decide), hs.restore_eq '/' (by decide)]
        split_ifs with h1 h2 h3
        · exact parseOpenBrace_restore hs hpos (h1 ▸ ha)
        · exact parseOpenParenthesis_restore hs s
        · exact parseAlternatives_restore hs s
        · simp only [except_map_ok, restoreState, hs.literal_restore]
      · obtain ⟨-, next, hnext, hn⟩ := (escape_flag hflag).mp rfl
        exact parseEscaping_restore hs (readAt_eq_ok.mpr hnext) hn

/-- The loop of `parse`, in both runs, from a state of the run on the expression. -/
private theorem parseLoop_restore : ∀ fuel s,
    cursorsFrom (ex.map (restore x c)) fuel (restoreState x c s) ⊆ cursors (ex.map (restore x c)) →
    parseLoop (ex.map (restore x c)) fuel (restoreState x c s) =
      (parseLoop ex fuel s).map (List.flatMap · (restoreRegex x c)) := by
  intro fuel
  induction fuel with
  | zero =>
    intro s _
    simp only [parseLoop, List.length_map, restoreState_pos, restoreState_result]
    split_ifs <;> rfl
  | succ fuel ih =>
    intro s hsub
    simp only [parseLoop, List.length_map, restoreState_pos, restoreState_result]
    split_ifs with hlt
    · have hrun : cursorsFrom (ex.map (restore x c)) (fuel + 1) (restoreState x c s) =
          s.pos :: match (parseStep ex s).map (restoreState x c) with
            | .ok s' => cursorsFrom (ex.map (restore x c)) fuel s'
            | .error _ => [] := by
        rw [cursorsFrom, restoreState_pos, List.length_map, if_pos hlt,
          parseStep_restore hs s (hsub (by simp [cursorsFrom, hlt]))]
      rw [parseStep_restore hs s (hsub (by simp [hrun])), except_bind_map, except_map_bind]
      cases hstep : parseStep ex s with
      | error f => rfl
      | ok s' =>
        rw [hstep, except_map_ok] at hrun
        exact ih s' fun p hp => hsub (by rw [hrun]; exact List.mem_cons_of_mem _ hp)
    · rfl

/-- The parser's output on the expression is its output on `ex`, with the literal, escaped, where
`x` stands. -/
theorem parse_restore :
    parse (ex.map (restore x c)) = (parse ex).map (List.flatMap · (restoreRegex x c)) := by
  simpa only [parse, List.length_map] using parseLoop_restore hs (ex.length + 1) ⟨0, []⟩
    fun p hp => by rwa [cursors, List.length_map]

/-- The validator's brackets read the same in both runs: where `x` stands for a backslash, the
character after it is not a bracket. -/
private theorem unescapedBrackets_restore : ∀ (l : List Char) (prev : Option Char),
    (c = '\\' → ∀ i : Nat, l[i]? = some x → ∀ n, l[i + 1]? = some n → ¬ IsEscapable n) →
    (c = '\\' → prev = some x → ∀ n, l[0]? = some n → ¬ IsEscapable n) →
    unescapedBrackets (prev.map (restore x c)) (l.map (restore x c)) = unescapedBrackets prev l
  | [], _, _, _ => rfl
  | a :: l, prev, hl, hprev => by
    have ih := unescapedBrackets_restore l (some a)
      (fun hc i hi n hn => hl hc (i + 1) (by simpa using hi) n (by simpa using hn))
      (fun hc ha n hn => hl hc 0 (by simpa using ha) n (by simpa using hn))
    rw [Option.map_some'] at ih
    rw [List.map_cons, unescapedBrackets, unescapedBrackets, ih]
    congr 1
    by_cases hb : IsBracket a
    · have hesc : IsEscapable a := by rcases hb with h | h | h | h <;> simp [IsEscapable, h]
      have hτ : restore x c a = a := if_neg (hs.ne_of_escapable hesc)
      have hprev' : prev.map (restore x c) = some '\\' ↔ prev = some '\\' := by
        rcases prev with _ | p
        · simp
        · by_cases hp : p = x
          · subst hp
            have hpb : p ≠ '\\' := hs.x_ne rfl
            simp only [Option.map_some', restore, if_true, Option.some.injEq, hpb, iff_false]
            exact fun hc => hprev hc rfl a (by simp) hesc
          · simp [restore, hp]
      simp only [hτ, ne_eq, hprev', hb]
    · have hb' : ¬ IsBracket (restore x c a) := by
        simpa only [IsBracket, hs.restore_eq '{' (by decide), hs.restore_eq '}' (by decide),
          hs.restore_eq '(' (by decide), hs.restore_eq ')' (by decide)] using hb
      simp only [hb, hb', and_false, if_false]

/-- The validator accepts or rejects both expressions alike. -/
theorem validate_restore : validate (ex.map (restore x c)) = validate ex := by
  have h := unescapedBrackets_restore hs ex none hs.backslash (fun _ h => by cases h)
  simp only [validate, validateFrom_eq_bracketLoop]
  rw [← h]
  rfl

end Slot

end CucumberExpression
