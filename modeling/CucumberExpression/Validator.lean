import CucumberExpression.Basic
import Mathlib.Data.List.Infix

/-!
# The structural validator

`cukex::transform` scans the expression once before parsing it: a character immediately
preceded by a backslash is skipped, and every other brace or parenthesis moves one of two `int`
counters. A second opening brace, a closing brace or parenthesis below zero raise at once; a
counter left nonzero raises at the end, the brace counter first.

Let `B` be the braces and parentheses of the expression that are not immediately preceded by a
backslash. The validator raises exactly when some prefix of `B` has a brace difference outside
`{0, 1}` or a negative parenthesis difference, or all of `B` has a nonzero difference; the
shortest offending prefix decides the exception (`validate_iff_prefixCondition`). This needs the
parenthesis counter to stay inside `int`: with `2^31` unmatched opening parentheses it overflows
(`validate_paren_overflow`).

## Main definitions

* `validateChar`, `validateFrom`, `validate`: the loop of `cukex::transform` and its two final
  checks.
* `unescapedBrackets`, `braceDiff`, `parenDiff`, `PrefixCondition`, `violation`.

## Main results

* `validateFrom_eq_bracketLoop`: the loop only sees `B`.
* `bracketLoop_diffs`: from a prefix of `B` that satisfies the prefix condition, the counters are
  its two differences, until the first offending character.
* `validate_iff_prefixCondition`, `validate_paren_overflow`.

Source: `src/src/CucumberExpression.cpp`, lines 358–395, in `cukex::transform`.
-/

namespace CucumberExpression

/-- The two counters of the validation loop. -/
structure Depths where
  braceDepth : Int
  parenDepth : Int
  deriving DecidableEq, Repr

/-- One iteration of the validation loop at a character not preceded by a backslash. -/
def validateChar (c : Char) (d : Depths) : Except Failure Depths :=
  if c = '{' then
    (intAdd d.braceDepth 1).bind fun b =>
      if b > 1 then .error (.thrown (.base "Nested parameter types are not allowed"))
      else .ok { d with braceDepth := b }
  else if c = '}' then
    (intAdd d.braceDepth (-1)).bind fun b =>
      if b < 0 then .error (.thrown .unmatchedClosingBrace) else .ok { d with braceDepth := b }
  else if c = '(' then
    (intAdd d.parenDepth 1).bind fun p => .ok { d with parenDepth := p }
  else if c = ')' then
    (intAdd d.parenDepth (-1)).bind fun p =>
      if p < 0 then .error (.thrown .unmatchedClosingParenthesis) else .ok { d with parenDepth := p }
  else .ok d

/-- The validation loop from some index on; `prev` is the character before it, `none` at the
start of the expression. -/
def validateFrom : Option Char → List Char → Depths → Except Failure Depths
  | _, [], d => .ok d
  | prev, c :: cs, d =>
    (if prev = some '\\' then .ok d else validateChar c d).bind (validateFrom (some c) cs)

/-- The checks `cukex::transform` makes between the emptiness check and the parser. -/
def validate (expression : List Char) : Except Failure Unit :=
  (validateFrom none expression ⟨0, 0⟩).bind fun d =>
    if d.braceDepth ≠ 0 then
      .error (.thrown (.unclosedParameter "Unclosed parameter type: unmatched braces"))
    else if d.parenDepth ≠ 0 then
      .error (.thrown (.unclosedOptional "Unclosed optional text: unmatched parentheses"))
    else .ok ()

/-! ### The brackets the loop sees -/

/-- A brace or a parenthesis. -/
def IsBracket (c : Char) : Prop :=
  c = '{' ∨ c = '}' ∨ c = '(' ∨ c = ')'

instance (c : Char) : Decidable (IsBracket c) := inferInstanceAs (Decidable (_ ∨ _))

/-- `B`: the braces and parentheses not immediately preceded by a backslash; `prev` is the
character before the list. -/
def unescapedBrackets : Option Char → List Char → List Char
  | _, [] => []
  | prev, c :: cs =>
    (if prev ≠ some '\\' ∧ IsBracket c then [c] else []) ++ unescapedBrackets (some c) cs

/-- `#'{' - #'}'`. -/
def braceDiff (l : List Char) : Int := l.count '{' - l.count '}'

/-- `#'(' - #')'`. -/
def parenDiff (l : List Char) : Int := l.count '(' - l.count ')'

/-- The condition on one prefix. -/
def PrefixOk (p : List Char) : Prop :=
  (braceDiff p = 0 ∨ braceDiff p = 1) ∧ 0 ≤ parenDiff p

instance (p : List Char) : Decidable (PrefixOk p) := inferInstanceAs (Decidable (_ ∧ _))

/-- Every prefix of `B` has brace difference `0` or `1` and a nonnegative parenthesis
difference. -/
def PrefixCondition (B : List Char) : Prop :=
  ∀ p, p <+: B → PrefixOk p

/-- The exception for the bracket that first breaks the prefix condition. -/
def violation (c : Char) : CucumberExpressionpressionException :=
  if c = '{' then .base "Nested parameter types are not allowed"
  else if c = '}' then .unmatchedClosingBrace else .unmatchedClosingParenthesis

/-- The two differences of a prefix, as counters. -/
def diffs (a : List Char) : Depths := ⟨braceDiff a, parenDiff a⟩

/-- The validation loop run on `B` alone. -/
def bracketLoop : List Char → Depths → Except Failure Depths
  | [], d => .ok d
  | c :: B, d => (validateChar c d).bind (bracketLoop B)

theorem validateChar_of_not_bracket {c : Char} (hc : ¬ IsBracket c) (d : Depths) :
    validateChar c d = .ok d := by
  simp only [IsBracket, not_or] at hc
  simp [validateChar, hc]

theorem validateFrom_eq_bracketLoop (prev : Option Char) (e : List Char) (d : Depths) :
    validateFrom prev e d = bracketLoop (unescapedBrackets prev e) d := by
  induction e generalizing prev d with
  | nil => rfl
  | cons c cs ih =>
    simp only [validateFrom, unescapedBrackets]
    by_cases hp : prev = some '\\'
    · simp [hp, ih]
    · by_cases hc : IsBracket c
      · have hrest : validateFrom (some c) cs = bracketLoop (unescapedBrackets (some c) cs) :=
          funext (ih _)
        simp [hp, hc, bracketLoop, hrest]
      · simp [hp, hc, validateChar_of_not_bracket hc, ih]

private theorem prefixCondition_nil : PrefixCondition [] := by
  intro p hp
  simp [List.prefix_nil.mp hp, PrefixOk, braceDiff, parenDiff]

private theorem prefixCondition_concat {a : List Char} {c : Char} :
    PrefixCondition (a ++ [c]) ↔ PrefixCondition a ∧ PrefixOk (a ++ [c]) := by
  simp only [PrefixCondition, List.prefix_concat_iff]
  constructor
  · intro h
    exact ⟨fun p hp => h p (.inr hp), h _ (.inl rfl)⟩
  · rintro ⟨h, hc⟩ p (rfl | hp)
    exacts [hc, h p hp]

@[simp] theorem braceDiff_append (a b : List Char) :
    braceDiff (a ++ b) = braceDiff a + braceDiff b := by
  simp only [braceDiff, List.count_append]; omega

@[simp] theorem parenDiff_append (a b : List Char) :
    parenDiff (a ++ b) = parenDiff a + parenDiff b := by
  simp only [parenDiff, List.count_append]; omega

/-- One step of the loop on a bracket: the counters move to the next prefix's differences, or the
loop raises that bracket's exception. -/
private theorem validateChar_diffs {a : List Char} {c : Char} (hc : IsBracket c) (ha : PrefixOk a)
    (hfit : parenDiff (a ++ [c]) < 2 ^ 31) :
    validateChar c (diffs a) =
      if PrefixOk (a ++ [c]) then .ok (diffs (a ++ [c])) else .error (.thrown (violation c)) := by
  obtain ⟨hb, hp⟩ := ha
  have lits : braceDiff ['{'] = 1 ∧ braceDiff ['}'] = -1 ∧ braceDiff ['('] = 0 ∧ braceDiff [')'] = 0 ∧
      parenDiff ['{'] = 0 ∧ parenDiff ['}'] = 0 ∧ parenDiff ['('] = 1 ∧ parenDiff [')'] = -1 := by
    decide
  -- each bracket's counter moves by one inside `int`; then both sides test the same prefix
  rcases hc with rfl | rfl | rfl | rfl <;>
  · simp only [parenDiff_append, lits] at hfit
    simp only [validateChar, diffs, PrefixOk, braceDiff_append, parenDiff_append, lits, violation,
      Char.reduceEq, if_true, if_false, add_zero]
    rw [intAdd_of_range]
    · simp only [bind_ok]
      split_ifs <;> first | rfl | omega
    all_goals omega

instance (B : List Char) : Decidable (PrefixCondition B) :=
  decidable_of_iff (∀ p ∈ B.inits, PrefixOk p) (by simp [PrefixCondition, List.mem_inits _ B])

private theorem mem_unescapedBrackets {prev : Option Char} {e : List Char} {c : Char}
    (h : c ∈ unescapedBrackets prev e) : IsBracket c := by
  induction e generalizing prev with
  | nil => simp [unescapedBrackets] at h
  | cons d e ih =>
    simp only [unescapedBrackets, List.mem_append] at h
    rcases h with h | h
    · split_ifs at h with hd
      · exact (List.mem_singleton.mp h) ▸ hd.2
      · simp at h
    · exact ih h

private theorem length_unescapedBrackets_le (prev : Option Char) (e : List Char) :
    (unescapedBrackets prev e).length ≤ e.length := by
  induction e generalizing prev with
  | nil => simp [unescapedBrackets]
  | cons d e ih =>
    simp only [unescapedBrackets, List.length_append, List.length_cons]
    have := ih (some d)
    split_ifs <;> simp <;> omega

/-- Below `2^31` characters the parenthesis counter cannot overflow. -/
private theorem parenDiff_lt_of_length {e : List Char} (he : e.length < 2 ^ 31) :
    ∀ p, p <+: unescapedBrackets none e → parenDiff p < 2 ^ 31 := by
  intro p hp
  have h1 := hp.length_le
  have h2 := length_unescapedBrackets_le none e
  have h3 := List.count_le_length '(' p
  simp only [parenDiff]
  omega

private theorem exists_boundary {P : Nat → Prop} (h0 : P 0) (m : Nat) (hm : ¬ P m) :
    ∃ n, P n ∧ ¬ P (n + 1) := by
  induction m with
  | zero => exact absurd h0 hm
  | succ m ih => exact (em (P m)).elim (fun hP => ⟨m, hP, hm⟩) ih

/-- The loop on `B` from the counters of a prefix `a` that satisfies the prefix condition: it ends
with the differences of `a ++ B` when `a ++ B` satisfies the condition, and otherwise raises the
exception of the first bracket that breaks it. -/
theorem bracketLoop_diffs (B : List Char) {a : List Char} (hB : ∀ c ∈ B, IsBracket c)
    (ha : PrefixCondition a) (hfit : ∀ p, p <+: a ++ B → parenDiff p < 2 ^ 31) :
    (PrefixCondition (a ++ B) → bracketLoop B (diffs a) = .ok (diffs (a ++ B))) ∧
    (∀ n, PrefixCondition (a ++ B.take n) → ¬ PrefixCondition (a ++ B.take (n + 1)) →
      ∃ c, B[n]? = some c ∧ bracketLoop B (diffs a) = .error (.thrown (violation c))) := by
  induction B generalizing a with
  | nil => simp [bracketLoop]
  | cons c B ih =>
    have hstep := validateChar_diffs (hB c (.head _)) (ha a (List.prefix_refl a))
      (hfit _ ⟨B, by simp⟩)
    by_cases hok : PrefixOk (a ++ [c])
    · have ha' : PrefixCondition (a ++ [c]) := prefixCondition_concat.mpr ⟨ha, hok⟩
      obtain ⟨ih1, ih2⟩ := ih (fun d hd => hB d (.tail _ hd)) ha' (by simpa using hfit)
      simp only [bracketLoop, hstep, if_pos hok, bind_ok]
      refine ⟨fun h => by simpa using ih1 (by simpa using h), fun n h1 h2 => ?_⟩
      cases n with
      | zero => exact absurd ha' (by simpa using h2)
      | succ n =>
        obtain ⟨d, hd, h⟩ := ih2 n (by simpa using h1) (by simpa using h2)
        exact ⟨d, by simpa using hd, h⟩
    · simp only [bracketLoop, hstep, if_neg hok, bind_error]
      refine ⟨fun h => absurd (h _ ⟨B, by simp⟩) hok, fun n h1 _ => ?_⟩
      cases n with
      | zero => exact ⟨c, by simp, rfl⟩
      | succ n => exact absurd (h1 _ ⟨B.take n, by simp⟩) hok

/-- The validator raises exactly when `B` breaks the prefix condition or ends with a nonzero
difference. The shortest offending prefix decides the exception: a second opening brace,
a closing brace or a closing parenthesis too many. Otherwise a nonzero brace difference
is reported before a nonzero parenthesis difference. The hypothesis keeps the parenthesis
counter inside `int`; it holds for every expression shorter than `2^31`
(`parenDiff_lt_of_length`). -/
theorem validate_iff_prefixCondition (e : List Char)
    (hfit : ∀ p, p <+: unescapedBrackets none e → parenDiff p < 2 ^ 31) :
    let B := unescapedBrackets none e
    (validate e = .ok () ↔ PrefixCondition B ∧ braceDiff B = 0 ∧ parenDiff B = 0) ∧
    (∀ n, PrefixCondition (B.take n) → ¬ PrefixCondition (B.take (n + 1)) →
      ∃ c, B[n]? = some c ∧ validate e = .error (.thrown (violation c))) ∧
    (PrefixCondition B → braceDiff B ≠ 0 → validate e =
      .error (.thrown (.unclosedParameter "Unclosed parameter type: unmatched braces"))) ∧
    (PrefixCondition B → braceDiff B = 0 → parenDiff B ≠ 0 → validate e =
      .error (.thrown (.unclosedOptional "Unclosed optional text: unmatched parentheses"))) := by
  intro B
  have hloop : validateFrom none e ⟨0, 0⟩ = bracketLoop B (diffs []) :=
    validateFrom_eq_bracketLoop none e _
  obtain ⟨hok, hbad⟩ := bracketLoop_diffs B (a := []) (fun _ => mem_unescapedBrackets)
    prefixCondition_nil (by simpa using hfit)
  simp only [List.nil_append] at hok hbad
  have hval : PrefixCondition B → validate e =
      if braceDiff B ≠ 0 then
        .error (.thrown (.unclosedParameter "Unclosed parameter type: unmatched braces"))
      else if parenDiff B ≠ 0 then
        .error (.thrown (.unclosedOptional "Unclosed optional text: unmatched parentheses"))
      else .ok () := fun h => by
    rw [validate, hloop, hok h]
    rfl
  refine ⟨⟨fun h => ?_, fun ⟨h, hb, hp⟩ => by simp [hval h, hb, hp]⟩,
    fun n h1 h2 => ?_, fun h hb => by simp [hval h, hb], fun h hb hp => by simp [hval h, hb, hp]⟩
  · by_cases hB : PrefixCondition B
    · refine ⟨hB, ?_⟩
      rw [hval hB] at h
      split_ifs at h with hb hp
      exact ⟨not_not.mp hb, not_not.mp hp⟩
    · obtain ⟨n, h1, h2⟩ := exists_boundary (P := fun n => PrefixCondition (B.take n))
        (by simpa using prefixCondition_nil) B.length (by simpa using hB)
      obtain ⟨c, -, hc⟩ := hbad n h1 h2
      simp [validate, hloop, hc] at h
  · obtain ⟨c, hc, h⟩ := hbad n h1 h2
    exact ⟨c, hc, by simp [validate, hloop, h]⟩

theorem validate_iff_prefixCondition_unclosed :
    validate "(x".toList =
      .error (.thrown (.unclosedOptional "Unclosed optional text: unmatched parentheses")) :=
  (validate_iff_prefixCondition _ (parenDiff_lt_of_length (by decide))).2.2.2 (by decide)
    (by decide) (by decide)

/-! ### The parenthesis counter is an `int` -/

private theorem unescapedBrackets_replicate (n : Nat) {prev : Option Char} (hp : prev ≠ some '\\') :
    unescapedBrackets prev (List.replicate n '(') = List.replicate n '(' := by
  induction n generalizing prev with
  | zero => rfl
  | succ n ih =>
    simp only [List.replicate_succ, unescapedBrackets, @ih (some '(') (by simp)]
    simp [hp, IsBracket]

private theorem validateChar_open_paren (d : Depths) :
    validateChar '(' d = (intAdd d.parenDepth 1).bind fun p => .ok { d with parenDepth := p } := by
  simp [validateChar]

private theorem bracketLoop_replicate (n : Nat) (b : Int) {p : Int} (hp : 0 ≤ p) (hp' : p < 2 ^ 31) :
    bracketLoop (List.replicate n '(') ⟨b, p⟩ =
      if p + n < 2 ^ 31 then .ok ⟨b, p + n⟩ else .error .intOverflow := by
  induction n generalizing p with
  | zero =>
    have h : p + ((0 : Nat) : Int) < 2 ^ 31 := by omega
    rw [if_pos h]
    simp [bracketLoop]
  | succ n ih =>
    simp only [List.replicate_succ, bracketLoop, validateChar_open_paren]
    by_cases h : p + 1 < 2 ^ 31
    · rw [intAdd_of_range (by omega) h, bind_ok, bind_ok, ih (by omega) h,
        show p + 1 + (n : Int) = p + ((n + 1 : Nat) : Int) by push_cast; omega]
    · have h1 : intAdd p 1 = .error .intOverflow := by simp only [intAdd]; rw [if_neg (by omega)]
      have h2 : ¬ (p + ((n + 1 : Nat) : Int) < 2 ^ 31) := by push_cast; omega
      rw [h1, bind_error, bind_error, if_neg h2]

private theorem prefixCondition_replicate (n : Nat) : PrefixCondition (List.replicate n '(') := by
  intro p hp
  have hall : ∀ b ∈ p, b = '(' := fun b hb => List.eq_of_mem_replicate (hp.subset hb)
  have h0 : ∀ c, c ≠ '(' → p.count c = 0 := fun c hc =>
    List.count_eq_zero_of_not_mem fun hm => hc (hall c hm)
  have h1 : braceDiff p = 0 := by simp [braceDiff, h0]
  have h2 : parenDiff p = p.count '(' := by simp [parenDiff, h0]
  exact ⟨.inl h1, by omega⟩

private theorem diffs_replicate (n : Nat) :
    braceDiff (List.replicate n '(') = 0 ∧ parenDiff (List.replicate n '(') = n := by
  have h0 : ∀ c, c ≠ '(' → (List.replicate n '(').count c = 0 := fun c hc =>
    List.count_eq_zero_of_not_mem fun h => hc (List.eq_of_mem_replicate h)
  simp only [braceDiff, parenDiff, List.count_replicate_self, h0 '{' (by decide),
    h0 '}' (by decide), h0 ')' (by decide)]
  omega

/-- With `2^31` opening parentheses, `B` satisfies the prefix condition, has brace difference
`0` and a nonzero parenthesis difference, the case of `UnclosedOptionalException`; the `int`
counter overflows on the last parenthesis instead. -/
theorem validate_paren_overflow :
    PrefixCondition (unescapedBrackets none (List.replicate (2 ^ 31) '(')) ∧
      braceDiff (unescapedBrackets none (List.replicate (2 ^ 31) '(')) = 0 ∧
      parenDiff (unescapedBrackets none (List.replicate (2 ^ 31) '(')) ≠ 0 ∧
      validate (List.replicate (2 ^ 31) '(') = .error .intOverflow := by
  have hB := @unescapedBrackets_replicate (2 ^ 31) none (by simp)
  have hover : ¬ ((0 : Int) + ((2 ^ 31 : Nat) : Int) < 2 ^ 31) := by omega
  rw [hB]
  refine ⟨prefixCondition_replicate _, (diffs_replicate _).1, by rw [(diffs_replicate _).2]; omega, ?_⟩
  rw [validate, validateFrom_eq_bracketLoop, hB, bracketLoop_replicate _ 0 (Int.le_refl 0) (by decide),
    if_neg hover]
  rfl

end CucumberExpression
