import CucumberExpression.Validator
import CucumberExpression.Parser
import CucumberExpression.Regex

/-!
# `cukex::transform`

The public entry point. It rejects the empty expression, runs the structural validator, then
parses, anchors the result with `^` and `$` and checks that it compiles as a regex. The parse, the
anchoring and the check run inside `try { … } catch (const std::exception& e)`, which rethrows
every exception as the base class with the message prefixed by `Invalid Cucumber expression: `.
Exceptions from the validator are thrown before the `try` and reach the caller as they are.

Source: `src/src/CucumberExpression.cpp`, lines 57–63 (`validateRegex`) and 352–413
(`cukex::transform`).
-/

namespace CucumberExpression

/-- `validateRegex(regex)`: a pattern that `std::regex` does not compile raises the base
exception. -/
def validateRegex (regex : List Char) : Except Failure Unit :=
  match Regex.compile regex with
  | none => .ok ()
  | some e => .error (.thrown (.base ("Failed to create valid regex: " ++ cString e.what)))

/-- `"^" + regex + "$"`. -/
def anchor (regex : List Char) : List Char :=
  ['^'] ++ regex ++ ['$']

/-- The body of the `try` in `cukex::transform`: parse, anchor, check. -/
def parseAndAnchor (expression : List Char) : Except Failure (List Char) :=
  (parse expression).bind fun regex =>
    (validateRegex (anchor regex)).bind fun _ => .ok (anchor regex)

/-- `catch (const std::exception& e)`: an exception becomes the base class, its message prefixed
to `e.what()`, which is read as a C string; undefined behaviour is not an exception and passes
through. -/
def rethrow : Failure → Failure
  | .thrown e => .thrown (.base ("Invalid Cucumber expression: " ++ cString e.what))
  | f => f

/-- `cukex::transform(expression)`. -/
def transform (expression : List Char) : Except Failure (List Char) :=
  if expression = [] then .error (.thrown .emptyExpression)
  else (validate expression).bind fun _ => (parseAndAnchor expression).mapError rethrow

theorem transform_of_validate_ok {e : List Char} (he : e ≠ []) (h : validate e = .ok ()) :
    transform e = (parseAndAnchor e).mapError rethrow := by
  simp [transform, he, h]

/-- A successful `transform` anchors a successful parse that passes the regex check. -/
theorem transform_eq_ok {e r : List Char} :
    transform e = .ok r ↔ e ≠ [] ∧ validate e = .ok () ∧
      ∃ p, parse e = .ok p ∧ Regex.compile (anchor p) = none ∧ r = anchor p := by
  unfold transform
  by_cases he : e = []
  · simp [he]
  · cases hv : validate e with
    | error f => simp [he]
    | ok u =>
      cases hp : parse e with
      | error f => simp [he, parseAndAnchor, hp, Except.mapError]
      | ok p =>
        cases hc : Regex.compile (anchor p) <;>
          simp [he, parseAndAnchor, hp, validateRegex, hc, Except.mapError, eq_comm]

/-! ### Which exceptions reach the caller -/

private theorem validateChar_error {c : Char} {d : Depths} {f : Failure}
    (h : validateChar c d = .error f) : f = .intOverflow ∨ f = .thrown (violation c) := by
  unfold validateChar at h
  split_ifs at h with h1 h2 h3 h4
  · rcases intAdd_bind_error h with hf | ⟨b, hk⟩
    · exact .inl hf
    · split_ifs at hk
      cases hk
      simp [violation, h1]
  · rcases intAdd_bind_error h with hf | ⟨b, hk⟩
    · exact .inl hf
    · split_ifs at hk
      cases hk
      simp [violation, h2]
  · rcases intAdd_bind_error h with hf | ⟨b, hk⟩
    · exact .inl hf
    · cases hk
  · rcases intAdd_bind_error h with hf | ⟨b, hk⟩
    · exact .inl hf
    · split_ifs at hk
      cases hk
      simp [violation, h1, h2, h4]

private theorem bracketLoop_error {B : List Char} {d : Depths} {f : Failure}
    (h : bracketLoop B d = .error f) : f = .intOverflow ∨ ∃ c ∈ B, f = .thrown (violation c) := by
  induction B generalizing d with
  | nil => cases h
  | cons c B ih =>
    simp only [bracketLoop] at h
    cases hc : validateChar c d with
    | error f' =>
      rw [hc] at h
      cases h
      exact (validateChar_error hc).imp_right fun hf => ⟨c, by simp, hf⟩
    | ok d' =>
      rw [hc, bind_ok] at h
      exact (ih h).imp_right fun ⟨c', hc', hf⟩ => ⟨c', by simp [hc'], hf⟩

private theorem validate_error_ne_unknown {e : List Char} {f : Failure} (h : validate e = .error f)
    (paramType : List Char) : f ≠ .thrown (.unknownParameterType paramType) := by
  unfold validate at h
  rw [validateFrom_eq_bracketLoop] at h
  cases hl : bracketLoop (unescapedBrackets none e) ⟨0, 0⟩ with
  | error f' =>
    rw [hl] at h
    cases h
    rcases bracketLoop_error hl with rfl | ⟨c, -, rfl⟩
    · simp
    · unfold violation
      split_ifs <;> simp
  | ok d =>
    rw [hl, bind_ok] at h
    split_ifs at h <;> cases h <;> simp

/-- No `UnknownParameterTypeException` reaches a caller of `cukex::transform`: the validator
never throws one, and the `catch` turns the parser's into the base class. -/
theorem transform_ne_unknownParameterType (e paramType : List Char) :
    transform e ≠ .error (.thrown (.unknownParameterType paramType)) := by
  unfold transform
  split_ifs
  · simp
  · cases hv : validate e with
    | error f =>
      simpa using validate_error_ne_unknown hv paramType
    | ok u =>
      cases hp : parseAndAnchor e with
      | ok r => simp [Except.mapError]
      | error f => cases f <;> simp [Except.mapError, rethrow]

/-- An exception the parser throws after validation reaches the caller as the base class, its
message `what()`, up to its first NUL character, prefixed with `Invalid Cucumber expression: `. -/
theorem transform_of_parse_thrown {e : List Char} {x : CucumberExpressionpressionException}
    (he : e ≠ []) (hv : validate e = .ok ()) (hp : parse e = .error (.thrown x)) :
    transform e = .error (.thrown (.base ("Invalid Cucumber expression: " ++ cString x.what))) := by
  simp [transform_of_validate_ok he hv, parseAndAnchor, hp, Except.mapError, rethrow]

/-- `{a\0b}`, with a NUL character in the name: the validator accepts it, the parser throws for
the unknown type, and the message `transform` throws stops at the NUL character. -/
theorem transform_of_parse_thrown_nul :
    "\x7ba\x00b\x7d".toList ≠ [] ∧ validate "\x7ba\x00b\x7d".toList = .ok () ∧
      parse "\x7ba\x00b\x7d".toList = .error (.thrown (.unknownParameterType "a\x00b".toList)) ∧
      transform "\x7ba\x00b\x7d".toList = .error (.thrown (.base ("Invalid Cucumber expression: " ++
        cString (CucumberExpressionpressionException.unknownParameterType "a\x00b".toList).what))) ∧
      transform "\x7ba\x00b\x7d".toList =
        .error (.thrown (.base "Invalid Cucumber expression: Unknown parameter type: \x7ba")) :=
  have h := transform_of_parse_thrown (e := "\x7ba\x00b\x7d".toList)
    (x := .unknownParameterType "a\x00b".toList) (by decide) rfl rfl
  ⟨by decide, rfl, rfl, h, h.trans rfl⟩

theorem transform_unknown_parameter_rewrapped :
    parse "\x7bunknown\x7d".toList = .error (.thrown (.unknownParameterType "unknown".toList)) ∧
      transform "\x7bunknown\x7d".toList =
        .error (.thrown (.base "Invalid Cucumber expression: Unknown parameter type: \x7bunknown\x7d")) :=
  ⟨rfl, rfl⟩

end CucumberExpression
