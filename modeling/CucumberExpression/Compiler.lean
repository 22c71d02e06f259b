import CucumberExpression.ParameterMeaning
import CucumberExpression.ParserRun
import CucumberExpression.PatternCheck

/-!
# `cukex::transform` preserves the meaning of an expression

Write an expression of the syntax (`Expression`) as text and give it to `cukex::transform`. The
call returns a pattern. `std::regex` reads that pattern as the anchored tree of the expression,
so the pattern matches a step text exactly when the expression accepts it
(`transform_meaning`).

The proof has two phases.

* The parser's run writes the text of the expression's terms (`parse_print`, in `ParserRun`).
* The reader. The pattern is the text of a well-formed tree, so `std::regex` reads it back
  (`readPattern_print`), and the tree matches what the expression denotes
  (`matches_expression_tree`).

The validator and the regex check pass on the way (`validate_print`, `check_print`).

The pattern's capturing groups are one per parameter and those inside the fragments, which only
`{string}` has (`transform_captures`). A `std::smatch` numbers its submatches by them, so a
parameter after a `{string}` does not take the submatch of its place among the parameters.

## Main results

* `validate_print`: the validator accepts the text of every expression.
* `transform_print`: `cukex::transform` returns the text of the expression's anchored tree.
* `transform_meaning`, `transform_captures`.

Source: `src/src/CucumberExpression.cpp`, lines 352–413 (`cukex::transform`).
-/

namespace CucumberExpression

open Pattern

/-! ### The validator over an expression -/

private theorem validateFrom_congr {prev prev' : Option Char} (h : prev ≠ some '\\')
    (h' : prev' ≠ some '\\') (e : List Char) (d : Depths) :
    validateFrom prev e d = validateFrom prev' e d := by
  cases e <;> simp [validateFrom, h, h']

/-- Characters that are no bracket and no backslash leave the validator's counters alone. -/
private theorem validateFrom_plain : ∀ (text : List Char) (prev : Option Char), prev ≠ some '\\' →
    (∀ c ∈ text, ¬ IsBracket c ∧ c ≠ '\\') → ∀ rest d,
      validateFrom prev (text ++ rest) d = validateFrom none rest d
  | [], _, hp, _, rest, d => validateFrom_congr hp (by simp) rest d
  | c :: text, prev, hp, h, rest, d => by
    have hc := h c (List.mem_cons_self c text)
    rw [List.cons_append, validateFrom, if_neg hp, validateChar_of_not_bracket hc.1, bind_ok,
      validateFrom_plain text (some c) (by simpa using hc.2)
        (fun u hu => h u (List.mem_cons_of_mem c hu))]

/-- An optional text `(text)` moves the parenthesis counter to `1` and back to `0`. -/
private theorem validateFrom_optional {text : List Char} (htext : ∀ c ∈ text, ¬ IsBracket c ∧ c ≠ '\\')
    {prev : Option Char} (hp : prev ≠ some '\\') (rest : List Char) :
    validateFrom prev ('(' :: (text ++ ')' :: rest)) ⟨0, 0⟩ = validateFrom none rest ⟨0, 0⟩ := by
  rw [validateFrom, if_neg hp, show validateChar '(' ⟨0, 0⟩ = .ok ⟨0, 1⟩ from rfl, bind_ok,
    validateFrom_plain text (some '(') (by decide) htext (')' :: rest) ⟨0, 1⟩, validateFrom,
    if_neg (by simp), show validateChar ')' ⟨0, 1⟩ = .ok ⟨0, 0⟩ from rfl, bind_ok]
  exact validateFrom_congr (by simp) (by simp) rest _

/-- A word of an alternation leaves the validator's counters at zero. -/
private theorem validateFrom_printWord : ∀ (w : List Piece), (∀ x ∈ w, x.WellFormed) →
    ∀ {prev : Option Char}, prev ≠ some '\\' → ∀ rest,
      validateFrom prev (Piece.printWord w ++ rest) ⟨0, 0⟩ = validateFrom none rest ⟨0, 0⟩
  | [], _, _, hp, rest => validateFrom_congr hp (by simp) rest _
  | .char c :: w, hw, prev, hp, rest => by
    have hc := (hw _ (List.mem_cons_self _ _)).1.not_bracket
    rw [Piece.printWord_cons, List.append_assoc, Piece.print,
      validateFrom_plain [c] prev hp (by simpa using hc),
      validateFrom_printWord w (fun y hy => hw y (List.mem_cons_of_mem _ hy)) (by simp)]
  | .optional text :: w, hw, prev, hp, rest => by
    have htext := (hw _ (List.mem_cons_self _ _)).2
    rw [Piece.printWord_cons, Piece.print, List.append_assoc, List.cons_append, List.append_assoc,
      List.singleton_append, validateFrom_optional (fun c hc => (htext c hc).1.not_bracket) hp,
      validateFrom_printWord w (fun y hy => hw y (List.mem_cons_of_mem _ hy)) (by simp)]

/-- The words of an alternation, with the `/` between them, leave the counters at zero. -/
private theorem validateFrom_words (w : List Piece) (ws : List (List Piece))
    (h : ∀ v ∈ w :: ws, ∀ x ∈ v, x.WellFormed) {prev : Option Char} (hp : prev ≠ some '\\')
    (rest : List Char) :
    validateFrom prev (List.intercalate ['/'] ((w :: ws).map Piece.printWord) ++ rest) ⟨0, 0⟩ =
      validateFrom none rest ⟨0, 0⟩ := by
  induction ws generalizing w prev with
  | nil =>
    rw [List.map_cons, List.map_nil, intercalate_one]
    exact validateFrom_printWord w (h w (List.mem_singleton_self w)) hp rest
  | cons w' ws ih =>
    rw [List.map_cons, List.map_cons, intercalate_cons_cons, List.append_assoc, List.append_assoc,
      List.singleton_append, validateFrom_printWord w (h w (List.mem_cons_self _ _)) hp,
      validateFrom, if_neg (by simp), validateChar_of_not_bracket (by decide), bind_ok,
      ← List.map_cons, ih w' (fun v hv => h v (List.mem_cons_of_mem _ hv)) (by simp)]

/-- A token leaves the validator's counters at zero, and the character before the rest is not a
backslash. -/
private theorem validateFrom_token {t : Token} (ht : t.WellFormed) {prev : Option Char}
    (hp : prev ≠ some '\\') (rest : List Char) :
    validateFrom prev (t.print ++ rest) ⟨0, 0⟩ = validateFrom none rest ⟨0, 0⟩ := by
  cases t with
  | literal c =>
    exact validateFrom_plain [c] prev hp (by simpa using ht.not_bracket) rest _
  | escaped c =>
    have hc : some c ≠ some '\\' := by rcases ht with rfl | rfl | rfl | rfl | rfl <;> decide
    simp only [Token.print, List.cons_append, List.nil_append, validateFrom, if_neg hp,
      validateChar_of_not_bracket (show ¬ IsBracket '\\' by decide), bind_ok, if_true]
    exact validateFrom_congr hc (by simp) rest _
  | parameter t =>
    have hname := validateFrom_plain t.name (some '{') (by decide)
      (fun c hc => t.name_plain hc) ('}' :: rest) ⟨1, 0⟩
    rw [show (Token.parameter t).print ++ rest = '{' :: (t.name ++ '}' :: rest) by simp [Token.print],
      validateFrom, if_neg hp, show validateChar '{' ⟨0, 0⟩ = .ok ⟨1, 0⟩ from rfl, bind_ok, hname,
      validateFrom, if_neg (by simp), show validateChar '}' ⟨1, 0⟩ = .ok ⟨0, 0⟩ from rfl, bind_ok]
    exact validateFrom_congr (by simp) (by simp) rest _
  | optional text =>
    rw [show (Token.optional text).print ++ rest = '(' :: (text ++ ')' :: rest) by simp [Token.print]]
    exact validateFrom_optional ht.2 hp rest
  | alternation first words =>
    exact validateFrom_words first words (fun v hv => (ht.2.1 v hv).2) hp rest

/-- The validator accepts the text of every expression. -/
theorem validate_print (x : Expression) : validate x.print = .ok () := by
  have hloop : ∀ ts : List Token, (∀ t ∈ ts, t.WellFormed) →
      validateFrom none (ts.flatMap Token.print) ⟨0, 0⟩ = .ok ⟨0, 0⟩ := by
    intro ts
    induction ts with
    | nil => intro _; rfl
    | cons t ts ih =>
      intro h
      rw [List.flatMap_cons, validateFrom_token (h t (List.mem_cons_self t ts)) (by simp),
        ih fun u hu => h u (List.mem_cons_of_mem t hu)]
  rw [validate, Expression.print, hloop x.tokens x.wellFormed]
  rfl

/-! ### The compiled pattern -/

private theorem anchor_tokens (x : Expression) :
    anchor (x.tokens.flatMap fun t => t.tree.print) = x.tree.print := by
  rw [Expression.tree, print_ofTerms]
  simp [anchor, Re.print, List.flatMap_map]

theorem Expression.print_ne_nil {x : Expression} (hne : x.tokens ≠ []) : x.print ≠ [] := by
  obtain ⟨t, ts, h⟩ := List.exists_cons_of_ne_nil hne
  have ht := Token.print_ne_nil (x.wellFormed t (h ▸ List.mem_cons_self t ts))
  simp [Expression.print, h, ht]

/-- `cukex::transform` returns the text of the expression's anchored tree, when the automaton
`std::regex` builds for it fits the library's state limit. -/
theorem transform_print (x : Expression) (hne : x.tokens ≠ []) (hlen : x.print.length < 2 ^ 64)
    (hfit : Regex.nfaStates x.tree.print ≤ Regex.stateLimit) :
    transform x.print = .ok x.tree.print := by
  rw [← anchor_tokens]
  exact transform_eq_ok.mpr ⟨Expression.print_ne_nil hne, validate_print x, _, parse_print x hlen,
    by rw [anchor_tokens]; exact Regex.compile_eq_none.mpr ⟨check_print x.wellFormed_tree, hfit⟩,
    rfl⟩

/-- `cukex::transform` compiles every expression of the syntax whose automaton fits the state
limit of `std::regex`. The library reads the pattern it returns as a tree, and the tree matches in
a step text exactly from its start to its end, and there exactly when the expression accepts the
text. -/
theorem transform_meaning (x : Expression) (hne : x.tokens ≠ []) (hlen : x.print.length < 2 ^ 64)
    (hfit : Regex.nfaStates x.tree.print ≤ Regex.stateLimit) :
    ∃ p r, transform x.print = .ok p ∧ readPattern p = some r ∧
      ∀ w i j, Matches w r i j ↔ i = 0 ∧ j = w.length ∧ x.Accepts w :=
  ⟨x.tree.print, x.tree, transform_print x hne hlen hfit, readPattern_print x.wellFormed_tree,
    fun _ => matches_expression_tree x⟩

/-- `{int} apple(s)/pear(s)`. -/
def sampleExpression : Expression where
  tokens := [.parameter .int, .literal ' ',
    .alternation ("apple".toList.map .char ++ [.optional ['s']])
      ["pear".toList.map .char ++ [.optional ['s']]]]
  wellFormed := by simp [Token.WellFormed, Piece.WellFormed, IsPlainChar, IsBracket]
  spaced := by simp [Spaced, Token.isAlternation, OpensWord, ClosesWord]

theorem transform_meaning_sample : sampleExpression.tokens ≠ [] ∧
    sampleExpression.print.length < 2 ^ 64 ∧
    Regex.nfaStates sampleExpression.tree.print ≤ Regex.stateLimit ∧
    ∃ p r, transform sampleExpression.print = .ok p ∧ readPattern p = some r ∧
      ∀ w i j, Matches w r i j ↔ i = 0 ∧ j = w.length ∧ sampleExpression.Accepts w :=
  have hne : sampleExpression.tokens ≠ [] := by simp [sampleExpression]
  have hlen : sampleExpression.print.length < 2 ^ 64 := by decide
  have hfit : Regex.nfaStates sampleExpression.tree.print ≤ Regex.stateLimit := by decide
  ⟨hne, hlen, hfit, transform_meaning sampleExpression hne hlen hfit⟩

/-! ### Capturing groups of the compiled pattern -/

/-- Whether a token is a parameter. -/
def Token.isParameter : Token → Bool
  | .parameter _ => true
  | _ => false

/-- Whether a token is the parameter `{string}`. -/
def Token.isStringParameter : Token → Bool
  | .parameter t => t.name == "string".toList
  | _ => false

private theorem Piece.captures_treeWord (w : List Piece) : (Piece.treeWord w).captures = 0 :=
  captures_ofTerms_eq_zero fun t ht => by
    obtain ⟨x, -, rfl⟩ := List.mem_map.mp ht
    cases x <;> simp [Piece.tree, Re.captures, captures_ofText]

/-- A parameter's term is one group around its fragment, and a `{string}`'s fragment has four
groups more; optional texts and alternations are non-capturing. -/
private theorem Token.captures_tree (t : Token) :
    t.tree.captures = (if t.isParameter then 1 else 0) + (if t.isStringParameter then 4 else 0) := by
  cases t with
  | parameter t =>
    simp only [Token.tree, Re.captures, ParameterType.captures, Token.isParameter,
      Token.isStringParameter, beq_iff_eq]
    split <;> rfl
  | alternation first rest =>
    simp [Token.tree, Re.captures, captures_alternatives_eq_zero, Piece.captures_treeWord,
      Token.isParameter, Token.isStringParameter]
  | _ => simp [Token.tree, Re.captures, captures_ofText, Token.isParameter, Token.isStringParameter]

private theorem captures_tokens (ts : List Token) :
    (Re.ofTerms (ts.map Token.tree ++ [.lineEnd])).captures =
      ts.countP Token.isParameter + 4 * ts.countP Token.isStringParameter := by
  induction ts with
  | nil => rfl
  | cons t ts ih =>
    rw [List.map_cons, List.cons_append, captures_ofTerms_cons, ih, Token.captures_tree,
      List.countP_cons, List.countP_cons]
    split <;> split <;> omega

/-- The pattern `cukex::transform` returns for an expression has one capturing group for each
parameter, and four more for each `{string}`: a parameter after a `{string}` has a later
submatch than its place among the parameters. -/
theorem transform_captures (x : Expression) (hne : x.tokens ≠ [])
    (hlen : x.print.length < 2 ^ 64) (hfit : Regex.nfaStates x.tree.print ≤ Regex.stateLimit) :
    ∃ p r, transform x.print = .ok p ∧ readPattern p = some r ∧
      r.captures = x.tokens.countP Token.isParameter + 4 * x.tokens.countP Token.isStringParameter :=
  ⟨x.tree.print, x.tree, transform_print x hne hlen hfit, readPattern_print x.wellFormed_tree,
    by rw [Expression.tree, captures_ofTerms_cons, captures_tokens, Re.captures, Nat.zero_add]⟩

/-- `{string} and {int}`. -/
def stringThenInt : Expression where
  tokens := [.parameter .string] ++ " and ".toList.map .literal ++ [.parameter .int]
  wellFormed := by simp [Token.WellFormed, IsPlainChar, IsBracket]
  spaced := by simp [Spaced, Token.isAlternation]

theorem transform_captures_stringThenInt : stringThenInt.tokens ≠ [] ∧
    stringThenInt.print.length < 2 ^ 64 ∧
    Regex.nfaStates stringThenInt.tree.print ≤ Regex.stateLimit ∧
    ∃ p r, transform stringThenInt.print = .ok p ∧ readPattern p = some r ∧
      r.captures = stringThenInt.tokens.countP Token.isParameter +
        4 * stringThenInt.tokens.countP Token.isStringParameter :=
  have hne : stringThenInt.tokens ≠ [] := by simp [stringThenInt]
  have hlen : stringThenInt.print.length < 2 ^ 64 := by decide
  have hfit : Regex.nfaStates stringThenInt.tree.print ≤ Regex.stateLimit := by decide
  ⟨hne, hlen, hfit, transform_captures stringThenInt hne hlen hfit⟩

end CucumberExpression
