import CucumberExpression.Pattern
import CucumberExpression.Validator

/-!
# What an expression means

`CUCUMBER_EXPRESSION.md` describes the syntax `cukex::transform` compiles: text stands for itself,
`\c` escapes one of `( ) { } /`, `{name}` is a registered parameter type, `(text)` is optional text
and `w₁/w₂` chooses a word. This file states that syntax as a list of tokens and says what each
token matches in a step text. This is the meaning the compiled pattern is checked against in
`Compiler`.

An alternation is a whole word: the parser re-reads the expression around a `/` up to the spaces.
So `Expression` asks for a space (or the start) before an alternation and a space, a parameter or
the end after it. Its words are plain text, and so is an optional's text.

A parameter means what `std::regex` reads from its fragment in `getParameterTypes()`
(`ParameterType.regex`). Every fragment is read as a well-formed tree that prints back as the
fragment (`fragment_read`).

## Main definitions

* `ParameterType`, `Token`, `Token.WellFormed`, `Spaced`, `Expression`.
* `Token.print`, `Expression.print`: the expression's text.
* `Token.Denotes`, `Denotes`, `Expression.Accepts`: what it matches.
* `Token.tree`, `Expression.tree`: the pattern's tree for it, anchored.

## Main results

* `matches_tree`: the term of a token matches exactly what the token denotes.
* `matches_expression_tree`: the anchored tree matches from `0` to the end exactly the texts the
  expression accepts, and nothing else.

Source: `src/src/CucumberExpression.cpp`, lines 39–55 (`getParameterTypes`), and the syntax
its parser reads, lines 75–349.
-/

namespace CucumberExpression

open Pattern

/-! ### Parameter types -/

/-- Every fragment of the registry reads as a well-formed disjunction that prints back as the
fragment. -/
theorem fragment_read : ∀ t ∈ getParameterTypes, ∃ r, readPattern t.2.toList = some r ∧
    r.print = t.2.toList ∧ r.wellFormed .disjunction = true := by
  intro t ht
  simp only [getParameterTypes, List.mem_cons, List.mem_singleton, List.not_mem_nil,
    or_false] at ht
  rcases ht with rfl | rfl | rfl | rfl | rfl | rfl | rfl | rfl | rfl | rfl | rfl <;>
    exact ⟨_, rfl, by decide, by decide⟩

/-- A registered parameter type: its name, and the tree `std::regex` reads from its fragment. -/
structure ParameterType where
  name : List Char
  regex : Re
  registered : (lookupParameterType name).bind readPattern = some regex

/-- The fragment of a parameter type is its tree's text, and the tree is well formed. -/
theorem ParameterType.lookup (t : ParameterType) :
    lookupParameterType t.name = some t.regex.print ∧ t.regex.wellFormed .disjunction = true := by
  obtain ⟨fragment, hlookup, hread⟩ := Option.bind_eq_some.mp t.registered
  obtain ⟨entry, hentry, -, rfl⟩ := lookupParameterType_mem hlookup
  obtain ⟨r, hr, hprint, hwf⟩ := fragment_read entry hentry
  obtain rfl : r = t.regex := Option.some.inj (hr.symm.trans hread)
  exact ⟨by rw [hlookup, hprint], hwf⟩

/-- The characters of a parameter type's name: no bracket and no backslash. -/
theorem ParameterType.name_plain (t : ParameterType) {c : Char} (hc : c ∈ t.name) :
    ¬ IsBracket c ∧ c ≠ '\\' := by
  have hnames : ∀ e ∈ getParameterTypes, ∀ c ∈ e.1.toList, ¬ IsBracket c ∧ c ≠ '\\' := by
    decide
  obtain ⟨fragment, hlookup, -⟩ := Option.bind_eq_some.mp t.registered
  obtain ⟨entry, hentry, hname, -⟩ := lookupParameterType_mem hlookup
  exact hnames entry hentry c (hname ▸ hc)

/-- The tree of a parameter type is the one `std::regex` reads from the fragment of its name. -/
theorem ParameterType.regex_eq {t : ParameterType} {r : Re}
    (h : (lookupParameterType t.name).bind readPattern = some r) : t.regex = r :=
  Option.some.inj (t.registered.symm.trans h)

/-- The registered parameter type `int`, read from `-?\d+`. -/
def ParameterType.int : ParameterType :=
  ⟨"int".toList, .seq (.opt (.char '-')) (.seq (.plus (.escape .digit)) .empty), by decide⟩

/-! ### Tokens -/

/-- A character that stands for itself where it is: not a backslash, a bracket or a slash. -/
def IsPlainChar (c : Char) : Prop :=
  c ≠ '\\' ∧ ¬ IsBracket c ∧ c ≠ '/'

/-- A piece of a word of an alternation, as `parseAlternativeText` reads it: a character, or an
optional text `(text)`. -/
inductive Piece where
  | char (c : Char)
  | optional (text : List Char)

/-- A piece as the expression writes it. -/
def Piece.print : Piece → List Char
  | .char c => [c]
  | .optional text => '(' :: (text ++ [')'])

/-- The text of a word. -/
def Piece.printWord (w : List Piece) : List Char :=
  w.flatMap Piece.print

/-- A piece of a word: a plain character other than the space, or a non-empty optional text of
such characters. -/
def Piece.WellFormed : Piece → Prop
  | .char c => IsPlainChar c ∧ c ≠ ' '
  | .optional text => text ≠ [] ∧ ∀ c ∈ text, IsPlainChar c ∧ c ≠ ' '

/-- A piece of an expression. -/
inductive Token where
  /-- A character that stands for itself. -/
  | literal (c : Char)
  /-- `\c`, for `c` one of `( ) { } /`: the character `c`. -/
  | escaped (c : Char)
  /-- `{name}`: what the parameter type's regex matches. -/
  | parameter (t : ParameterType)
  /-- `(text)`: the text, or nothing. -/
  | optional (text : List Char)
  /-- `w₁/w₂/…/wₙ`: one of the words. -/
  | alternation (first : List Piece) (rest : List (List Piece))

/-- A token as the expression writes it. -/
def Token.print : Token → List Char
  | .literal c => [c]
  | .escaped c => ['\\', c]
  | .parameter t => '{' :: (t.name ++ ['}'])
  | .optional text => '(' :: (text ++ [')'])
  | .alternation first rest => List.intercalate ['/'] ((first :: rest).map Piece.printWord)

/-- What the syntax allows in a token. An optional's text is not empty and has no bracket and no
backslash. An alternation has two words or more, none empty, made of well-formed pieces; a word
after a `/` does not start with an optional text. -/
def Token.WellFormed : Token → Prop
  | .literal c => IsPlainChar c
  | .escaped c => IsEscapable c
  | .parameter _ => True
  | .optional text => text ≠ [] ∧ ∀ c ∈ text, ¬ IsBracket c ∧ c ≠ '\\'
  | .alternation first rest =>
    rest ≠ [] ∧ (∀ w ∈ first :: rest, w ≠ [] ∧ ∀ x ∈ w, x.WellFormed) ∧
      ∀ w ∈ rest, ∀ text, w.head? ≠ some (.optional text)

/-- Whether a token is an alternation. -/
def Token.isAlternation : Token → Bool
  | .alternation _ _ => true
  | _ => false

/-- What may stand just before an alternation: a space, or the start of the expression. -/
def OpensWord : Option Token → Prop
  | none => True
  | some (.literal c) => c = ' '
  | some _ => False

/-- What may stand just after an alternation: a space, a parameter, or the end of the
expression. -/
def ClosesWord : Option Token → Prop
  | none => True
  | some (.literal c) => c = ' '
  | some (.parameter _) => True
  | some _ => False

/-- Every alternation of `ts` is a whole word, `prev` being the token before `ts`. -/
def Spaced : Option Token → List Token → Prop
  | _, [] => True
  | prev, t :: ts => (t.isAlternation → OpensWord prev ∧ ClosesWord ts.head?) ∧ Spaced (some t) ts

/-- An expression of the syntax. -/
structure Expression where
  tokens : List Token
  wellFormed : ∀ t ∈ tokens, t.WellFormed
  spaced : Spaced none tokens

/-- The text of an expression. -/
def Expression.print (x : Expression) : List Char :=
  x.tokens.flatMap Token.print

/-! ### What an expression matches -/

/-- What a list matches in `w` from `i` to `k`: its elements one after another, each `x` as
`D x`. -/
def Chain {α : Type} (D : α → Nat → Nat → Prop) : List α → Nat → Nat → Prop
  | [], i, j => j = i
  | x :: xs, i, k => ∃ j, D x i j ∧ Chain D xs j k

/-- What a piece of a word matches in `w`, from `i` to `j`. -/
def Piece.Denotes (w : List Char) : Piece → Nat → Nat → Prop
  | .char c, i, j => Spells w i [c] j
  | .optional text, i, j => j = i ∨ Spells w i text j

/-- What a token matches in `w`, from `i` to `j`. -/
def Token.Denotes (w : List Char) : Token → Nat → Nat → Prop
  | .literal c, i, j | .escaped c, i, j => Spells w i [c] j
  | .parameter t, i, j => Matches w t.regex i j
  | .optional text, i, j => j = i ∨ Spells w i text j
  | .alternation first rest, i, j => ∃ a ∈ first :: rest, Chain (Piece.Denotes w) a i j

/-- What a list of tokens matches in `w`, from `i` to `j`. -/
def Denotes (w : List Char) : List Token → Nat → Nat → Prop :=
  Chain (Token.Denotes w)

/-- The step texts an expression matches. -/
def Expression.Accepts (x : Expression) (w : List Char) : Prop :=
  Denotes w x.tokens 0 w.length

/-! ### The pattern's tree -/

/-- The term of the pattern for a piece of a word. -/
def Piece.tree : Piece → Re
  | .char c => .char c
  | .optional text => .opt (.noncapturing (Re.ofText text))

/-- The tree of a word: its pieces' terms in sequence. -/
def Piece.treeWord (w : List Piece) : Re :=
  Re.ofTerms (w.map Piece.tree)

/-- The term of the pattern for a token. -/
def Token.tree : Token → Re
  | .literal c | .escaped c => .char c
  | .parameter t => .group t.regex
  | .optional text => .opt (.noncapturing (Re.ofText text))
  | .alternation first rest =>
    .noncapturing (Re.alternatives (Piece.treeWord first) (rest.map Piece.treeWord))

/-- The tree of the anchored pattern for an expression. -/
def Expression.tree (x : Expression) : Re :=
  Re.ofTerms (.lineStart :: (x.tokens.map Token.tree ++ [.lineEnd]))

theorem Piece.wellFormed_tree (x : Piece) : x.tree.wellFormed .term = true := by
  cases x with
  | char c => rfl
  | optional text =>
    simpa [Piece.tree, Re.wellFormed, Level.ofAtom] using
      wellFormed_disjunction (wellFormed_ofText text)

private theorem Piece.wellFormed_treeWord (w : List Piece) :
    (Piece.treeWord w).wellFormed .alternative = true :=
  wellFormed_ofTerms fun t ht => by
    obtain ⟨x, -, rfl⟩ := List.mem_map.mp ht
    exact x.wellFormed_tree

theorem wellFormed_tree (t : Token) : t.tree.wellFormed .term = true := by
  cases t with
  | literal c => rfl
  | escaped c => rfl
  | parameter t => simpa [Token.tree, Re.wellFormed, Level.ofAtom] using t.lookup.2
  | optional text =>
    simpa [Token.tree, Re.wellFormed, Level.ofAtom] using
      wellFormed_disjunction (wellFormed_ofText text)
  | alternation first rest =>
    simpa [Token.tree, Re.wellFormed, Level.ofAtom] using
      wellFormed_alternatives (Piece.wellFormed_treeWord first) fun b hb => by
        obtain ⟨a, -, rfl⟩ := List.mem_map.mp hb
        exact Piece.wellFormed_treeWord a

theorem Expression.wellFormed_tree (x : Expression) : x.tree.wellFormed .disjunction = true := by
  refine wellFormed_disjunction (wellFormed_ofTerms fun t ht => ?_)
  simp only [List.mem_cons, List.mem_append, List.mem_map, List.mem_singleton, List.not_mem_nil,
    or_false] at ht
  rcases ht with rfl | ⟨a, -, rfl⟩ | rfl
  · rfl
  · exact CucumberExpression.wellFormed_tree a
  · rfl

section Semantics

variable {w : List Char}

/-- Terms in sequence match what their elements denote one after another. -/
private theorem matches_ofTerms_map {α : Type} {tree : α → Re} {D : α → Nat → Nat → Prop}
    (h : ∀ x i j, Matches w (tree x) i j ↔ D x i j) :
    ∀ (xs : List α) (i j : Nat), Matches w (Re.ofTerms (xs.map tree)) i j ↔ Chain D xs i j
  | [], i, j => by simp [Re.ofTerms, Chain]
  | x :: xs, i, j => by
    show Matches w (.seq (tree x) (Re.ofTerms (xs.map tree))) i j ↔ Chain D (x :: xs) i j
    simp only [matches_seq_iff, h, matches_ofTerms_map h xs, Chain]

theorem Piece.matches_tree (x : Piece) (i j : Nat) : Matches w x.tree i j ↔ x.Denotes w i j := by
  cases x with
  | char c => simp [Piece.tree, Piece.Denotes, Spells, and_comm]
  | optional text => simp [Piece.tree, Piece.Denotes, matches_ofText]

/-- The term of a token matches exactly what the token denotes. -/
theorem matches_tree (t : Token) (i j : Nat) : Matches w t.tree i j ↔ t.Denotes w i j := by
  cases t with
  | literal c | escaped c => simp [Token.tree, Token.Denotes, Spells, and_comm]
  | parameter t => simp [Token.tree, Token.Denotes]
  | optional text => simp [Token.tree, Token.Denotes, matches_ofText]
  | alternation first rest =>
    simp [Token.tree, Token.Denotes, matches_alternatives, Piece.treeWord,
      matches_ofTerms_map Piece.matches_tree]

private theorem matches_tokens (ts : List Token) (i j : Nat) :
    Matches w (Re.ofTerms (ts.map Token.tree)) i j ↔ Denotes w ts i j :=
  matches_ofTerms_map matches_tree ts i j

/-- The anchored tree matches only from `0` to the end of a step text, and there exactly when the
expression accepts the text. -/
theorem matches_expression_tree (x : Expression) (i j : Nat) :
    Matches w x.tree i j ↔ i = 0 ∧ j = w.length ∧ x.Accepts w := by
  simp only [Expression.tree, Re.ofTerms, List.foldr_cons, matches_seq_iff,
    matches_lineStart_iff]
  rw [← Re.ofTerms]
  constructor
  · rintro ⟨k, ⟨rfl, rfl⟩, h⟩
    obtain ⟨m, hm, hend⟩ := (matches_ofTerms_append _ _ _ _).mp h
    simp only [Re.ofTerms, List.foldr_cons, List.foldr_nil, matches_seq_iff,
      matches_lineEnd_iff, matches_empty_iff] at hend
    obtain ⟨k, ⟨rfl, rfl⟩, rfl⟩ := hend
    exact ⟨rfl, rfl, (matches_tokens _ _ _).mp hm⟩
  · rintro ⟨rfl, rfl, h⟩
    refine ⟨0, ⟨rfl, rfl⟩, (matches_ofTerms_append _ _ _ _).mpr ⟨w.length,
      (matches_tokens _ _ _).mpr h, ?_⟩⟩
    simp [Re.ofTerms]

end Semantics

end CucumberExpression
