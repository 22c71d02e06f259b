import CucumberExpression.Parser

/-!
# Patterns as `std::regex` reads them

`cukex::transform` returns the text of an ECMAScript regular expression, and a step definition
matches step text against `std::regex` built from it. This file gives that text its meaning, for
the part of the ECMAScript grammar that the compiler's patterns and the registered fragments use:

* characters and identity escapes `\c` of the metacharacters, `.`, the class escapes `\d`, `\s`;
* classes `[…]` and `[^…]` without ranges;
* groups `(…)` and `(?:…)`, the lookahead `(?=…)`, the anchors `^` and `$`;
* the quantifiers `*`, `+`, `?`, and `|`.

A `?` after a quantifier makes it lazy. That changes which match is found first, not whether one
exists, so the tree forgets it.

* `Re` is the tree the reader builds. `Matches w r i j` says that `r` matches `w` from `i` to `j`,
  with the whole of `w` in view: a lookahead reads past `j`, `^` holds only at `0` and `$` only at
  the end.
* `readDisjunction`, `readAlternative`, `readTerm` and `readAtom` read a pattern by recursive
  descent, one function per production of the grammar. They return `none` on text outside this
  part of it.
* `Re.print` writes a tree as text, and `readPattern_print` reads a well-formed tree's text back to
  the tree.
* `Re.captures` counts a tree's capturing groups, which number the submatches of a match.

Characters are those of the model's `List Char`; `\d` and `\s` are read in the classic locale.

Source: the pattern `src/src/CucumberExpression.cpp` hands to `std::regex` in lines 57–63
(`validateRegex`), read by the ECMAScript grammar.
-/

namespace CucumberExpression

namespace Pattern

/-! ### Trees and what they match -/

/-- The class escapes the patterns use: `\d` and `\s`. -/
inductive ClassEscape where
  | digit
  | space
  deriving DecidableEq, Repr

/-- The characters a class escape stands for in the classic locale: `0`–`9`, and the six characters
`isspace` accepts. -/
def ClassEscape.contains : ClassEscape → Char → Bool
  | .digit, c => c.isDigit
  | .space, c => c = ' ' || c = '\t' || c = '\n' || c = '\x0b' || c = '\x0c' || c = '\r'

/-- An item of a class: a character or a class escape. -/
inductive ClassItem where
  | char (c : Char)
  | escape (k : ClassEscape)
  deriving DecidableEq, Repr

/-- The characters a class item stands for. -/
def ClassItem.contains : ClassItem → Char → Bool
  | .char d, c => c = d
  | .escape k, c => k.contains c

/-- The tree of a pattern. An alternative is a chain of `seq` that ends in `empty`. -/
inductive Re where
  /-- The empty alternative. -/
  | empty
  /-- A character, written as itself or as an identity escape. -/
  | char (c : Char)
  /-- `.` -/
  | any
  /-- `\d` or `\s`. -/
  | escape (k : ClassEscape)
  /-- `[…]`, or `[^…]` when `negated`. -/
  | klass (negated : Bool) (items : List ClassItem)
  /-- A term and the rest of its alternative. -/
  | seq (a b : Re)
  /-- `a|b`. -/
  | alt (a b : Re)
  /-- A capturing group `(…)`. -/
  | group (r : Re)
  /-- `(?:…)` -/
  | noncapturing (r : Re)
  /-- `r*` -/
  | star (r : Re)
  /-- `r+` -/
  | plus (r : Re)
  /-- `r?` -/
  | opt (r : Re)
  /-- `(?=…)` -/
  | lookahead (r : Re)
  /-- `^` -/
  | lineStart
  /-- `$` -/
  | lineEnd
  deriving DecidableEq, Repr

/-- The characters `.` does not match. -/
def IsLineTerminator (c : Char) : Prop :=
  c = '\n' ∨ c = '\r'

instance (c : Char) : Decidable (IsLineTerminator c) := inferInstanceAs (Decidable (_ ∨ _))

/-- `Matches w r i j`: the tree `r` matches `w` from index `i` to index `j`. Captures and the order
in which the matcher tries alternatives are left out: they decide which match is found, not whether
there is one. -/
inductive Matches (w : List Char) : Re → Nat → Nat → Prop
  | empty (i : Nat) : Matches w .empty i i
  | char {c : Char} {i : Nat} (h : w[i]? = some c) : Matches w (.char c) i (i + 1)
  | any {c : Char} {i : Nat} (h : w[i]? = some c) (hc : ¬ IsLineTerminator c) :
      Matches w .any i (i + 1)
  | escape {k : ClassEscape} {c : Char} {i : Nat} (h : w[i]? = some c) (hc : k.contains c = true) :
      Matches w (.escape k) i (i + 1)
  | klass {negated : Bool} {items : List ClassItem} {c : Char} {i : Nat} (h : w[i]? = some c)
      (hc : (items.any fun item => item.contains c) = !negated) :
      Matches w (.klass negated items) i (i + 1)
  | seq {a b : Re} {i j k : Nat} (ha : Matches w a i j) (hb : Matches w b j k) :
      Matches w (.seq a b) i k
  | altLeft {a b : Re} {i j : Nat} (h : Matches w a i j) : Matches w (.alt a b) i j
  | altRight {a b : Re} {i j : Nat} (h : Matches w b i j) : Matches w (.alt a b) i j
  | group {r : Re} {i j : Nat} (h : Matches w r i j) : Matches w (.group r) i j
  | noncapturing {r : Re} {i j : Nat} (h : Matches w r i j) : Matches w (.noncapturing r) i j
  | starNil (r : Re) (i : Nat) : Matches w (.star r) i i
  | starCons {r : Re} {i j k : Nat} (h : Matches w r i j) (hs : Matches w (.star r) j k) :
      Matches w (.star r) i k
  | plus {r : Re} {i j k : Nat} (h : Matches w r i j) (hs : Matches w (.star r) j k) :
      Matches w (.plus r) i k
  | optNone (r : Re) (i : Nat) : Matches w (.opt r) i i
  | optSome {r : Re} {i j : Nat} (h : Matches w r i j) : Matches w (.opt r) i j
  | lookahead {r : Re} {i k : Nat} (h : Matches w r i k) : Matches w (.lookahead r) i i
  | lineStart : Matches w .lineStart 0 0
  | lineEnd : Matches w .lineEnd w.length w.length

section Matches

variable {w : List Char} {i j : Nat}

@[simp] theorem matches_empty_iff : Matches w .empty i j ↔ j = i := by
  constructor
  · intro h; cases h; rfl
  · rintro rfl; exact .empty _

@[simp] theorem matches_char_iff {c : Char} : Matches w (.char c) i j ↔ w[i]? = some c ∧ j = i + 1 := by
  constructor
  · intro h; cases h with | char h => exact ⟨h, rfl⟩
  · rintro ⟨h, rfl⟩; exact .char h

@[simp] theorem matches_seq_iff {a b : Re} :
    Matches w (.seq a b) i j ↔ ∃ k, Matches w a i k ∧ Matches w b k j := by
  constructor
  · intro h; cases h with | seq ha hb => exact ⟨_, ha, hb⟩
  · rintro ⟨k, ha, hb⟩; exact .seq ha hb

@[simp] theorem matches_alt_iff {a b : Re} :
    Matches w (.alt a b) i j ↔ Matches w a i j ∨ Matches w b i j := by
  constructor
  · intro h
    cases h with
    | altLeft h => exact .inl h
    | altRight h => exact .inr h
  · rintro (h | h)
    · exact .altLeft h
    · exact .altRight h

@[simp] theorem matches_group_iff {r : Re} : Matches w (.group r) i j ↔ Matches w r i j := by
  constructor
  · intro h; cases h with | group h => exact h
  · exact .group

@[simp] theorem matches_noncapturing_iff {r : Re} :
    Matches w (.noncapturing r) i j ↔ Matches w r i j := by
  constructor
  · intro h; cases h with | noncapturing h => exact h
  · exact .noncapturing

@[simp] theorem matches_opt_iff {r : Re} : Matches w (.opt r) i j ↔ j = i ∨ Matches w r i j := by
  constructor
  · intro h
    cases h with
    | optNone => exact .inl rfl
    | optSome h => exact .inr h
  · rintro (rfl | h)
    · exact .optNone r _
    · exact .optSome h

@[simp] theorem matches_lineStart_iff : Matches w .lineStart i j ↔ i = 0 ∧ j = 0 := by
  constructor
  · intro h; cases h; exact ⟨rfl, rfl⟩
  · rintro ⟨rfl, rfl⟩; exact .lineStart

@[simp] theorem matches_lineEnd_iff : Matches w .lineEnd i j ↔ i = w.length ∧ j = w.length := by
  constructor
  · intro h; cases h; exact ⟨rfl, rfl⟩
  · rintro ⟨rfl, rfl⟩; exact .lineEnd

end Matches

/-! ### Reading a pattern -/

/-- The class escape `\k`, for `k` one of `d` and `s`. -/
def readClassEscape : Char → Option ClassEscape
  | 'd' => some .digit
  | 's' => some .space
  | _ => none

/-- `\c`, in a class or not: a class escape, or an identity escape of a metacharacter. -/
def readEscape (c : Char) : Option ClassItem :=
  match readClassEscape c with
  | some k => some (.escape k)
  | none => if IsRegexSpecial c then some (.char c) else none

/-- An item read outside a class is an atom. -/
def ClassItem.toRe : ClassItem → Re
  | .char c => .char c
  | .escape k => .escape k

/-- After an item of a class, `-` and then anything but `]` would make a range. -/
def startsRange : List Char → Bool
  | '-' :: d :: _ => d != ']'
  | _ => false

/-- The items of a class up to its `]`, and the text after the `]`. -/
def readClassItems : List Char → Option (List ClassItem × List Char)
  | '\\' :: d :: rest =>
    (readEscape d).bind fun item =>
      if startsRange rest then none
      else (readClassItems rest).map fun r => (item :: r.1, r.2)
  | c :: p =>
    if c = ']' then some ([], p)
    else if c = '[' ∨ c = '\\' then none
    else if startsRange p then none
    else (readClassItems p).map fun r => (.char c :: r.1, r.2)
  | [] => none

/-- The `?` after a quantifier, which makes it lazy. -/
def skipLazy : List Char → List Char
  | '?' :: rest => rest
  | rest => rest

/-- The quantifier after an atom, if any. -/
def readQuantifier (a : Re) : List Char → Re × List Char
  | [] => (a, [])
  | c :: p =>
    if c = '*' then (.star a, skipLazy p)
    else if c = '+' then (.plus a, skipLazy p)
    else if c = '?' then (.opt a, skipLazy p)
    else (a, c :: p)

/-- The `)` that closes a group. -/
def closeGroup (wrap : Re → Re) : Option (Re × List Char) → Option (Re × List Char)
  | some (r, ')' :: rest) => some (wrap r, rest)
  | _ => none

/-- What follows the `(` of a group: `?:` opens a non-capturing group, any other `?` a group outside
this grammar, and anything else a capturing group. -/
def groupOpen : List Char → Option ((Re → Re) × List Char)
  | '?' :: ':' :: rest => some (.noncapturing, rest)
  | '?' :: _ => none
  | p => some (.group, p)

/-- What follows the `[` of a class: whether it is negated, and its items. -/
def classOpen : List Char → Bool × List Char
  | '^' :: rest => (true, rest)
  | p => (false, p)

/-- What follows a `\` outside a class. -/
def escapeAt : List Char → Option (ClassItem × List Char)
  | d :: rest => (readEscape d).map fun item => (item, rest)
  | [] => none

/-- The `|` between two alternatives. -/
def afterBar : List Char → Option (List Char)
  | '|' :: rest => some rest
  | _ => none

mutual

/-- `Disjunction :: Alternative | Alternative '|' Disjunction`. -/
def readDisjunction : Nat → List Char → Option (Re × List Char)
  | 0, _ => none
  | n + 1, p =>
    (readAlternative n p).bind fun a =>
      (afterBar a.2).elim (some a) fun rest =>
        (readDisjunction n rest).map fun r => (.alt a.1 r.1, r.2)

/-- `Alternative :: [empty] | Term Alternative`: terms up to a `|`, a `)` or the end. -/
def readAlternative : Nat → List Char → Option (Re × List Char)
  | 0, _ => none
  | _ + 1, [] => some (.empty, [])
  | n + 1, c :: p =>
    if c = '|' ∨ c = ')' then some (.empty, c :: p)
    else (readTerm n (c :: p)).bind fun t =>
      (readAlternative n t.2).map fun r => (.seq t.1 r.1, r.2)

/-- `Term :: Assertion | Atom | Atom Quantifier`. -/
def readTerm : Nat → List Char → Option (Re × List Char)
  | 0, _ => none
  | n + 1, p =>
    match p with
    | '^' :: rest => some (.lineStart, rest)
    | '$' :: rest => some (.lineEnd, rest)
    | '(' :: '?' :: '=' :: rest => closeGroup .lookahead (readDisjunction n rest)
    | _ => (readAtom n p).map fun a => readQuantifier a.1 a.2

/-- `Atom :: PatternCharacter | . | \ AtomEscape | CharacterClass | ( … ) | (?: … )`. -/
def readAtom : Nat → List Char → Option (Re × List Char)
  | 0, _ => none
  | _ + 1, [] => none
  | n + 1, c :: p =>
    if c = '(' then (groupOpen p).bind fun g => closeGroup g.1 (readDisjunction n g.2)
    else if c = '[' then
      (readClassItems (classOpen p).2).map fun r => (.klass (classOpen p).1 r.1, r.2)
    else if c = '\\' then (escapeAt p).map fun r => (r.1.toRe, r.2)
    else if c = '.' then some (.any, p)
    else if IsRegexSpecial c then none
    else some (.char c, p)

end

/-- The tree `std::regex` builds from a whole pattern; `none` if the text is outside this part of
the grammar. Eight steps of fuel per character are more than any nesting of the grammar needs. -/
def readPattern (p : List Char) : Option Re :=
  match readDisjunction (8 * p.length + 3) p with
  | some (r, []) => some r
  | _ => none


/-! ### Writing a tree -/

/-- `\d` or `\s`. -/
def ClassEscape.print : ClassEscape → List Char
  | .digit => ['\\', 'd']
  | .space => ['\\', 's']

/-- An item as a class holds it, with `\`, `]`, `[` and `^` escaped. -/
def ClassItem.print : ClassItem → List Char
  | .char c => if c = '\\' ∨ c = ']' ∨ c = '[' ∨ c = '^' then ['\\', c] else [c]
  | .escape k => k.print

/-- A tree as pattern text. A character is written as the parser writes a literal one
(`escapeRegexChar`). -/
def Re.print : Re → List Char
  | .empty => []
  | .char c => escapeRegexChar c
  | .any => ['.']
  | .escape k => k.print
  | .klass negated items =>
    '[' :: ((if negated then ['^'] else []) ++ items.flatMap ClassItem.print ++ [']'])
  | .seq a b => a.print ++ b.print
  | .alt a b => a.print ++ '|' :: b.print
  | .group r => '(' :: (r.print ++ [')'])
  | .noncapturing r => '(' :: '?' :: ':' :: (r.print ++ [')'])
  | .star r => r.print ++ ['*']
  | .plus r => r.print ++ ['+']
  | .opt r => r.print ++ ['?']
  | .lookahead r => '(' :: '?' :: '=' :: (r.print ++ [')'])
  | .lineStart => ['^']
  | .lineEnd => ['$']

/-- The productions of the grammar, one for each reader. -/
inductive Level where
  | disjunction
  | alternative
  | term
  | atom
  deriving DecidableEq, Repr

/-- Class items read back one by one: no `-` stands between two items. -/
def itemsWellFormed : List ClassItem → Bool
  | _ :: .char '-' :: _ :: _ => false
  | _ :: rest => itemsWellFormed rest
  | [] => true

/-- A level at which a tree stands for a sequence of terms. -/
def Level.ofSequence : Level → Bool
  | .disjunction | .alternative => true
  | .term | .atom => false

/-- A level at which a tree stands for a single atom. -/
def Level.ofAtom : Level → Bool
  | .term | .atom => true
  | .disjunction | .alternative => false

/-- A tree as the reader of a production builds it: an alternative is a chain of `seq` ending in
`empty`, a quantifier applies to an atom, and no class holds a range. -/
def Re.wellFormed : Re → Level → Bool
  | .empty, l => l.ofSequence
  | .seq a b, l => l.ofSequence && a.wellFormed .term && b.wellFormed .alternative
  | .alt a b, l => l == .disjunction && a.wellFormed .alternative && b.wellFormed .disjunction
  | .star r, l | .plus r, l | .opt r, l => l == .term && r.wellFormed .atom
  | .lookahead r, l => l == .term && r.wellFormed .disjunction
  | .lineStart, l | .lineEnd, l => l == .term
  | .char _, l | .any, l | .escape _, l => l.ofAtom
  | .klass _ items, l => l.ofAtom && itemsWellFormed items
  | .group r, l | .noncapturing r, l => l.ofAtom && r.wellFormed .disjunction

/-- What may follow a tree's text for the reader of a production to stop right after it: a
disjunction stops at a `)` or the end, an alternative also at a `|`, and a term must not be followed
by a quantifier. -/
def Follows : Level → List Char → Prop
  | .disjunction, rest => rest.head? = none ∨ rest.head? = some ')'
  | .alternative, rest => rest.head? = none ∨ rest.head? = some ')' ∨ rest.head? = some '|'
  | .term, rest => rest.head? ≠ some '*' ∧ rest.head? ≠ some '+' ∧ rest.head? ≠ some '?'
  | .atom, _ => True

/-- The reader of a production. -/
def readLevel : Level → Nat → List Char → Option (Re × List Char)
  | .disjunction => readDisjunction
  | .alternative => readAlternative
  | .term => readTerm
  | .atom => readAtom

/-- The fuel a production needs beyond eight per character. -/
def Level.rank : Level → Nat
  | .disjunction => 3
  | .alternative => 2
  | .term => 1
  | .atom => 0

/-! ### Where the readers stop -/

@[simp] theorem readAtom_nil (n : Nat) : readAtom n [] = none := by
  cases n <;> rfl

private theorem readAtom_special {c : Char} (hc : IsRegexSpecial c)
    (h : c ≠ '(' ∧ c ≠ '[' ∧ c ≠ '\\' ∧ c ≠ '.') (n : Nat) (p : List Char) :
    readAtom n (c :: p) = none := by
  cases n with
  | zero => rfl
  | succ n => simp only [readAtom, if_neg h.1, if_neg h.2.1, if_neg h.2.2.1, if_neg h.2.2.2, if_pos hc]

private theorem readTerm_of_head {c : Char} (h1 : c ≠ '^') (h2 : c ≠ '$') (h3 : c ≠ '(') (n : Nat)
    (p : List Char) :
    readTerm (n + 1) (c :: p) = (readAtom n (c :: p)).map fun a => readQuantifier a.1 a.2 := by
  rw [readTerm]
  all_goals intro rest h; injection h; contradiction

private theorem readTerm_special {c : Char} (hc : c = '|' ∨ c = ')' ∨ c = '*' ∨ c = '+' ∨ c = '?')
    (n : Nat) (p : List Char) : readTerm n (c :: p) = none := by
  cases n with
  | zero => rfl
  | succ n =>
    have hs : IsRegexSpecial c := by rcases hc with rfl | rfl | rfl | rfl | rfl <;> decide
    have hne : c ≠ '^' ∧ c ≠ '$' ∧ c ≠ '(' ∧ c ≠ '[' ∧ c ≠ '\\' ∧ c ≠ '.' := by
      rcases hc with rfl | rfl | rfl | rfl | rfl <;> decide
    obtain ⟨h1, h2, h3, h4⟩ := hne
    rw [readTerm_of_head h1 h2 h3, readAtom_special hs ⟨h3, h4⟩]
    rfl

private theorem readAlternative_quantifier {c : Char} (hc : c = '*' ∨ c = '+' ∨ c = '?') (n : Nat)
    (p : List Char) : readAlternative n (c :: p) = none := by
  cases n with
  | zero => rfl
  | succ n =>
    have h := readTerm_special (c := c) (by tauto) n p
    rcases hc with rfl | rfl | rfl <;> simp [readAlternative, h]

theorem readDisjunction_question (n : Nat) (p : List Char) :
    readDisjunction n ('?' :: p) = none := by
  cases n with
  | zero => rfl
  | succ n => simp [readDisjunction, readAlternative_quantifier (c := '?') (by decide)]

/-! ### One step of each reader -/

private theorem readTerm_of_readAtom {n : Nat} {p : List Char} {x : Re × List Char}
    (h : readAtom n p = some x) : readTerm (n + 1) p = some (readQuantifier x.1 x.2) := by
  rw [readTerm]
  · rw [h]; rfl
  all_goals rintro rest rfl; cases n <;> simp [readAtom, IsRegexSpecial, groupOpen] at h

private theorem readAlternative_of_readTerm {n : Nat} {p q : List Char} {t : Re}
    (h : readTerm n p = some (t, q)) :
    readAlternative (n + 1) p = (readAlternative n q).map fun r => (.seq t r.1, r.2) := by
  rcases p with _ | ⟨c, p⟩
  · cases n <;> simp [readTerm] at h
  · have hc : ¬ (c = '|' ∨ c = ')') := by
      rintro (rfl | rfl) <;> simp [readTerm_special] at h
    simp [readAlternative, hc, h]

private theorem readDisjunction_of_readAlternative {n : Nat} {p rest : List Char} {r : Re}
    (h : readAlternative n p = some (r, rest)) (hr : rest.head? ≠ some '|') :
    readDisjunction (n + 1) p = some (r, rest) := by
  have hbar : afterBar rest = none := by
    unfold afterBar
    split <;> simp_all
  simp [readDisjunction, h, hbar]

private theorem readDisjunction_of_bar {n : Nat} {p q : List Char} {a : Re}
    (h : readAlternative n p = some (a, '|' :: q)) :
    readDisjunction (n + 1) p = (readDisjunction n q).map fun r => (.alt a r.1, r.2) := by
  simp [readDisjunction, h, afterBar]

private theorem readAlternative_of_stop {n : Nat} {p : List Char}
    (hp : p.head? = none ∨ p.head? = some ')' ∨ p.head? = some '|') :
    readAlternative (n + 1) p = some (.empty, p) := by
  rcases p with _ | ⟨c, p⟩
  · rfl
  · simp only [List.head?_cons, Option.some.injEq, reduceCtorEq, false_or] at hp
    rcases hp with rfl | rfl <;> rfl

private theorem readAtom_group {n : Nat} {p : List Char} {x : Re × List Char}
    (h : readDisjunction n p = some x) :
    readAtom (n + 1) ('(' :: p) = closeGroup .group (some x) := by
  have hg : groupOpen p = some (.group, p) := by
    unfold groupOpen
    split
    all_goals simp_all [readDisjunction_question]
  simp [readAtom, hg, h]

private theorem readAtom_plain {c : Char} (hc : ¬ IsRegexSpecial c) (n : Nat) (p : List Char) :
    readAtom (n + 1) (c :: p) = some (.char c, p) := by
  have h : c ≠ '(' ∧ c ≠ '[' ∧ c ≠ '\\' ∧ c ≠ '.' := by
    refine ⟨?_, ?_, ?_, ?_⟩ <;> rintro rfl <;> exact hc (by decide)
  simp [readAtom, h, hc]

/-- A character written as the parser writes a literal is read back as that character. -/
private theorem readAtom_escapeRegexChar (c : Char) (n : Nat) (rest : List Char) :
    readAtom (n + 1) (escapeRegexChar c ++ rest) = some (.char c, rest) := by
  unfold escapeRegexChar
  split_ifs with hc
  · have hd : readClassEscape c = none := by
      unfold readClassEscape
      split <;> first | rfl | exact absurd hc (by decide)
    simp [readAtom, readEscape, escapeAt, hd, hc, ClassItem.toRe]
  · exact readAtom_plain hc n rest

private theorem readAtom_klass_false {n : Nat} {p : List Char} (h : p.head? ≠ some '^') :
    readAtom (n + 1) ('[' :: p) = (readClassItems p).map fun r => (.klass false r.1, r.2) := by
  have hc : classOpen p = (false, p) := by
    unfold classOpen
    split <;> simp_all
  simp [readAtom, hc]

private theorem skipLazy_of_head {p : List Char} (h : p.head? ≠ some '?') : skipLazy p = p := by
  unfold skipLazy
  split <;> simp_all

private theorem readQuantifier_of_follows {a : Re} {rest : List Char} (h : Follows .term rest) :
    readQuantifier a rest = (a, rest) := by
  obtain ⟨h1, h2, h3⟩ := h
  rcases rest with _ | ⟨c, p⟩
  · rfl
  · simp_all [readQuantifier]

/-! ### Classes -/

private theorem startsRange_cons {c : Char} (hc : c ≠ '-') (p : List Char) :
    startsRange (c :: p) = false := by
  unfold startsRange
  split <;> simp_all

private theorem ClassItem.print_cons (item : ClassItem) :
    ∃ c cs, item.print = c :: cs ∧ (c = '-' → item = .char '-') ∧ c ≠ ']' ∧ c ≠ '^' := by
  cases item with
  | char c =>
    rw [ClassItem.print]
    split_ifs with h
    · exact ⟨'\\', [c], rfl, fun h => absurd h (by decide), by decide, by decide⟩
    · simp only [not_or] at h
      exact ⟨c, [], rfl, fun hc => by rw [hc], h.2.1, h.2.2.2⟩
  | escape k => cases k <;> exact ⟨'\\', _, rfl, fun h => absurd h (by decide), by decide, by decide⟩

/-- After an item of a well-formed class, no range starts. -/
private theorem startsRange_print {item : ClassItem} {items : List ClassItem}
    (h : itemsWellFormed (item :: items) = true) (rest : List Char) :
    startsRange (items.flatMap ClassItem.print ++ ']' :: rest) = false := by
  rcases items with _ | ⟨i2, more⟩
  · rfl
  · obtain ⟨c, cs, hp, hc, -⟩ := i2.print_cons
    by_cases hd : c = '-'
    · obtain rfl := hc hd
      rcases more with _ | ⟨i3, more⟩
      · rfl
      · simp [itemsWellFormed] at h
    · simp [hp, startsRange_cons hd]

private theorem itemsWellFormed_tail {item : ClassItem} {items : List ClassItem}
    (h : itemsWellFormed (item :: items) = true) : itemsWellFormed items = true := by
  rcases items with _ | ⟨i2, more⟩
  · rfl
  · rcases i2 with c | k
    · by_cases hc : c = '-'
      · subst hc
        rcases more with _ | ⟨i3, more⟩
        · rfl
        · simp [itemsWellFormed] at h
      · simpa [itemsWellFormed, hc] using h
    · simpa [itemsWellFormed] using h

private theorem readClassItems_print : ∀ (items : List ClassItem), itemsWellFormed items = true →
    ∀ rest, readClassItems (items.flatMap ClassItem.print ++ ']' :: rest) = some (items, rest)
  | [], _, rest => by simp [readClassItems]
  | item :: items, h, rest => by
    have ih := readClassItems_print items (itemsWellFormed_tail h) rest
    have hr := startsRange_print h rest
    rw [List.flatMap_cons, List.append_assoc]
    rcases item with c | k
    · rw [ClassItem.print]
      split_ifs with hc
      · have he : readEscape c = some (.char c) := by
          rcases hc with rfl | rfl | rfl | rfl <;> rfl
        simp [readClassItems, he, hr, ih]
      · simp only [not_or] at hc
        simp [readClassItems, hc, hr, ih]
    · cases k <;> simp [readClassItems, ClassItem.print, ClassEscape.print, readEscape,
        readClassEscape, hr, ih]

/-! ### Reading a written tree back -/

private theorem follows_of_readAlternative {n : Nat} {p : List Char} {x : Re × List Char}
    (h : readAlternative n p = some x) : Follows .term p := by
  rcases p with _ | ⟨c, p⟩
  · simp [Follows]
  · refine ⟨?_, ?_, ?_⟩ <;> rintro ⟨⟩ <;> simp [readAlternative_quantifier] at h

private theorem follows_alternative {rest : List Char} (h : Follows .disjunction rest) :
    Follows .alternative rest := by
  rcases h with h | h
  · exact .inl h
  · exact .inr (.inl h)

private theorem print_ne_nil_of_term {r : Re} (h : r.wellFormed .term = true) : r.print ≠ [] := by
  cases r with
  | empty | seq _ _ | alt _ _ => simp [Re.wellFormed, Level.ofSequence] at h
  | char c => exact escapeRegexChar_ne_nil c
  | escape k => cases k <;> simp [Re.print, ClassEscape.print]
  | _ => simp [Re.print]

private theorem level_of_atom {r : Re} {l : Level} (h : r.wellFormed l = true)
    (hd : r.wellFormed .disjunction = false) (ha : r.wellFormed .alternative = false) :
    l = .term ∨ l = .atom := by
  cases l <;> simp_all

/-- A term made of an atom alone: the reader of terms reads it as the reader of atoms does. -/
private theorem read_of_atom {r : Re}
    (hatom : ∀ rest n, 8 * r.print.length ≤ n → readAtom n (r.print ++ rest) = some (r, rest))
    (l : Level) (hl : l = .term ∨ l = .atom) (rest : List Char) (hrest : Follows l rest) (n : Nat)
    (hn : 8 * r.print.length + l.rank ≤ n) : readLevel l n (r.print ++ rest) = some (r, rest) := by
  rcases hl with rfl | rfl
  · obtain ⟨m, rfl⟩ : ∃ m, n = m + 1 := ⟨n - 1, by simp [Level.rank] at hn; omega⟩
    simp only [readLevel, readTerm_of_readAtom (hatom rest m (by simp [Level.rank] at hn; omega)),
      readQuantifier_of_follows hrest]
  · exact hatom rest n (by simpa [Level.rank] using hn)

/-- A quantified atom `r*`, `r+` or `r?`: the reader of terms reads the atom, then the
quantifier `q`. -/
private theorem read_quantified {r : Re} (q : Char) (wrap : Re → Re) (hprint : (wrap r).print = r.print ++ [q])
    (hq : ∀ p, readQuantifier r (q :: p) = (wrap r, skipLazy p))
    (hwf : ∀ l, (wrap r).wellFormed l = (l == .term && r.wellFormed .atom))
    (ih : ∀ l, r.wellFormed l = true → ∀ rest, Follows l rest →
      ∀ n, 8 * r.print.length + l.rank ≤ n → readLevel l n (r.print ++ rest) = some (r, rest)) :
    ∀ l, (wrap r).wellFormed l = true → ∀ rest, Follows l rest →
      ∀ n, 8 * (wrap r).print.length + l.rank ≤ n →
        readLevel l n ((wrap r).print ++ rest) = some (wrap r, rest) := by
  intro l hl rest hrest n hn
  simp only [hwf, Bool.and_eq_true, beq_iff_eq] at hl
  obtain ⟨rfl, hr⟩ := hl
  rw [hprint] at hn ⊢
  obtain ⟨m, rfl⟩ : ∃ m, n = m + 1 := ⟨n - 1, by simp [Level.rank] at hn; omega⟩
  rw [readLevel, List.append_assoc, List.singleton_append,
    readTerm_of_readAtom (ih .atom hr _ trivial m (by simp [Level.rank] at hn ⊢; omega)), hq,
    skipLazy_of_head hrest.2.2]

/-- The reader of a production reads a well-formed tree's text back to the tree, when the text
after it lets the reader stop there and the fuel suffices. -/
theorem read_print (r : Re) : ∀ (l : Level), r.wellFormed l = true → ∀ rest, Follows l rest →
    ∀ n, 8 * r.print.length + l.rank ≤ n → readLevel l n (r.print ++ rest) = some (r, rest) := by
  induction r with
  | empty =>
    intro l hl rest hrest n hn
    cases l <;> simp only [Re.wellFormed, Level.ofSequence, Bool.false_eq_true] at hl
    · obtain ⟨m, rfl⟩ : ∃ m, n = m + 1 := ⟨n - 1, by simp [Level.rank] at hn; omega⟩
      obtain ⟨k, rfl⟩ : ∃ k, m = k + 1 := ⟨m - 1, by simp [Level.rank] at hn; omega⟩
      exact readDisjunction_of_readAlternative (readAlternative_of_stop (follows_alternative hrest))
        (by rcases hrest with h | h <;> simp [h])
    · obtain ⟨m, rfl⟩ : ∃ m, n = m + 1 := ⟨n - 1, by simp [Level.rank] at hn; omega⟩
      exact readAlternative_of_stop hrest
  | char c =>
    intro l hl
    apply read_of_atom (fun rest n hn => ?_) l (level_of_atom hl rfl rfl)
    obtain ⟨m, rfl⟩ : ∃ m, n = m + 1 :=
      ⟨n - 1, by have := List.length_pos.mpr (escapeRegexChar_ne_nil c); simp [Re.print] at hn; omega⟩
    exact readAtom_escapeRegexChar c m rest
  | any =>
    intro l hl
    apply read_of_atom (fun rest n hn => ?_) l (level_of_atom hl rfl rfl)
    obtain ⟨m, rfl⟩ : ∃ m, n = m + 1 := ⟨n - 1, by simp [Re.print] at hn; omega⟩
    rfl
  | escape k =>
    intro l hl
    apply read_of_atom (fun rest n hn => ?_) l (level_of_atom hl rfl rfl)
    obtain ⟨m, rfl⟩ : ∃ m, n = m + 1 :=
      ⟨n - 1, by cases k <;> simp [Re.print, ClassEscape.print] at hn <;> omega⟩
    cases k <;> rfl
  | klass negated items =>
    intro l hl
    have hitems : itemsWellFormed items = true := by
      simp only [Re.wellFormed, Bool.and_eq_true] at hl
      exact hl.2
    apply read_of_atom (fun rest n hn => ?_) l (level_of_atom hl rfl rfl)
    obtain ⟨m, rfl⟩ : ∃ m, n = m + 1 := ⟨n - 1, by simp [Re.print] at hn; omega⟩
    cases negated
    · have hhead : (items.flatMap ClassItem.print ++ ']' :: rest).head? ≠ some '^' := by
        rcases items with _ | ⟨item, items⟩
        · simp
        · obtain ⟨c, cs', hp, -, -, hc⟩ := item.print_cons
          simpa [hp] using hc
      simp only [Re.print, Bool.false_eq_true, if_false, List.nil_append, List.cons_append,
        List.append_assoc, List.singleton_append, readAtom_klass_false hhead,
        readClassItems_print items hitems rest]
      rfl
    · simp [Re.print, readAtom, classOpen, readClassItems_print items hitems rest]
  | seq a b iha ihb =>
    have halt : ∀ rest, Follows .alternative rest → ∀ n, 8 * (a.seq b).print.length + 2 ≤ n →
        a.wellFormed .term = true → b.wellFormed .alternative = true →
        readAlternative n ((a.seq b).print ++ rest) = some (a.seq b, rest) := by
      intro rest hrest n hn ha hb
      simp only [Re.print, List.length_append] at hn ⊢
      have ha0 := List.length_pos.mpr (print_ne_nil_of_term ha)
      obtain ⟨m, rfl⟩ : ∃ m, n = m + 1 := ⟨n - 1, by omega⟩
      have hb := ihb .alternative hb rest hrest m (by simp [Level.rank]; omega)
      have ha := iha .term ha (b.print ++ rest) (follows_of_readAlternative hb) m
        (by simp [Level.rank]; omega)
      simp only [readLevel] at ha hb
      rw [List.append_assoc, readAlternative_of_readTerm ha, hb]
      rfl
    intro l hl rest hrest n hn
    simp only [Re.wellFormed, Bool.and_eq_true] at hl
    obtain ⟨⟨hl, ha⟩, hb⟩ := hl
    cases l <;> simp only [Level.ofSequence, Bool.false_eq_true] at hl
    · obtain ⟨m, rfl⟩ : ∃ m, n = m + 1 := ⟨n - 1, by simp [Level.rank] at hn; omega⟩
      exact readDisjunction_of_readAlternative
        (halt rest (follows_alternative hrest) m (by simp [Level.rank] at hn; omega) ha hb)
        (by rcases hrest with h | h <;> simp [h])
    · exact halt rest hrest n (by simpa [Level.rank] using hn) ha hb
  | alt a b iha ihb =>
    intro l hl rest hrest n hn
    simp only [Re.wellFormed, Bool.and_eq_true, beq_iff_eq] at hl
    obtain ⟨⟨rfl, ha⟩, hb⟩ := hl
    simp only [Re.print, List.length_append, List.length_cons, Level.rank] at hn
    obtain ⟨m, rfl⟩ : ∃ m, n = m + 1 := ⟨n - 1, by omega⟩
    have hb := ihb .disjunction hb rest hrest m (by simp [Level.rank]; omega)
    have ha := iha .alternative ha ('|' :: (b.print ++ rest)) (.inr (.inr rfl)) m
      (by simp [Level.rank]; omega)
    simp only [readLevel] at ha hb ⊢
    rw [Re.print, List.append_assoc, List.cons_append, readDisjunction_of_bar ha, hb]
    rfl
  | group r ih =>
    intro l hl
    have hr : r.wellFormed .disjunction = true := by
      simp only [Re.wellFormed, Bool.and_eq_true] at hl
      exact hl.2
    apply read_of_atom (fun rest n hn => ?_) l (level_of_atom hl rfl rfl)
    simp only [Re.print, List.length_cons, List.length_append] at hn
    obtain ⟨m, rfl⟩ : ∃ m, n = m + 1 := ⟨n - 1, by omega⟩
    have h := ih .disjunction hr (')' :: rest) (.inr rfl) m (by simp [Level.rank]; omega)
    simp only [readLevel] at h
    simp only [Re.print, List.cons_append, List.append_assoc, List.singleton_append,
      List.nil_append, readAtom_group h]
    rfl
  | noncapturing r ih =>
    intro l hl
    have hr : r.wellFormed .disjunction = true := by
      simp only [Re.wellFormed, Bool.and_eq_true] at hl
      exact hl.2
    apply read_of_atom (fun rest n hn => ?_) l (level_of_atom hl rfl rfl)
    simp only [Re.print, List.length_cons, List.length_append] at hn
    obtain ⟨m, rfl⟩ : ∃ m, n = m + 1 := ⟨n - 1, by omega⟩
    have h := ih .disjunction hr (')' :: rest) (.inr rfl) m (by simp [Level.rank]; omega)
    simp only [readLevel] at h
    simp [Re.print, readAtom, groupOpen, h, closeGroup]
  | star r ih => exact read_quantified '*' .star rfl (fun _ => rfl) (fun _ => rfl) ih
  | plus r ih => exact read_quantified '+' .plus rfl (fun _ => rfl) (fun _ => rfl) ih
  | opt r ih => exact read_quantified '?' .opt rfl (fun _ => rfl) (fun _ => rfl) ih
  | lookahead r ih =>
    intro l hl rest hrest n hn
    simp only [Re.wellFormed, Bool.and_eq_true, beq_iff_eq] at hl
    obtain ⟨rfl, hr⟩ := hl
    simp only [Re.print, List.length_cons, List.length_append, Level.rank] at hn
    obtain ⟨m, rfl⟩ : ∃ m, n = m + 1 := ⟨n - 1, by omega⟩
    have h := ih .disjunction hr (')' :: rest) (.inr rfl) m (by simp [Level.rank]; omega)
    simp only [readLevel] at h ⊢
    simp [Re.print, readTerm, h, closeGroup]
  | lineStart | lineEnd =>
    intro l hl rest hrest n hn
    simp only [Re.wellFormed, beq_iff_eq] at hl
    subst hl
    obtain ⟨m, rfl⟩ : ∃ m, n = m + 1 := ⟨n - 1, by simp [Level.rank] at hn; omega⟩
    rfl

/-- `std::regex` reads the text of a well-formed disjunction back to the tree. -/
theorem readPattern_print {r : Re} (h : r.wellFormed .disjunction = true) :
    readPattern r.print = some r := by
  have := read_print r .disjunction h [] (.inl rfl) (8 * r.print.length + 3) le_rfl
  simp only [readLevel, List.append_nil] at this
  simp [readPattern, this]

/-! ### Sequences and choices of trees -/

/-- The alternative of a list of terms. -/
def Re.ofTerms (ts : List Re) : Re :=
  ts.foldr .seq .empty

/-- The alternative that spells a text. -/
def Re.ofText (text : List Char) : Re :=
  Re.ofTerms (text.map .char)

/-- The disjunction of a first alternative and further ones. -/
def Re.alternatives : Re → List Re → Re
  | a, [] => a
  | a, b :: bs => .alt a (Re.alternatives b bs)

/-- `w` spells `text` from `i` to `j`. -/
def Spells (w : List Char) : Nat → List Char → Nat → Prop
  | i, [], j => j = i
  | i, c :: text, j => w[i]? = some c ∧ Spells w (i + 1) text j

section Sequences

variable {w : List Char}

theorem matches_ofTerms_append (ts us : List Re) (i k : Nat) :
    Matches w (Re.ofTerms (ts ++ us)) i k ↔
      ∃ j, Matches w (Re.ofTerms ts) i j ∧ Matches w (Re.ofTerms us) j k := by
  induction ts generalizing i with
  | nil => simp [Re.ofTerms]
  | cons t ts ih =>
    simp only [Re.ofTerms, List.cons_append, List.foldr_cons, matches_seq_iff] at ih ⊢
    constructor
    · rintro ⟨j, ht, hj⟩
      obtain ⟨j', h1, h2⟩ := (ih j).mp hj
      exact ⟨j', ⟨j, ht, h1⟩, h2⟩
    · rintro ⟨j', ⟨j, ht, h1⟩, h2⟩
      exact ⟨j, ht, (ih j).mpr ⟨j', h1, h2⟩⟩

theorem matches_ofText (text : List Char) (i j : Nat) :
    Matches w (Re.ofText text) i j ↔ Spells w i text j := by
  induction text generalizing i with
  | nil => simp [Re.ofText, Re.ofTerms, Spells]
  | cons c text ih =>
    simp only [Re.ofText, Re.ofTerms, List.map_cons, List.foldr_cons, matches_seq_iff,
      matches_char_iff, Spells] at ih ⊢
    constructor
    · rintro ⟨k, ⟨hc, rfl⟩, h⟩
      exact ⟨hc, (ih (i + 1)).mp h⟩
    · rintro ⟨hc, h⟩
      exact ⟨i + 1, ⟨hc, rfl⟩, (ih (i + 1)).mpr h⟩

theorem matches_alternatives (a : Re) (bs : List Re) (i j : Nat) :
    Matches w (Re.alternatives a bs) i j ↔ ∃ r ∈ a :: bs, Matches w r i j := by
  induction bs generalizing a with
  | nil => simp [Re.alternatives]
  | cons b bs ih => simp [Re.alternatives, ih]

theorem print_ofTerms (ts : List Re) : (Re.ofTerms ts).print = ts.flatMap Re.print := by
  induction ts with
  | nil => rfl
  | cons t ts ih => simp [Re.ofTerms, Re.print, ← ih]

theorem print_ofText (text : List Char) : (Re.ofText text).print = escapeRegexChars text := by
  simp [Re.ofText, print_ofTerms, escapeRegexChars, Re.print, List.flatMap_map]

theorem print_alternatives (a : Re) (bs : List Re) :
    (Re.alternatives a bs).print = List.intercalate ['|'] ((a :: bs).map Re.print) := by
  induction bs generalizing a with
  | nil => simp [Re.alternatives, List.intercalate]
  | cons b bs ih =>
    simp only [Re.alternatives, Re.print, ih, List.map_cons]
    simp [List.intercalate, List.intersperse_cons₂]

theorem wellFormed_ofTerms {ts : List Re} (h : ∀ t ∈ ts, t.wellFormed .term = true) :
    (Re.ofTerms ts).wellFormed .alternative = true := by
  induction ts with
  | nil => rfl
  | cons t ts ih =>
    simp only [List.mem_cons, forall_eq_or_imp] at h
    have := ih h.2
    simp only [Re.ofTerms, List.foldr_cons] at this ⊢
    simp [Re.wellFormed, Level.ofSequence, h.1, this]

theorem wellFormed_ofText (text : List Char) : (Re.ofText text).wellFormed .alternative = true :=
  wellFormed_ofTerms fun t ht => by
    obtain ⟨c, -, rfl⟩ := List.mem_map.mp ht
    rfl

theorem wellFormed_disjunction {r : Re} (h : r.wellFormed .alternative = true) :
    r.wellFormed .disjunction = true := by
  cases r <;> simp_all [Re.wellFormed, Level.ofSequence, Level.ofAtom]

theorem wellFormed_alternatives {a : Re} {bs : List Re} (ha : a.wellFormed .alternative = true)
    (hbs : ∀ b ∈ bs, b.wellFormed .alternative = true) :
    (Re.alternatives a bs).wellFormed .disjunction = true := by
  induction bs generalizing a with
  | nil => exact wellFormed_disjunction ha
  | cons b bs ih =>
    simp only [List.mem_cons, forall_eq_or_imp] at hbs
    simp [Re.alternatives, Re.wellFormed, ha, ih hbs.1 hbs.2]

end Sequences

/-! ### Capturing groups -/

/-- The capturing groups `(…)` of a tree. `std::regex` numbers a pattern's groups `1`, `2`, … in
the order of their opening parentheses, and a match has one submatch for each. -/
def Re.captures : Re → Nat
  | .group r => r.captures + 1
  | .seq a b | .alt a b => a.captures + b.captures
  | .noncapturing r | .star r | .plus r | .opt r | .lookahead r => r.captures
  | .empty | .char _ | .any | .escape _ | .klass _ _ | .lineStart | .lineEnd => 0

@[simp] theorem captures_ofTerms_cons (t : Re) (ts : List Re) :
    (Re.ofTerms (t :: ts)).captures = t.captures + (Re.ofTerms ts).captures := rfl

theorem captures_ofTerms_eq_zero {ts : List Re} (h : ∀ t ∈ ts, t.captures = 0) :
    (Re.ofTerms ts).captures = 0 := by
  induction ts with
  | nil => rfl
  | cons t ts ih => simp [h t (.head ts), ih fun u hu => h u (.tail t hu)]

theorem captures_ofText (text : List Char) : (Re.ofText text).captures = 0 :=
  captures_ofTerms_eq_zero (by simp [Re.captures])

theorem captures_alternatives_eq_zero {a : Re} {bs : List Re} (ha : a.captures = 0)
    (hbs : ∀ b ∈ bs, b.captures = 0) : (Re.alternatives a bs).captures = 0 := by
  induction bs generalizing a with
  | nil => exact ha
  | cons b bs ih =>
    simp [Re.alternatives, Re.captures, ha, ih (hbs b (.head bs)) fun c hc => hbs c (.tail b hc)]

example : readPattern "-?\\d+".toList =
    some (.seq (.opt (.char '-')) (.seq (.plus (.escape .digit)) .empty)) := by decide

end Pattern

end CucumberExpression
