import CucumberExpression.Basic

/-!
# The regex syntax check behind `validateRegex`

`validateRegex` constructs a `std::regex` (ECMAScript grammar) from the anchored pattern and turns
a `regex_error` into the base exception. The model checks the syntax that the patterns of this
compiler can contain. Groups `(`, `(?:`, `(?=`, `(?!` must be closed by a matching `)` and no `)`
may be left over. A class `[` must be closed by `]`. A `\` must be followed by a character. A
quantifier `*`, `+` or `?` must follow an atom or a closed group; a `?` may follow it once, making
it lazy.

The check is one left-to-right scan with a small state (`Scan`), so that a pattern's check splits
at any point into the scans of its two parts (`scanFrom_append`).

A pattern that passes the check can still fail to compile: libstdc++ builds an automaton for it
and throws `error_space` past `stateLimit` states. The scan also counts the states each
character inserts (`statesFrom`), and `compile` is the check followed by that bound; every pattern
of at most 19999 characters fits it (`nfaStates_le_of_length`). Errors are named by their code;
the library's message texts are not modelled.

Source: `src/src/CucumberExpression.cpp`, lines 57–63 (`validateRegex`, which constructs the
`std::regex`); the scan follows the ECMAScript grammar the library reads by default.
-/

namespace CucumberExpression

namespace Regex

/-- Where the scan stands between two characters. -/
inductive Mode where
  /-- Outside any class, with no pending `\`. -/
  | normal
  /-- After a `\` outside a class. -/
  | escape
  /-- Inside `[…]`. -/
  | klass
  /-- After a `\` inside a class. -/
  | klassEscape
  /-- Just after `(`. -/
  | groupOpen
  /-- Just after `(?`. -/
  | groupQuestion
  deriving DecidableEq, Repr

/-- What the last token was, for the quantifier rule. -/
inductive Last where
  /-- The start, `(`, `|` or an assertion: nothing to repeat. -/
  | boundary
  /-- An atom or a closed group. -/
  | atom
  /-- A quantifier, which a `?` may make lazy. -/
  | quantifier
  deriving DecidableEq, Repr

/-- The state of the scan: its mode, the number of open groups and the last token. -/
structure Scan where
  mode : Mode
  depth : Nat
  last : Last
  deriving DecidableEq, Repr

/-- The `std::regex_constants::error_type` codes `std::regex` reports on the patterns of this
compiler. -/
inductive RegexError where
  | paren
  | brack
  | escape
  | badrepeat
  | space
  deriving DecidableEq, Repr

/-- The text of the `regex_error`. The library's `what()` texts are its own choice; the model
names each error by its code. -/
def RegexError.what : RegexError → String
  | paren => "error_paren"
  | brack => "error_brack"
  | escape => "error_escape"
  | badrepeat => "error_badrepeat"
  | space => "error_space"

/-- A character read outside a class with no pending `\`. -/
def normalChar (s : Scan) (c : Char) : Except RegexError Scan :=
  if c = '\\' then .ok ⟨.escape, s.depth, s.last⟩
  else if c = '[' then .ok ⟨.klass, s.depth, s.last⟩
  else if c = '(' then .ok ⟨.groupOpen, s.depth + 1, .boundary⟩
  else if c = ')' then
    if s.depth = 0 then .error .paren else .ok ⟨.normal, s.depth - 1, .atom⟩
  else if c = '*' ∨ c = '+' ∨ c = '?' then
    match s.last with
    | .atom => .ok ⟨.normal, s.depth, .quantifier⟩
    | .quantifier => if c = '?' then .ok ⟨.normal, s.depth, .boundary⟩ else .error .badrepeat
    | .boundary => .error .badrepeat
  else if c = '|' ∨ c = '^' ∨ c = '$' then .ok ⟨.normal, s.depth, .boundary⟩
  else .ok ⟨.normal, s.depth, .atom⟩

/-- One character of the scan. -/
def scanChar (s : Scan) (c : Char) : Except RegexError Scan :=
  match s.mode with
  | .normal => normalChar s c
  | .escape => .ok ⟨.normal, s.depth, .atom⟩
  | .klass =>
    .ok (if c = ']' then ⟨.normal, s.depth, .atom⟩
      else if c = '\\' then ⟨.klassEscape, s.depth, s.last⟩ else s)
  | .klassEscape => .ok ⟨.klass, s.depth, s.last⟩
  | .groupOpen =>
    if c = '?' then .ok ⟨.groupQuestion, s.depth, s.last⟩
    else normalChar ⟨.normal, s.depth, .boundary⟩ c
  | .groupQuestion =>
    if c = ':' ∨ c = '=' ∨ c = '!' then .ok ⟨.normal, s.depth, .boundary⟩ else .error .paren

/-- The scan of a list of characters from a state. -/
def scanFrom : Scan → List Char → Except RegexError Scan
  | s, [] => .ok s
  | s, c :: cs => (scanChar s c).bind fun s => scanFrom s cs

/-- The error the end of the pattern reports, if any. -/
def finish (s : Scan) : Option RegexError :=
  match s.mode with
  | .normal => if s.depth = 0 then none else some .paren
  | .escape | .klassEscape => some .escape
  | .klass => some .brack
  | .groupOpen | .groupQuestion => some .paren

/-- The state at the start of a pattern. -/
def start : Scan := ⟨.normal, 0, .boundary⟩

/-- The syntax check: `none` when the pattern compiles. -/
def check (p : List Char) : Option RegexError :=
  match scanFrom start p with
  | .error e => some e
  | .ok s => finish s

/-! ### The size of the automaton -/

/-- `_GLIBCXX_REGEX_STATE_LIMIT`: libstdc++ compiles a pattern into an automaton and throws
`error_space` as soon as it would have more states. -/
def stateLimit : Nat := 100000

/-- The automaton states the compiler inserts for a character read outside a class with no
pending `\`, after a token of kind `last`. An atom is one matcher, `^` and `$` one assertion each,
`*` and `+` one repeat. The quantifier `?` is a repeat and a dummy; the `?` that makes a
quantifier lazy inserts nothing. A `|` inserts the dummy that ends the next alternative, the dummy
that joins the two and the branch. A `(` inserts the dummy that ends its first alternative; the
rest of the group is counted at the character after it. -/
def normalStates (last : Last) (c : Char) : Nat :=
  if c = '\\' ∨ c = ')' then 0
  else if c = '?' then (if last = .quantifier then 0 else 2)
  else if c = '|' then 3
  else 1

/-- The states inserted for one character of the scan. The character after `(` inserts the begin
and end of a capturing group; after `(?`, a `:` inserts the dummy of a non-capturing group and a
`=` or `!` the accept state and the lookahead. An escaped character and a class are one matcher,
counted at the escaped character and at the `[`. -/
def charStates (s : Scan) (c : Char) : Nat :=
  match s.mode with
  | .normal => normalStates s.last c
  | .escape => 1
  | .klass | .klassEscape => 0
  | .groupOpen => if c = '?' then 0 else 2 + normalStates .boundary c
  | .groupQuestion => if c = ':' then 1 else 2

/-- The states inserted for a piece of pattern read from a state of the scan, up to where the scan
fails. -/
def statesFrom : Scan → List Char → Nat
  | _, [] => 0
  | s, c :: cs => charStates s c +
    match scanChar s c with
    | .ok s' => statesFrom s' cs
    | .error _ => 0

/-- The states of the automaton for a pattern: the begin and the end of the whole match, the
accept state, the dummy that ends the first alternative, and those of its characters. -/
def nfaStates (p : List Char) : Nat :=
  4 + statesFrom start p

/-- `std::regex testRegex(regex)`: `none` when the pattern compiles. A syntax error is reported
first; a pattern whose automaton passes `stateLimit` fails with `error_space`. -/
def compile (p : List Char) : Option RegexError :=
  match check p with
  | some e => some e
  | none => if nfaStates p ≤ stateLimit then none else some .space

private theorem charStates_le (s : Scan) (c : Char) : charStates s c ≤ 5 := by
  unfold charStates normalStates
  split <;> (try split_ifs) <;> omega

private theorem statesFrom_le (s : Scan) (p : List Char) : statesFrom s p ≤ 5 * p.length := by
  induction p generalizing s with
  | nil => simp [statesFrom]
  | cons c p ih =>
    have hc := charStates_le s c
    simp only [statesFrom, List.length_cons]
    split
    · have := ih ‹_›
      omega
    · omega

/-- Every pattern of at most 19999 characters fits the state limit. -/
theorem nfaStates_le_of_length {p : List Char} (h : p.length ≤ 19999) :
    nfaStates p ≤ stateLimit := by
  have := statesFrom_le start p
  unfold nfaStates stateLimit
  omega

theorem compile_eq_none {p : List Char} :
    compile p = none ↔ check p = none ∧ nfaStates p ≤ stateLimit := by
  unfold compile
  cases check p <;> simp

theorem scanFrom_append (s : Scan) (a b : List Char) :
    scanFrom s (a ++ b) = (scanFrom s a).bind fun s => scanFrom s b := by
  induction a generalizing s with
  | nil => rfl
  | cons c a ih =>
    simp only [List.cons_append, scanFrom]
    cases scanChar s c <;> simp [ih]

theorem statesFrom_append (s : Scan) (a b : List Char) :
    statesFrom s (a ++ b) = statesFrom s a +
      match scanFrom s a with
      | .ok s' => statesFrom s' b
      | .error _ => 0 := by
  induction a generalizing s with
  | nil => simp [statesFrom, scanFrom]
  | cons c a ih =>
    simp only [List.cons_append, statesFrom, scanFrom]
    cases scanChar s c with
    | ok t => simp [ih, Nat.add_assoc]
    | error e => rfl

/-! ### The scan one group deeper -/

/-- The same state `k` groups deeper. -/
def Scan.shift (k : Nat) (s : Scan) : Scan :=
  ⟨s.mode, s.depth + k, s.last⟩

/-- A character `normalChar` does not test for is an atom. -/
private theorem normalChar_other {c : Char}
    (hc : c ∉ ['\\', '[', '(', ')', '*', '+', '?', '|', '^', '$']) (s : Scan) :
    normalChar s c = .ok ⟨.normal, s.depth, .atom⟩ := by
  simp only [List.mem_cons, List.not_mem_nil, or_false, not_or] at hc
  simp [normalChar, hc]

private theorem normalChar_shift {s s' : Scan} {c : Char} (k : Nat) (h : normalChar s c = .ok s') :
    normalChar (s.shift k) c = .ok (s'.shift k) := by
  by_cases hc : c ∈ ['\\', '[', '(', ')', '*', '+', '?', '|', '^', '$']
  · rcases s with ⟨m, d, l⟩
    simp only [List.mem_cons, List.not_mem_nil, or_false] at hc
    rcases hc with rfl | rfl | rfl | rfl | rfl | rfl | rfl | rfl | rfl | rfl <;> cases l <;>
      simp [normalChar] at h <;> (try split_ifs at h) <;> cases h <;>
      simp [normalChar, Scan.shift, *] <;> omega
  · rw [normalChar_other hc] at h
    cases h
    exact normalChar_other hc _

private theorem scanChar_shift {s s' : Scan} {c : Char} (k : Nat) (h : scanChar s c = .ok s') :
    scanChar (s.shift k) c = .ok (s'.shift k) := by
  rcases s with ⟨m, d, l⟩
  cases m with
  | normal => exact normalChar_shift k h
  | escape => cases h; rfl
  | klass =>
    simp only [scanChar, Scan.shift] at h ⊢
    cases h
    split_ifs <;> rfl
  | klassEscape => cases h; rfl
  | groupOpen =>
    simp only [scanChar, Scan.shift] at h ⊢
    split_ifs at h ⊢
    · cases h; rfl
    · exact normalChar_shift (s := ⟨.normal, d, .boundary⟩) k h
  | groupQuestion =>
    simp only [scanChar, Scan.shift] at h ⊢
    split_ifs at h ⊢
    cases h
    rfl

/-- A scan that does not fail runs the same way `k` groups deeper. -/
private theorem scanFrom_shift {s s' : Scan} {w : List Char} (k : Nat) (h : scanFrom s w = .ok s') :
    scanFrom (s.shift k) w = .ok (s'.shift k) := by
  induction w generalizing s with
  | nil => cases h; rfl
  | cons c w ih =>
    obtain ⟨t, ht, h⟩ := bind_eq_ok.mp h
    simp only [scanFrom, scanChar_shift k ht, bind_ok, ih h]

/-! ### Closed pieces of pattern -/

/-- A piece of pattern that, read at the top level of any group, ends at that level again. -/
def Closed (w : List Char) : Prop :=
  ∀ d l, ∃ l', scanFrom ⟨.normal, d, l⟩ w = .ok ⟨.normal, d, l'⟩

theorem closed_nil : Closed [] :=
  fun _ l => ⟨l, rfl⟩

theorem Closed.append {a b : List Char} (ha : Closed a) (hb : Closed b) : Closed (a ++ b) := by
  intro d l
  obtain ⟨l₁, h₁⟩ := ha d l
  obtain ⟨l₂, h₂⟩ := hb d l₁
  exact ⟨l₂, by rw [scanFrom_append, h₁, bind_ok, h₂]⟩

theorem closed_of_top {w : List Char}
    (h : ∀ l, ∃ l', scanFrom ⟨.normal, 0, l⟩ w = .ok ⟨.normal, 0, l'⟩) : Closed w := by
  intro d l
  obtain ⟨l', h'⟩ := h l
  exact ⟨l', by simpa [Scan.shift] using scanFrom_shift d h'⟩

/-- `(?:` followed by a closed piece: the scan is back at the top level, one group deeper. -/
private theorem scanFrom_group_open {w : List Char} (hw : Closed w) (d : Nat) (l : Last) :
    ∃ l', scanFrom ⟨.normal, d, l⟩ ("(?:".toList ++ w) = .ok ⟨.normal, d + 1, l'⟩ := by
  obtain ⟨l', h⟩ := hw (d + 1) .boundary
  exact ⟨l', by rw [scanFrom_append]; exact h⟩

theorem closed_group {w : List Char} (hw : Closed w) : Closed ("(?:".toList ++ w ++ [')']) := by
  intro d l
  obtain ⟨l', h⟩ := scanFrom_group_open hw d l
  exact ⟨.atom, by rw [scanFrom_append, h, bind_ok]; rfl⟩

theorem closed_optional {w : List Char} (hw : Closed w) :
    Closed ("(?:".toList ++ w ++ ")?".toList) := by
  intro d l
  obtain ⟨l', h⟩ := scanFrom_group_open hw d l
  exact ⟨.quantifier, by rw [scanFrom_append, h, bind_ok]; rfl⟩

theorem closed_intercalate {ws : List (List Char)} (h : ∀ w ∈ ws, Closed w) :
    Closed (List.intercalate ['|'] ws) := by
  induction ws with
  | nil => exact closed_nil
  | cons w ws ih =>
    cases ws with
    | nil => simpa [List.intercalate] using h w (by simp)
    | cons w' ws =>
      have hbar : Closed ['|'] := fun d l => ⟨.boundary, rfl⟩
      have hrest := ih fun v hv => h v (List.mem_cons_of_mem _ hv)
      simp only [List.intercalate, List.intersperse_cons₂, List.flatten_cons] at hrest ⊢
      exact (h w (by simp)).append (hbar.append hrest)

/-! ### The mode alone -/

/-- The mode a character outside a class leaves the scan in. -/
def normalMode (c : Char) : Mode :=
  if c = '\\' then .escape else if c = '[' then .klass else if c = '(' then .groupOpen else .normal

/-- The mode after one character, when the scan does not fail there. -/
def Mode.next : Mode → Char → Mode
  | .normal, c => normalMode c
  | .escape, _ => .normal
  | .klass, c => if c = ']' then .normal else if c = '\\' then .klassEscape else .klass
  | .klassEscape, _ => .klass
  | .groupOpen, c => if c = '?' then .groupQuestion else normalMode c
  | .groupQuestion, _ => .normal

/-- The mode after a piece of pattern. -/
def modeAfter (m : Mode) (w : List Char) : Mode :=
  w.foldl Mode.next m

@[simp] theorem modeAfter_nil (m : Mode) : modeAfter m [] = m := rfl

@[simp] theorem modeAfter_cons (m : Mode) (c : Char) (w : List Char) :
    modeAfter m (c :: w) = modeAfter (m.next c) w := rfl

@[simp] theorem modeAfter_append (m : Mode) (a b : List Char) :
    modeAfter m (a ++ b) = modeAfter (modeAfter m a) b := by
  simp [modeAfter, List.foldl_append]

private theorem normalChar_mode {s s' : Scan} {c : Char} (h : normalChar s c = .ok s') :
    s'.mode = normalMode c := by
  by_cases hc : c ∈ ['\\', '[', '(', ')', '*', '+', '?', '|', '^', '$']
  · rcases s with ⟨m, d, l⟩
    simp only [List.mem_cons, List.not_mem_nil, or_false] at hc
    rcases hc with rfl | rfl | rfl | rfl | rfl | rfl | rfl | rfl | rfl | rfl <;> cases l <;>
      simp [normalChar] at h <;> (try split_ifs at h) <;> cases h <;> rfl
  · rw [normalChar_other hc] at h
    cases h
    simp only [List.mem_cons, List.not_mem_nil, or_false, not_or] at hc
    simp [normalMode, hc]

theorem scanChar_mode {s s' : Scan} {c : Char} (h : scanChar s c = .ok s') :
    s'.mode = s.mode.next c := by
  rcases s with ⟨m, d, l⟩
  cases m with
  | normal => exact normalChar_mode h
  | escape => cases h; rfl
  | klass =>
    simp only [scanChar] at h
    cases h
    simp only [Mode.next]
    split_ifs <;> rfl
  | klassEscape => cases h; rfl
  | groupOpen =>
    simp only [scanChar, Mode.next] at h ⊢
    split_ifs at h ⊢
    · cases h; rfl
    · exact normalChar_mode h
  | groupQuestion =>
    simp only [scanChar] at h
    split_ifs at h
    cases h
    rfl

example : check "^(-?\\d+)$".toList = none := by decide

example : check "^(?:a (?:(?:a b)?c|d)$".toList = some .paren := by decide

example : nfaStates "^(-?\\d+)$".toList = 14 := by decide

end Regex

end CucumberExpression
