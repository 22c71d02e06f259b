import CucumberExpression.Transform

/-!
# The alternation scans

At a `/` the parser does not reuse the tokens it has read: `collectAlternativesFromHere` reads the
expression again, backwards from just before the `/` and forwards from it, and
`parseAlternatives` then cuts the output buffer after its last space. This file states what the
two scans compute on plain words and where their reading of the expression parts from the
parser's.

* The backward scan stops only at a space, a `{` or a `(`, escaped or not, and takes `}` and `\`
  into the word (`backtrackWord_word`).
* The forward scan drops an escaped slash (`scanForward_escaped_slash`). A `/` right after a space
  yields a single alternative, so the word after it is read and nothing is written for it
  (`parseStep_drops_word_after_space`).
* An alternative is rendered character by character, so the backslash of an escape in it is
  written as a literal backslash (`parseAlternativeText_of_not_mem`).
* A `/` at position `0` makes the backward scan read index `2^64 - 1`
  (`transform_of_leading_slash`).

Each result is followed by the smallest expression on which it changes what `transform` returns,
derived from it.

Source: `src/src/CucumberExpression.cpp`, lines 75–120 (`parse`), 123–224
(`collectAlternativesFromHere`), 238–270 (`parseAlternativeText`) and 321–349
(`parseAlternatives`).
-/

namespace CucumberExpression

/-! ### The parser's steps -/

/-- A character the main loop copies as a literal. -/
theorem parseStep_of_plain {e : List Char} {s : ParserState} {c : Char}
    (hc : e[s.pos]? = some c) (h1 : c ≠ '\\') (h2 : c ≠ '{') (h3 : c ≠ '(') (h4 : c ≠ '/') :
    parseStep e s = .ok ⟨s.pos + 1, s.result ++ escapeRegexChar c⟩ := by
  simp [parseStep, readAt_eq_ok.mpr hc, h1, h2, h3, h4]

/-- `\c` with `c` escapable: one step over both characters. -/
theorem parseStep_of_escape {e : List Char} {s : ParserState} {c : Char}
    (h1 : e[s.pos]? = some '\\') (h2 : e[s.pos + 1]? = some c) (hc : IsEscapable c) :
    parseStep e s = .ok ⟨s.pos + 2, s.result ++ escapeRegexChar c⟩ := by
  have hlt : s.pos + 1 < e.length := (List.getElem?_eq_some_iff.mp h2).1
  rcases hc with rfl | rfl | rfl | rfl | rfl <;>
    simp [parseStep, readAt_eq_ok.mpr h1, readAt_eq_ok.mpr h2, hlt, IsEscapable, parseEscaping,
      escapeRegexChar, IsRegexSpecial]

/-- At an unescaped `/` the parser's step is `parseAlternatives`. -/
theorem parseStep_of_slash {e : List Char} {s : ParserState} (h : e[s.pos]? = some '/') :
    parseStep e s = parseAlternatives e s := by
  simp [parseStep, readAt_eq_ok.mpr h]

/-! ### Rendering an alternative -/

private theorem parseAlternativeTextFrom_of_not_mem {text : List Char} (h : '(' ∉ text) :
    ∀ fuel i result, text.length ≤ i + fuel →
      parseAlternativeTextFrom text fuel i result =
        .ok (result ++ escapeRegexChars (text.drop i)) := by
  intro fuel
  induction fuel with
  | zero =>
    intro i result hi
    simp [parseAlternativeTextFrom, show ¬ i < text.length by omega,
      List.drop_eq_nil_of_le (show text.length ≤ i by omega), escapeRegexChars]
  | succ fuel ih =>
    intro i result hi
    by_cases hlt : i < text.length
    · have hc : text[i] ≠ '(' := fun hc => h (hc ▸ List.getElem_mem hlt)
      simp only [parseAlternativeTextFrom, if_pos hlt, readAt_of_lt hlt, bind_ok, if_neg hc]
      rw [ih (i + 1) _ (by omega), List.drop_eq_getElem_cons hlt]
      simp only [escapeRegexChars, List.flatMap_cons, List.append_assoc]
    · simp [parseAlternativeTextFrom, hlt,
        List.drop_eq_nil_of_le (show text.length ≤ i by omega), escapeRegexChars]

/-- An alternative without `(` is written as its characters, each escaped on its own: an escape
`\/` in it becomes the two atoms `\\` and `/`. -/
theorem parseAlternativeText_of_not_mem {text : List Char} (h : '(' ∉ text) :
    parseAlternativeText text = .ok (escapeRegexChars text) := by
  simpa using parseAlternativeTextFrom_of_not_mem h (text.length + 1) 0 [] (by omega)

/-! ### The backward scan -/

/-- A character the backward scan takes into the word and reads past. -/
def IsWordChar (c : Char) : Prop :=
  c ≠ ' ' ∧ c ≠ '{' ∧ c ≠ '(' ∧ c ≠ ')'

/-- A character at which the backward scan stops without taking it. -/
def IsWordStop (c : Char) : Prop :=
  c = ' ' ∨ c = '{' ∨ c = '('

/-- From the end of a run of word characters, the backward scan returns the run, provided it
starts the expression or follows a space, a `{` or a `(`. -/
theorem backtrackWord_word {e : List Char} {start : Nat}
    (hstop : start = 0 ∨ ∃ b, e[start - 1]? = some b ∧ IsWordStop b) :
    ∀ n fuel current, n + 1 + min start 1 ≤ fuel →
      (∀ m, start ≤ m → m ≤ start + n → ∃ a, e[m]? = some a ∧ IsWordChar a) →
      backtrackWord e fuel (start + n) current = .ok (substr e start (n + 1) ++ current) := by
  intro n
  induction n with
  | zero =>
    intro fuel current hfuel hword
    obtain ⟨a, ha, h1, h2, h3, h4⟩ := hword start le_rfl (by omega)
    obtain ⟨fuel, rfl⟩ : ∃ f, fuel = f + 1 := ⟨fuel - 1, by omega⟩
    have hsub : substr e start 1 = [a] := by simpa using substr_succ (n := 0) (by simpa using ha)
    simp only [Nat.add_zero, backtrackWord, readAt_eq_ok.mpr ha, bind_ok, h1, h2, h3, h4,
      false_or, if_false, hsub, List.singleton_append]
    by_cases hpos : start = 0
    · simp [hpos]
    · obtain ⟨b, hb, hbs⟩ := hstop.resolve_left hpos
      obtain ⟨fuel, rfl⟩ : ∃ f, fuel = f + 1 := ⟨fuel - 1, by omega⟩
      simp only [hpos, if_false, backtrackWord, readAt_eq_ok.mpr hb, bind_ok]
      rcases hbs with rfl | rfl | rfl <;> simp
  | succ n ih =>
    intro fuel current hfuel hword
    obtain ⟨a, ha, h1, h2, h3, h4⟩ := hword (start + (n + 1)) (by omega) le_rfl
    obtain ⟨fuel, rfl⟩ : ∃ f, fuel = f + 1 := ⟨fuel - 1, by omega⟩
    simp only [backtrackWord, readAt_eq_ok.mpr ha, bind_ok, h1, h2, h3, h4, false_or, if_false,
      show start + (n + 1) ≠ 0 by omega, show start + (n + 1) - 1 = start + n by omega]
    rw [ih fuel (a :: current) (by omega) fun m h1 h2 => hword m h1 (by omega),
      substr_succ (show e[start + (n + 1)]? = some a from ha)]
    simp

/-- The backward scan takes an escape `\/` into the first alternative as its two characters, and
the alternative is rendered character by character, the backslash as the atom `\\`. -/
theorem transform_escaped_slash_in_first_alternative :
    backtrackWord "a\\/b/c".toList 4 3 [] = .ok "a\\/b".toList ∧
      parseAlternativeText "a\\/b".toList = .ok "a\\\\/b".toList ∧
      transform "a\\/b/c".toList = .ok "^(?:a\\\\/b|c)$".toList :=
  ⟨backtrackWord_word (.inl rfl) 3 4 [] (by decide) (fun m _ hm => by
      rcases m with _ | _ | _ | _ | m <;> first | omega | exact ⟨_, rfl, by simp [IsWordChar]⟩),
    (parseAlternativeText_of_not_mem (by decide)).trans rfl, rfl⟩

/-- The backward scan reads `}` as a word character: before a `/`, the text of a parameter is
taken into the first alternative, and the cut removes the parameter's group. -/
theorem transform_parameter_before_word :
    backtrackWord "\x7bint\x7dx/y".toList 6 5 [] = .ok "int\x7dx".toList ∧
      transform "\x7bint\x7dx/y".toList = .ok "^(?:int\\\x7dx|y)$".toList :=
  ⟨backtrackWord_word (.inr ⟨_, rfl, .inr (.inl rfl)⟩) 4 6 [] (by decide) (fun m hm hm' => by
      rcases m with _ | _ | _ | _ | _ | _ | m <;>
        first | omega | exact ⟨_, rfl, by simp [IsWordChar]⟩), rfl⟩

/-- The backward scan stops at an escaped `(` as at any other; the cut then clears the buffer,
which held the escape's output `\(`. -/
theorem transform_cut_erases_escaped_paren :
    parseStep "\\(x/y".toList ⟨0, []⟩ = .ok ⟨2, "\\(".toList⟩ ∧
      backtrackWord "\\(x/y".toList 3 2 [] = .ok "x".toList ∧
      transform "\\(x/y".toList = .ok "^(?:x|y)$".toList :=
  ⟨(parseStep_of_escape (c := '(') rfl rfl (by simp [IsEscapable])).trans rfl,
    backtrackWord_word (.inr ⟨_, rfl, .inr (.inr rfl)⟩) 0 3 [] (by decide) (fun m hm hm' => by
      obtain rfl : m = 2 := by omega
      exact ⟨_, rfl, by simp [IsWordChar]⟩), rfl⟩

/-! ### The forward scan -/

/-- A character the forward scan appends to the word in progress and reads past. -/
def IsForwardChar (c : Char) : Prop :=
  c ≠ ' ' ∧ c ≠ '{' ∧ c ≠ '(' ∧ c ≠ '\\' ∧ c ≠ '/'

private theorem scanForward_word {e : List Char} :
    ∀ n fuel p current alternatives,
      (∀ m, p ≤ m → m < p + n → ∃ a, e[m]? = some a ∧ IsForwardChar a) →
      scanForward e (fuel + n) p current alternatives =
        scanForward e fuel (p + n) (current ++ substr e p n) alternatives := by
  intro n
  induction n with
  | zero => simp [substr]
  | succ n ih =>
    intro fuel p current alternatives hword
    obtain ⟨a, ha, h1, h2, h3, h4, h5⟩ := hword p le_rfl (by omega)
    have hlt : p < e.length := (List.getElem?_eq_some_iff.mp ha).1
    rw [show fuel + (n + 1) = (fuel + n) + 1 by omega]
    simp only [scanForward, if_pos hlt, readAt_eq_ok.mpr ha, bind_ok, h1, h2, h3, h4, h5,
      false_or, false_and, if_false]
    rw [ih fuel (p + 1) _ _ fun m hm1 hm2 => hword m (by omega) (by omega),
      substr_cons ha, show p + 1 + n = p + (n + 1) by omega]
    simp

theorem scanForward_stop {e : List Char} {p : Nat}
    (hstop : e.length ≤ p ∨ e[p]? = some ' ' ∨ e[p]? = some '{')
    (fuel : Nat) (current : List Char) (alternatives : List (List Char)) :
    scanForward e (fuel + 1) p current alternatives = .ok (p, current, alternatives) := by
  rcases hstop with hp | hp | hp
  · simp [scanForward, show ¬ p < e.length by omega]
  all_goals
    have hlt : p < e.length := (List.getElem?_eq_some_iff.mp hp).1
    simp [scanForward, hlt, readAt_eq_ok.mpr hp]

theorem scanForward_separator {e : List Char} {p : Nat} (hp : e[p]? = some '/')
    (fuel : Nat) (current : List Char) (alternatives : List (List Char)) :
    scanForward e (fuel + 1) p current alternatives =
      scanForward e fuel (p + 1) [] (if current = [] then alternatives else alternatives ++ [current]) := by
  have hlt : p < e.length := (List.getElem?_eq_some_iff.mp hp).1
  simp [scanForward, hlt, readAt_eq_ok.mpr hp]

/-- `\/` inside a word adds nothing to the alternative in progress: both characters are skipped
(the source puts the slash into `allWords`, which it never reads). -/
theorem scanForward_escaped_slash {e : List Char} {p : Nat} (hb : e[p]? = some '\\')
    (hs : e[p + 1]? = some '/') (fuel : Nat) (current : List Char)
    (alternatives : List (List Char)) :
    scanForward e (fuel + 1) p current alternatives =
      scanForward e fuel (p + 2) current alternatives := by
  have hlt : p + 1 < e.length := (List.getElem?_eq_some_iff.mp hs).1
  simp [scanForward, show p < e.length by omega, readAt_eq_ok.mpr hb, hlt, hs]

/-- After a `/`, the forward scan steps over `\/` and the alternative loses it. -/
theorem transform_escaped_slash_in_later_alternative :
    scanForward "a/b\\/c".toList 5 3 "b".toList ["a".toList] =
        scanForward "a/b\\/c".toList 4 5 "b".toList ["a".toList] ∧
      transform "a/b\\/c".toList = .ok "^(?:a|bc)$".toList ∧
      transform "a/bxc".toList = .ok "^(?:a|bxc)$".toList :=
  ⟨scanForward_escaped_slash rfl rfl _ _ _, rfl, rfl⟩

/-- A `/` right after a space, followed by a word and then a space, a `{` or the end: the
backward scan finds no first alternative, the forward scan finds one, and the parser moves past
the word without writing anything for it. -/
theorem parseStep_drops_word_after_space {e result : List Char} {p n : Nat}
    (hsp : e[p]? = some ' ') (hsl : e[p + 1]? = some '/')
    (hword : ∀ m, p + 2 ≤ m → m < p + 2 + n → ∃ a, e[m]? = some a ∧ IsForwardChar a)
    (hend : e.length ≤ p + 2 + n ∨ e[p + 2 + n]? = some ' ' ∨ e[p + 2 + n]? = some '{')
    (hres : result ≠ []) (hlen : e.length < 2 ^ 64) :
    parseStep e ⟨p + 1, result⟩ = .ok ⟨p + 2 + n, result⟩ := by
  have hlt : p + 1 < e.length := (List.getElem?_eq_some_iff.mp hsl).1
  have hmod : (p + 1 + 2 ^ 64 - 1) % 2 ^ 64 = p := by
    rw [show p + 1 + 2 ^ 64 - 1 = p + 2 ^ 64 by omega, Nat.add_mod_right]
    exact Nat.mod_eq_of_lt (by omega)
  have hback : backtrackWord e (p + 1) p [] = .ok [] := by
    simp [backtrackWord, readAt_eq_ok.mpr hsp]
  have hword' : ∀ m, p + 2 ≤ m → m < p + 2 + n → m < e.length := fun m h1 h2 => by
    obtain ⟨a, ha, -⟩ := hword m h1 h2
    exact (List.getElem?_eq_some_iff.mp ha).1
  have hge : p + 2 + n ≤ e.length := by
    rcases n with _ | n
    · omega
    · have := hword' (p + 2 + n) (by omega) (by omega)
      omega
  obtain ⟨fuel, hfuel⟩ : ∃ f, e.length = f + 1 + n := ⟨e.length - 1 - n, by omega⟩
  have hscan : scanForward e (e.length + 1) (p + 1) [] [] =
      .ok (p + 2 + n, substr e (p + 2) n, []) := by
    rw [hfuel, show fuel + 1 + n + 1 = (fuel + 1 + n) + 1 by omega, scanForward_separator hsl,
      if_pos rfl, show fuel + 1 + n = (fuel + 1) + n by omega,
      scanForward_word n (fuel + 1) (p + 1 + 1) [] [] fun m h1 h2 => hword m h1 (by omega),
      show p + 1 + 1 + n = p + 2 + n by omega, scanForward_stop hend]
    rfl
  have hcollect : collectAlternativesFromHere e p =
      .ok ((if substr e (p + 2) n = [] then [] else [substr e (p + 2) n]), p + 2 + n) := by
    rw [collectAlternativesFromHere, hback, bind_ok, Nat.mod_eq_of_lt (show p + 1 < 2 ^ 64 by omega),
      if_pos rfl, hscan]
    rfl
  have hlen1 : ¬ (if substr e (p + 2) n = [] then [] else [substr e (p + 2) n]).length > 1 := by
    split <;> simp
  simp only [@parseStep_of_slash e ⟨p + 1, result⟩ hsl, parseAlternatives, backtrackWordEnd_bind,
    hres, false_and, if_false, hmod, hcollect, bind_ok, hlen1]

/-- Text lost and text written twice. In `x /b` the `/` follows a space, so the parser steps
over `b` and writes nothing for it. In `a\)b/c` the backward scan reads the escaped `)` as the end
of a parenthesised span, takes everything back to index `0` into the span, and then reads index
`0` once more: the first alternative is `aa\)b`. -/
theorem transform_drops_word_after_space :
    parseStep "x /b".toList ⟨2, "x ".toList⟩ = .ok ⟨4, "x ".toList⟩ ∧
      transform "x /b".toList = .ok "^x $".toList ∧
      transform "a\\)b/c".toList = .ok "^(?:aa\\\\\\)b|c)$".toList :=
  ⟨parseStep_drops_word_after_space (p := 1) (n := 1) rfl rfl (fun m hm hm' => by
      obtain rfl : m = 3 := by omega
      exact ⟨_, rfl, by simp [IsForwardChar]⟩) (.inl le_rfl) (by decide) (by decide), rfl, rfl⟩

/-! ### A leading `/` -/

/-- At a `/` in position `0` the parser calls `collectAlternativesFromHere(pos - 1)` with
`pos - 1 = 2^64 - 1`, and the backward scan reads that index at once. -/
theorem transform_of_leading_slash {e : List Char} (h0 : e[0]? = some '/')
    (hlen : e.length < 2 ^ 64) (hv : validate e = .ok ()) :
    transform e = .error (.outOfRange (2 ^ 64 - 1)) := by
  have hne : e ≠ [] := by rintro rfl; simp at h0
  have hpos : 0 < e.length := List.length_pos.mpr hne
  have hcollect : collectAlternativesFromHere e (2 ^ 64 - 1) =
      .error (.outOfRange (2 ^ 64 - 1)) := by
    rw [collectAlternativesFromHere, backtrackWord, readAt_of_le (by omega)]
    rfl
  have hstep : parseStep e ⟨0, []⟩ = .error (.outOfRange (2 ^ 64 - 1)) := by
    simp only [@parseStep_of_slash e ⟨0, []⟩ h0, parseAlternatives, backtrackWordEnd_bind,
      Nat.lt_irrefl, and_false, if_false, show (0 + 2 ^ 64 - 1) % 2 ^ 64 = 2 ^ 64 - 1 by decide,
      hcollect, bind_error]
  rw [transform_of_validate_ok hne hv, parseAndAnchor, parse, parseLoop, if_pos hpos, hstep]
  rfl

theorem transform_leading_slash_reads_out_of_range :
    transform "/test".toList = .error (.outOfRange (2 ^ 64 - 1)) :=
  transform_of_leading_slash rfl (by decide) rfl

end CucumberExpression
