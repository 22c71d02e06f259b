import CucumberExpression.Substitution
import CucumberExpression.ScanModes
import CucumberExpression.PatternValidity

/-!
# Literal characters

Take a literal character `c` of an expression: not a space, not one of `( ) { } /`, not the
backslash of an escape, not inside a parameter the parser opens. It should reach the pattern as
that character, escaped when it is a regex metacharacter, whatever its context. This file proves
it by comparing two runs of `transform`. The first is on the expression, the second on the
expression with the literal replaced by a fresh letter `x`.

The parser takes the same steps in both runs (`parse_restore`). The validator accepts both or
neither (`validate_restore`). The regex check meets every `x` of the pattern in normal mode, as an
atom (`parse_neutral`). There the escaped literal reads the same and is one state of the
automaton, so `std::regex` compiles both patterns alike (`compile_restore`).

Two conditions go beyond the literal being one (`transform_restore_literal_fails`):

* `x` must not be a letter of a registered fragment (`d`, `s`, `E`). Putting the literal back
  where `x` stands would change the fragment too.
* "Inside a parameter" is the parser's reading, not the syntax's. The forward scan of an
  alternation stops at any `{`, escaped or not, and the parser then opens a parameter there: in
  `a/b\{int\}` the `i` is a literal of the syntax, yet it is read into a parameter's name.

## Main definitions

* `IsLiteral`: the character at an index is a literal of the expression.

## Main results

* `transform_restore`: the two runs, for a letter in a `LiteralSlot`.
* `transform_restore_literal`: the law for one literal of an expression, with its consequence for
  the anchors.

Source: `src/src/CucumberExpression.cpp`, lines 226–235 (`escapeRegexChars`), 57–63
(`validateRegex`) and 352–413 (`transform`).
-/

namespace CucumberExpression

open Regex

/-- An escaped or plain character, read as an atom in normal mode. -/
private theorem scanFrom_escapeRegexChar (c : Char) (d : Nat) (l : Last) :
    scanFrom ⟨.normal, d, l⟩ (escapeRegexChar c) = .ok ⟨.normal, d, .atom⟩ := by
  unfold escapeRegexChar
  split_ifs with hc
  · rfl
  · simp [scanFrom, scanChar, normalChar_of_not_special hc]

/-- An escaped or plain character is one matcher of the automaton. -/
private theorem statesFrom_escapeRegexChar (c : Char) (d : Nat) (l : Last) :
    statesFrom ⟨.normal, d, l⟩ (escapeRegexChar c) = 1 := by
  unfold escapeRegexChar
  split_ifs with hc
  · rfl
  · simp only [IsRegexSpecial, List.mem_cons, List.mem_singleton, List.not_mem_nil, or_false,
      not_or] at hc
    simp [statesFrom, charStates, normalStates, scanChar, normalChar, hc]

/-- The scan reads the escaped literal where it would read `x`, if it meets every `x` in normal
mode, and the automaton has the same states for both. -/
private theorem scanFrom_restore {x : Char} (c : Char) (hx : x.isAlpha = true) :
    ∀ (w : List Char) (s : Scan), ReadsWith (fun a m => a = x → m = .normal) s.mode w →
      scanFrom s (w.flatMap (restoreRegex x c)) = scanFrom s w ∧
        statesFrom s (w.flatMap (restoreRegex x c)) = statesFrom s w
  | [], _, _ => ⟨rfl, rfl⟩
  | a :: w, s, ⟨ha, hw⟩ => by
    by_cases hax : a = x
    · subst hax
      obtain ⟨m, d, l⟩ := s
      obtain rfl : m = .normal := ha rfl
      have hn : scanChar ⟨.normal, d, l⟩ a = .ok ⟨.normal, d, .atom⟩ :=
        normalChar_of_not_special (not_special_of_isAlpha hx) _
      have ha1 : charStates ⟨.normal, d, l⟩ a = 1 := by
        have := not_special_of_isAlpha hx
        simp only [IsRegexSpecial, List.mem_cons, List.mem_singleton, List.not_mem_nil, or_false,
          not_or] at this
        simp [charStates, normalStates, this]
      have ih := scanFrom_restore c hx w _ (by rw [← scanChar_mode hn] at hw; exact hw)
      rw [List.flatMap_cons, restoreRegex, if_pos rfl, scanFrom_append, scanFrom_escapeRegexChar,
        bind_ok, statesFrom_append, scanFrom_escapeRegexChar, statesFrom_escapeRegexChar]
      simp only [scanFrom, statesFrom, hn, bind_ok, ha1, ih, and_self]
    · rw [List.flatMap_cons, restoreRegex, if_neg hax, List.singleton_append]
      simp only [scanFrom, statesFrom]
      cases hsc : scanChar s a with
      | error e => exact ⟨rfl, rfl⟩
      | ok t =>
        have ih := scanFrom_restore c hx w t (by rw [scanChar_mode hsc]; exact hw)
        simp only [bind_ok, ih, and_self]

private theorem anchor_restore {x : Char} (c : Char) (hx : x.isAlpha = true) (p : List Char) :
    anchor (p.flatMap (restoreRegex x c)) = (anchor p).flatMap (restoreRegex x c) := by
  have hcaret : restoreRegex x c '^' = ['^'] := if_neg fun h => absurd (h ▸ hx) (by decide)
  have hdollar : restoreRegex x c '$' = ['$'] := if_neg fun h => absurd (h ▸ hx) (by decide)
  simp [anchor, hcaret, hdollar]

/-- `std::regex` compiles the two anchored patterns alike: the same syntax error, or automata of
the same size. -/
theorem compile_restore {x : Char} (c : Char) (hx : x.isAlpha = true) {p : List Char}
    (hp : Neutral (Plain x) p) :
    compile (anchor (p.flatMap (restoreRegex x c))) = compile (anchor p) := by
  have hne (t : Char) (ht : t.isAlpha = false) : t ≠ x := fun h => absurd (h ▸ ht) (by simp [hx])
  have hr : ReadsWith (fun a m => a = x → m = .normal) start.mode (anchor p) := by
    rw [anchor, readsWith_append, readsWith_append]
    refine ⟨⟨⟨fun h => absurd h (hne '^' rfl), trivial⟩, hp.reads.mono fun _ _ _ h => h.2⟩, ?_⟩
    simp only [modeAfter_append, show modeAfter start.mode ['^'] = .normal from rfl, hp.ends]
    exact ⟨fun h => absurd h (hne '$' rfl), trivial⟩
  obtain ⟨hscan, hstates⟩ := scanFrom_restore c hx _ _ hr
  unfold compile check nfaStates
  rw [anchor_restore c hx, hscan, hstates]

section Slot

variable {ex : List Char} {x c : Char} (hs : LiteralSlot ex x c)
include hs

private theorem parseAndAnchor_restore :
    parseAndAnchor (ex.map (restore x c)) =
      (parseAndAnchor ex).map (List.flatMap · (restoreRegex x c)) := by
  unfold parseAndAnchor
  rw [parse_restore hs]
  cases hp : parse ex with
  | error f => rfl
  | ok p =>
    have hv : validateRegex (anchor (p.flatMap (restoreRegex x c))) = validateRegex (anchor p) := by
      unfold validateRegex
      rw [compile_restore c hs.letter (parse_neutral hs.letter hs.not_fragment hp)]
    simp only [except_map_ok, bind_ok, hv]
    cases validateRegex (anchor p) with
    | error f => rfl
    | ok u => exact congrArg Except.ok (anchor_restore c hs.letter p)

/-- `transform` on the expression is `transform` on `ex`, with the literal, escaped when it is a
metacharacter, where `x` stands; an error is the same error. -/
theorem transform_restore :
    transform (ex.map (restore x c)) = (transform ex).map (List.flatMap · (restoreRegex x c)) := by
  unfold transform
  simp only [List.map_eq_nil_iff, validate_restore hs, parseAndAnchor_restore hs]
  split_ifs
  · rfl
  · cases validate ex with
    | error f => rfl
    | ok u => cases parseAndAnchor ex <;> rfl

end Slot

/-- The character at `k` is a literal `c` of `e`. It is not a space and not one of `( ) { } /`.
It is not the backslash of an escape. No `{` before it where the parser's cursor stands lacks a
`}` between the two. -/
structure IsLiteral (e : List Char) (k : Nat) (c : Char) : Prop where
  at_k : e[k]? = some c
  not_space : c ≠ ' '
  not_escapable : ¬ IsEscapable c
  not_escape : c = '\\' → ∀ n ∈ e[k + 1]?, ¬ IsEscapable n
  outside_braces : ∀ p, p < k → p ∈ cursors e → e[p]? = some '{' →
    ∃ j, j < k ∧ p < j ∧ e[j]? = some '}'

instance (e : List Char) (k : Nat) (c : Char) : Decidable (IsLiteral e k c) :=
  decidable_of_iff (e[k]? = some c ∧ c ≠ ' ' ∧ ¬ IsEscapable c ∧
      (c = '\\' → ∀ n ∈ e[k + 1]?, ¬ IsEscapable n) ∧
      ∀ p, p < k → p ∈ cursors e → e[p]? = some '{' → ∃ j, j < k ∧ p < j ∧ e[j]? = some '}')
    ⟨fun ⟨h₁, h₂, h₃, h₄, h₅⟩ => ⟨h₁, h₂, h₃, h₄, h₅⟩, fun h => ⟨h.1, h.2, h.3, h.4, h.5⟩⟩

section Set

variable {e : List Char} {k : Nat} {x : Char}

/-- A letter absent from `e` stands in `e.set k x` only at `k`. -/
private theorem eq_of_getElem?_set (hxe : x ∉ e) {i : Nat} (h : (e.set k x)[i]? = some x) : i = k := by
  by_contra hik
  rw [List.getElem?_set_ne (Ne.symm hik)] at h
  exact hxe (List.getElem?_mem h)

private theorem map_restore_set {c : Char} (hk : e[k]? = some c) (hxe : x ∉ e) :
    (e.set k x).map (restore x c) = e := by
  apply List.ext_getElem?
  intro i
  rw [List.getElem?_map, List.getElem?_set]
  by_cases hik : k = i
  · subst hik
    simp [(List.getElem?_eq_some_iff.mp hk).1, hk, restore]
  · rw [if_neg hik]
    cases hi : e[i]? with
    | none => rfl
    | some a =>
      have hax : a ≠ x := fun h => hxe (h ▸ List.getElem?_mem hi)
      simp [restore, hax]

/-- A fresh letter written over a literal stands in a `LiteralSlot`. -/
private theorem IsLiteral.slot {c : Char} (hl : IsLiteral e k c) (hx : x.isAlpha = true) (hxe : x ∉ e)
    (hf : ¬ InFragment x) : LiteralSlot (e.set k x) x c where
  letter := hx
  not_fragment := hf
  not_space := hl.not_space
  not_escapable := hl.not_escapable
  backslash hc i hi n hn := by
    obtain rfl := eq_of_getElem?_set hxe hi
    rw [List.getElem?_set_ne (by omega)] at hn
    exact hl.not_escape hc n hn
  outside_braces i hi p hp hcur hbrace := by
    obtain rfl := eq_of_getElem?_set hxe hi
    rw [map_restore_set hl.at_k hxe] at hcur
    rw [List.getElem?_set_ne (by omega)] at hbrace
    obtain ⟨j, hjk, hpj, hj⟩ := hl.outside_braces p hp hcur hbrace
    exact ⟨j, hpj, hjk, by rwa [List.getElem?_set_ne (by omega)]⟩

end Set

/-- Replace a literal `c` of `e` by a fresh letter `x` that no fragment contains. Then `transform e`
is `transform` of the new expression with `c` written back, escaped when it is a metacharacter,
for every `x`. It fails exactly when that fails, with the same error. And a pattern `transform`
returns is `^p$`, where `p` meets every `^` and `$` escaped or inside a class and ends outside any
class and escape. So its only anchors are the first `^` and the last `$`. -/
theorem transform_restore_literal {e : List Char} {k : Nat} {c x : Char} (hl : IsLiteral e k c)
    (hx : x.isAlpha = true) (hxe : x ∉ e) (hf : ¬ InFragment x) :
    transform e = (transform (e.set k x)).map (List.flatMap · (restoreRegex x c)) ∧
      ∀ r, transform e = .ok r → ∃ p, r = anchor p ∧ Neutral Quiet p := by
  refine ⟨(congrArg transform (map_restore_set hl.at_k hxe)).symm.trans
    (transform_restore (hl.slot hx hxe hf)), fun r hr => ?_⟩
  obtain ⟨-, -, p, hp, -, rfl⟩ := transform_eq_ok.mp hr
  exact ⟨p, rfl, (parse_neutral hx hf hp).quiet⟩

theorem transform_restore_literal_braces :
    IsLiteral "I have \\\x7bliteral\\\x7d braces".toList 9 'l' ∧
      (transform "I have \\\x7bliteral\\\x7d braces".toList =
          (transform ("I have \\\x7bliteral\\\x7d braces".toList.set 9 'q')).map
            (List.flatMap · (restoreRegex 'q' 'l')) ∧
        ∀ r, transform "I have \\\x7bliteral\\\x7d braces".toList = .ok r →
          ∃ p, r = anchor p ∧ Neutral Quiet p) :=
  ⟨by decide, transform_restore_literal (by decide) (by decide) (by decide) (by decide)⟩

/-- The law fails in two ways. With `x = d`, a letter of the fragment of `{int}`, writing the
literal back where `x` stands also rewrites the fragment's `\d`. In `a/b\{int\}` both braces are
escaped, yet the forward scan of the alternation stops at the `{` and the parser opens a
parameter there, so the name of the unknown type follows the renamed `i`. -/
theorem transform_restore_literal_fails :
    (IsLiteral "a\x7bint\x7d".toList 0 'a' ∧ 'd' ∉ "a\x7bint\x7d".toList ∧
      transform "a\x7bint\x7d".toList = .ok "^a(-?\\d+)$".toList ∧
      (transform ("a\x7bint\x7d".toList.set 0 'd')).map (List.flatMap · (restoreRegex 'd' 'a')) =
        .ok "^a(-?\\a+)$".toList) ∧
    ("a/b\\\x7bint\\\x7d".toList[3]? = some '\\' ∧ "a/b\\\x7bint\\\x7d".toList[4]? = some '{' ∧
      "a/b\\\x7bint\\\x7d".toList[8]? = some '\\' ∧ "a/b\\\x7bint\\\x7d".toList[9]? = some '}' ∧
      "a/b\\\x7bint\\\x7d".toList[5]? = some 'i' ∧ 'q' ∉ "a/b\\\x7bint\\\x7d".toList ∧
      4 ∈ cursors "a/b\\\x7bint\\\x7d".toList ∧ ¬ IsLiteral "a/b\\\x7bint\\\x7d".toList 5 'i' ∧
      transform "a/b\\\x7bint\\\x7d".toList = .error (.thrown (.base
        "Invalid Cucumber expression: Unknown parameter type: \x7bint\\\x7d")) ∧
      (transform ("a/b\\\x7bint\\\x7d".toList.set 5 'q')).map (List.flatMap · (restoreRegex 'q' 'i')) =
        .error (.thrown (.base "Invalid Cucumber expression: Unknown parameter type: \x7bqnt\\\x7d"))) :=
  ⟨⟨by decide, by decide, rfl, rfl⟩, by decide, by decide, by decide, by decide, by decide, by decide,
    by decide, by decide, rfl, rfl⟩

end CucumberExpression
