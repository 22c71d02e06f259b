import CucumberExpression.Pattern
import CucumberExpression.Regex

/-!
# The syntax check accepts every written tree

`validateRegex` has `std::regex` compile the anchored pattern. `Regex.check` models that check as
one scan over the pattern's characters. This file shows that the scan accepts the text of every
well-formed tree (`check_print`). The pattern `cukex::transform` writes for an expression is such
a text (`Compiler`), so `validateRegex` never raises on it.

The scan of a tree's text is built from the scans of its parts. A tree's text leaves the scan at
the depth where it started (`Regex.Closed`). An atom's text also leaves it just after an atom,
whatever came before, so a quantifier may follow (`ScansAsAtom`).

## Main results

* `scan_print`: the scan over a well-formed tree's text.
* `check_print`: `Regex.check` accepts the text of every well-formed disjunction.

Source: `src/src/CucumberExpression.cpp`, lines 57–63 (`validateRegex`).
-/

namespace CucumberExpression

namespace Pattern

open Regex

/-- A piece of pattern that, read at any depth after anything, ends at that depth just after an
atom. -/
def ScansAsAtom (w : List Char) : Prop :=
  ∀ d l, scanFrom ⟨.normal, d, l⟩ w = .ok ⟨.normal, d, .atom⟩

theorem ScansAsAtom.closed {w : List Char} (h : ScansAsAtom w) : Closed w :=
  fun d l => ⟨.atom, h d l⟩

private theorem scansAsAtom_escapeRegexChar (c : Char) : ScansAsAtom (escapeRegexChar c) := by
  intro d l
  unfold escapeRegexChar
  split_ifs with hc
  · rfl
  · simp only [IsRegexSpecial, List.mem_cons, List.mem_singleton, List.not_mem_nil, or_false,
      not_or] at hc
    simp [scanFrom, scanChar, normalChar, hc]

/-- A class item's text, read inside a class, leaves the scan inside the class. -/
private theorem scanFrom_classItems (d : Nat) (l : Last) :
    ∀ items : List ClassItem, scanFrom ⟨.klass, d, l⟩ (items.flatMap ClassItem.print) =
      .ok ⟨.klass, d, l⟩
  | [] => rfl
  | item :: items => by
    have hitem : scanFrom ⟨.klass, d, l⟩ item.print = .ok ⟨.klass, d, l⟩ := by
      rcases item with c | (_ | _)
      · rw [ClassItem.print]
        split_ifs with hc
        · rfl
        · simp only [not_or] at hc
          simp [scanFrom, scanChar, hc]
      all_goals rfl
    rw [List.flatMap_cons, scanFrom_append, hitem, bind_ok, scanFrom_classItems d l items]

private theorem scansAsAtom_klass (negated : Bool) (items : List ClassItem) :
    ScansAsAtom (Re.klass negated items).print := by
  intro d l
  have hopen : scanFrom ⟨.normal, d, l⟩ ('[' :: (if negated then ['^'] else [])) =
      .ok ⟨.klass, d, l⟩ := by
    cases negated <;> rfl
  rw [Re.print, ← List.cons_append, ← List.cons_append, scanFrom_append, scanFrom_append, hopen,
    bind_ok, scanFrom_classItems, bind_ok]
  rfl

/-- A group: `(` and a closed piece that does not start with `?`, then `)`. -/
private theorem scansAsAtom_group {w : List Char} (hw : Closed w) (hhead : w.head? ≠ some '?') :
    ScansAsAtom ('(' :: (w ++ [')'])) := by
  intro d l
  obtain ⟨l', h⟩ := hw (d + 1) .boundary
  have hinner : scanFrom ⟨.groupOpen, d + 1, .boundary⟩ (w ++ [')']) =
      scanFrom ⟨.normal, d + 1, .boundary⟩ (w ++ [')']) := by
    rcases w with _ | ⟨c, w⟩
    · rfl
    · simp only [List.head?_cons, ne_eq, Option.some.injEq] at hhead
      simp only [List.cons_append, scanFrom, scanChar, if_neg hhead]
  rw [scanFrom, show scanChar ⟨.normal, d, l⟩ '(' = .ok ⟨.groupOpen, d + 1, .boundary⟩ from rfl,
    bind_ok, hinner, scanFrom_append, h, bind_ok]
  rfl

/-- A group opened by `(?:` or `(?=`: a closed piece, then `)`. -/
private theorem scansAsAtom_extension {w : List Char} (hw : Closed w) {c : Char} (hc : c = ':' ∨ c = '=') :
    ScansAsAtom ('(' :: '?' :: c :: (w ++ [')'])) := by
  intro d l
  obtain ⟨l', h⟩ := hw (d + 1) .boundary
  have hopen : scanFrom ⟨.normal, d, l⟩ ['(', '?', c] = .ok ⟨.normal, d + 1, .boundary⟩ := by
    rcases hc with rfl | rfl <;> rfl
  calc scanFrom ⟨.normal, d, l⟩ ('(' :: '?' :: c :: (w ++ [')']))
      = scanFrom ⟨.normal, d, l⟩ (['(', '?', c] ++ w ++ [')']) := rfl
    _ = .ok ⟨.normal, d, .atom⟩ := by
      rw [scanFrom_append, scanFrom_append, hopen, bind_ok, h, bind_ok]
      rfl

private theorem closed_quantified {w : List Char} (hw : ScansAsAtom w) {c : Char}
    (hc : c = '*' ∨ c = '+' ∨ c = '?') : Closed (w ++ [c]) := by
  intro d l
  refine ⟨.quantifier, ?_⟩
  rw [scanFrom_append, hw d l, bind_ok]
  rcases hc with rfl | rfl | rfl <;> rfl

private theorem closed_boundary {c : Char} (hc : c = '|' ∨ c = '^' ∨ c = '$') : Closed [c] := by
  intro d l
  exact ⟨.boundary, by rcases hc with rfl | rfl | rfl <;> rfl⟩

/-- The text of a well-formed disjunction does not start with `?`: the reader would take `(?` for
a group extension. -/
private theorem print_head_ne_question {r : Re} (h : r.wellFormed .disjunction = true) :
    r.print.head? ≠ some '?' := by
  intro hhead
  obtain ⟨t, ht⟩ := List.head?_eq_some_iff.mp hhead
  have hread := read_print r .disjunction h [')'] (.inr rfl) _ le_rfl
  rw [readLevel, ht, List.cons_append, readDisjunction_question] at hread
  cases hread

/-- The scan over a well-formed tree's text ends at the depth it started from, and just after an
atom when the tree is an atom. -/
theorem scan_print (r : Re) : ∀ l, r.wellFormed l = true →
    Closed r.print ∧ (l = .atom → ScansAsAtom r.print) := by
  induction r with
  | empty =>
    intro l hl
    refine ⟨closed_nil, ?_⟩
    rintro rfl
    cases hl
  | char c => exact fun _ _ => ⟨(scansAsAtom_escapeRegexChar c).closed,
      fun _ => scansAsAtom_escapeRegexChar c⟩
  | any => exact fun _ _ => ⟨fun d l => ⟨.atom, rfl⟩, fun _ d l => rfl⟩
  | escape k => cases k <;> exact fun _ _ => ⟨fun d l => ⟨.atom, rfl⟩, fun _ d l => rfl⟩
  | klass negated items => exact fun _ _ => ⟨(scansAsAtom_klass negated items).closed,
      fun _ => scansAsAtom_klass negated items⟩
  | seq a b iha ihb =>
    intro l hl
    simp only [Re.wellFormed, Bool.and_eq_true] at hl
    refine ⟨(iha _ hl.1.2).1.append (ihb _ hl.2).1, ?_⟩
    rintro rfl
    cases hl.1.1
  | alt a b iha ihb =>
    intro l hl
    simp only [Re.wellFormed, Bool.and_eq_true, beq_iff_eq] at hl
    refine ⟨(iha _ hl.1.2).1.append ((closed_boundary (.inl rfl)).append (ihb _ hl.2).1), ?_⟩
    rintro rfl
    cases hl.1.1
  | group r ih =>
    intro l hl
    simp only [Re.wellFormed, Bool.and_eq_true] at hl
    have h := scansAsAtom_group (ih _ hl.2).1 (print_head_ne_question hl.2)
    exact ⟨h.closed, fun _ => h⟩
  | noncapturing r ih =>
    intro l hl
    simp only [Re.wellFormed, Bool.and_eq_true] at hl
    have h := scansAsAtom_extension (ih _ hl.2).1 (.inl rfl)
    exact ⟨h.closed, fun _ => h⟩
  | star r ih | plus r ih | opt r ih =>
    intro l hl
    simp only [Re.wellFormed, Bool.and_eq_true, beq_iff_eq] at hl
    refine ⟨closed_quantified ((ih _ hl.2).2 rfl) (by decide), ?_⟩
    rintro rfl
    cases hl.1
  | lookahead r ih =>
    intro l hl
    simp only [Re.wellFormed, Bool.and_eq_true, beq_iff_eq] at hl
    refine ⟨(scansAsAtom_extension (ih _ hl.2).1 (.inr rfl)).closed, ?_⟩
    rintro rfl
    cases hl.1
  | lineStart | lineEnd =>
    intro l hl
    refine ⟨closed_boundary (by decide), ?_⟩
    rintro rfl
    cases hl

/-- `Regex.check` accepts the text of every well-formed disjunction. -/
theorem check_print {r : Re} (h : r.wellFormed .disjunction = true) : check r.print = none := by
  obtain ⟨l, hl⟩ := (scan_print r _ h).1 0 .boundary
  rw [check, Regex.start, hl]
  rfl

end Pattern

end CucumberExpression
