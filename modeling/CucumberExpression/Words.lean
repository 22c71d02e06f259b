import CucumberExpression.Meaning
import CucumberExpression.Alternation

/-!
# The words of an alternation

At the `/` after the first word of an alternation, `parseAlternatives` has
`collectAlternativesFromHere` read all the words again. It reads the first word backwards
(`backtrackWord`, with `backtrackParen` over an optional text) and the other words forwards
(`scanForward`). `parseAlternativeText` then renders each word. Before the `/`, the main loop of
`parse` has already copied the first word into the buffer. This file runs each of these loops
over words of well-formed pieces (`Piece`) that stand at a known place of the expression
(`OccursAt`).

## Main results

* `parseLoop_word`: before the `/`, the main loop copies the first word piece by piece.
* `backtrackWord_printWord`: the backward scan returns the first word's text.
* `scanForward_words`: the forward scan returns the other words' texts and stops after the last.
* `mapM_parseAlternativeText`: each word renders as the text of its tree.

Source: `src/src/CucumberExpression.cpp`, lines 123–224 (`collectAlternativesFromHere`) and
238–270 (`parseAlternativeText`).
-/

namespace CucumberExpression

open Pattern

/-! ### Positions in a text made of pieces -/

private theorem getElem?_append_length (pre s : List Char) (k : Nat) :
    (pre ++ s)[pre.length + k]? = s[k]? := by
  rw [List.getElem?_append_right (by omega), Nat.add_sub_cancel_left]

/-- `text` stands in `e` from index `p` on. -/
def OccursAt (e : List Char) (p : Nat) (text : List Char) : Prop :=
  ∀ k < text.length, e[p + k]? = text[k]?

theorem occursAt_append {e : List Char} {p : Nat} {a b : List Char} :
    OccursAt e p (a ++ b) ↔ OccursAt e p a ∧ OccursAt e (p + a.length) b := by
  constructor
  · intro h
    refine ⟨fun k hk => ?_, fun k hk => ?_⟩
    · rw [h k (by simp; omega), List.getElem?_append_left hk]
    · rw [Nat.add_assoc, h (a.length + k) (by simp; omega), getElem?_append_length]
  · rintro ⟨ha, hb⟩ k hk
    by_cases hka : k < a.length
    · rw [ha k hka, List.getElem?_append_left hka]
    · obtain ⟨m, rfl⟩ : ∃ m, k = a.length + m := ⟨k - a.length, by omega⟩
      rw [← Nat.add_assoc, hb m (by simp at hk; omega), getElem?_append_length]

theorem occursAt_cons {e : List Char} {p : Nat} {c : Char} {text : List Char} :
    OccursAt e p (c :: text) ↔ e[p]? = some c ∧ OccursAt e (p + 1) text := by
  rw [← List.singleton_append, occursAt_append]
  simp [OccursAt]

theorem occursAt_self (e : List Char) : OccursAt e 0 e :=
  fun k _ => by rw [Nat.zero_add]

theorem occursAt_le {e : List Char} {p : Nat} {text : List Char} (hne : text ≠ [])
    (h : OccursAt e p text) : p + text.length ≤ e.length := by
  have hpos := List.length_pos.mpr hne
  have := h (text.length - 1) (by omega)
  rw [List.getElem?_eq_getElem (l := text) (by omega)] at this
  have := (List.getElem?_eq_some_iff.mp this).1
  omega

/-- `find` from the start of an occurrence of `u ++ c :: v`, with no `c` in `u`. -/
theorem find_occursAt {e : List Char} {p : Nat} {c : Char} {u v : List Char} (hu : c ∉ u)
    (h : OccursAt e p (u ++ c :: v)) : find e c p = some (p + u.length) := by
  have hc : e[p + u.length]? = some c := by
    have := h u.length (by simp)
    rw [← Nat.add_zero u.length, getElem?_append_length, Nat.add_zero] at this
    simpa using this
  cases hf : find e c p with
  | none => exact absurd hc (find_eq_none hf _ (by omega))
  | some j =>
    obtain ⟨hpj, hj, hmin⟩ := find_spec hf
    have hle : j ≤ p + u.length := by
      by_contra hlt
      exact hmin (p + u.length) (by omega) (by omega) hc
    have hge : p + u.length ≤ j := by
      by_contra hlt
      obtain ⟨m, rfl⟩ : ∃ m, j = p + m := ⟨j - p, by omega⟩
      have hm : m < u.length := by omega
      have := h m (by simp; omega)
      rw [hj, List.getElem?_append_left hm] at this
      exact hu (List.getElem?_mem this.symm)
    rw [show j = p + u.length by omega]

theorem substr_occursAt {e : List Char} {p : Nat} {text : List Char} (h : OccursAt e p text) :
    substr e p text.length = text := by
  apply List.ext_getElem?
  intro k
  simp only [substr, List.getElem?_take, List.getElem?_drop]
  split_ifs with hk
  · exact h k hk
  · exact (List.getElem?_eq_none (by omega)).symm

/-- The `)` of an optional text `(text)` that stands at `p`, and the text between. -/
private theorem optional_occursAt {e : List Char} {p : Nat} {text : List Char} (htext : ')' ∉ text)
    (h : OccursAt e p ('(' :: (text ++ [')']))) :
    e[p]? = some '(' ∧ find e ')' p = some (p + (text.length + 1)) ∧
      substr e (p + 1) text.length = text := by
  obtain ⟨h0, htail⟩ := occursAt_cons.mp h
  have hu : ')' ∉ '(' :: text := by simpa using htext
  exact ⟨h0, by simpa using find_occursAt hu (v := []) (by simpa using h),
    substr_occursAt (occursAt_append.mp htail).1⟩

theorem intercalate_one {sep w : List Char} : List.intercalate sep [w] = w := by
  simp [List.intercalate]

theorem intercalate_cons_cons (sep w w' : List Char) (ws : List (List Char)) :
    List.intercalate sep (w :: w' :: ws) = w ++ (sep ++ List.intercalate sep (w' :: ws)) := by
  simp [List.intercalate, List.intersperse_cons₂]

/-! ### Pieces -/

@[simp] theorem Piece.printWord_nil : Piece.printWord [] = [] := rfl

@[simp] theorem Piece.printWord_cons (x : Piece) (w : List Piece) :
    Piece.printWord (x :: w) = x.print ++ Piece.printWord w := rfl

@[simp] theorem Piece.printWord_append (u w : List Piece) :
    Piece.printWord (u ++ w) = Piece.printWord u ++ Piece.printWord w := by
  simp [Piece.printWord]

theorem Piece.print_ne_nil (x : Piece) : x.print ≠ [] := by
  cases x <;> simp [Piece.print]

theorem Piece.printWord_ne_nil {w : List Piece} (hw : w ≠ []) : Piece.printWord w ≠ [] := by
  obtain ⟨x, w, rfl⟩ := List.exists_cons_of_ne_nil hw
  simp [x.print_ne_nil]

/-- A piece takes one character of the text or more. -/
theorem Piece.length_le_printWord : ∀ w : List Piece, w.length ≤ (Piece.printWord w).length
  | [] => le_rfl
  | x :: w => by
    have := List.length_pos.mpr x.print_ne_nil
    have := Piece.length_le_printWord w
    simp only [List.length_cons, Piece.printWord_cons, List.length_append]
    omega

theorem Piece.print_treeWord (w : List Piece) :
    (Piece.treeWord w).print = w.flatMap fun x => x.tree.print := by
  simp [Piece.treeWord, print_ofTerms, List.flatMap_map]

theorem IsPlainChar.word {c : Char} (h : IsPlainChar c) (hs : c ≠ ' ') :
    IsWordChar c ∧ IsForwardChar c := by
  obtain ⟨h1, h2, h3⟩ := h
  simp only [IsBracket, not_or] at h2
  exact ⟨⟨hs, h2.1, h2.2.2.1, h2.2.2.2⟩, ⟨hs, h2.1, h2.2.2.1, h1, h3⟩⟩

theorem IsPlainChar.not_bracket {c : Char} (h : IsPlainChar c) : ¬ IsBracket c ∧ c ≠ '\\' :=
  ⟨h.2.1, h.1⟩

private theorem IsPlainChar.ne_close {c : Char} (h : IsPlainChar c) : c ≠ ')' :=
  fun hc => h.2.1 (.inr (.inr (.inr hc)))

/-! ### The main loop over the first word -/

/-- A step that returns normally is one iteration of the loop. -/
theorem parseLoop_of_parseStep {e : List Char} {s s' : ParserState} (hs : s.pos < e.length)
    (h : parseStep e s = .ok s') (fuel : Nat) :
    parseLoop e (fuel + 1) s = parseLoop e fuel s' := by
  simp [parseLoop, hs, h]

/-- `(text)`: one step to after the `)`, writing the optional group. -/
theorem parseStep_of_optional {e : List Char} {p : Nat} {text : List Char} (R : List Char)
    (htext : text ≠ [] ∧ ∀ c ∈ text, ¬ IsBracket c ∧ c ≠ '\\')
    (h : OccursAt e p ('(' :: (text ++ [')']))) :
    parseStep e ⟨p, R⟩ = .ok ⟨p + (text.length + 2), R ++ (Token.optional text).tree.print⟩ := by
  obtain ⟨h0, hclose, hsub⟩ :=
    optional_occursAt (fun hc => (htext.2 _ hc).1 (.inr (.inr (.inr rfl)))) h
  simp [parseStep, readAt_eq_ok.mpr h0, parseOpenParenthesis, hclose, hsub, htext.1, Token.tree,
    Re.print, print_ofText, Nat.add_assoc]

private theorem parseStep_piece {e : List Char} {p : Nat} {x : Piece} (hx : x.WellFormed) (R : List Char)
    (h : OccursAt e p x.print) :
    parseStep e ⟨p, R⟩ = .ok ⟨p + x.print.length, R ++ x.tree.print⟩ := by
  cases x with
  | char c =>
    obtain ⟨⟨h1, h2, h3⟩, -⟩ := hx
    simp only [IsBracket, not_or] at h2
    exact parseStep_of_plain (by simpa [OccursAt, Piece.print] using h 0) h1 h2.1 h2.2.2.1 h3
  | optional text =>
    simpa [Piece.print, Piece.tree, Token.tree, Nat.add_assoc] using
      parseStep_of_optional R ⟨hx.1, fun c hc => (hx.2 c hc).1.not_bracket⟩ h

/-- Before the `/`, the loop copies the first word one piece a step: a character as itself, an
optional text as its group. -/
theorem parseLoop_word {e : List Char} : ∀ (w : List Piece), (∀ x ∈ w, x.WellFormed) →
    ∀ p fuel R, OccursAt e p (Piece.printWord w) →
      parseLoop e (fuel + w.length) ⟨p, R⟩ =
        parseLoop e fuel ⟨p + (Piece.printWord w).length, R ++ (Piece.treeWord w).print⟩
  | [], _, p, fuel, R, _ => by simp [Piece.print_treeWord]
  | x :: w, hw, p, fuel, R, hocc => by
    rw [Piece.printWord_cons] at hocc
    obtain ⟨hx, hrest⟩ := occursAt_append.mp hocc
    have hlt : p < e.length := by
      have := occursAt_le x.print_ne_nil hx
      have := List.length_pos.mpr x.print_ne_nil
      omega
    rw [List.length_cons, ← Nat.add_assoc,
      parseLoop_of_parseStep hlt (parseStep_piece (hw x (List.mem_cons_self x w)) R hx),
      parseLoop_word w (fun y hy => hw y (List.mem_cons_of_mem x hy)) _ fuel _ hrest]
    simp [Piece.print_treeWord, Nat.add_assoc]

/-! ### The backward scan over the first word -/

/-- The inner loop of the backward scan over the text of an optional, back to the character after
its `(`. -/
private theorem backtrackParen_text {e : List Char} {s : Nat} (hs : 0 < s) (text : List Char) :
    ∀ (fuel : Nat) (cur : List Char), OccursAt e s text → (∀ c ∈ text, c ≠ '(' ∧ c ≠ ')') →
      backtrackParen e (fuel + text.length) (s + text.length - 1) 1 cur =
        backtrackParen e fuel (s - 1) 1 (text ++ cur) := by
  induction text using List.reverseRecOn with
  | nil => intros; rfl
  | append_singleton t a ih =>
    intro fuel cur hocc htext
    obtain ⟨ht, ha⟩ := occursAt_append.mp hocc
    have ha : e[s + t.length]? = some a := by simpa [OccursAt] using ha 0
    obtain ⟨h1, h2⟩ := htext a (by simp)
    rw [List.length_append, List.length_singleton, show s + (t.length + 1) - 1 = s + t.length by
      omega, ← Nat.add_assoc]
    simp only [backtrackParen, gt_iff_lt, Int.reduceLT, if_true, readAt_eq_ok.mpr ha, bind_ok, h1,
      h2, if_false, show s + t.length ≠ 0 by omega]
    rw [ih fuel (a :: cur) ht fun c hc => htext c (by simp [hc])]
    simp

/-- The `(` that ends the inner loop of the backward scan. -/
private theorem backtrackParen_open {e : List Char} {q : Nat} (h : e[q]? = some '(') (cur : List Char) :
    backtrackParen e (q + 1) q 1 cur = .ok (q - 1, '(' :: cur) := by
  cases q <;> simp [backtrackParen, readAt_eq_ok.mpr h, intAdd]

/-- The backward scan stops, without taking it, at a space, a `{` or a `(`. -/
private theorem backtrackWord_stop {e : List Char} {i : Nat} {b : Char} (hb : e[i]? = some b)
    (hs : IsWordStop b) (fuel : Nat) (current : List Char) :
    backtrackWord e (fuel + 1) i current = .ok current := by
  rcases hs with rfl | rfl | rfl <;> simp [backtrackWord, readAt_eq_ok.mpr hb]

/-- The backward scan over one piece that ends at index `q + |x.print| - 1`. -/
private theorem backtrackWord_piece {e : List Char} {q f : Nat} {x : Piece} (hx : x.WellFormed)
    (hocc : OccursAt e q x.print) (hf : q + x.print.length ≤ f + 1) (current : List Char) :
    backtrackWord e (f + 1) (q + x.print.length - 1) current =
      if q = 0 then .ok (x.print ++ current) else backtrackWord e f (q - 1) (x.print ++ current) := by
  cases x with
  | char c =>
    have hc : e[q]? = some c := by simpa [OccursAt, Piece.print] using hocc 0
    obtain ⟨h1, h2, h3, h4⟩ := (hx.1.word hx.2).1
    simp [backtrackWord, Piece.print, readAt_eq_ok.mpr hc, h1, h2, h3, h4]
  | optional text =>
    have htext : ∀ c ∈ text, c ≠ '(' ∧ c ≠ ')' := fun c hc =>
      ⟨fun h => (hx.2 c hc).1.2.1 (.inr (.inr (.inl h))), (hx.2 c hc).1.ne_close⟩
    obtain ⟨h0, htail⟩ := occursAt_cons.mp hocc
    obtain ⟨hin, hclose⟩ := occursAt_append.mp htail
    have hclose : e[q + text.length + 1]? = some ')' := by
      simpa [OccursAt, Nat.add_right_comm] using hclose 0
    have hpos := List.length_pos.mpr hx.1
    have hscan : backtrackParen e (q + text.length + 1) (q + text.length) 1 (')' :: current) =
        .ok (q - 1, '(' :: (text ++ ')' :: current)) := by
      have := backtrackParen_text (by omega : 0 < q + 1) text (q + 1) (')' :: current) hin htext
      rw [show q + 1 + text.length - 1 = q + text.length by omega, Nat.add_right_comm,
        Nat.add_sub_cancel, backtrackParen_open h0] at this
      exact this
    have hstep : backtrackWord e (f + 1) (q + text.length + 1) current =
        backtrackWord e f (q - 1) ('(' :: (text ++ ')' :: current)) := by
      simp [backtrackWord, readAt_eq_ok.mpr hclose, hscan]
    have hprint : (Piece.optional text).print ++ current = '(' :: (text ++ ')' :: current) := by
      simp [Piece.print]
    have hplen : (Piece.optional text).print.length = text.length + 2 := by simp [Piece.print]
    rw [hprint, hplen, show q + (text.length + 2) - 1 = q + text.length + 1 by omega, hstep]
    split_ifs with hq
    · subst hq
      obtain ⟨g, rfl⟩ : ∃ g, f = g + 1 := ⟨f - 1, by omega⟩
      exact backtrackWord_stop h0 (.inr (.inr rfl)) g _
    · rfl

/-- From the end of a word that starts the expression or follows a space, a `{` or a `(`, the
backward scan returns the word's text. -/
theorem backtrackWord_printWord {e : List Char} {p : Nat}
    (hstop : p = 0 ∨ ∃ b, e[p - 1]? = some b ∧ IsWordStop b) (w : List Piece) :
    w ≠ [] → (∀ x ∈ w, x.WellFormed) → OccursAt e p (Piece.printWord w) →
      ∀ fuel current, p + (Piece.printWord w).length ≤ fuel →
        backtrackWord e fuel (p + (Piece.printWord w).length - 1) current =
          .ok (Piece.printWord w ++ current) := by
  induction w using List.reverseRecOn with
  | nil => exact fun h => absurd rfl h
  | append_singleton u x ih =>
    intro _ hw hocc fuel current hfuel
    rw [Piece.printWord_append, Piece.printWord_cons, Piece.printWord_nil, List.append_nil] at *
    obtain ⟨hu, hx⟩ := occursAt_append.mp hocc
    have hxlen := List.length_pos.mpr x.print_ne_nil
    obtain ⟨f, rfl⟩ : ∃ f, fuel = f + 1 := ⟨fuel - 1, by simp at hfuel; omega⟩
    rw [List.length_append, ← Nat.add_assoc,
      backtrackWord_piece (hw x (by simp)) hx (by simp at hfuel; omega)]
    by_cases hune : u = []
    · subst hune
      simp only [Piece.printWord_nil, List.length_nil, Nat.add_zero, List.nil_append]
      split_ifs with hp
      · rfl
      · obtain ⟨b, hb, hbs⟩ := hstop.resolve_left hp
        obtain ⟨g, rfl⟩ : ∃ g, f = g + 1 := ⟨f - 1, by simp at hfuel; omega⟩
        exact backtrackWord_stop hb hbs g _
    · have := List.length_pos.mpr (Piece.printWord_ne_nil hune)
      rw [if_neg (by omega), ih hune (fun y hy => hw y (by simp [hy])) hu f _ (by simp at hfuel; omega)]
      simp

/-! ### The forward scan over the other words -/

private theorem scanForward_piece {e : List Char} {q : Nat} {x : Piece} (hx : x.WellFormed)
    (hocc : OccursAt e q x.print) {current : List Char}
    (hcur : current = [] → ∀ text, x ≠ .optional text) (fuel : Nat)
    (alternatives : List (List Char)) :
    scanForward e (fuel + 1) q current alternatives =
      scanForward e fuel (q + x.print.length) (current ++ x.print) alternatives := by
  cases x with
  | char c =>
    have hc : e[q]? = some c := by simpa [OccursAt, Piece.print] using hocc 0
    have hlt : q < e.length := (List.getElem?_eq_some_iff.mp hc).1
    obtain ⟨h1, h2, h3, h4, h5⟩ := (hx.1.word hx.2).2
    simp [scanForward, hlt, readAt_eq_ok.mpr hc, h1, h2, h3, h4, h5, Piece.print]
  | optional text =>
    have hcur : current ≠ [] := fun h => hcur h text rfl
    obtain ⟨h0, hclose, -⟩ := optional_occursAt (fun hc => (hx.2 _ hc).1.ne_close rfl) hocc
    have hlt : q < e.length := (List.getElem?_eq_some_iff.mp h0).1
    have hsub : substr e q (text.length + 2) = '(' :: (text ++ [')']) := by
      simpa [Piece.print] using substr_occursAt hocc
    simp [scanForward, hlt, readAt_eq_ok.mpr h0, hcur, hclose, Piece.print, Nat.add_assoc,
      show q + (text.length + 1) + 1 - q = text.length + 2 by omega, hsub]

/-- The forward scan over a word: the word's text is appended to the word in progress. -/
private theorem scanForward_printWord {e : List Char} : ∀ (w : List Piece) (q fuel : Nat)
    (current : List Char) (alternatives : List (List Char)), (∀ x ∈ w, x.WellFormed) →
    (current = [] → ∀ text, w.head? ≠ some (.optional text)) → OccursAt e q (Piece.printWord w) →
    scanForward e (fuel + w.length) q current alternatives =
      scanForward e fuel (q + (Piece.printWord w).length) (current ++ Piece.printWord w) alternatives
  | [], _, _, _, _, _, _, _ => by simp
  | x :: w, q, fuel, current, alternatives, hw, hhead, hocc => by
    rw [Piece.printWord_cons] at hocc ⊢
    obtain ⟨hx, hrest⟩ := occursAt_append.mp hocc
    rw [List.length_cons, ← Nat.add_assoc,
      scanForward_piece (hw x (List.mem_cons_self x w)) hx
        (fun h text hx => hhead h text (by simp [hx])),
      scanForward_printWord w _ fuel _ _ (fun y hy => hw y (List.mem_cons_of_mem x hy))
        (fun h => absurd h (by simp [x.print_ne_nil])) hrest]
    simp [Nat.add_assoc]

/-- The forward scan reads words separated by `/` up to a space, a `{` or the end: the last word is
left in progress and the others are finished. -/
theorem scanForward_words {e : List Char} : ∀ (w : List Piece) (ws : List (List Piece)) (q : Nat)
    (acc : List (List Char)),
    (∀ v ∈ w :: ws, v ≠ [] ∧ (∀ x ∈ v, x.WellFormed) ∧ ∀ text, v.head? ≠ some (.optional text)) →
    OccursAt e q (List.intercalate ['/'] ((w :: ws).map Piece.printWord)) →
    (e.length ≤ q + (List.intercalate ['/'] ((w :: ws).map Piece.printWord)).length ∨
      e[q + (List.intercalate ['/'] ((w :: ws).map Piece.printWord)).length]? = some ' ' ∨
      e[q + (List.intercalate ['/'] ((w :: ws).map Piece.printWord)).length]? = some '{') →
    ∀ fuel, (List.intercalate ['/'] ((w :: ws).map Piece.printWord)).length < fuel →
    ∃ cur alts, scanForward e fuel q [] acc =
      .ok (q + (List.intercalate ['/'] ((w :: ws).map Piece.printWord)).length, cur, alts) ∧
      cur ≠ [] ∧ alts ++ [cur] = acc ++ (w :: ws).map Piece.printWord
  | w, [], q, acc, hw, hocc, hstop, fuel, hfuel => by
    simp only [List.map_cons, List.map_nil, intercalate_one] at hocc hstop hfuel ⊢
    obtain ⟨hne, hpieces, hhead⟩ := hw w (List.mem_singleton_self w)
    have := Piece.length_le_printWord w
    refine ⟨Piece.printWord w, acc, ?_, Piece.printWord_ne_nil hne, rfl⟩
    rw [show fuel = fuel - w.length - 1 + 1 + w.length by omega,
      scanForward_printWord w q _ [] acc hpieces (fun _ => hhead) hocc, List.nil_append,
      scanForward_stop hstop]
  | w, w' :: ws, q, acc, hw, hocc, hstop, fuel, hfuel => by
    simp only [List.map_cons] at hocc hstop hfuel ⊢
    rw [intercalate_cons_cons] at hocc hstop hfuel ⊢
    obtain ⟨hwo, hocc⟩ := occursAt_append.mp hocc
    rw [List.singleton_append] at hocc
    obtain ⟨hslash, hocc⟩ := occursAt_cons.mp hocc
    obtain ⟨hne, hpieces, hhead⟩ := hw w (List.mem_cons_self w _)
    have hlen : (Piece.printWord w ++
        (['/'] ++ List.intercalate ['/'] (Piece.printWord w' :: List.map Piece.printWord ws))).length =
        (Piece.printWord w).length + 1 +
          (List.intercalate ['/'] (Piece.printWord w' :: List.map Piece.printWord ws)).length := by
      simp only [List.length_append, List.length_singleton]
      omega
    rw [hlen] at hstop hfuel ⊢
    have := Piece.length_le_printWord w
    obtain ⟨cur, alts, hscan, hcur, halts⟩ := scanForward_words w' ws
      (q + (Piece.printWord w).length + 1) (acc ++ [Piece.printWord w])
      (fun v hv => hw v (List.mem_cons_of_mem w hv)) (by simpa using hocc)
      (by simpa [Nat.add_assoc] using hstop) (fuel - w.length - 1) (by simp; omega)
    refine ⟨cur, alts, ?_, hcur, by simp [halts]⟩
    rw [show fuel = fuel - w.length - 1 + 1 + w.length by omega,
      scanForward_printWord w q _ [] acc hpieces (fun _ => hhead) hwo, List.nil_append,
      scanForward_separator hslash, if_neg (Piece.printWord_ne_nil hne), hscan]
    simp [Nat.add_assoc]

/-! ### Rendering a word -/

private theorem parseAlternativeTextFrom_piece {text : List Char} {i : Nat} {x : Piece}
    (hx : x.WellFormed) (hocc : OccursAt text i x.print) (fuel : Nat) (result : List Char) :
    parseAlternativeTextFrom text (fuel + 1) i result =
      parseAlternativeTextFrom text fuel (i + x.print.length) (result ++ x.tree.print) := by
  have hlt : i < text.length := by
    have := occursAt_le x.print_ne_nil hocc
    have := List.length_pos.mpr x.print_ne_nil
    omega
  cases x with
  | char c =>
    have hc : text[i]? = some c := by simpa [OccursAt, Piece.print] using hocc 0
    have h3 : c ≠ '(' := (hx.1.word hx.2).1.2.2.1
    simp [parseAlternativeTextFrom, hlt, readAt_eq_ok.mpr hc, h3, Piece.print, Piece.tree,
      Re.print]
  | optional t =>
    obtain ⟨h0, hclose, hsub⟩ := optional_occursAt (fun hc => (hx.2 _ hc).1.ne_close rfl) hocc
    simp [parseAlternativeTextFrom, hlt, readAt_eq_ok.mpr h0, hclose, hsub, hx.1, Piece.print,
      Piece.tree, Re.print, print_ofText, Nat.add_assoc]

private theorem parseAlternativeTextFrom_word {text : List Char} : ∀ (w : List Piece) (i fuel : Nat)
    (result : List Char), (∀ x ∈ w, x.WellFormed) → OccursAt text i (Piece.printWord w) →
    parseAlternativeTextFrom text (fuel + w.length) i result =
      parseAlternativeTextFrom text fuel (i + (Piece.printWord w).length)
        (result ++ (Piece.treeWord w).print)
  | [], _, _, _, _, _ => by simp [Piece.print_treeWord]
  | x :: w, i, fuel, result, hw, hocc => by
    rw [Piece.printWord_cons] at hocc
    obtain ⟨hx, hrest⟩ := occursAt_append.mp hocc
    rw [List.length_cons, ← Nat.add_assoc,
      parseAlternativeTextFrom_piece (hw x (List.mem_cons_self x w)) hx,
      parseAlternativeTextFrom_word w _ fuel _ (fun y hy => hw y (List.mem_cons_of_mem x hy)) hrest]
    simp [Piece.print_treeWord, Nat.add_assoc]

/-- `parseAlternativeText` renders a word as the text of its tree. -/
private theorem parseAlternativeText_printWord {w : List Piece} (hw : ∀ x ∈ w, x.WellFormed) :
    parseAlternativeText (Piece.printWord w) = .ok (Piece.treeWord w).print := by
  have := Piece.length_le_printWord w
  have hrun := parseAlternativeTextFrom_word w 0 ((Piece.printWord w).length + 1 - w.length) []
    hw (occursAt_self _)
  rw [Nat.sub_add_cancel (by omega), Nat.zero_add, List.nil_append] at hrun
  rw [parseAlternativeText, hrun]
  cases (Piece.printWord w).length + 1 - w.length <;> simp [parseAlternativeTextFrom]

theorem mapM_parseAlternativeText {ws : List (List Piece)} (h : ∀ w ∈ ws, ∀ x ∈ w, x.WellFormed) :
    (ws.map Piece.printWord).mapM parseAlternativeText =
      .ok (ws.map fun w => (Piece.treeWord w).print) := by
  induction ws with
  | nil => rfl
  | cons w ws ih =>
    simp only [List.mem_cons, forall_eq_or_imp] at h
    rw [List.map_cons, List.mapM_cons, parseAlternativeText_printWord h.1, ih h.2]
    rfl

end CucumberExpression
