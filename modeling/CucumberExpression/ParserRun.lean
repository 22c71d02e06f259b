import CucumberExpression.Words
import CucumberExpression.Progress
import CucumberExpression.PatternValidity

/-!
# The parser's run over an expression

The main loop of `parse`, run over the text of an expression of the syntax (`Expression`), writes
the text of the expression's terms (`parse_print`). Each token moves the cursor over the token's
text and appends the text of the token's term (`parseLoop_token`). A token is one step of the
loop, except an alternation. There the loop first copies the first word piece by piece
(`parseLoop_word`). Then, at the `/`, `parseAlternatives` reads all the words again and
replaces what was copied by the group of all of them (`parseStep_alternation`). For that the
alternation must be a whole word: the buffer ends with a space or is empty before it, and a space,
a `{` or the end follows it. `Spaced` gives both.

## Main results

* `parseStep_alternation`: the step at the `/` of an alternation.
* `parseLoop_token`, `parseLoop_tokens`: one token, and the tokens up to the end.
* `parse_print`: `parse` writes the text of the expression's terms.

Source: `src/src/CucumberExpression.cpp`, lines 75–120 (`parse`) and 272–349 (its steps).
-/

namespace CucumberExpression

open Pattern

/-! ### One token -/

/-- `{name}` of a registered type: one step to after the `}`, writing the group of its tree. -/
private theorem parseStep_of_parameter {e : List Char} {p : Nat} (t : ParameterType) (R : List Char)
    (h : OccursAt e p ('{' :: (t.name ++ ['}']))) :
    parseStep e ⟨p, R⟩ = .ok ⟨p + (t.name.length + 2), R ++ (Token.parameter t).tree.print⟩ := by
  obtain ⟨h0, hname⟩ := occursAt_cons.mp h
  have hu : '}' ∉ '{' :: t.name := by
    simp only [List.mem_cons, not_or]
    exact ⟨by decide, fun hc => (t.name_plain hc).1 (.inr (.inl rfl))⟩
  have hclose : find e '}' p = some (p + (t.name.length + 1)) := by
    simpa using find_occursAt hu (v := []) (by simpa using h)
  have hsub : substr e (p + 1) t.name.length = t.name := substr_occursAt (occursAt_append.mp hname).1
  simp [parseStep, readAt_eq_ok.mpr h0, parseOpenBrace, hclose, hsub, t.lookup.1, Token.tree,
    Re.print, Nat.add_assoc]

/-! ### The alternation step -/

private theorem Piece.tree_print_ne_nil (x : Piece) : x.tree.print ≠ [] := by
  cases x with
  | char c => exact escapeRegexChar_ne_nil c
  | optional text => simp [Piece.tree, Re.print]

private theorem Piece.space_not_mem_tree {x : Piece} (hx : x.WellFormed) : ' ' ∉ x.tree.print := by
  cases x with
  | char c => exact space_not_mem_escapeRegexChar hx.2
  | optional text =>
    have := space_not_mem_escapeRegexChars fun h => (hx.2 ' ' h).2 rfl
    simp_all [Piece.tree, Re.print, print_ofText]

/-- The text of the group an alternation compiles to. -/
private theorem print_alternation_tree (first : List Piece) (rest : List (List Piece)) :
    (Token.alternation first rest).tree.print = "(?:".toList ++
      List.intercalate ['|'] ((first :: rest).map fun w => (Piece.treeWord w).print) ++ [')'] := by
  simp [Token.tree, Re.print, print_alternatives, Function.comp_def]

/-- At the `/` after a whole first word, `collectAlternativesFromHere` reads the first word
backwards and the further words forwards, up to the space, the `{` or the end after them. -/
private theorem collectAlternativesFromHere_words {e : List Char} {p : Nat} {first w : List Piece}
    {ws : List (List Piece)} (hlen : e.length < 2 ^ 64)
    (hstop : p = 0 ∨ ∃ b, e[p - 1]? = some b ∧ IsWordStop b) (hfirst : first ≠ [])
    (hfpieces : ∀ x ∈ first, x.WellFormed)
    (hws : ∀ v ∈ w :: ws, v ≠ [] ∧ (∀ x ∈ v, x.WellFormed) ∧ ∀ text, v.head? ≠ some (.optional text))
    (hocc : OccursAt e p
      (Piece.printWord first ++ '/' :: List.intercalate ['/'] ((w :: ws).map Piece.printWord)))
    (hend : e.length ≤ p + (Piece.printWord first).length + 1 +
        (List.intercalate ['/'] ((w :: ws).map Piece.printWord)).length ∨
      e[p + (Piece.printWord first).length + 1 +
        (List.intercalate ['/'] ((w :: ws).map Piece.printWord)).length]? = some ' ' ∨
      e[p + (Piece.printWord first).length + 1 +
        (List.intercalate ['/'] ((w :: ws).map Piece.printWord)).length]? = some '{') :
    collectAlternativesFromHere e (p + (Piece.printWord first).length - 1) =
      .ok ((first :: w :: ws).map Piece.printWord, p + (Piece.printWord first).length + 1 +
        (List.intercalate ['/'] ((w :: ws).map Piece.printWord)).length) := by
  obtain ⟨hfo, hocc'⟩ := occursAt_append.mp hocc
  obtain ⟨hslash, hwocc⟩ := occursAt_cons.mp hocc'
  have hle := occursAt_le (by simp) hocc
  simp only [List.length_append, List.length_cons] at hle
  have hpos := List.length_pos.mpr (Piece.printWord_ne_nil hfirst)
  have hsucc : p + (Piece.printWord first).length - 1 + 1 = p + (Piece.printWord first).length := by
    omega
  have hback : backtrackWord e (p + (Piece.printWord first).length) (p + (Piece.printWord first).length - 1) [] =
      .ok (Piece.printWord first) := by
    rw [backtrackWord_printWord hstop first hfirst hfpieces hfo _ [] le_rfl, List.append_nil]
  obtain ⟨cur, alts, hscan, hcur, halts⟩ := scanForward_words w ws
    (p + (Piece.printWord first).length + 1) [Piece.printWord first] hws hwocc hend e.length
    (by omega)
  rw [collectAlternativesFromHere, hsucc, hback, bind_ok, if_neg (Piece.printWord_ne_nil hfirst),
    Nat.mod_eq_of_lt (by omega), scanForward_separator hslash, if_pos rfl, hscan, bind_ok,
    if_neg hcur, halts]
  rfl

/-- At the `/` after the first word of an alternation that is a whole word, the step reads all the
words again and replaces the copied first word by the group of all of them. -/
theorem parseStep_alternation {e : List Char} {p : Nat} {first : List Piece}
    {rest : List (List Piece)} {R : List Char} (hlen : e.length < 2 ^ 64)
    (ht : (Token.alternation first rest).WellFormed)
    (hocc : OccursAt e p (Token.alternation first rest).print)
    (hstart : (p = 0 ∧ R = []) ∨ (e[p - 1]? = some ' ' ∧ ∃ v, R = v ++ [' ']))
    (hend : e.length ≤ p + (Token.alternation first rest).print.length ∨
      e[p + (Token.alternation first rest).print.length]? = some ' ' ∨
      e[p + (Token.alternation first rest).print.length]? = some '{') :
    parseStep e ⟨p + (Piece.printWord first).length, R ++ (Piece.treeWord first).print⟩ =
      .ok ⟨p + (Token.alternation first rest).print.length,
        R ++ (Token.alternation first rest).tree.print⟩ := by
  obtain ⟨hrest, hwords, hheads⟩ := ht
  obtain ⟨w, ws, rfl⟩ := List.exists_cons_of_ne_nil hrest
  obtain ⟨hfirst, hfpieces⟩ := hwords first (List.mem_cons_self _ _)
  have hstop : p = 0 ∨ ∃ b, e[p - 1]? = some b ∧ IsWordStop b := by
    rcases hstart with ⟨rfl, -⟩ | ⟨hsp, -⟩
    · exact .inl rfl
    · exact .inr ⟨' ', hsp, .inl rfl⟩
  have hprint : (Token.alternation first (w :: ws)).print =
      Piece.printWord first ++ '/' :: List.intercalate ['/'] ((w :: ws).map Piece.printWord) := by
    simp only [Token.print, List.map_cons, intercalate_cons_cons, List.singleton_append]
  have hplen : (Token.alternation first (w :: ws)).print.length = (Piece.printWord first).length +
      1 + (List.intercalate ['/'] ((w :: ws).map Piece.printWord)).length := by
    rw [hprint, List.length_append, List.length_cons]
    omega
  rw [hprint] at hocc
  rw [hplen, ← Nat.add_assoc, ← Nat.add_assoc] at hend ⊢
  have hcollect := collectAlternativesFromHere_words hlen hstop hfirst hfpieces
    (fun v hv => ⟨(hwords v (List.mem_cons_of_mem _ hv)).1,
      (hwords v (List.mem_cons_of_mem _ hv)).2, hheads v hv⟩) hocc hend
  have hslash := (occursAt_cons.mp (occursAt_append.mp hocc).2).1
  have hpos := List.length_pos.mpr (Piece.printWord_ne_nil hfirst)
  have hlt := (List.getElem?_eq_some_iff.mp hslash).1
  have hne : ¬ (R ++ (Piece.treeWord first).print = [] ∧ 0 < p + (Piece.printWord first).length) :=
    fun h => by
      obtain ⟨x, u, rfl⟩ := List.exists_cons_of_ne_nil hfirst
      simp [Piece.print_treeWord, x.tree_print_ne_nil] at h
  have hsp : ' ' ∉ (Piece.treeWord first).print := by
    simp only [Piece.print_treeWord, List.mem_flatMap, not_exists, not_and]
    exact fun x hx => Piece.space_not_mem_tree (hfpieces x hx)
  have hkeep : keepThroughLastSpace (R ++ (Piece.treeWord first).print) = R := by
    rcases hstart with ⟨-, rfl⟩ | ⟨-, v, rfl⟩
    · exact keepThroughLastSpace_of_not_mem (by simpa using hsp)
    · simpa using keepThroughLastSpace_append v hsp
  rw [parseStep_of_slash hslash, parseAlternatives]
  dsimp only
  rw [backtrackWordEnd_bind, if_neg hne, pos_pred_mod (by omega) (by omega), hcollect, bind_ok]
  simp only [List.length_map, List.length_cons, gt_iff_lt, Nat.one_lt_succ_succ, if_true]
  rw [mapM_parseAlternativeText fun v hv => (hwords v hv).2, bind_ok, hkeep, print_alternation_tree]
  simp only [List.append_assoc]

/-! ### The parser's run over an expression -/

/-- The iterations of the loop of `parse` a token takes: an alternation's first word is copied
piece by piece before its `/` is met. -/
def Token.steps : Token → Nat
  | .alternation first _ => first.length + 1
  | .literal _ | .escaped _ | .parameter _ | .optional _ => 1

/-- The iterations of the loop of `parse` a list of tokens takes. -/
def Token.stepsOf : List Token → Nat
  | [] => 0
  | t :: ts => t.steps + Token.stepsOf ts

theorem Token.print_ne_nil {t : Token} (ht : t.WellFormed) : t.print ≠ [] := by
  cases t with
  | alternation first rest =>
    obtain ⟨w, ws, rfl⟩ := List.exists_cons_of_ne_nil ht.1
    simp [Token.print, intercalate_cons_cons]
  | _ => simp [Token.print]

private theorem Token.steps_le (t : Token) (ht : t.WellFormed) : t.steps ≤ t.print.length := by
  cases t with
  | alternation first rest =>
    obtain ⟨w, ws, rfl⟩ := List.exists_cons_of_ne_nil ht.1
    have := Piece.length_le_printWord first
    simp only [Token.steps, Token.print, List.map_cons, intercalate_cons_cons, List.length_append,
      List.length_singleton]
    omega
  | _ => simp [Token.steps, Token.print]

/-- The loop of `parse` over one token: the cursor moves over the token's text and the text of the
token's term is appended to the buffer. -/
theorem parseLoop_token {e : List Char} {p : Nat} {t : Token} {R : List Char}
    (hlen : e.length < 2 ^ 64) (ht : t.WellFormed) (hocc : OccursAt e p t.print)
    (hstart : t.isAlternation → (p = 0 ∧ R = []) ∨ (e[p - 1]? = some ' ' ∧ ∃ v, R = v ++ [' ']))
    (hend : t.isAlternation → e.length ≤ p + t.print.length ∨ e[p + t.print.length]? = some ' ' ∨
      e[p + t.print.length]? = some '{')
    (fuel : Nat) :
    parseLoop e (fuel + t.steps) ⟨p, R⟩ =
      parseLoop e fuel ⟨p + t.print.length, R ++ t.tree.print⟩ := by
  have hlt : p < e.length := by
    have := occursAt_le (Token.print_ne_nil ht) hocc
    have := List.length_pos.mpr (Token.print_ne_nil ht)
    omega
  cases t with
  | literal c =>
    obtain ⟨h1, h2, h3⟩ := ht
    simp only [IsBracket, not_or] at h2
    rw [Token.steps, parseLoop_of_parseStep hlt (parseStep_of_plain
      (by simpa [OccursAt, Token.print] using hocc 0) h1 h2.1 h2.2.2.1 h3)]
    rfl
  | escaped c =>
    obtain ⟨h1, h2⟩ := occursAt_cons.mp hocc
    rw [Token.steps, parseLoop_of_parseStep hlt
      (parseStep_of_escape h1 (by simpa [OccursAt] using h2) ht)]
    rfl
  | parameter t =>
    rw [Token.steps, parseLoop_of_parseStep hlt (parseStep_of_parameter t R hocc)]
    simp [Token.print]
  | optional text =>
    rw [Token.steps, parseLoop_of_parseStep hlt (parseStep_of_optional R ht hocc)]
    simp [Token.print]
  | alternation first rest =>
    obtain ⟨-, hfpieces⟩ := ht.2.1 first (List.mem_cons_self _ _)
    have hocc' := hocc
    obtain ⟨w, ws, rfl⟩ := List.exists_cons_of_ne_nil ht.1
    simp only [Token.print, List.map_cons, intercalate_cons_cons] at hocc'
    have hle := occursAt_le (by simp) hocc'
    simp only [List.length_append, List.length_singleton] at hle
    rw [Token.steps, ← Nat.add_assoc, Nat.add_right_comm,
      parseLoop_word first hfpieces p (fuel + 1) R (occursAt_append.mp hocc').1,
      parseLoop_of_parseStep (by dsimp only; omega)
        (parseStep_alternation hlen ht hocc (hstart rfl) (hend rfl))]

private theorem parseLoop_of_end {e : List Char} (fuel : Nat) (R : List Char) :
    parseLoop e fuel ⟨e.length, R⟩ = .ok R := by
  cases fuel <;> simp [parseLoop]

/-- The loop of `parse` over the tokens after `prev`: each token in turn, up to the end. -/
theorem parseLoop_tokens {e : List Char} (hlen : e.length < 2 ^ 64) :
    ∀ (ts : List Token) (prev : Option Token) (p : Nat) (R : List Char) (fuel : Nat),
      (∀ t ∈ ts, t.WellFormed) → Spaced prev ts →
      OccursAt e p (ts.flatMap Token.print) → e.length = p + (ts.flatMap Token.print).length →
      (prev = none → p = 0 ∧ R = []) →
      (prev = some (.literal ' ') → e[p - 1]? = some ' ' ∧ ∃ v, R = v ++ [' ']) →
      parseLoop e (fuel + Token.stepsOf ts) ⟨p, R⟩ =
        .ok (R ++ ts.flatMap fun t => t.tree.print)
  | [], _, p, R, fuel, _, _, _, hend, _, _ => by
    simp only [List.flatMap_nil, List.length_nil, Nat.add_zero] at hend
    subst hend
    simp [parseLoop_of_end]
  | t :: ts, prev, p, R, fuel, hwf, ⟨hsp, hspaced⟩, hocc, hend, hnone, hspace => by
    simp only [List.flatMap_cons, List.length_append] at hocc hend
    obtain ⟨hot, hots⟩ := occursAt_append.mp hocc
    have hstart : t.isAlternation →
        (p = 0 ∧ R = []) ∨ (e[p - 1]? = some ' ' ∧ ∃ v, R = v ++ [' ']) := fun ha => by
      rcases prev with _ | ⟨_ | _ | _ | _ | _⟩ <;> simp only [OpensWord] at hsp
      · exact .inl (hnone rfl)
      · obtain rfl := (hsp ha).1
        exact .inr (hspace rfl)
      all_goals exact absurd (hsp ha).1 id
    have hclose : t.isAlternation → e.length ≤ p + t.print.length ∨
        e[p + t.print.length]? = some ' ' ∨ e[p + t.print.length]? = some '{' := fun ha => by
      have hc := (hsp ha).2
      rcases ts with _ | ⟨u, ts⟩
      · exact .inl (by simp at hend; omega)
      · simp only [List.flatMap_cons] at hots
        have hu := (occursAt_append.mp hots).1
        rcases u with c | _ | u | _ | _ <;> simp only [List.head?_cons, ClosesWord] at hc
        · subst hc
          exact .inr (.inl (by simpa [OccursAt, Token.print] using hu 0))
        · exact .inr (.inr (by simpa [OccursAt, Token.print] using hu 0))
    rw [Token.stepsOf, Nat.add_comm t.steps, ← Nat.add_assoc,
      parseLoop_token hlen (hwf t (List.mem_cons_self t ts)) hot hstart hclose,
      parseLoop_tokens hlen ts (some t) _ _ fuel (fun u hu => hwf u (List.mem_cons_of_mem t hu))
        hspaced hots (by omega) (fun h => by cases h) (fun h => ?_)]
    · simp
    · cases h
      refine ⟨by simpa [Token.print, OccursAt] using hot 0, R, ?_⟩
      simp [Token.tree, Re.print, escapeRegexChar, IsRegexSpecial]

private theorem Token.stepsOf_le : ∀ (ts : List Token), (∀ t ∈ ts, t.WellFormed) →
    Token.stepsOf ts ≤ (ts.flatMap Token.print).length
  | [], _ => Nat.zero_le _
  | t :: ts, h => by
    have := Token.steps_le t (h t (List.mem_cons_self t ts))
    have := Token.stepsOf_le ts fun u hu => h u (List.mem_cons_of_mem t hu)
    simp only [Token.stepsOf, List.flatMap_cons, List.length_append]
    omega

/-- `parse` writes, for the text of an expression, the text of its tokens' terms. -/
theorem parse_print (x : Expression) (hlen : x.print.length < 2 ^ 64) :
    parse x.print = .ok (x.tokens.flatMap fun t => t.tree.print) := by
  have hsteps := Token.stepsOf_le x.tokens x.wellFormed
  have := parseLoop_tokens hlen x.tokens none 0 [] (x.print.length + 1 - Token.stepsOf x.tokens)
    x.wellFormed x.spaced (occursAt_self _) (by simp [Expression.print]) (fun _ => ⟨rfl, rfl⟩)
    (fun h => by cases h)
  rw [Nat.sub_add_cancel (by rw [Expression.print]; omega)] at this
  exact this

end CucumberExpression
