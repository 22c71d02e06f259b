import CucumberExpression.Alternation

/-!
# The iteration bounds suffice

Every loop of the model carries an explicit bound (`fuel`) and fails with `outOfFuel` when the
bound runs out. This file proves that no bound is ever reached on an expression of fewer than
`2^64` characters. The model's failures are then the source's own: an exception, an
out-of-range read or an `int` overflow.

The bound of each scan is at least the number of indices it can still visit, and each scan moves
its index one way (`backtrackParen_index_le`, `scanForward_pos_bounds`). The main loop's bound is
the expression's length plus one, and each step of the parser moves the cursor forward
(`parseStep_advances`). At a `/` this holds because the forward scan starts on the `/` itself
(`collectAlternativesFromHere_fwdPos`): for `pos ≥ 1`, `startPos + 1 = pos`; at `pos = 0` the
step fails before the forward scan.

## Main results

* `parseStep_advances`: a step of the parser moves its cursor forward.
* `parseLoop_ne_error`: the run lemma of the main loop.
* `parse_ne_outOfFuel`, `transform_ne_outOfFuel`: the bounds are never reached.

Source: `src/src/CucumberExpression.cpp`, lines 75–120 (`parse`), 123–224
(`collectAlternativesFromHere`) and 238–270 (`parseAlternativeText`).
-/

namespace CucumberExpression

/-! ### The loops of the parser -/

private theorem readAt_ne_outOfFuel (s : List Char) (i : Nat) : readAt s i ≠ .error .outOfFuel := by
  unfold readAt
  split <;> exact fun h => by cases h

private theorem intAdd_ne_outOfFuel (v d : Int) : intAdd v d ≠ .error .outOfFuel := by
  unfold intAdd
  split_ifs <;> exact fun h => by cases h

/-- The loop over an alternative's text moves right on every iteration and reads only inside
the text, so it fails only by throwing. -/
private theorem parseAlternativeTextFrom_ne_error {f : Failure} (hf : ∀ t, f ≠ .thrown t)
    (text : List Char) : ∀ fuel i result, text.length ≤ i + fuel →
      parseAlternativeTextFrom text fuel i result ≠ .error f := by
  intro fuel
  induction fuel with
  | zero =>
    intro i result hi
    simp [parseAlternativeTextFrom, show ¬ i < text.length by omega]
  | succ fuel ih =>
    intro i result hi
    unfold parseAlternativeTextFrom
    refine ite_ne (fun hlt => ?_) fun _ h => by cases h
    rw [readAt_of_lt hlt, bind_ok]
    split
    · rename_i closePos hclose
      have hge : i ≤ closePos := by
        split_ifs at hclose
        exact (find_spec hclose).1
      exact ite_ne (fun _ h => hf _ (by cases h; rfl)) fun _ => ih _ _ (by omega)
    · exact ih _ _ (by omega)

theorem parseAlternativeText_ne_error {f : Failure} (hf : ∀ t, f ≠ .thrown t) (text : List Char) :
    parseAlternativeText text ≠ .error f :=
  parseAlternativeTextFrom_ne_error hf text _ _ _ (by omega)

section Scans

variable {e : List Char}

/-- The inner backward loop only moves left. -/
theorem backtrackParen_index_le : ∀ fuel i depth current r,
    backtrackParen e fuel i depth current = .ok r → r.1 ≤ i := by
  intro fuel
  induction fuel with
  | zero => intro i depth current r h; cases h
  | succ fuel ih =>
    intro i depth current r h
    simp only [backtrackParen] at h
    refine ite_eq_elim h (fun _ h => ?_) fun _ h => by cases h; exact le_rfl
    obtain ⟨pc, -, h⟩ := bind_eq_ok.mp h
    obtain ⟨d1, -, h⟩ := bind_eq_ok.mp h
    obtain ⟨d2, -, h⟩ := bind_eq_ok.mp h
    refine ite_eq_elim h (fun _ h => by cases h; exact Nat.zero_le _) fun _ h => ?_
    have := ih _ _ _ _ h
    omega

/-- From index `i` the inner backward loop needs at most `i + 1` iterations. -/
private theorem backtrackParen_ne_outOfFuel : ∀ fuel i depth current, i + 1 ≤ fuel →
    backtrackParen e fuel i depth current ≠ .error .outOfFuel := by
  intro fuel
  induction fuel with
  | zero => intro i depth current h; omega
  | succ fuel ih =>
    intro i depth current hi
    simp only [backtrackParen]
    refine ite_ne (fun _ => bind_ne_error (readAt_ne_outOfFuel _ _) fun pc _ => ?_)
      fun _ h => by cases h
    have hdepth (b : Char) (d k : Int) :
        (if pc = b then intAdd d k else .ok d) ≠ .error .outOfFuel :=
      ite_ne (fun _ => intAdd_ne_outOfFuel _ _) fun _ h => by cases h
    exact bind_ne_error (hdepth _ _ _) fun _ _ => bind_ne_error (hdepth _ _ _) fun _ _ =>
      ite_ne (fun _ h => by cases h) fun _ => ih _ _ _ (by omega)

/-- From index `i` the backward scan needs at most `i + 1` iterations of its own. -/
private theorem backtrackWord_ne_outOfFuel : ∀ fuel i current, i + 1 ≤ fuel →
    backtrackWord e fuel i current ≠ .error .outOfFuel := by
  intro fuel
  induction fuel with
  | zero => intro i current h; omega
  | succ fuel ih =>
    intro i current hi
    simp only [backtrackWord]
    refine bind_ne_error (readAt_ne_outOfFuel _ _) fun c _ => ?_
    -- a stop, a `)` with its span, a `(`, index `0` or a word character
    refine ite_ne (fun _ h => by cases h) fun _ =>
      ite_ne (fun _ => ite_ne (fun _ h => by cases h) fun hi => ?_) fun _ =>
        ite_ne (fun _ h => by cases h) fun _ =>
          ite_ne (fun _ h => by cases h) fun _ => ih _ _ (by omega)
    refine bind_ne_error (backtrackParen_ne_outOfFuel _ _ _ _ (by omega)) fun r hr => ?_
    have := backtrackParen_index_le _ _ _ _ _ hr
    exact ih _ _ (by omega)

/-- From index `p` the forward scan needs at most `e.length - p` iterations, and it reads only
inside the expression: it never fails. -/
theorem scanForward_ne_error (f : Failure) : ∀ fuel p current alternatives,
    e.length ≤ p + fuel → scanForward e fuel p current alternatives ≠ .error f := by
  intro fuel
  induction fuel with
  | zero =>
    intro p current alternatives hp
    simp [scanForward, show ¬ p < e.length by omega]
  | succ fuel ih =>
    intro p current alternatives hp
    simp only [scanForward]
    refine ite_ne (fun hlt => ?_) fun _ h => by cases h
    rw [readAt_of_lt hlt, bind_ok]
    -- a stop, a span in parentheses, an escaped slash, a separator or a word character
    refine ite_ne (fun _ h => by cases h) fun _ => ite_ne (fun _ h => by cases h) fun _ =>
      ite_ne (fun _ => ?_) fun _ => ite_ne (fun _ => ih _ _ _ (by omega)) fun _ =>
        ite_ne (fun _ => ih _ _ _ (by omega)) fun _ => ih _ _ _ (by omega)
    split
    · rename_i parenEnd hend
      have := (find_spec hend).1
      exact ih _ _ _ (by omega)
    · exact ih _ _ _ (by omega)

/-- The forward scan only moves right, and not past the end of the expression. -/
theorem scanForward_pos_bounds : ∀ fuel p current alternatives r,
    scanForward e fuel p current alternatives = .ok r → p ≤ r.1 ∧ r.1 ≤ max p e.length := by
  intro fuel
  induction fuel with
  | zero =>
    intro p current alternatives r h
    refine ite_eq_elim h (fun _ h => by cases h) fun _ h => ?_
    cases h
    omega
  | succ fuel ih =>
    intro p current alternatives r h
    refine ite_eq_elim h (fun hlt h => ?_) fun _ h => by cases h; omega
    obtain ⟨c, -, h⟩ := bind_eq_ok.mp h
    have hnext : ∀ {q cur alts}, p < q → q ≤ e.length →
        scanForward e fuel q cur alts = .ok r → p ≤ r.1 ∧ r.1 ≤ max p e.length := fun hq hqe h => by
      have := ih _ _ _ _ h
      omega
    refine ite_eq_elim h (fun _ h => by cases h; omega) fun _ h => ?_
    refine ite_eq_elim h (fun _ h => by cases h; omega) fun _ h => ?_
    refine ite_eq_elim h (fun _ h => ?_) fun _ h => ?_
    · split at h
      · rename_i parenEnd hend
        have hend := find_spec hend
        have := (List.getElem?_eq_some_iff.mp hend.2.1).1
        exact hnext (by omega) (by omega) h
      · exact hnext (by omega) (by omega) h
    refine ite_eq_elim h (fun hesc h => hnext (by omega) (by omega) h) fun _ h => ?_
    exact ite_eq_elim h (fun _ h => hnext (by omega) (by omega) h) fun _ h =>
      hnext (by omega) (by omega) h

private theorem collectAlternativesFromHere_ne_outOfFuel (startPos : Nat) :
    collectAlternativesFromHere e startPos ≠ .error .outOfFuel :=
  bind_ne_error (backtrackWord_ne_outOfFuel _ _ _ le_rfl) fun _ _ =>
    bind_ne_error (scanForward_ne_error _ _ _ _ _ (by omega)) fun _ _ h => by cases h

/-- `pos - 1` in `size_t`, for a cursor inside a `std::string`. -/
theorem pos_pred_mod {pos : Nat} (h0 : 0 < pos) (h : pos < 2 ^ 64) :
    (pos + 2 ^ 64 - 1) % 2 ^ 64 = pos - 1 := by
  rw [show pos + 2 ^ 64 - 1 = pos - 1 + 2 ^ 64 by omega, Nat.add_mod_right,
    Nat.mod_eq_of_lt (by omega)]

/-- At a `/`, the scans succeed only past index `0`; the forward scan starts on the `/` itself and
moves past it, and stops inside the expression or at its end. -/
theorem collectAlternativesFromHere_fwdPos (hlen : e.length < 2 ^ 64) {pos fwdPos : Nat}
    {alternatives : List (List Char)} (hcur : e[pos]? = some '/')
    (h : collectAlternativesFromHere e ((pos + 2 ^ 64 - 1) % 2 ^ 64) = .ok (alternatives, fwdPos)) :
    0 < pos ∧ pos < fwdPos ∧ fwdPos ≤ e.length := by
  have hlt : pos < e.length := (List.getElem?_eq_some_iff.mp hcur).1
  rcases Nat.eq_zero_or_pos pos with rfl | hpos
  · rw [collectAlternativesFromHere, show (0 + 2 ^ 64 - 1) % 2 ^ 64 = 2 ^ 64 - 1 by decide,
      backtrackWord, readAt_of_le (by omega)] at h
    cases h
  · rw [pos_pred_mod hpos (by omega)] at h
    obtain ⟨first, -, h⟩ := bind_eq_ok.mp h
    obtain ⟨r, hr, h⟩ := bind_eq_ok.mp h
    cases h
    rw [Nat.mod_eq_of_lt (by omega), Nat.sub_add_cancel hpos, scanForward_separator hcur] at hr
    have := scanForward_pos_bounds _ _ _ _ _ hr
    omega

end Scans

section Parser

variable {e : List Char}

private theorem parseStep_ne_outOfFuel (s : ParserState) : parseStep e s ≠ .error .outOfFuel := by
  unfold parseStep
  refine bind_ne_error (readAt_ne_outOfFuel _ _) fun current _ =>
    bind_ne_error (ite_ne (fun _ => map_ne_error (readAt_ne_outOfFuel _ _)) fun _ h => by cases h)
      fun escape _ => ?_
  refine ite_ne (fun _ => bind_ne_error (readAt_ne_outOfFuel _ _) fun _ _ h => by cases h) fun _ =>
    ite_ne (fun _ => ?_) fun _ => ite_ne (fun _ => ?_) fun _ =>
      ite_ne (fun _ => ?_) fun _ h => by cases h
  · unfold parseOpenBrace
    split
    · exact fun h => by cases h
    · dsimp only
      split <;> exact fun h => by cases h
  · unfold parseOpenParenthesis
    split
    · exact fun h => by cases h
    · dsimp only
      exact ite_ne (fun _ h => by cases h) fun _ h => by cases h
  · rw [parseAlternatives, backtrackWordEnd_bind]
    refine ite_ne (fun _ h => by cases h) fun _ =>
      bind_ne_error (collectAlternativesFromHere_ne_outOfFuel _) fun r _ => ?_
    exact ite_ne (fun _ =>
      bind_ne_error (mapM_ne_error fun a _ => parseAlternativeText_ne_error (fun _ h => by cases h) a)
      fun _ _ h => by cases h) fun _ h => by cases h

/-- Every step of the parser moves its cursor forward, and not past the end of the expression. -/
theorem parseStep_advances (hlen : e.length < 2 ^ 64) {s s' : ParserState}
    (h : parseStep e s = .ok s') : s.pos < s'.pos ∧ s'.pos ≤ e.length := by
  cases parseStep_spec h with
  | escaping _ _ hnext =>
    have := (List.getElem?_eq_some_iff.mp hnext).1
    simp only
    omega
  | openBrace closePos _ _ hclose =>
    have hclose := find_spec hclose
    have := (List.getElem?_eq_some_iff.mp hclose.2.1).1
    simp only
    omega
  | openParenthesis closePos _ hclose =>
    have hclose := find_spec hclose
    have := (List.getElem?_eq_some_iff.mp hclose.2.1).1
    simp only
    omega
  | separator alternatives fwdPos hcur hcollect =>
    exact (collectAlternativesFromHere_fwdPos hlen hcur hcollect).2
  | alternation alternatives fwdPos rendered hcur hcollect =>
    exact (collectAlternativesFromHere_fwdPos hlen hcur hcollect).2
  | literal _ hcur =>
    have := (List.getElem?_eq_some_iff.mp hcur).1
    simp only
    omega

/-- The run lemma of the main loop: if no step from a state in `P` fails with `f`, and the steps
keep `P`, then the loop does not fail with `f` while its bound covers the rest of the
expression. -/
theorem parseLoop_ne_error {f : Failure} (hlen : e.length < 2 ^ 64) (P : ParserState → Prop)
    (hstep : ∀ s, P s → s.pos < e.length → parseStep e s ≠ .error f)
    (hkeep : ∀ s s', P s → s.pos < e.length → parseStep e s = .ok s' → P s') :
    ∀ fuel s, P s → e.length ≤ s.pos + fuel → parseLoop e fuel s ≠ .error f := by
  intro fuel
  induction fuel with
  | zero =>
    intro s _ hs
    simp [parseLoop, show ¬ s.pos < e.length by omega]
  | succ fuel ih =>
    intro s hP hs
    simp only [parseLoop]
    refine ite_ne (fun hlt => bind_ne_error (hstep s hP hlt) fun s' hs' => ?_) fun _ h => by cases h
    have := (parseStep_advances hlen hs').1
    exact ih s' (hkeep s s' hP hlt hs') (by omega)

/-- The parser's iteration bound never runs out: on any expression `parse` returns, throws or
reaches undefined behaviour, as the source does. -/
theorem parse_ne_outOfFuel (hlen : e.length < 2 ^ 64) : parse e ≠ .error .outOfFuel :=
  parseLoop_ne_error hlen (fun _ => True) (fun s _ _ => parseStep_ne_outOfFuel s)
    (fun _ _ _ _ _ => trivial) _ _ trivial (by simp)

end Parser

/-! ### The whole pipeline -/

private theorem validateChar_ne_outOfFuel (c : Char) (d : Depths) :
    validateChar c d ≠ .error .outOfFuel := by
  unfold validateChar
  refine ite_ne (fun _ => bind_ne_error (intAdd_ne_outOfFuel _ _) fun _ _ =>
    ite_ne (fun _ h => by cases h) fun _ h => by cases h) fun _ => ?_
  refine ite_ne (fun _ => bind_ne_error (intAdd_ne_outOfFuel _ _) fun _ _ =>
    ite_ne (fun _ h => by cases h) fun _ h => by cases h) fun _ => ?_
  refine ite_ne (fun _ => bind_ne_error (intAdd_ne_outOfFuel _ _) fun _ _ h => by cases h)
    fun _ => ?_
  exact ite_ne (fun _ => bind_ne_error (intAdd_ne_outOfFuel _ _) fun _ _ =>
    ite_ne (fun _ h => by cases h) fun _ h => by cases h) fun _ h => by cases h

private theorem validateFrom_ne_outOfFuel :
    ∀ (prev : Option Char) (w : List Char) (d : Depths), validateFrom prev w d ≠ .error .outOfFuel
  | _, [], _ => fun h => by cases h
  | _, c :: cs, d =>
    bind_ne_error (ite_ne (fun _ h => by cases h) fun _ => validateChar_ne_outOfFuel c d)
      fun d' _ => validateFrom_ne_outOfFuel _ cs d'

private theorem validate_ne_outOfFuel (e : List Char) : validate e ≠ .error .outOfFuel :=
  bind_ne_error (validateFrom_ne_outOfFuel _ _ _) fun _ _ =>
    ite_ne (fun _ h => by cases h) fun _ => ite_ne (fun _ h => by cases h) fun _ h => by cases h

private theorem validateRegex_ne_outOfFuel (regex : List Char) :
    validateRegex regex ≠ .error .outOfFuel := by
  unfold validateRegex
  split <;> exact fun h => by cases h

/-- The `catch` of `transform` rewraps exceptions only. -/
private theorem mapError_rethrow_ne_outOfFuel {x : Except Failure (List Char)}
    (hx : x ≠ .error .outOfFuel) :
    x.mapError rethrow ≠ .error .outOfFuel := by
  cases x with
  | error f =>
    intro h
    cases f <;> cases h
    exact hx rfl
  | ok a => exact fun h => by cases h

/-- On an expression of fewer than `2^64` characters no loop of `transform` reaches its bound. -/
theorem transform_ne_outOfFuel {e : List Char} (hlen : e.length < 2 ^ 64) :
    transform e ≠ .error .outOfFuel :=
  ite_ne (fun _ h => by cases h) fun _ =>
    bind_ne_error (validate_ne_outOfFuel e) fun _ _ => mapError_rethrow_ne_outOfFuel <|
      bind_ne_error (parse_ne_outOfFuel hlen) fun _ _ =>
        bind_ne_error (validateRegex_ne_outOfFuel _) fun _ _ h => by cases h

theorem transform_ne_outOfFuel_flights :
    "there is/are \x7bint\x7d flight(s)".toList.length < 2 ^ 64 ∧
      transform "there is/are \x7bint\x7d flight(s)".toList ≠ .error .outOfFuel :=
  ⟨by decide, transform_ne_outOfFuel (by decide)⟩

end CucumberExpression
