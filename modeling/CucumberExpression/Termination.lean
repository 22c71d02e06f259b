import CucumberExpression.Progress

/-!
# The loop of `parse` ends

Every iteration of the main loop that returns moves the cursor forward by its branch's rule, and
not past the end of the expression (`parseStep_moves`, `parseStep_advances`). So the iterations
form a well-founded relation (`loopStep_wf`): no run of the loop is infinite.

An iteration that does not return throws or reaches undefined behaviour. The latter happens in
two places:

* at a `/` at index `0`, where the backward scan reads `expression[2^64 - 1]`
  (`transform_of_leading_slash`);
* in the backward scan's `int` depth, which overflows after `2^31` closing parentheses
  (`parse_replicate_close_slash`); escaped as `\)` they pass the validator, and `transform`
  reaches the overflow (`transform_replicate_escaped_close_slash`).

Outside these two cases the loop returns or throws (`parse_ne_error`). Every scan then reads
inside the expression (`collectAlternativesFromHere_ne_error`), and `result.back()` meets a
non-empty buffer (`Ready`).

## Main definitions

* `LoopStep`: one iteration of the main loop that returns.
* `Ready`: a state from which an iteration cannot reach undefined behaviour.
* `Terminates`: the loop of `parse` ends, for the reasons the source gives.

## Main results

* `loopStep_wf`, `parse_ne_error`, `parse_terminates`.
* `parse_replicate_close_slash`, `transform_replicate_escaped_close_slash`: the `int` depth of
  the backward scan overflows.

Source: `src/src/CucumberExpression.cpp`, lines 75–120 (`parse`), 123–224
(`collectAlternativesFromHere`) and 321–349 (`parseAlternatives`).
-/

namespace CucumberExpression

/-! ### Reads inside the expression, depths inside `int` -/

/-- The closing parentheses up to and including index `i`. -/
private theorem count_take_succ {e : List Char} {i : Nat} {c : Char} (a : Char) (h : e[i]? = some c) :
    (e.take (i + 1)).count a = (e.take i).count a + if c = a then 1 else 0 := by
  rw [List.take_succ, h]
  simp [List.count_singleton]

/-- The two depth updates of the backward scan's inner loop, when neither overflows. -/
private theorem depthStep_eq {β : Type} {pc : Char} {depth : Int} (hpos : 0 < depth)
    (hbound : depth + (if pc = ')' then 1 else 0) < 2 ^ 31) (k : Int → Except Failure β) :
    ((if pc = ')' then intAdd depth 1 else .ok depth).bind fun d =>
      (if pc = '(' then intAdd d (-1) else .ok d).bind k) =
      k (depth + (if pc = ')' then 1 else 0) - (if pc = '(' then 1 else 0)) := by
  by_cases h1 : pc = ')'
  · subst h1
    simp only [if_true] at hbound
    simp [intAdd_of_range (show -2 ^ 31 ≤ depth + 1 by omega) hbound]
  · by_cases h2 : pc = '('
    · subst h2
      simp only [h1, if_false] at hbound
      simp [intAdd_of_range (show -2 ^ 31 ≤ depth + -1 by omega) (by omega), Int.sub_eq_add_neg]
    · simp [h1, h2]

section Scans

variable {e : List Char} (hcount : e.count ')' < 2 ^ 31)
include hcount

/-- The inner backward loop reads inside the expression, and its depth, bounded by the closing
parentheses still ahead of it, stays inside `int`: it never fails. -/
private theorem backtrackParen_ne_error (f : Failure) :
    ∀ fuel i depth current, i < e.length → i + 1 ≤ fuel →
      depth + ((e.take (i + 1)).count ')' : Int) ≤ e.count ')' →
      backtrackParen e fuel i depth current ≠ .error f := by
  intro fuel
  induction fuel with
  | zero => intro i depth current _ h; omega
  | succ fuel ih =>
    intro i depth current hi hfuel hdepth
    simp only [backtrackParen]
    refine ite_ne (fun hpos => ?_) fun _ h => by cases h
    obtain ⟨pc, hpc⟩ : ∃ pc, e[i]? = some pc := ⟨e[i], List.getElem?_eq_getElem hi⟩
    have hcnt := count_take_succ ')' hpc
    rw [readAt_eq_ok.mpr hpc, bind_ok, depthStep_eq hpos (by split_ifs at hcnt ⊢ <;> omega)]
    refine ite_ne (fun _ h => by cases h) fun hi0 => ih _ _ _ (by omega) (by omega) ?_
    rw [Nat.sub_add_cancel (by omega)]
    split_ifs at hcnt ⊢ <;> push_cast [hcnt] at hdepth ⊢ <;> omega

/-- The backward scan from an index inside the expression never fails. -/
private theorem backtrackWord_ne_error (f : Failure) :
    ∀ fuel i current, i < e.length → i + 1 ≤ fuel →
      backtrackWord e fuel i current ≠ .error f := by
  intro fuel
  induction fuel with
  | zero => intro i current _ h; omega
  | succ fuel ih =>
    intro i current hi hfuel
    simp only [backtrackWord]
    obtain ⟨c, hc⟩ : ∃ c, e[i]? = some c := ⟨e[i], List.getElem?_eq_getElem hi⟩
    rw [readAt_eq_ok.mpr hc, bind_ok]
    -- a stop, a `)` with its span, a `(`, index `0` or a word character
    refine ite_ne (fun _ h => by cases h) fun _ =>
      ite_ne (fun hpar => ite_ne (fun _ h => by cases h) fun hi0 => ?_) fun _ =>
        ite_ne (fun _ h => by cases h) fun _ =>
          ite_ne (fun _ h => by cases h) fun _ => ih _ _ (by omega) (by omega)
    have hcnt := count_take_succ ')' hc
    have hle := (List.take_sublist (i + 1) e).count_le ')'
    simp only [hpar, if_true] at hcnt
    refine bind_ne_error (backtrackParen_ne_error hcount f _ _ _ _ (by omega) (by omega) ?_)
      fun r hr => ?_
    · rw [Nat.sub_add_cancel (by omega)]
      omega
    · have := backtrackParen_index_le _ _ _ _ _ hr
      exact ih _ _ (by omega) (by omega)

theorem collectAlternativesFromHere_ne_error (f : Failure) {startPos : Nat}
    (h : startPos < e.length) : collectAlternativesFromHere e startPos ≠ .error f :=
  bind_ne_error (backtrackWord_ne_error hcount f _ _ _ h le_rfl) fun _ _ =>
    bind_ne_error (scanForward_ne_error _ _ _ _ _ (by omega)) fun _ _ h => by cases h

end Scans

/-! ### No undefined behaviour in the main loop -/

section Parser

variable {e : List Char}

/-- What an iteration needs to avoid undefined behaviour, beyond the scans' bound: no `/` at the
first index, and after the first iteration a non-empty buffer for `result.back()`. -/
structure Ready (e : List Char) (s : ParserState) : Prop where
  first : s.pos = 0 → e[0]? ≠ some '/'
  nonempty : 0 < s.pos → s.result ≠ []

/-- Every iteration keeps `Ready`: the cursor leaves `0`, and only a `/` that yields at most one
alternative leaves the buffer as it was. -/
theorem Ready.step (hlen : e.length < 2 ^ 64) {s s' : ParserState} (hr : Ready e s)
    (h : parseStep e s = .ok s') : Ready e s' := by
  have hpos := (parseStep_advances hlen h).1
  refine ⟨fun h0 => by omega, fun _ => ?_⟩
  cases parseStep_spec h with
  | separator _ _ hcur =>
    refine hr.nonempty (Nat.pos_of_ne_zero fun h0 => hr.first h0 ?_)
    rwa [h0] at hcur
  | escaping => split_ifs <;> simp
  | literal c => simp [escapeRegexChar_ne_nil]
  | _ => simp

/-- An iteration from a `Ready` state fails only by throwing, when the expression has fewer than
`2^31` closing parentheses. -/
private theorem parseStep_ne_error (hlen : e.length < 2 ^ 64) (hcount : e.count ')' < 2 ^ 31)
    {f : Failure} (hf : ∀ t, f ≠ .thrown t) {s : ParserState} (hr : Ready e s)
    (hs : s.pos < e.length) : parseStep e s ≠ .error f := by
  obtain ⟨c, hc⟩ : ∃ c, e[s.pos]? = some c := ⟨_, List.getElem?_eq_getElem hs⟩
  unfold parseStep
  rw [readAt_eq_ok.mpr hc, bind_ok]
  refine bind_ne_error (ite_ne (fun h => by rw [readAt_of_lt h.2]; exact fun h => by cases h)
    fun _ h => by cases h) fun escape hesc => ?_
  -- an escape, a parameter, an optional, an alternation or a literal
  refine ite_ne (fun he => ?_) fun _ => ite_ne (fun _ => ?_) fun _ =>
    ite_ne (fun _ => ?_) fun _ => ite_ne (fun hslash => ?_) fun _ h => by cases h
  · obtain ⟨-, next, hnext, -⟩ := (escape_flag hesc).mp he
    rw [parseEscaping, readAt_eq_ok.mpr hnext, bind_ok]
    exact fun h => by cases h
  · unfold parseOpenBrace
    split
    · exact fun h => hf _ (by cases h; rfl)
    · dsimp only
      split
      · exact fun h => hf _ (by cases h; rfl)
      · exact fun h => by cases h
  · unfold parseOpenParenthesis
    split
    · exact fun h => hf _ (by cases h; rfl)
    · dsimp only
      exact ite_ne (fun _ h => hf _ (by cases h; rfl)) fun _ h => by cases h
  · subst hslash
    have hpos : 0 < s.pos := Nat.pos_of_ne_zero fun h0 => hr.first h0 (by rwa [h0] at hc)
    rw [parseAlternatives, backtrackWordEnd_bind, if_neg fun h => hr.nonempty hpos h.1,
      pos_pred_mod hpos (by omega)]
    refine bind_ne_error (collectAlternativesFromHere_ne_error hcount f (by omega)) fun _ _ => ?_
    exact ite_ne (fun _ =>
      bind_ne_error (mapM_ne_error fun a _ => parseAlternativeText_ne_error hf a)
        fun _ _ h => by cases h) fun _ h => by cases h

/-- On an expression with fewer than `2^31` closing parentheses that does not start with `/`,
`parse` fails only by throwing. -/
theorem parse_ne_error (hlen : e.length < 2 ^ 64) (hcount : e.count ')' < 2 ^ 31)
    (hslash : e[0]? ≠ some '/') {f : Failure} (hf : ∀ t, f ≠ .thrown t) : parse e ≠ .error f :=
  parseLoop_ne_error hlen (Ready e) (fun _ hr hs => parseStep_ne_error hlen hcount hf hr hs)
    (fun _ _ hr _ h => hr.step hlen h) _ _ ⟨fun _ => hslash, fun h => absurd h (Nat.lt_irrefl 0)⟩
    (by simp)

end Parser

/-! ### The loop ends -/

section Loop

variable {e : List Char}

/-- One iteration of the loop of `parse` that returns normally: the loop test holds at `s` and
the step gives `s'`. -/
def LoopStep (e : List Char) (s' s : ParserState) : Prop :=
  s.pos < e.length ∧ parseStep e s = .ok s'

/-- No run of the loop of `parse` is infinite: `length - pos` drops at every iteration. -/
theorem loopStep_wf (hlen : e.length < 2 ^ 64) : WellFounded (LoopStep e) :=
  Subrelation.wf (r := (measure fun s : ParserState => e.length - s.pos).rel)
    (fun {s' s} h => show e.length - s'.pos < e.length - s.pos by
      have := (parseStep_advances hlen h.2).1
      have := h.1
      omega)
    (measure _).wf

/-- Each branch's rule for the cursor: an escape moves it by two, a parameter or an optional past
the `}` or `)` found from it, an alternation past the `/`, any other character by one. -/
theorem parseStep_moves (hlen : e.length < 2 ^ 64) {s s' : ParserState}
    (h : parseStep e s = .ok s') :
    (e[s.pos]? = some '\\' ∧ s.pos + 1 < e.length ∧ s'.pos = s.pos + 2) ∨
    (∃ closePos, (find e '}' s.pos = some closePos ∨ find e ')' s.pos = some closePos) ∧
      s.pos ≤ closePos ∧ s'.pos = closePos + 1) ∨
    (e[s.pos]? = some '/' ∧ s.pos < s'.pos) ∨ s'.pos = s.pos + 1 := by
  have hadv := (parseStep_advances hlen h).1
  cases parseStep_spec h with
  | escaping _ hcur hnext => exact .inl ⟨hcur, (List.getElem?_eq_some_iff.mp hnext).1, rfl⟩
  | openBrace closePos _ _ hclose =>
    exact .inr (.inl ⟨closePos, .inl hclose, (find_spec hclose).1, rfl⟩)
  | openParenthesis closePos _ hclose =>
    exact .inr (.inl ⟨closePos, .inr hclose, (find_spec hclose).1, rfl⟩)
  | separator _ _ hcur => exact .inr (.inr (.inl ⟨hcur, hadv⟩))
  | alternation _ _ _ hcur => exact .inr (.inr (.inl ⟨hcur, hadv⟩))
  | literal => exact .inr (.inr (.inr rfl))

/-- The loop of `parse` on `e` ends, for the reasons the source gives. -/
structure Terminates (e : List Char) : Prop where
  /-- Each iteration that returns moves the cursor by its branch's rule. -/
  moves : ∀ s s', LoopStep e s' s →
    (e[s.pos]? = some '\\' ∧ s.pos + 1 < e.length ∧ s'.pos = s.pos + 2) ∨
    (∃ closePos, (find e '}' s.pos = some closePos ∨ find e ')' s.pos = some closePos) ∧
      s.pos ≤ closePos ∧ s'.pos = closePos + 1) ∨
    (e[s.pos]? = some '/' ∧ s.pos < s'.pos) ∨ s'.pos = s.pos + 1
  /-- So the cursor strictly increases and stays within the expression. -/
  advance : ∀ s s', LoopStep e s' s → s.pos < s'.pos ∧ s'.pos ≤ e.length
  /-- No run of the loop is infinite. -/
  wf : WellFounded (LoopStep e)
  /-- Within its bound of `length + 1` iterations the loop returns or throws. -/
  ends : ∀ f, parse e = .error f → ∃ t, f = .thrown t
  /-- The backward scan returns from every index, within `i + 1` iterations of its own. -/
  backward : ∀ i, i < e.length → ∃ w, backtrackWord e (i + 1) i [] = .ok w

/-- On an expression with fewer than `2^31` closing parentheses that does not start with `/`, the
loop of `parse` ends: every iteration that returns moves the cursor forward within the
expression, and the run returns or throws, with no undefined behaviour on the way. -/
theorem parse_terminates (hlen : e.length < 2 ^ 64) (hcount : e.count ')' < 2 ^ 31)
    (hslash : e[0]? ≠ some '/') : Terminates e where
  moves _ _ h := parseStep_moves hlen h.2
  advance _ _ h := parseStep_advances hlen h.2
  wf := loopStep_wf hlen
  ends f h := by
    by_contra hf
    exact parse_ne_error hlen hcount hslash (not_exists.mp hf) h
  backward i hi := exists_ok_of_ne_error fun f => backtrackWord_ne_error hcount f _ _ _ hi le_rfl

theorem parse_terminates_alternation :
    "a/b".toList.length < 2 ^ 64 ∧ "a/b".toList.count ')' < 2 ^ 31 ∧
      "a/b".toList[0]? ≠ some '/' ∧ Terminates "a/b".toList :=
  ⟨by decide, by decide, by decide, parse_terminates (by decide) (by decide) (by decide)⟩

end Loop

/-! ### The overflow of the backward scan -/

section Overflow

variable {e : List Char}

/-- The main loop over a run of `k` copies of such a character. -/
private theorem parseLoop_of_plain_run {c : Char} (h1 : c ≠ '\\') (h2 : c ≠ '{') (h3 : c ≠ '(')
    (h4 : c ≠ '/') : ∀ k fuel p r, (∀ i, p ≤ i → i < p + k → e[i]? = some c) →
      parseLoop e (fuel + k) ⟨p, r⟩ =
        parseLoop e fuel ⟨p + k, r ++ escapeRegexChars (List.replicate k c)⟩ := by
  intro k
  induction k with
  | zero => intro fuel p r _; simp [escapeRegexChars]
  | succ k ih =>
    intro fuel p r hrun
    have hp := hrun p le_rfl (by omega)
    rw [← Nat.add_assoc, parseLoop, if_pos (List.getElem?_eq_some_iff.mp hp).1,
      parseStep_of_plain hp h1 h2 h3 h4, bind_ok,
      ih fuel (p + 1) _ fun i hi hi' => hrun i (by omega) (by omega)]
    simp [escapeRegexChars, List.replicate_succ, Nat.add_right_comm p 1 k, Nat.add_assoc]

/-- The main loop over `k` escaped closing parentheses `\)`. -/
private theorem parseLoop_of_escaped_run : ∀ k fuel p r,
    (∀ i, i < k → e[p + 2 * i]? = some '\\' ∧ e[p + 2 * i + 1]? = some ')') →
      parseLoop e (fuel + k) ⟨p, r⟩ =
        parseLoop e fuel ⟨p + 2 * k, r ++ (List.replicate k ['\\', ')']).flatten⟩ := by
  intro k
  induction k with
  | zero => intro fuel p r _; simp
  | succ k ih =>
    intro fuel p r hrun
    obtain ⟨h1, h2⟩ : e[p]? = some '\\' ∧ e[p + 1]? = some ')' := by simpa using hrun 0 (by omega)
    have hrest : ∀ i, i < k → e[p + 2 + 2 * i]? = some '\\' ∧ e[p + 2 + 2 * i + 1]? = some ')' :=
      fun i hi => by
        rw [show p + 2 + 2 * i = p + 2 * (i + 1) by omega]
        exact hrun (i + 1) (by omega)
    rw [← Nat.add_assoc, parseLoop,
      if_pos (show p < e.length by have := (List.getElem?_eq_some_iff.mp h2).1; omega),
      @parseStep_of_escape e ⟨p, r⟩ ')' h1 h2 (by simp [IsEscapable]), bind_ok, ih fuel _ _ hrest,
      show p + 2 + 2 * k = p + 2 * (k + 1) by omega, List.replicate_succ, List.flatten_cons,
      List.append_assoc]
    rfl

/-- The inner backward loop, over an expression without `(`, overflows its `int` depth once the
closing parentheses still ahead of it would take the depth past `2^31 - 1`. -/
private theorem backtrackParen_overflow (hno : '(' ∉ e) : ∀ (fuel j : Nat) (depth : Int) current,
    j < e.length → 0 < depth → depth < 2 ^ 31 → 2 ^ 31 ≤ depth + (e.take (j + 1)).count ')' →
      j + 1 ≤ fuel → backtrackParen e fuel j depth current = .error .intOverflow := by
  intro fuel
  induction fuel with
  | zero => intro j depth current _ _ _ _ h; omega
  | succ fuel ih =>
    intro j depth current hj hpos hlt hover hfuel
    obtain ⟨a, ha⟩ : ∃ a, e[j]? = some a := ⟨e[j], List.getElem?_eq_getElem hj⟩
    have hna : a ≠ '(' := fun h => hno (h ▸ List.getElem?_mem ha)
    have hcount := count_take_succ ')' ha
    simp only [backtrackParen, if_pos hpos, readAt_eq_ok.mpr ha, bind_ok]
    by_cases hc : a = ')'
    · subst hc
      by_cases hov : depth + 1 < 2 ^ 31
      · have hj0 : j ≠ 0 := by rintro rfl; simp at hcount hover; omega
        rw [if_pos rfl, intAdd_of_range (by omega) hov, bind_ok, if_neg hna, bind_ok, if_neg hj0]
        exact ih (j - 1) (depth + 1) _ (by omega) (by omega) hov
          (by rw [Nat.sub_add_cancel (Nat.pos_of_ne_zero hj0)]; simp at hcount; omega) (by omega)
      · rw [if_pos rfl, intAdd, if_neg fun h => hov h.2, bind_error]
    · have hj0 : j ≠ 0 := by rintro rfl; simp [hc] at hcount hover; omega
      rw [if_neg hc, bind_ok, if_neg hna, bind_ok, if_neg hj0]
      exact ih (j - 1) depth _ (by omega) hpos hlt
        (by rw [Nat.sub_add_cancel (Nat.pos_of_ne_zero hj0)]; simp [hc] at hcount; omega) (by omega)

/-- At a `/` after a `)`, over an expression without `(`, the step overflows the backward scan's
`int` depth when the `)` before the `/` are `2^31` or more. -/
private theorem parseStep_slash_overflow (hno : '(' ∉ e) (hlen : e.length < 2 ^ 64) {q : Nat}
    {r : List Char} (hq : 2 ≤ q) (hslash : e[q]? = some '/') (hclose : e[q - 1]? = some ')')
    (hr : r ≠ []) (hover : 2 ^ 31 ≤ 1 + (e.take (q - 1)).count ')') :
    parseStep e ⟨q, r⟩ = .error .intOverflow := by
  have hq' := (List.getElem?_eq_some_iff.mp hslash).1
  rw [parseStep_of_slash hslash, parseAlternatives]
  dsimp only
  rw [backtrackWordEnd_bind, if_neg fun h => hr h.1, pos_pred_mod (by omega) (by omega),
    collectAlternativesFromHere, backtrackWord, readAt_eq_ok.mpr hclose, bind_ok, if_neg (by decide),
    if_pos rfl, if_neg (by omega),
    backtrackParen_overflow hno _ _ _ _ (by omega) (by decide) (by decide)
      (by rw [show q - 1 - 1 + 1 = q - 1 by omega]; push_cast; omega) (by omega)]
  rfl

end Overflow

/-! ### Closing parentheses before a `/` -/

/-- With `n ≥ 2^31` closing parentheses before `/a`, the backward scan at the `/` counts them in
its `int` depth, which overflows. -/
theorem parse_replicate_close_slash {n : Nat} (hn : 2 ^ 31 ≤ n) (hn' : n + 2 < 2 ^ 64) :
    parse (List.replicate n ')' ++ "/a".toList) = .error .intOverflow := by
  obtain ⟨m, rfl⟩ : ∃ m, n = m + 2 := ⟨n - 2, by omega⟩
  set e := List.replicate (m + 2) ')' ++ "/a".toList with he
  have hlen : e.length = m + 4 := by simp [he]
  have hparen : ∀ i, i < m + 2 → e[i]? = some ')' := fun i hi => by
    rw [he, List.getElem?_append_left (by simpa using hi)]
    simp [hi]
  have hslash : e[m + 2]? = some '/' := by
    rw [he, List.getElem?_append_right (by simp)]
    simp
  have hr : escapeRegexChars (List.replicate (m + 2) ')') ≠ [] := by
    simp [escapeRegexChars, List.replicate_succ, escapeRegexChar_ne_nil]
  have hcount : (e.take (m + 1)).count ')' = m + 1 := by
    simp [he, List.take_append_of_le_length, List.take_replicate, List.count_replicate]
  rw [parse, hlen, show m + 4 + 1 = 3 + (m + 2) by omega,
    parseLoop_of_plain_run (by decide) (by decide) (by decide) (by decide) (m + 2) 3 0 []
      fun i _ hi => hparen i (by omega), Nat.zero_add, parseLoop,
    if_pos (show m + 2 < e.length by omega), List.nil_append,
    parseStep_slash_overflow (by simp [he]) (by omega) (by omega) hslash (hparen _ (by omega)) hr
      (by rw [show m + 2 - 1 = m + 1 from rfl, hcount]; omega)]
  rfl

theorem length_escaped_closes (n : Nat) :
    ((List.replicate n ['\\', ')']).flatten).length = 2 * n := by
  induction n with
  | zero => rfl
  | succ n ih =>
    rw [List.replicate_succ, List.flatten_cons, List.length_append, ih, List.length_cons,
      List.length_singleton]
    omega

private theorem getElem?_escaped_closes : ∀ (n i : Nat) (rest : List Char), i < n →
    ((List.replicate n ['\\', ')']).flatten ++ rest)[2 * i]? = some '\\' ∧
      ((List.replicate n ['\\', ')']).flatten ++ rest)[2 * i + 1]? = some ')'
  | n + 1, 0, rest, _ => by simp [List.replicate_succ]
  | n + 1, i + 1, rest, h => by
    simpa [List.replicate_succ, Nat.mul_succ] using getElem?_escaped_closes n i rest (by omega)

private theorem count_take_escaped_closes : ∀ (n i : Nat) (rest : List Char), i < n →
    (((List.replicate n ['\\', ')']).flatten ++ rest).take (2 * i + 1)).count ')' = i
  | n + 1, 0, rest, _ => by simp [List.replicate_succ]
  | n + 1, i + 1, rest, h => by
    simpa [List.replicate_succ, Nat.mul_succ, List.count_cons] using
      count_take_escaped_closes n i rest (by omega)

/-- The validator skips every character after a backslash, so it sees no bracket in a run of
`\)`. -/
private theorem unescapedBrackets_escaped_closes : ∀ (n : Nat) (prev : Option Char) (rest : List Char),
    prev ≠ some '\\' → unescapedBrackets prev ((List.replicate (n + 1) ['\\', ')']).flatten ++ rest) =
      unescapedBrackets (some ')') rest
  | 0, prev, rest, hp => by simp [unescapedBrackets, IsBracket, hp]
  | n + 1, prev, rest, hp => by
    rw [List.replicate_succ, List.flatten_cons, List.append_assoc]
    simpa [unescapedBrackets, IsBracket, hp] using unescapedBrackets_escaped_closes n (some ')') rest

/-- With `n ≥ 2^31` escaped closing parentheses `\)` before `/a`, the validator accepts the
expression, and the backward scan at the `/` counts the parentheses in its `int` depth, which
overflows. -/
theorem transform_replicate_escaped_close_slash {n : Nat} (hn : 2 ^ 31 ≤ n)
    (hn' : 2 * n + 2 < 2 ^ 64) :
    validate ((List.replicate n ['\\', ')']).flatten ++ "/a".toList) = .ok () ∧
      transform ((List.replicate n ['\\', ')']).flatten ++ "/a".toList) = .error .intOverflow := by
  obtain ⟨m, rfl⟩ : ∃ m, n = m + 1 := ⟨n - 1, by omega⟩
  set e := (List.replicate (m + 1) ['\\', ')']).flatten ++ "/a".toList with he
  have hlen : e.length = 2 * m + 4 := by
    rw [he, List.length_append, length_escaped_closes]
    rfl
  have hpairs := fun i => getElem?_escaped_closes (m + 1) i "/a".toList
  have hslash : e[2 * (m + 1)]? = some '/' := by
    rw [he, List.getElem?_append_right (by rw [length_escaped_closes]), length_escaped_closes,
      Nat.sub_self]
    rfl
  have hv : validate e = .ok () := by
    rw [validate, validateFrom_eq_bracketLoop, he,
      unescapedBrackets_escaped_closes m none _ (by simp)]
    rfl
  refine ⟨hv, ?_⟩
  rw [transform_of_validate_ok (by simp [he]) hv, parseAndAnchor, parse, hlen,
    show 2 * m + 4 + 1 = (m + 4) + (m + 1) by omega,
    parseLoop_of_escaped_run (m + 1) (m + 4) 0 [] fun i hi => by simpa using hpairs i hi,
    Nat.zero_add, parseLoop, if_pos (show 2 * (m + 1) < e.length by omega),
    parseStep_slash_overflow (by simp [he]) (by omega) (by omega) hslash
      (by rw [show 2 * (m + 1) - 1 = 2 * m + 1 by omega]; exact (hpairs m (by omega)).2)
      (by simp)
      (by rw [show 2 * (m + 1) - 1 = 2 * m + 1 by omega, count_take_escaped_closes (m + 1) m _
        (by omega)]; omega)]
  rfl

/-- With `2^31` closing parentheses before `/a`, the loop of `parse` reaches a signed overflow,
so C++ promises nothing about the run, its end included. Escaped as `\)`, the same parentheses
pass the validator and take `cukex::transform` there. -/
theorem parse_close_parens_overflow :
    parse (List.replicate (2 ^ 31) ')' ++ "/a".toList) = .error .intOverflow ∧
      validate ((List.replicate (2 ^ 31) ['\\', ')']).flatten ++ "/a".toList) = .ok () ∧
      transform ((List.replicate (2 ^ 31) ['\\', ')']).flatten ++ "/a".toList) =
        .error .intOverflow :=
  ⟨parse_replicate_close_slash le_rfl (by omega),
    transform_replicate_escaped_close_slash le_rfl (by omega)⟩

end CucumberExpression
