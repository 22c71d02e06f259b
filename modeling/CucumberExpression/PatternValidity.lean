import CucumberExpression.Progress

/-!
# When the compiled pattern is a valid regex

`cukex::transform` compiles the anchored pattern once more in `validateRegex`, and it needs to:
at a `/` with two or more alternatives `parseAlternatives` cuts the output after its last space
("Remove the last word from result"), and when that space was written inside a group (an
optional `(a b)`, or an alternative that took in a parenthesised span) the cut leaves the group
open (`transform_space_in_optional`).

This is the only way the parser writes an invalid pattern. Every piece it appends is `Closed`:
read at the top level of a group, it ends at that level again. A cut at a `/` reaches only the
output written before it, so it is enough that every space before some `/` lies outside all
parentheses, escaped ones counted too (`CutsAtTopLevel`); an expression without `/` satisfies
this whatever its spaces (`cutsAtTopLevel_of_not_mem`). While a `/` is still ahead of the cursor
every space of the output is written at the top level, and the output always is (`BufferInv`),
so the anchored pattern passes the syntax check (`check_anchor_of_cutsAtTopLevel`).

## Main definitions

* `rawDepth`, `CutsAtTopLevel`: parentheses as the alternation scans count them.
* `TopLevel`, `Sound`, `BufferInv`: the invariant of the output buffer.

## Main results

* `collectAlternativesFromHere_no_space`: an alternative read before a `/` holds no space.
* `bufferInv_step`: every step of the parser keeps `BufferInv`.
* `check_anchor_of_cutsAtTopLevel`.

Source: `src/src/CucumberExpression.cpp`, lines 57–63 (`validateRegex`), 123–224
(`collectAlternativesFromHere`), 321–349 (`parseAlternatives`) and 352–413 (`transform`).
-/

namespace CucumberExpression

open Regex

/-! ### Parentheses as the scans count them -/

/-- The number of `(` minus the number of `)` among the first `m` characters, escaped or not. -/
def rawDepth (e : List Char) (m : Nat) : Int :=
  ((e.take m).count '(' : Int) - (e.take m).count ')'

/-- No prefix that ends at or before a `/` closes more parentheses than it opens, and every
space before a `/` stands outside all of them; escaped parentheses count, as they do for the
alternation scans. -/
structure CutsAtTopLevel (e : List Char) : Prop where
  nonneg : ∀ m N, m ≤ N → e[N]? = some '/' → 0 ≤ rawDepth e m
  spaces : ∀ m N, m < N → e[m]? = some ' ' → e[N]? = some '/' → rawDepth e m = 0

instance (e : List Char) : Decidable (CutsAtTopLevel e) :=
  decidable_of_iff (∀ N, N < e.length → e[N]? = some '/' →
      (∀ m, m ≤ N → 0 ≤ rawDepth e m) ∧ ∀ m, m < N → e[m]? = some ' ' → rawDepth e m = 0)
    ⟨fun h => ⟨fun m N hm hN => (h N (List.getElem?_eq_some_iff.mp hN).1 hN).1 m hm,
      fun m N hm hs hN => (h N (List.getElem?_eq_some_iff.mp hN).1 hN).2 m hm hs⟩,
    fun h N _ hN => ⟨fun m hm => h.nonneg m N hm hN, fun m hm hs => h.spaces m N hm hs hN⟩⟩

/-- An expression without `/` is never cut. -/
theorem cutsAtTopLevel_of_not_mem {e : List Char} (h : '/' ∉ e) : CutsAtTopLevel e :=
  ⟨fun _ _ _ hN => absurd (List.getElem?_mem hN) h,
    fun _ _ _ _ hN => absurd (List.getElem?_mem hN) h⟩

private theorem rawDepth_succ {e : List Char} {m : Nat} {a : Char} (h : e[m]? = some a) :
    rawDepth e (m + 1) =
      rawDepth e m + (if a = '(' then 1 else 0) - (if a = ')' then 1 else 0) := by
  simp only [rawDepth, List.take_succ, h, Option.toList_some, List.count_append,
    List.count_singleton]
  split_ifs <;> simp_all <;> omega

private theorem forall_mem_append_singleton {P : List Char → Prop} {l : List (List Char)}
    {a : List Char} (hl : ∀ b ∈ l, P b) (ha : P a) : ∀ b ∈ l ++ [a], P b := by
  intro b hb
  rcases List.mem_append.mp hb with hb | hb
  · exact hl b hb
  · rw [List.mem_singleton.mp hb]
    exact ha

private theorem space_not_mem_wrap {pre w post : List Char} (hpre : ' ' ∉ pre) (hw : ' ' ∉ w)
    (hpost : ' ' ∉ post) : ' ' ∉ pre ++ w ++ post := by
  simp [hpre, hw, hpost]

/-- The two depth updates of the backward scan's inner loop, as one sum. -/
private theorem backtrackParen_depth {pc : Char} {depth d1 d2 : Int}
    (hd1 : (if pc = ')' then intAdd depth 1 else .ok depth) = .ok d1)
    (hd2 : (if pc = '(' then intAdd d1 (-1) else .ok d1) = .ok d2) :
    d2 = depth + (if pc = ')' then 1 else 0) - (if pc = '(' then 1 else 0) := by
  by_cases h1 : pc = ')'
  · have h2 : pc ≠ '(' := by rw [h1]; decide
    rw [if_pos h1] at hd1
    rw [if_neg h2] at hd2
    obtain ⟨-, -, rfl⟩ := intAdd_eq_ok.mp hd1
    cases hd2
    simp [h1]
  · rw [if_neg h1] at hd1
    cases hd1
    by_cases h2 : pc = '('
    · rw [if_pos h2] at hd2
      obtain ⟨-, -, rfl⟩ := intAdd_eq_ok.mp hd2
      simp [h1, h2]
      omega
    · rw [if_neg h2] at hd2
      cases hd2
      simp [h1, h2]

section Spans

/-! The scans read before a `/` at index `N`. -/

variable {e : List Char} (hc : CutsAtTopLevel e) {N : Nat} (hN : e[N]? = some '/')
include hc hN

private theorem CutsAtTopLevel.ne_space {m : Nat} (hmN : m < N) (hm : 0 < rawDepth e m) :
    e[m]? ≠ some ' ' := fun h => by
  have := hc.spaces m N hmN h hN
  omega

/-- Between a `(` and the next `)` every prefix is inside a parenthesis. -/
private theorem rawDepth_pos_of_find {p q : Nat} (hp : e[p]? = some '(')
    (hq : find e ')' p = some q) (hqN : q < N) : ∀ m, p < m → m ≤ q → 0 < rawDepth e m := by
  have hq' := find_spec hq
  have hqlen : q < e.length := (List.getElem?_eq_some_iff.mp hq'.2.1).1
  intro m
  induction m with
  | zero => intro h; omega
  | succ m ih =>
    intro h1 h2
    obtain ⟨a, ha⟩ : ∃ a, e[m]? = some a := ⟨e[m], List.getElem?_eq_getElem (by omega)⟩
    rw [rawDepth_succ ha]
    by_cases hm : m = p
    · subst hm
      rw [hp] at ha
      cases ha
      have := hc.nonneg m N (by omega) hN
      simp only [if_true, show ('(' : Char) ≠ ')' by decide, if_false]
      omega
    · have hpos := ih (by omega) (by omega)
      have hne : a ≠ ')' := fun h => hq'.2.2 m (by omega) (by omega) (h ▸ ha)
      simp only [hne, if_false]
      split_ifs <;> omega

/-- The text of an optional, up to the next `)`, holds no space. -/
private theorem space_not_mem_optional {p q : Nat} (hp : e[p]? = some '(')
    (hq : find e ')' p = some q) (hqN : q < N) : ' ' ∉ substr e (p + 1) (q - p - 1) := by
  intro h
  obtain ⟨m, h1, h2, hm⟩ := mem_substr.mp h
  exact hc.ne_space hN (by omega) (rawDepth_pos_of_find hc hN hp hq hqN m (by omega) (by omega)) hm

/-- The span the forward scan takes in, from a `(` to the next `)`, holds no space. -/
private theorem space_not_mem_span {p q : Nat} (hp : e[p]? = some '(')
    (hq : find e ')' p = some q) (hqN : q < N) : ' ' ∉ substr e p (q + 1 - p) := by
  intro h
  obtain ⟨m, h1, h2, hm⟩ := mem_substr.mp h
  rcases Nat.eq_or_lt_of_le h1 with rfl | h1
  · rw [hp] at hm
    cases hm
  · exact hc.ne_space hN (by omega) (rawDepth_pos_of_find hc hN hp hq hqN m h1 (by omega)) hm

/-- The inner loop of the backward scan: `depth` counts the parentheses between the current
index and the `)` it started from, so every character it takes is inside a parenthesis. -/
private theorem backtrackParen_no_space {base : Int} (hbase : 0 ≤ base) :
    ∀ fuel i depth current r, i < N → depth = rawDepth e (i + 1) - base → ' ' ∉ current →
      backtrackParen e fuel i depth current = .ok r → ' ' ∉ r.2 := by
  intro fuel
  induction fuel with
  | zero => intro i depth current r _ _ _ h; cases h
  | succ fuel ih =>
    intro i depth current r hi hd hcur h
    simp only [backtrackParen] at h
    by_cases hpos : depth > 0
    · rw [if_pos hpos] at h
      obtain ⟨pc, hpc, h⟩ := bind_eq_ok.mp h
      rw [readAt_eq_ok] at hpc
      have hstep := rawDepth_succ hpc
      have hpc' : pc ≠ ' ' := by
        rintro rfl
        exact hc.ne_space hN hi (by simp at hstep; omega) hpc
      have hcur' : ' ' ∉ pc :: current := by simp [Ne.symm hpc', hcur]
      obtain ⟨d1, hd1, h⟩ := bind_eq_ok.mp h
      obtain ⟨d2, hd2, h⟩ := bind_eq_ok.mp h
      have hd2' : d2 = rawDepth e i - base := by
        rw [backtrackParen_depth hd1 hd2]
        omega
      by_cases hi0 : i = 0
      · rw [if_pos hi0] at h
        cases h
        exact hcur'
      · rw [if_neg hi0] at h
        exact ih (i - 1) d2 (pc :: current) r (by omega)
          (by rw [Nat.sub_add_cancel (by omega)]; exact hd2') hcur' h
    · rw [if_neg hpos] at h
      cases h
      exact hcur

/-- The backward scan takes a space only inside a parenthesised span. -/
private theorem backtrackWord_no_space :
    ∀ fuel i current r, i < N → ' ' ∉ current → backtrackWord e fuel i current = .ok r →
      ' ' ∉ r := by
  intro fuel
  induction fuel with
  | zero => intro i current r _ _ h; cases h
  | succ fuel ih =>
    intro i current r hi hcur h
    simp only [backtrackWord] at h
    obtain ⟨c, hc', h⟩ := bind_eq_ok.mp h
    rw [readAt_eq_ok] at hc'
    -- a stop, a `)` with its span, a `(`, index `0` or a word character
    refine ite_eq_elim h (fun _ h => by cases h; exact hcur) fun h1 h => ?_
    have hcs : ' ' ∉ c :: current := by
      simp only [not_or] at h1
      simp [Ne.symm h1.1, hcur]
    refine ite_eq_elim h (fun h2 h => ?_) fun _ h => ?_
    · refine ite_eq_elim h (fun _ h => by cases h; exact hcs) fun hi0 h => ?_
      obtain ⟨r₁, hr₁, h⟩ := bind_eq_ok.mp h
      have hstep := rawDepth_succ hc'
      have hr₁' := backtrackParen_no_space hc hN (hc.nonneg (i + 1) N (by omega) hN) i (i - 1) 1
        (c :: current) r₁ (by omega) (by
          rw [Nat.sub_add_cancel (by omega)]
          simp [h2] at hstep
          omega) hcs hr₁
      exact ih r₁.1 r₁.2 r (by have := backtrackParen_index_le _ _ _ _ _ hr₁; omega) hr₁' h
    · refine ite_eq_elim h (fun _ h => by cases h; exact hcur) fun _ h => ?_
      exact ite_eq_elim h (fun _ h => by cases h; exact hcs) fun _ h => ih _ _ r (by omega) hcs h

/-- The forward scan, stopping before the `/` at `N`, takes a space only inside the span from a
`(` to the next `)`, and there is none there. -/
private theorem scanForward_no_space :
    ∀ fuel fwdPos current alternatives r, r.1 ≤ N → ' ' ∉ current →
      (∀ a ∈ alternatives, ' ' ∉ a) → scanForward e fuel fwdPos current alternatives = .ok r →
        ' ' ∉ r.2.1 ∧ ∀ a ∈ r.2.2, ' ' ∉ a := by
  intro fuel
  induction fuel with
  | zero =>
    intro fwdPos current alternatives r _ hcur halts h
    exact ite_eq_elim h (fun _ h => by cases h) fun _ h => by cases h; exact ⟨hcur, halts⟩
  | succ fuel ih =>
    intro fwdPos current alternatives r hr hcur halts h
    simp only [scanForward] at h
    refine ite_eq_elim h (fun _ h => ?_) fun _ h => by cases h; exact ⟨hcur, halts⟩
    obtain ⟨c, hc', h⟩ := bind_eq_ok.mp h
    rw [readAt_eq_ok] at hc'
    -- a stop, a `(` that starts the word, a span in parentheses, an escaped slash, a separator or
    -- a word character
    refine ite_eq_elim h (fun _ h => by cases h; exact ⟨hcur, halts⟩) fun h1 h => ?_
    refine ite_eq_elim h (fun _ h => by cases h; exact ⟨hcur, halts⟩) fun _ h => ?_
    refine ite_eq_elim h (fun h3 h => ?_) fun _ h => ?_
    · subst h3
      split at h
      · rename_i parenEnd hend
        have := (scanForward_pos_bounds _ _ _ _ _ h).1
        exact ih _ _ _ r hr (by simpa [hcur] using space_not_mem_span hc hN hc' hend (by omega))
          halts h
      · exact ih _ _ _ r hr (by simp [hcur]) halts h
    refine ite_eq_elim h (fun _ h => ih _ _ _ r hr hcur halts h) fun _ h => ?_
    refine ite_eq_elim h (fun _ h => ih _ _ _ r hr (List.not_mem_nil _) ?_ h) fun _ h => ?_
    · split_ifs
      · exact halts
      · exact forall_mem_append_singleton halts hcur
    · simp only [not_or] at h1
      exact ih _ _ _ r hr (by simp [hcur, Ne.symm h1.1]) halts h

/-- The alternatives around a `/` at index `N₀`, when the forward scan stops before the `/` at
`N`, hold no space. -/
theorem collectAlternativesFromHere_no_space {N₀ startPos : Nat} {r : List (List Char) × Nat}
    (hN₀ : e[N₀]? = some '/') (hstart : startPos < N₀) (hfwd : r.2 ≤ N)
    (h : collectAlternativesFromHere e startPos = .ok r) : ∀ a ∈ r.1, ' ' ∉ a := by
  unfold collectAlternativesFromHere at h
  obtain ⟨first, hfirst, h⟩ := bind_eq_ok.mp h
  obtain ⟨r', hr', h⟩ := bind_eq_ok.mp h
  cases h
  have hfirst' := backtrackWord_no_space hc hN₀ _ _ _ _ hstart (List.not_mem_nil _) hfirst
  obtain ⟨hcur, halts⟩ := scanForward_no_space hc hN _ _ _ _ r' hfwd (List.not_mem_nil _) (by
    split_ifs
    · simp
    · simpa using hfirst') hr'
  split_ifs
  · exact halts
  · exact forall_mem_append_singleton halts hcur

end Spans

/-! ### The pieces the parser writes -/

theorem normalChar_of_not_special {c : Char} (hc : ¬ IsRegexSpecial c) (s : Scan) :
    normalChar s c = .ok ⟨.normal, s.depth, .atom⟩ := by
  simp only [IsRegexSpecial, List.mem_cons, List.mem_singleton, List.not_mem_nil, or_false,
    not_or] at hc
  simp [normalChar, hc]

private theorem closed_escapeRegexChar (c : Char) : Closed (escapeRegexChar c) := by
  intro d l
  unfold escapeRegexChar
  split_ifs with hc
  · exact ⟨.atom, rfl⟩
  · exact ⟨.atom, by simp [scanFrom, scanChar, normalChar_of_not_special hc]⟩

private theorem closed_escapeRegexChars (text : List Char) : Closed (escapeRegexChars text) := by
  induction text with
  | nil => exact closed_nil
  | cons c text ih => exact (closed_escapeRegexChar c).append ih

theorem space_not_mem_escapeRegexChar {c : Char} (hc : c ≠ ' ') : ' ' ∉ escapeRegexChar c := by
  unfold escapeRegexChar
  split_ifs <;> simp [Ne.symm hc]

theorem space_not_mem_escapeRegexChars {text : List Char} (h : ' ' ∉ text) :
    ' ' ∉ escapeRegexChars text := by
  simp only [escapeRegexChars, List.mem_flatMap, not_exists, not_and]
  exact fun c hc => space_not_mem_escapeRegexChar fun hsp => h (hsp ▸ hc)

/-- A registered parameter's group is closed and holds no space. -/
private theorem parameter_closed {paramType fragment : List Char}
    (h : lookupParameterType paramType = some fragment) :
    Closed ('(' :: fragment ++ [')']) ∧ ' ' ∉ '(' :: fragment ++ [')'] := by
  have hscan : ∀ t ∈ getParameterTypes, (scanFrom ⟨.groupOpen, 1, .boundary⟩
      (t.2.toList ++ [')'])).toOption = some ⟨.normal, 0, .atom⟩ := by decide
  have hspace : ∀ t ∈ getParameterTypes, ' ' ∉ t.2.toList := by decide
  obtain ⟨t, ht, -, rfl⟩ := lookupParameterType_mem h
  have key : scanFrom ⟨.groupOpen, 1, .boundary⟩ (t.2.toList ++ [')']) = .ok ⟨.normal, 0, .atom⟩ := by
    have h1 := hscan t ht
    revert h1
    cases scanFrom ⟨.groupOpen, 1, .boundary⟩ (t.2.toList ++ [')']) <;> intro h1 <;> cases h1
    rfl
  refine ⟨closed_of_top fun l => ⟨.atom, ?_⟩, by simpa using hspace t ht⟩
  rw [List.cons_append, scanFrom,
    show scanChar ⟨.normal, 0, l⟩ '(' = .ok ⟨.groupOpen, 1, .boundary⟩ from rfl, bind_ok, key]

private theorem escape_closed {next : Char} (h : IsEscapable next) :
    Closed (if next = '{' ∨ next = '}' ∨ next = '(' ∨ next = ')' then ['\\', next] else [next]) ∧
      ' ' ∉ (if next = '{' ∨ next = '}' ∨ next = '(' ∨ next = ')' then ['\\', next] else [next]) := by
  split_ifs with hb
  · exact ⟨fun d l => ⟨.atom, rfl⟩, by rcases hb with rfl | rfl | rfl | rfl <;> decide⟩
  · have : next = '/' := by
      simp only [IsEscapable] at h
      tauto
    subst this
    exact ⟨fun d l => ⟨.atom, rfl⟩, by decide⟩

/-- What `parseAlternativeText` appends is closed, and holds a space only if the text does. -/
private theorem parseAlternativeTextFrom_closed {text : List Char} :
    ∀ fuel i result out, parseAlternativeTextFrom text fuel i result = .ok out →
      ∃ w, out = result ++ w ∧ Closed w ∧ (' ' ∉ text → ' ' ∉ w) := by
  intro fuel
  induction fuel with
  | zero =>
    intro i result out h
    simp only [parseAlternativeTextFrom] at h
    split_ifs at h
    cases h
    exact ⟨[], by simp, closed_nil, fun _ => List.not_mem_nil _⟩
  | succ fuel ih =>
    intro i result out h
    simp only [parseAlternativeTextFrom] at h
    split_ifs at h with hlt
    · obtain ⟨c, hc, h⟩ := bind_eq_ok.mp h
      rw [readAt_eq_ok] at hc
      split at h
      · rename_i closePos _
        split_ifs at h with hne
        obtain ⟨w, rfl, hw, hsp⟩ := ih _ _ _ h
        refine ⟨"(?:".toList ++ escapeRegexChars (substr text (i + 1) (closePos - i - 1)) ++
          ")?".toList ++ w, by simp only [List.append_assoc],
          (closed_optional (closed_escapeRegexChars _)).append hw, fun ht => ?_⟩
        have hsub : ' ' ∉ substr text (i + 1) (closePos - i - 1) := fun hm => by
          obtain ⟨m, -, -, hm⟩ := mem_substr.mp hm
          exact ht (List.getElem?_mem hm)
        intro hm
        rcases List.mem_append.mp hm with hm | hm
        · exact space_not_mem_wrap (by decide) (space_not_mem_escapeRegexChars hsub) (by decide) hm
        · exact hsp ht hm
      · obtain ⟨w, rfl, hw, hsp⟩ := ih _ _ _ h
        refine ⟨_, by simp only [List.append_assoc],
          (closed_escapeRegexChar c).append hw, fun ht => ?_⟩
        have hc' : c ≠ ' ' := fun hsp' => ht (hsp' ▸ List.getElem?_mem hc)
        simp only [List.mem_append, not_or]
        exact ⟨space_not_mem_escapeRegexChar hc', hsp ht⟩
    · cases h
      exact ⟨[], by simp, closed_nil, fun _ => List.not_mem_nil _⟩

private theorem parseAlternativeText_closed {text w : List Char} (h : parseAlternativeText text = .ok w) :
    Closed w ∧ (' ' ∉ text → ' ' ∉ w) := by
  obtain ⟨w', rfl, hw, hsp⟩ := parseAlternativeTextFrom_closed _ _ _ _ h
  simpa using And.intro hw hsp

private theorem space_not_mem_intercalate {ws : List (List Char)} (h : ∀ w ∈ ws, ' ' ∉ w) :
    ' ' ∉ List.intercalate ['|'] ws := by
  induction ws with
  | nil => exact List.not_mem_nil _
  | cons w ws ih =>
    cases ws with
    | nil => simpa [List.intercalate] using h w (by simp)
    | cons w' ws =>
      have hrest := ih fun v hv => h v (List.mem_cons_of_mem _ hv)
      simp only [List.intercalate, List.intersperse_cons₂, List.flatten_cons] at hrest ⊢
      simp [h w (by simp), hrest]

/-- The alternation group `(?:alt₁|…|altₙ)` is closed, and holds no space when the alternatives
hold none. -/
private theorem alternation_closed {alternatives rendered : List (List Char)}
    (h : alternatives.mapM parseAlternativeText = .ok rendered) :
    Closed ("(?:".toList ++ List.intercalate ['|'] rendered ++ [')']) ∧
      ((∀ a ∈ alternatives, ' ' ∉ a) → ' ' ∉ "(?:".toList ++ List.intercalate ['|'] rendered ++ [')']) := by
  have hw : ∀ w ∈ rendered, ∃ a ∈ alternatives, Closed w ∧ (' ' ∉ a → ' ' ∉ w) := fun w hw => by
    obtain ⟨a, ha, hfa⟩ := mem_of_mapM_eq_ok h w hw
    exact ⟨a, ha, parseAlternativeText_closed hfa⟩
  refine ⟨closed_group (closed_intercalate fun w hm => (hw w hm).choose_spec.2.1), fun hsp => ?_⟩
  refine space_not_mem_wrap (by decide) (space_not_mem_intercalate fun w hm => ?_) (by decide)
  obtain ⟨a, ha, -, hsw⟩ := hw w hm
  exact hsw (hsp a ha)

/-! ### The invariant of the output buffer -/

/-- The buffer scans from the start to the top level, outside any group, class or escape. -/
def TopLevel (b : List Char) : Prop :=
  ∃ l, scanFrom start b = .ok ⟨.normal, 0, l⟩

theorem TopLevel.append {b w : List Char} (hb : TopLevel b) (hw : Closed w) :
    TopLevel (b ++ w) := by
  obtain ⟨l, hl⟩ := hb
  obtain ⟨l', hl'⟩ := hw 0 l
  exact ⟨l', by rw [scanFrom_append, hl, bind_ok, hl']⟩

/-- The anchored pattern of a buffer at the top level passes the syntax check. -/
private theorem check_anchor_of_topLevel {r : List Char} (hr : TopLevel r) :
    Regex.check (anchor r) = none := by
  obtain ⟨l, hl⟩ := hr
  have hscan : scanFrom start (anchor r) = .ok ⟨.normal, 0, .boundary⟩ := by
    rw [anchor, scanFrom_append, scanFrom_append]
    show (scanFrom start r).bind _ = _
    rw [hl]
    rfl
  simp [Regex.check, hscan, finish]

/-- The buffer is at the top level, and so is each of its prefixes that ends with a space. -/
structure Sound (b : List Char) : Prop where
  closed : TopLevel b
  spaces : ∀ u v, b = u ++ ' ' :: v → TopLevel (u ++ [' '])

private theorem sound_nil : Sound [] :=
  ⟨⟨.boundary, rfl⟩, fun u v h => by simp at h⟩

theorem Sound.append {b w : List Char} (hb : Sound b) (hw : Closed w) (hsp : ' ' ∉ w) :
    Sound (b ++ w) := by
  refine ⟨hb.closed.append hw, fun u v h => ?_⟩
  rcases List.append_eq_append_iff.mp h with ⟨a, rfl, hw'⟩ | ⟨c, rfl, hc⟩
  · exact absurd (by rw [hw']; simp) hsp
  · cases c with
    | nil => exact absurd (by rw [← List.nil_append w, ← hc]; simp) hsp
    | cons c₀ c =>
      obtain ⟨rfl, -⟩ := List.cons.inj hc
      exact hb.spaces u c rfl

private theorem Sound.append_space {b : List Char} (hb : Sound b) : Sound (b ++ [' ']) := by
  obtain ⟨l, hl⟩ := hb.closed
  have hend : scanFrom start (b ++ [' ']) = .ok ⟨.normal, 0, .atom⟩ := by
    rw [scanFrom_append, hl, bind_ok]
    rfl
  refine ⟨⟨.atom, hend⟩, fun u v h => ?_⟩
  rcases List.append_eq_append_iff.mp h with ⟨a, rfl, ha⟩ | ⟨c, rfl, hc⟩
  · cases a with
    | nil => exact ⟨.atom, by simpa using hend⟩
    | cons a₀ a => simp at ha
  · cases c with
    | nil => exact ⟨.atom, by simpa using hend⟩
    | cons c₀ c =>
      obtain ⟨rfl, -⟩ := List.cons.inj hc
      exact hb.spaces u c rfl

/-- The cut of `parseAlternatives` keeps a sound prefix. -/
theorem Sound.keep {b : List Char} (hb : Sound b) : Sound (keepThroughLastSpace b) := by
  rcases not_mem_or_split_last ' ' b with h | ⟨u, v, rfl, hv⟩
  · rw [keepThroughLastSpace_of_not_mem h]
    exact sound_nil
  · rw [keepThroughLastSpace_append u hv]
    refine ⟨hb.spaces u v rfl, fun u' v' h => hb.spaces u' (v' ++ v) ?_⟩
    simpa using congrArg (· ++ v) h

/-- A `/` stands at index `p` or after it: the parser will cut its buffer again. -/
def SlashAhead (e : List Char) (p : Nat) : Prop :=
  ∃ N, p ≤ N ∧ e[N]? = some '/'

theorem SlashAhead.mono {e : List Char} {p q : Nat} (h : SlashAhead e q) (hpq : p ≤ q) :
    SlashAhead e p :=
  let ⟨N, hqN, hN⟩ := h
  ⟨N, by omega, hN⟩

/-- The invariant of the parser's state: the buffer is at the top level, and while a `/` is still
ahead of the cursor it is `Sound`. -/
structure BufferInv (e : List Char) (s : ParserState) : Prop where
  closed : TopLevel s.result
  sound : SlashAhead e s.pos → Sound s.result

private theorem bufferInv_init (e : List Char) : BufferInv e ⟨0, []⟩ :=
  ⟨sound_nil.closed, fun _ => sound_nil⟩

/-- A step that moves the cursor forward and appends a closed piece, with no space in it while
a `/` is ahead, keeps the invariant. -/
theorem BufferInv.append {e w : List Char} {s : ParserState} {p : Nat} (hb : BufferInv e s)
    (hp : s.pos ≤ p) (hw : Closed w) (hsp : SlashAhead e p → ' ' ∉ w) :
    BufferInv e ⟨p, s.result ++ w⟩ :=
  ⟨hb.closed.append hw, fun ha => (hb.sound (ha.mono hp)).append hw (hsp ha)⟩

/-- Every step of the parser keeps `BufferInv`. -/
theorem bufferInv_step {e : List Char} (hc : CutsAtTopLevel e) (hlen : e.length < 2 ^ 64)
    {s s' : ParserState} (hb : BufferInv e s) (h : StepSpec e s s') : BufferInv e s' := by
  cases h with
  | escaping next hcur hnext hesc =>
    exact hb.append (by omega) (escape_closed hesc).1 fun _ => (escape_closed hesc).2
  | openBrace closePos fragment hcur hclose hlookup =>
    simpa using hb.append (find_spec hclose).1.step (parameter_closed hlookup).1
      fun _ => (parameter_closed hlookup).2
  | openParenthesis closePos hcur hclose hne =>
    simpa only [List.append_assoc] using hb.append (find_spec hclose).1.step
      (closed_optional (closed_escapeRegexChars _)) fun ⟨N, hN, hslash⟩ =>
        space_not_mem_wrap (by decide) (space_not_mem_escapeRegexChars
          (space_not_mem_optional hc hslash hcur hclose (by omega))) (by decide)
  | separator alternatives fwdPos hcur => exact ⟨hb.closed, fun _ => hb.sound ⟨s.pos, le_rfl, hcur⟩⟩
  | alternation alternatives fwdPos rendered hcur hcollect hlen' hrender =>
    obtain ⟨hpos, hfwd, -⟩ := collectAlternativesFromHere_fwdPos hlen hcur hcollect
    have hlt := (List.getElem?_eq_some_iff.mp hcur).1
    rw [pos_pred_mod hpos (by omega)] at hcollect
    have hkeep := (hb.sound ⟨s.pos, le_rfl, hcur⟩).keep
    have hgroup := alternation_closed hrender
    simpa only [List.append_assoc] using
      BufferInv.append (s := ⟨s.pos, keepThroughLastSpace s.result⟩) ⟨hkeep.closed, fun _ => hkeep⟩
        hfwd.le hgroup.1 fun ⟨N, hN, hslash⟩ => hgroup.2
          (collectAlternativesFromHere_no_space hc hslash hcur (by omega) hN hcollect)
  | literal c hcur =>
    by_cases hsp : c = ' '
    · subst hsp
      exact ⟨hb.closed.append (closed_escapeRegexChar ' '),
        fun ha => (hb.sound (ha.mono (Nat.le_succ _))).append_space⟩
    · exact hb.append (Nat.le_succ _) (closed_escapeRegexChar c)
        fun _ => space_not_mem_escapeRegexChar hsp

/-- If every space before a `/` lies outside all parentheses, a pattern the parser returns passes
the syntax check once anchored, and `transform` returns it whenever the validator accepts the
expression and the pattern fits the state limit of `std::regex`. -/
theorem check_anchor_of_cutsAtTopLevel {e r : List Char} (hlen : e.length < 2 ^ 64)
    (hc : CutsAtTopLevel e) (h : parse e = .ok r) :
    Regex.check (anchor r) = none ∧
      (e ≠ [] → validate e = .ok () → nfaStates (anchor r) ≤ stateLimit →
        transform e = .ok (anchor r)) := by
  obtain ⟨t, ht, rfl⟩ := parseLoop_induction (BufferInv e)
    (fun _ _ _ hb hs => bufferInv_step hc hlen hb hs) _ _ _ (bufferInv_init e) h
  have hcheck := check_anchor_of_topLevel ht.closed
  exact ⟨hcheck, fun he hv hfit =>
    transform_eq_ok.mpr ⟨he, hv, t.result, h, compile_eq_none.mpr ⟨hcheck, hfit⟩, rfl⟩⟩

theorem check_anchor_of_cutsAtTopLevel_optional :
    "I have (a lot of) cucumbers".toList.length < 2 ^ 64 ∧
      CutsAtTopLevel "I have (a lot of) cucumbers".toList ∧
      parse "I have (a lot of) cucumbers".toList = .ok "I have (?:a lot of)? cucumbers".toList ∧
      Regex.check (anchor "I have (?:a lot of)? cucumbers".toList) = none ∧
      transform "I have (a lot of) cucumbers".toList =
        .ok (anchor "I have (?:a lot of)? cucumbers".toList) :=
  have h := check_anchor_of_cutsAtTopLevel (e := "I have (a lot of) cucumbers".toList)
    (r := "I have (?:a lot of)? cucumbers".toList) (by decide)
    (cutsAtTopLevel_of_not_mem (by decide)) rfl
  ⟨by decide, cutsAtTopLevel_of_not_mem (by decide), rfl, h.1, h.2 (by decide) rfl (by decide)⟩

/-- A space inside an optional before a `/`: the first alternative is read back as `(a b)c`,
but the cut falls after `(?:a `, inside the optional's group, which is never closed; the regex
library rejects the pattern and `transform` throws the base exception. -/
theorem transform_space_in_optional :
    validate "(a b)c/d".toList = .ok () ∧
      parse "(a b)c/d".toList = .ok "(?:a (?:(?:a b)?c|d)".toList ∧
      Regex.compile (anchor "(?:a (?:(?:a b)?c|d)".toList) = some .paren ∧
      ∃ what, transform "(a b)c/d".toList = .error (.thrown (.base
        ("Invalid Cucumber expression: Failed to create valid regex: " ++ what))) :=
  ⟨rfl, rfl, by decide, _, rfl⟩

end CucumberExpression
