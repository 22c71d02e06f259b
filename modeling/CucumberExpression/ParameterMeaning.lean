import CucumberExpression.Meaning

/-!
# What the `string` parameter type matches

`getParameterTypes()` maps each name to a fragment, and `std::regex` reads the fragment as a tree
(`ParameterType`). This file says which texts of a step the tree of `string` matches, as the texts
spelled between two positions (`Spells`), and counts the capturing groups of every fragment.

`string` matches a text between two double or two single quotes, the quotes included. Inside, a
backslash takes the next character, which must end no line; any other character but the quote
and the backslash stands for itself, line terminators too. The fragment has four capturing groups
of its own, the only registered fragment with any.

## Main results

* `matches_star_iff`: a star of a one-character tree.
* `string_matches`.
* `ParameterType.captures`: the capturing groups inside each fragment.

Source: `src/src/CucumberExpression.cpp`, lines 39–55 (`getParameterTypes`).
-/

namespace CucumberExpression

open Pattern

/-! ### Runs of characters -/

/-- `r` matches exactly one character of the text, one for which `P` holds. -/
def MatchesOne (r : Re) (P : Char → Prop) : Prop :=
  ∀ (w : List Char) (i j : Nat), Matches w r i j ↔ ∃ c, w[i]? = some c ∧ P c ∧ j = i + 1

private theorem matchesOne_any : MatchesOne .any fun c => ¬ IsLineTerminator c := by
  intro w i j
  constructor
  · intro h; cases h with | any hc hl => exact ⟨_, hc, hl, rfl⟩
  · rintro ⟨c, hc, hl, rfl⟩; exact .any hc hl

private theorem matchesOne_klass (negated : Bool) (items : List ClassItem) :
    MatchesOne (.klass negated items) fun c => (items.any fun item => item.contains c) = !negated := by
  intro w i j
  constructor
  · intro h; cases h with | klass hc hk => exact ⟨_, hc, hk, rfl⟩
  · rintro ⟨c, hc, hk, rfl⟩; exact .klass hc hk

section Runs

variable {w : List Char}

private theorem spells_append {a b : List Char} {i k : Nat} :
    Spells w i (a ++ b) k ↔ ∃ j, Spells w i a j ∧ Spells w j b k := by
  induction a generalizing i with
  | nil => simp [Spells]
  | cons c a ih => simp [Spells, ih, and_assoc, exists_and_left]

private theorem spells_of_matches_star {r : Re} {P : Char → Prop} (h : MatchesOne r P) {s : Re}
    {i j : Nat} (hm : Matches w s i j) (hs : s = .star r) :
    ∃ t, (∀ c ∈ t, P c) ∧ Spells w i t j := by
  induction hm with
  | starNil => exact ⟨[], by simp, rfl⟩
  | starCons hr _ _ ih =>
    cases hs
    obtain ⟨c, hc, hp, rfl⟩ := (h _ _ _).mp hr
    obtain ⟨t, ht, hsp⟩ := ih rfl
    exact ⟨c :: t, by simpa [hp] using ht, hc, hsp⟩
  | _ => cases hs

/-- The star of a one-character tree matches exactly the runs of such characters. -/
theorem matches_star_iff {r : Re} {P : Char → Prop} (h : MatchesOne r P) {i j : Nat} :
    Matches w (.star r) i j ↔ ∃ t, (∀ c ∈ t, P c) ∧ Spells w i t j := by
  refine ⟨fun hm => spells_of_matches_star h hm rfl, ?_⟩
  rintro ⟨t, ht, hsp⟩
  induction t generalizing i with
  | nil =>
    obtain rfl : j = i := hsp
    exact .starNil r _
  | cons c t ih =>
    obtain ⟨hc, hsp⟩ := hsp
    exact .starCons ((h _ _ _).mpr ⟨c, hc, ht c (List.mem_cons_self c t), rfl⟩)
      (ih (fun d hd => ht d (List.mem_cons_of_mem c hd)) hsp)

end Runs

/-! ### `string` -/

/-- `[^q\\]*`: a run of characters other than the quote `q` and the backslash. -/
def quotedRun (q : Char) : Re :=
  .star (.klass true [.char q, .char '\\'])

/-- `(\\.[^q\\]*)`: a backslash, the character it escapes, and a run. -/
def quotedEscape (q : Char) : Re :=
  .group (.seq (.char '\\') (.seq .any (.seq (quotedRun q) .empty)))

/-- `q([^q\\]*(\\.[^q\\]*)*)q`: a text between two quotes `q`. -/
def quoted (q : Char) : Re :=
  .seq (.char q) (.seq (.group (.seq (quotedRun q) (.seq (.star (quotedEscape q)) .empty)))
    (.seq (.char q) .empty))

/-- The registered parameter type `string`, the alternatives of a double-quoted and a
single-quoted text. -/
def ParameterType.string : ParameterType :=
  ⟨"string".toList, .alt (quoted '\x22') (quoted '\x27'), by decide⟩

/-- The text between the quotes `q` of a `{string}`: characters other than `q` and the
backslash, and pairs of a backslash and a character that ends no line. -/
inductive QuotedBody (q : Char) : List Char → Prop
  | nil : QuotedBody q []
  | plain {c : Char} {s : List Char} (hq : c ≠ q) (hb : c ≠ '\\') (h : QuotedBody q s) :
      QuotedBody q (c :: s)
  | escape {x : Char} {s : List Char} (hx : ¬ IsLineTerminator x) (h : QuotedBody q s) :
      QuotedBody q ('\\' :: x :: s)

private theorem QuotedBody.append_run {q : Char} {s : List Char} (hs : QuotedBody q s) :
    ∀ {t : List Char}, (∀ c ∈ t, c ≠ q ∧ c ≠ '\\') → QuotedBody q (t ++ s)
  | [], _ => hs
  | c :: t, ht => .plain (ht c (List.mem_cons_self c t)).1 (ht c (List.mem_cons_self c t)).2
      (hs.append_run fun d hd => ht d (List.mem_cons_of_mem c hd))

section Quoted

variable {w : List Char} {q : Char}

private theorem matches_quotedRun_iff {i j : Nat} :
    Matches w (quotedRun q) i j ↔ ∃ t, (∀ c ∈ t, c ≠ q ∧ c ≠ '\\') ∧ Spells w i t j := by
  simp [quotedRun, matches_star_iff (matchesOne_klass true _), ClassItem.contains]

private theorem quotedBody_of_matches_escapes {r : Re} {i j : Nat} (hm : Matches w r i j)
    (hr : r = .star (quotedEscape q)) : ∃ s, QuotedBody q s ∧ Spells w i s j := by
  induction hm with
  | starNil => exact ⟨[], .nil, rfl⟩
  | starCons he _ _ ih =>
    cases hr
    simp only [quotedEscape, matches_group_iff, matches_seq_iff, matches_char_iff,
      matchesOne_any _, matches_quotedRun_iff, matches_empty_iff] at he
    obtain ⟨_, ⟨hb, rfl⟩, _, ⟨x, hx, hl, rfl⟩, _, ⟨t, ht, hsp⟩, rfl⟩ := he
    obtain ⟨s, hs, hsp'⟩ := ih rfl
    exact ⟨'\\' :: x :: (t ++ s), .escape hl (hs.append_run ht), hb, hx,
      spells_append.mpr ⟨_, hsp, hsp'⟩⟩
  | _ => cases hr

private theorem matches_escapes_of_quotedBody {s : List Char} (hs : QuotedBody q s) :
    ∀ {i k : Nat}, Spells w i s k →
      ∃ j, Matches w (quotedRun q) i j ∧ Matches w (.star (quotedEscape q)) j k := by
  induction hs with
  | nil =>
    rintro _ k rfl
    exact ⟨k, .starNil _ k, .starNil _ k⟩
  | plain hq hb _ ih =>
    rintro i k ⟨hc, hsp⟩
    obtain ⟨j, hrun, hesc⟩ := ih hsp
    exact ⟨j, .starCons (.klass hc (by simp [ClassItem.contains, hq, hb])) hrun, hesc⟩
  | escape hl _ ih =>
    rintro i k ⟨hb, hx, hsp⟩
    obtain ⟨j, hrun, hesc⟩ := ih hsp
    exact ⟨i, .starNil _ i,
      .starCons (.group (.seq (.char hb) (.seq (.any hx hl) (.seq hrun (.empty j))))) hesc⟩

/-- A quoted text `q…q` matches exactly a quote, a body, and the same quote. -/
private theorem matches_quoted_iff {i j : Nat} :
    Matches w (quoted q) i j ↔ ∃ s, QuotedBody q s ∧ Spells w i (q :: (s ++ [q])) j := by
  simp only [quoted, matches_seq_iff, matches_char_iff, matches_group_iff, matches_empty_iff,
    Spells, spells_append]
  constructor
  · rintro ⟨_, ⟨hq, rfl⟩, _, ⟨m, hrun, _, hesc, rfl⟩, _, ⟨hq', rfl⟩, rfl⟩
    obtain ⟨t, ht, hsp⟩ := matches_quotedRun_iff.mp hrun
    obtain ⟨s, hs, hsp'⟩ := quotedBody_of_matches_escapes hesc rfl
    exact ⟨t ++ s, hs.append_run ht, hq, _, spells_append.mpr ⟨m, hsp, hsp'⟩, hq', rfl⟩
  · rintro ⟨s, hs, hq, m, hsp, hq', rfl⟩
    obtain ⟨n, hrun, hesc⟩ := matches_escapes_of_quotedBody hs hsp
    exact ⟨i + 1, ⟨hq, rfl⟩, m, ⟨n, hrun, m, hesc, rfl⟩, m + 1, ⟨hq', rfl⟩, rfl⟩

end Quoted

/-- `string` matches exactly a text between two double quotes or two single quotes. Between them
stand characters other than that quote and the backslash, and pairs of a backslash and a character
that ends no line. The match takes in the two quotes. -/
theorem string_matches (t : ParameterType) (ht : t.name = "string".toList) (w : List Char)
    (i j : Nat) :
    Matches w t.regex i j ↔
      ∃ q s, (q = '\x22' ∨ q = '\x27') ∧ QuotedBody q s ∧ Spells w i (q :: (s ++ [q])) j := by
  rw [ParameterType.regex_eq (r := ParameterType.string.regex) (by rw [ht]; decide)]
  simp only [ParameterType.string, matches_alt_iff, matches_quoted_iff]
  constructor
  · rintro (⟨s, h⟩ | ⟨s, h⟩)
    · exact ⟨_, s, .inl rfl, h⟩
    · exact ⟨_, s, .inr rfl, h⟩
  · rintro ⟨q, s, rfl | rfl, h⟩
    · exact .inl ⟨s, h⟩
    · exact .inr ⟨s, h⟩

theorem string_matches_string :
    ParameterType.string.name = "string".toList ∧
      (Matches "\x22a\x22".toList ParameterType.string.regex 0 3 ↔
        ∃ q s, (q = '\x22' ∨ q = '\x27') ∧ QuotedBody q s ∧
          Spells "\x22a\x22".toList 0 (q :: (s ++ [q])) 3) :=
  ⟨rfl, string_matches ParameterType.string rfl _ _ _⟩

/-! ### Groups inside the fragments -/

/-- Of the registered fragments only `string`'s has capturing groups of its own: four, two in
each quoted alternative. -/
theorem ParameterType.captures (t : ParameterType) :
    t.regex.captures = if t.name = "string".toList then 4 else 0 := by
  have hcount : ∀ e ∈ getParameterTypes, (readPattern e.2.toList).map Re.captures =
      some (if e.1.toList = "string".toList then 4 else 0) := by
    decide
  obtain ⟨fragment, hlookup, hread⟩ := Option.bind_eq_some.mp t.registered
  obtain ⟨entry, hentry, hname, rfl⟩ := lookupParameterType_mem hlookup
  have h := hcount entry hentry
  rw [hread, Option.map_some', hname] at h
  exact Option.some.inj h

end CucumberExpression
