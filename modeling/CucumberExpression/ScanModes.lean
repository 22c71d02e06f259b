import CucumberExpression.Parser
import CucumberExpression.Regex

/-!
# How the regex check reads the parser's output

The regex check is a left-to-right scan whose mode says how the next character is read: as an
atom or operator (normal mode), escaped, inside a class, or just after `(`. `ReadsWith P m w`
says that, read from mode `m`, every character of `w` is met in a mode `P` allows for it.

The parser's buffer is `Neutral (Plain x)` after every step (`parse_neutral`). Read from normal
mode, it ends in normal mode. A space and the letter `x` are met only in normal mode. A `^` or a
`$` is met only escaped or inside a class, never where it would be an anchor. Each chunk a step
appends has this property, and so has the cut of `parseAlternatives`, which ends just after a
space.

## Main definitions

* `ReadsWith`: the modes in which a scan meets each character.
* `Quiet`, `Plain`: the modes allowed for a space, an anchor character and the letter `x`.
* `Neutral`: a piece read from normal mode as `P` asks, ending in normal mode.

## Main results

* `neutral_step`, `parse_neutral`.

Source: `src/src/CucumberExpression.cpp`, lines 75–120 (`parse`) and 226–349 (the text
each step writes).
-/

namespace CucumberExpression

open Regex

/-- Read from mode `m`, every character `a` of `w` is met in a mode where `P a` holds. -/
def ReadsWith (P : Char → Mode → Prop) : Mode → List Char → Prop
  | _, [] => True
  | m, a :: w => P a m ∧ ReadsWith P (m.next a) w

instance instDecidableReadsWith (P : Char → Mode → Prop) [∀ a m, Decidable (P a m)] :
    ∀ m w, Decidable (ReadsWith P m w)
  | _, [] => isTrue trivial
  | m, a :: w =>
    haveI := instDecidableReadsWith P (m.next a) w
    inferInstanceAs (Decidable (P a m ∧ ReadsWith P (m.next a) w))

section ReadsWith

variable {P Q : Char → Mode → Prop}

@[simp] theorem readsWith_nil (m : Mode) : ReadsWith P m [] ↔ True := Iff.rfl

@[simp] theorem readsWith_cons (m : Mode) (a : Char) (w : List Char) :
    ReadsWith P m (a :: w) ↔ P a m ∧ ReadsWith P (m.next a) w := Iff.rfl

/-- A concatenation is read in two parts, the second from the mode the first ends in. -/
theorem readsWith_append (m : Mode) (a b : List Char) :
    ReadsWith P m (a ++ b) ↔ ReadsWith P m a ∧ ReadsWith P (modeAfter m a) b := by
  induction a generalizing m with
  | nil => simp
  | cons c a ih => simp [ih, and_assoc]

theorem ReadsWith.mono {m : Mode} {w : List Char} (h : ∀ a ∈ w, ∀ m, P a m → Q a m)
    (hw : ReadsWith P m w) : ReadsWith Q m w := by
  induction w generalizing m with
  | nil => trivial
  | cons a w ih =>
    exact ⟨h a (List.mem_cons_self a w) m hw.1,
      ih (fun b hb => h b (List.mem_cons_of_mem a hb)) hw.2⟩

end ReadsWith

/-- How the compiler's output meets a space and the anchor characters: a space only in normal
mode, and `^` or `$` only escaped or inside a class. -/
def Quiet (a : Char) (m : Mode) : Prop :=
  (a = ' ' → m = .normal) ∧ (a = '^' ∨ a = '$' → m = .escape ∨ m = .klass ∨ m = .klassEscape)

instance (a : Char) (m : Mode) : Decidable (Quiet a m) := inferInstanceAs (Decidable (_ ∧ _))

/-- `Quiet`, and the letter `x` met only in normal mode, where it is an atom. -/
def Plain (x a : Char) (m : Mode) : Prop :=
  Quiet a m ∧ (a = x → m = .normal)

instance (x a : Char) (m : Mode) : Decidable (Plain x a m) := inferInstanceAs (Decidable (_ ∧ _))

/-- A piece of pattern that, read from normal mode, meets each character as `P` asks and ends in
normal mode. The parser's output buffer is one after every step. -/
structure Neutral (P : Char → Mode → Prop) (w : List Char) : Prop where
  reads : ReadsWith P .normal w
  ends : modeAfter .normal w = .normal

instance (P : Char → Mode → Prop) [∀ a m, Decidable (P a m)] (w : List Char) :
    Decidable (Neutral P w) :=
  decidable_of_iff (ReadsWith P .normal w ∧ modeAfter .normal w = .normal)
    ⟨fun h => ⟨h.1, h.2⟩, fun h => ⟨h.1, h.2⟩⟩

section Neutral

variable {P : Char → Mode → Prop}

private theorem neutral_nil : Neutral P [] :=
  ⟨trivial, rfl⟩

/-- Neutral pieces compose: each starts where the one before ends, in normal mode. -/
theorem Neutral.append {a b : List Char} (ha : Neutral P a) (hb : Neutral P b) :
    Neutral P (a ++ b) :=
  ⟨(readsWith_append _ a b).mpr ⟨ha.reads, by rw [ha.ends]; exact hb.reads⟩, by simp [ha.ends, hb.ends]⟩

private theorem neutral_flatMap {f : Char → List Char} {l : List Char} (h : ∀ a ∈ l, Neutral P (f a)) :
    Neutral P (l.flatMap f) := by
  induction l with
  | nil => exact neutral_nil
  | cons a l ih =>
    rw [List.flatMap_cons]
    exact (h a (List.mem_cons_self a l)).append (ih fun b hb => h b (List.mem_cons_of_mem a hb))

private theorem neutral_intercalate {ws : List (List Char)} (hbar : Neutral P ['|'])
    (h : ∀ w ∈ ws, Neutral P w) : Neutral P (List.intercalate ['|'] ws) := by
  induction ws with
  | nil => exact neutral_nil
  | cons w ws ih =>
    cases ws with
    | nil => simpa [List.intercalate] using h w (by simp)
    | cons w' ws =>
      have hrest := ih fun v hv => h v (List.mem_cons_of_mem _ hv)
      simp only [List.intercalate, List.intersperse_cons₂, List.flatten_cons] at hrest ⊢
      exact (h w (by simp)).append (hbar.append hrest)

/-- Cutting the buffer after its last space keeps it neutral, when a space is met only in normal
mode: the cut ends with that space, after which the scan is in normal mode again. -/
theorem Neutral.keep (hsp : ∀ m, P ' ' m → m = .normal) {w : List Char} (hw : Neutral P w) :
    Neutral P (keepThroughLastSpace w) := by
  rcases not_mem_or_split_last ' ' w with h | ⟨u, v, rfl, hv⟩
  · rw [keepThroughLastSpace_of_not_mem h]
    exact neutral_nil
  · rw [keepThroughLastSpace_append u hv]
    obtain ⟨hu, hspace, -⟩ := (readsWith_append _ u _).mp hw.reads
    have hm := hsp _ hspace
    exact ⟨(readsWith_append _ u _).mpr ⟨hu, hspace, trivial⟩, by simp [hm]; rfl⟩

end Neutral

private theorem quiet_space {m : Mode} (h : Quiet ' ' m) : m = .normal :=
  h.1 rfl

/-- What holds with the letter `x` holds without it. -/
theorem Neutral.quiet {x : Char} {w : List Char} (hw : Neutral (Plain x) w) : Neutral Quiet w :=
  ⟨hw.reads.mono fun _ _ _ h => h.1, hw.ends⟩

section Letter

variable {x : Char} (hx : x.isAlpha = true)
include hx

/-- A piece with no letter reads the same with `x` as without. -/
theorem Neutral.plain {w : List Char} (hw : Neutral Quiet w) (hw' : ∀ a ∈ w, a.isAlpha = false) :
    Neutral (Plain x) w :=
  ⟨hw.reads.mono fun a ha _ hq => ⟨hq, fun h => absurd (hw' a ha) (by rw [h, hx]; simp)⟩, hw.ends⟩

/-- A character as the parser writes it: a metacharacter is met escaped, any other character
in normal mode. -/
private theorem neutral_escapeRegexChar (a : Char) : Neutral (Plain x) (escapeRegexChar a) := by
  unfold escapeRegexChar
  split_ifs with ha
  · have hsp : a ≠ ' ' := by rintro rfl; exact absurd ha (by decide)
    have hax : a ≠ x := by rintro rfl; exact not_special_of_isAlpha hx ha
    have hbx : '\\' ≠ x := by rintro rfl; exact absurd hx (by decide)
    exact ⟨by simp [Plain, Quiet, Mode.next, normalMode, hsp, hax, hbx], rfl⟩
  · have hn : a ≠ '\\' ∧ a ≠ '[' ∧ a ≠ '(' ∧ a ≠ '^' ∧ a ≠ '$' := by
      refine ⟨?_, ?_, ?_, ?_, ?_⟩ <;> rintro rfl <;> exact ha (by decide)
    refine ⟨by simp [Plain, Quiet, hn.2.2.2.1, hn.2.2.2.2], ?_⟩
    simp [Mode.next, normalMode, hn.1, hn.2.1, hn.2.2.1]

private theorem neutral_escapeRegexChars (text : List Char) : Neutral (Plain x) (escapeRegexChars text) :=
  neutral_flatMap fun a _ => neutral_escapeRegexChar hx a

private theorem neutral_open : Neutral (Plain x) "(?:".toList :=
  Neutral.plain hx (by decide) (by decide)

private theorem neutral_close_optional : Neutral (Plain x) ")?".toList :=
  Neutral.plain hx (by decide) (by decide)

private theorem neutral_close : Neutral (Plain x) [')'] :=
  Neutral.plain hx (by decide) (by decide)

private theorem neutral_bar : Neutral (Plain x) ['|'] :=
  Neutral.plain hx (by decide) (by decide)

/-- The output of an escape: a backslash before a brace or a parenthesis, or a bare `/`. -/
private theorem neutral_escape {next : Char} (h : IsEscapable next) :
    Neutral (Plain x)
      (if next = '{' ∨ next = '}' ∨ next = '(' ∨ next = ')' then ['\\', next] else [next]) := by
  refine Neutral.plain hx ?_ ?_ <;> rcases h with rfl | rfl | rfl | rfl | rfl <;> decide

/-- A parameter's group: every class and escape of its fragment closes inside it. -/
private theorem neutral_parameter (hf : ¬ InFragment x) {paramType fragment : List Char}
    (h : lookupParameterType paramType = some fragment) :
    Neutral (Plain x) ('(' :: fragment ++ [')']) := by
  have hq : ∀ t ∈ getParameterTypes, Neutral Quiet ('(' :: t.2.toList ++ [')']) := by decide
  obtain ⟨t, ht, -, rfl⟩ := lookupParameterType_mem h
  refine ⟨(hq t ht).reads.mono fun a ha _ hqa => ⟨hqa, fun hax => ?_⟩, (hq t ht).ends⟩
  subst hax
  simp only [List.cons_append, List.mem_cons, List.mem_append, List.not_mem_nil, or_false] at ha
  rcases ha with rfl | ha | rfl
  · exact absurd hx (by decide)
  · exact absurd ⟨t, ht, ha⟩ hf
  · exact absurd hx (by decide)

/-- An optional group `(?:text)?`. -/
private theorem neutral_optional (text : List Char) :
    Neutral (Plain x) ("(?:".toList ++ escapeRegexChars text ++ ")?".toList) :=
  ((neutral_open hx).append (neutral_escapeRegexChars hx text)).append (neutral_close_optional hx)

/-- What `parseAlternativeText` appends to a neutral text keeps it neutral. -/
private theorem parseAlternativeTextFrom_neutral {text : List Char} :
    ∀ fuel i result out, Neutral (Plain x) result →
      parseAlternativeTextFrom text fuel i result = .ok out → Neutral (Plain x) out := by
  intro fuel
  induction fuel with
  | zero =>
    intro i result out hr h
    simp only [parseAlternativeTextFrom] at h
    split_ifs at h
    cases h
    exact hr
  | succ fuel ih =>
    intro i result out hr h
    simp only [parseAlternativeTextFrom] at h
    split_ifs at h with hlt
    · obtain ⟨c, -, h⟩ := bind_eq_ok.mp h
      split at h
      · split_ifs at h
        exact ih _ _ _ (by simpa only [List.append_assoc] using hr.append (neutral_optional hx _)) h
      · exact ih _ _ _ (hr.append (neutral_escapeRegexChar hx c)) h
    · cases h
      exact hr

/-- An alternation group `(?:alt₁|…|altₙ)`. -/
private theorem neutral_alternation {alternatives rendered : List (List Char)}
    (h : alternatives.mapM parseAlternativeText = .ok rendered) :
    Neutral (Plain x) ("(?:".toList ++ List.intercalate ['|'] rendered ++ [')']) := by
  refine ((neutral_open hx).append (neutral_intercalate (neutral_bar hx) fun w hw => ?_)).append
    (neutral_close hx)
  obtain ⟨a, -, ha⟩ := mem_of_mapM_eq_ok h w hw
  exact parseAlternativeTextFrom_neutral hx _ _ _ _ neutral_nil ha

/-- Every step of the parser keeps its buffer neutral. -/
theorem neutral_step (hf : ¬ InFragment x) {e : List Char} {s s' : ParserState}
    (hb : Neutral (Plain x) s.result) (h : StepSpec e s s') : Neutral (Plain x) s'.result := by
  cases h with
  | escaping next hcur hnext hesc => exact hb.append (neutral_escape hx hesc)
  | openBrace closePos fragment hcur hclose hlookup =>
    simpa using hb.append (neutral_parameter hx hf hlookup)
  | openParenthesis closePos hcur hclose hne =>
    simpa only [List.append_assoc] using hb.append (neutral_optional hx _)
  | separator => exact hb
  | alternation alternatives fwdPos rendered hcur hcollect hlen hrender =>
    simpa only [List.append_assoc] using
      (hb.keep fun _ h => quiet_space h.1).append (neutral_alternation hx hrender)
  | literal c hcur => exact hb.append (neutral_escapeRegexChar hx c)

/-- In a pattern the parser returns, a space, a `^` or `$` and the letter `x` are met only where
`Plain x` allows. -/
theorem parse_neutral (hf : ¬ InFragment x) {e r : List Char} (h : parse e = .ok r) :
    Neutral (Plain x) r :=
  parse_induction (Neutral (Plain x)) neutral_nil
    (fun _ _ _ hb hstep => neutral_step hx hf hb hstep) h

end Letter

end CucumberExpression
