import Mathlib.Algebra.Group.Int
import Mathlib.Algebra.Group.Nat.Basic
import Mathlib.Data.List.Basic

/-!
# Exceptions, undefined behaviour and `std::string`

The exception classes of `CucumberExpression.hpp` that the compiler throws, the ways a call can
end without returning (`Failure`), and the few `std::string` and `int` operations the compiler
uses, each with the lemmas later files cite instead of unfolding it.

A string is a `List Char`. An out-of-range read, `back()` of an empty string and signed `int`
overflow are undefined behaviour in C++; the model ends the run there with a `Failure` that
names which one happened.

## Main definitions

* `CucumberExpressionpressionException`, `CucumberExpressionpressionException.what`, `cString`.
* `Failure`: a thrown exception or an undefined behaviour.
* `readAt`, `find`, `rfind`, `substr`, `intAdd`.

Source: `src/include/cucumber-cpp/internal/utils/CucumberExpression.hpp`, lines 18–133 (the
exception classes), and the `std::string` operations of `src/src/CucumberExpression.cpp`.
-/

namespace CucumberExpression

/-- The exception classes the compiler throws, with the data their constructors take. `base` is
the base class `CucumberExpressionpressionException` itself; the other constructors are its
subclasses. -/
inductive CucumberExpressionpressionException where
  | base (message : String)
  | unknownParameterType (paramType : List Char)
  | unclosedParameter (message : String)
  | unclosedOptional (message : String)
  | unmatchedClosingBrace
  | unmatchedClosingParenthesis
  | emptyExpression
  deriving DecidableEq, Repr

namespace CucumberExpressionpressionException

/-- `what()`: the message each class hands to `std::invalid_argument`. -/
def what : CucumberExpressionpressionException → String
  | base message => message
  | unknownParameterType paramType => "Unknown parameter type: \x7b" ++ String.mk paramType ++ "\x7d"
  | unclosedParameter message => message
  | unclosedOptional message => message
  | unmatchedClosingBrace => "Unexpected closing brace \x27\x7d\x27 without matching opening brace"
  | unmatchedClosingParenthesis =>
      "Unexpected closing parenthesis \x27)\x27 without matching opening parenthesis"
  | emptyExpression => "Cucumber expression cannot be empty"

end CucumberExpressionpressionException

/-- A `std::string` read through `c_str()`, as `std::string(...) + e.what()` reads the `what()` of
an exception: up to its first NUL character. -/
def cString (s : String) : String :=
  ⟨s.data.takeWhile (· != '\x00')⟩

/-- How a call ends when it does not return a value. -/
inductive Failure where
  /-- A C++ exception reaches the caller. -/
  | thrown (e : CucumberExpressionpressionException)
  /-- `s[i]` with `i ≥ s.size()`. -/
  | outOfRange (index : Nat)
  /-- `s.back()` on an empty string. -/
  | backOfEmpty
  /-- A signed `int` leaves `[-2^31, 2^31)`. -/
  | intOverflow
  /-- A loop of the model used up its iteration bound; no loop does on an expression of fewer
  than `2^64` characters (`transform_ne_outOfFuel`). -/
  | outOfFuel
  deriving DecidableEq, Repr

/-! ### Monadic steps -/

theorem bind_eq_ok {ε α β : Type} {x : Except ε α} {f : α → Except ε β} {b : β} :
    x.bind f = .ok b ↔ ∃ a, x = .ok a ∧ f a = .ok b := by
  cases x <;> simp [Except.bind]

@[simp] theorem bind_ok {ε α β : Type} (a : α) (f : α → Except ε β) :
    (Except.ok a : Except ε α).bind f = f a := rfl

@[simp] theorem bind_error {ε α β : Type} (e : ε) (f : α → Except ε β) :
    (Except.error e : Except ε α).bind f = .error e := rfl

@[simp] theorem except_map_ok {ε α β : Type} (f : α → β) (a : α) :
    Except.map f (.ok a : Except ε α) = .ok (f a) := rfl

@[simp] theorem except_map_error {ε α β : Type} (f : α → β) (e : ε) :
    Except.map f (.error e : Except ε α) = .error e := rfl

theorem except_map_bind {ε α β γ : Type} (f : β → γ) (x : Except ε α) (g : α → Except ε β) :
    Except.map f (x.bind g) = x.bind fun a => Except.map f (g a) := by
  cases x <;> rfl

theorem except_bind_map {ε α β γ : Type} (f : α → β) (x : Except ε α) (g : β → Except ε γ) :
    (Except.map f x).bind g = x.bind fun a => g (f a) := by
  cases x <;> rfl

/-- A `bind` fails with `e` only if one of its two steps does. -/
theorem bind_ne_error {ε α β : Type} {x : Except ε α} {f : α → Except ε β} {e : ε}
    (hx : x ≠ .error e) (hf : ∀ a, x = .ok a → f a ≠ .error e) : x.bind f ≠ .error e := by
  cases x with
  | error e' => exact fun h => hx (by cases h; rfl)
  | ok a => exact hf a rfl

theorem map_ne_error {ε α β : Type} {x : Except ε α} {f : α → β} {e : ε} (hx : x ≠ .error e) :
    x.map f ≠ .error e := by
  cases x with
  | error e' => exact fun h => hx (by cases h; rfl)
  | ok a => exact fun h => by cases h

theorem mapM_ne_error {ε α β : Type} {f : α → Except ε β} {e : ε} :
    ∀ {l : List α}, (∀ a ∈ l, f a ≠ .error e) → l.mapM f ≠ .error e
  | [], _ => fun h => by cases h
  | a :: l, h => by
    rw [List.mapM_cons]
    exact bind_ne_error (h a (List.mem_cons_self a l)) fun _ _ =>
      bind_ne_error (mapM_ne_error fun b hb => h b (List.mem_cons_of_mem a hb))
        fun _ _ h' => by cases h'

/-- A computation that fails with no error returns. -/
theorem exists_ok_of_ne_error {ε α : Type} {x : Except ε α} (h : ∀ e, x ≠ .error e) :
    ∃ a, x = .ok a := by
  cases x with
  | error e => exact absurd rfl (h e)
  | ok a => exact ⟨a, rfl⟩

/-- The two branches of an `if`, each under its condition. -/
theorem ite_ne {α : Type} {c : Prop} [Decidable c] {a b x : α} (ha : c → a ≠ x) (hb : ¬ c → b ≠ x) :
    (if c then a else b) ≠ x :=
  fun h => (ite_eq_iff.mp h).elim (fun ⟨hc, h⟩ => ha hc h) fun ⟨hc, h⟩ => hb hc h

theorem ite_eq_elim {α : Type} {c : Prop} [Decidable c] {a b x : α} {Q : Prop}
    (h : (if c then a else b) = x) (ha : c → a = x → Q) (hb : ¬ c → b = x → Q) : Q :=
  (ite_eq_iff.mp h).elim (fun ⟨hc, h⟩ => ha hc h) fun ⟨hc, h⟩ => hb hc h

/-- A `mapM` that returns normally got each of its results from one of its arguments. -/
theorem mem_of_mapM_eq_ok {α β : Type} {f : α → Except Failure β} :
    ∀ {l : List α} {r : List β}, l.mapM f = .ok r → ∀ b ∈ r, ∃ a ∈ l, f a = .ok b := by
  intro l
  induction l with
  | nil =>
    intro r h
    cases h
    simp
  | cons a l ih =>
    intro r h
    rw [List.mapM_cons] at h
    cases ha : f a with
    | error e => rw [ha] at h; cases h
    | ok b =>
      cases hl : l.mapM f with
      | error e => rw [ha, hl] at h; cases h
      | ok bs =>
        rw [ha, hl] at h
        cases h
        intro b' hb'
        rcases List.mem_cons.mp hb' with rfl | hb'
        · exact ⟨a, List.mem_cons_self a l, ha⟩
        · obtain ⟨a', ha', hfa⟩ := ih hl b' hb'
          exact ⟨a', List.mem_cons_of_mem _ ha', hfa⟩

/-! ### `std::string` -/

/-- `s[i]`: reading past the end is undefined behaviour. -/
def readAt (s : List Char) (i : Nat) : Except Failure Char :=
  match s[i]? with
  | some c => .ok c
  | none => .error (.outOfRange i)

theorem readAt_of_lt {s : List Char} {i : Nat} (h : i < s.length) : readAt s i = .ok s[i] := by
  simp [readAt, List.getElem?_eq_getElem h]

theorem readAt_eq_ok {s : List Char} {i : Nat} {c : Char} :
    readAt s i = .ok c ↔ s[i]? = some c := by
  unfold readAt
  split <;> rename_i h <;> simp [h]

theorem readAt_of_le {s : List Char} {i : Nat} (h : s.length ≤ i) :
    readAt s i = .error (.outOfRange i) := by
  simp [readAt, List.getElem?_eq_none h]

/-- `s.find(c, pos)`: the first index at or after `pos` that holds `c`; `none` is `npos`. -/
def find : List Char → Char → Nat → Option Nat
  | [], _, _ => none
  | d :: s, c, 0 => if d = c then some 0 else (find s c 0).map (· + 1)
  | _ :: s, c, pos + 1 => (find s c pos).map (· + 1)

/-- `s.rfind(c)`: the last index that holds `c`. -/
def rfind : List Char → Char → Option Nat
  | [], _ => none
  | d :: s, c =>
    match rfind s c with
    | some j => some (j + 1)
    | none => if d = c then some 0 else none

/-- `s.substr(pos, n)`. -/
def substr (s : List Char) (pos n : Nat) : List Char :=
  (s.drop pos).take n

theorem readAt_map (f : Char → Char) (s : List Char) (i : Nat) :
    readAt (s.map f) i = (readAt s i).map f := by
  unfold readAt
  rw [List.getElem?_map]
  cases s[i]? <;> rfl

theorem substr_map (f : Char → Char) (s : List Char) (pos n : Nat) :
    substr (s.map f) pos n = (substr s pos n).map f := by
  simp [substr, List.map_drop, List.map_take]

theorem substr_succ {s : List Char} {pos n : Nat} {a : Char} (h : s[pos + n]? = some a) :
    substr s pos (n + 1) = substr s pos n ++ [a] := by
  simp [substr, List.take_succ, List.getElem?_drop, h]

theorem substr_cons {s : List Char} {pos n : Nat} {a : Char} (h : s[pos]? = some a) :
    substr s pos (n + 1) = a :: substr s (pos + 1) n := by
  obtain ⟨hlt, rfl⟩ := List.getElem?_eq_some_iff.mp h
  rw [substr, substr, List.drop_eq_getElem_cons hlt, List.take_succ_cons]

theorem mem_substr {s : List Char} {pos n : Nat} {a : Char} :
    a ∈ substr s pos n ↔ ∃ m, pos ≤ m ∧ m < pos + n ∧ s[m]? = some a := by
  simp only [substr, List.mem_iff_getElem?, List.getElem?_take, List.getElem?_drop]
  constructor
  · rintro ⟨j, hj⟩
    split_ifs at hj with hjn
    · exact ⟨pos + j, by omega, by omega, hj⟩
  · rintro ⟨m, h1, h2, hm⟩
    exact ⟨m - pos, by rw [if_pos (by omega), Nat.add_sub_cancel' h1]; exact hm⟩

theorem rfind_eq_none {s : List Char} {c : Char} (h : c ∉ s) : rfind s c = none := by
  induction s with
  | nil => rfl
  | cons d s ih =>
    simp only [List.mem_cons, not_or] at h
    simp [rfind, ih h.2, Ne.symm h.1]

theorem rfind_append_cons (u : List Char) {v : List Char} {c : Char} (h : c ∉ v) :
    rfind (u ++ c :: v) c = some u.length := by
  induction u with
  | nil => simp [rfind, rfind_eq_none h]
  | cons d u ih => simp [rfind, ih]

/-- A list either lacks `c` or splits at its last `c`. -/
theorem not_mem_or_split_last (c : Char) (l : List Char) :
    c ∉ l ∨ ∃ u v, l = u ++ c :: v ∧ c ∉ v := by
  induction l with
  | nil => exact .inl (List.not_mem_nil c)
  | cons d l ih =>
    rcases ih with h | ⟨u, v, rfl, hv⟩
    · by_cases hd : d = c
      · exact .inr ⟨[], l, by simp [hd], h⟩
      · exact .inl (by simp [Ne.symm hd, h])
    · exact .inr ⟨d :: u, v, rfl, hv⟩

/-- `v + d` on a C++ `int`. -/
def intAdd (v d : Int) : Except Failure Int :=
  if -2 ^ 31 ≤ v + d ∧ v + d < 2 ^ 31 then .ok (v + d) else .error .intOverflow

theorem intAdd_eq_ok {v d w : Int} : intAdd v d = .ok w ↔ -2 ^ 31 ≤ v + d ∧ v + d < 2 ^ 31 ∧ w = v + d := by
  unfold intAdd
  split <;> simp_all [eq_comm]

private theorem intAdd_eq_error {v d : Int} {f : Failure} (h : intAdd v d = .error f) :
    f = .intOverflow := by
  unfold intAdd at h
  split at h <;> cases h
  rfl

theorem intAdd_bind_error {β : Type} {v d : Int} {k : Int → Except Failure β} {f : Failure}
    (h : (intAdd v d).bind k = .error f) : f = .intOverflow ∨ ∃ b, k b = .error f := by
  cases hb : intAdd v d with
  | error f' =>
    rw [hb] at h
    cases h
    exact .inl (intAdd_eq_error hb)
  | ok b =>
    rw [hb] at h
    exact .inr ⟨b, h⟩

theorem intAdd_of_range {v d : Int} (h₁ : -2 ^ 31 ≤ v + d) (h₂ : v + d < 2 ^ 31) :
    intAdd v d = .ok (v + d) :=
  if_pos ⟨h₁, h₂⟩

theorem find_spec {s : List Char} {c : Char} {pos j : Nat} (h : find s c pos = some j) :
    pos ≤ j ∧ s[j]? = some c ∧ ∀ k, pos ≤ k → k < j → s[k]? ≠ some c := by
  induction s generalizing pos j with
  | nil => simp [find] at h
  | cons d s ih =>
    cases pos with
    | zero =>
      simp only [find] at h
      split at h
      · cases h; simp_all
      · obtain ⟨j', hj', rfl⟩ := Option.map_eq_some'.mp h
        obtain ⟨-, hc, hk⟩ := ih hj'
        refine ⟨by omega, by simpa using hc, fun k _ hk' => ?_⟩
        cases k with
        | zero => simp_all
        | succ k => simpa using hk k (by omega) (by omega)
    | succ pos =>
      simp only [find] at h
      obtain ⟨j', hj', rfl⟩ := Option.map_eq_some'.mp h
      obtain ⟨hp, hc, hk⟩ := ih hj'
      refine ⟨by omega, by simpa using hc, fun k hk1 hk2 => ?_⟩
      cases k with
      | zero => omega
      | succ k => simpa using hk k (by omega) (by omega)

/-- `find` sees only which characters equal the one it looks for. -/
theorem find_map {f : Char → Char} {c : Char} (hf : ∀ a, f a = c ↔ a = c) :
    ∀ (s : List Char) (pos : Nat), find (s.map f) c pos = find s c pos := by
  intro s
  induction s with
  | nil => intro pos; rfl
  | cons d s ih =>
    intro pos
    cases pos with
    | zero => simp [find, hf, ih]
    | succ pos => simp [find, ih]

theorem find_eq_none {s : List Char} {c : Char} {pos : Nat} (h : find s c pos = none) :
    ∀ k, pos ≤ k → s[k]? ≠ some c := by
  induction s generalizing pos with
  | nil => simp
  | cons d s ih =>
    intro k hk
    cases pos with
    | zero =>
      simp only [find] at h
      split at h
      · cases h
      · cases k with
        | zero => simp_all
        | succ k => simpa using ih (Option.map_eq_none'.mp h) k (Nat.zero_le _)
    | succ pos =>
      simp only [find, Option.map_eq_none'] at h
      cases k with
      | zero => omega
      | succ k => simpa using ih h k (by omega)

end CucumberExpression
