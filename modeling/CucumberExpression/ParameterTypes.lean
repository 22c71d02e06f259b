import CucumberExpression.Basic

/-!
# The parameter type registry

`getParameterTypes()` is a fixed `std::map` from a type name to the regex fragment a parameter
`{name}` compiles to; `{}` is the anonymous type `""`. A lookup is an exact, case-sensitive
match of the name.

The fragments' letters are `d`, `s` and `E`. A letter written over a literal character of an
expression must be none of them (`InFragment`), or the fragments change with it (`Literals`).

Source: `src/src/CucumberExpression.cpp`, lines 39–55 (`getParameterTypes`).
-/

namespace CucumberExpression

/-- `getParameterTypes()`: the built-in parameter types, by name. -/
def getParameterTypes : List (String × String) :=
  [("int", "-?\\d+"),
   ("float", "(?=.*\\d.*)[-+]?\\d*(?:\\.(?=\\d.*))?\\d*(?:\\d+[E][+-]?\\d+)?"),
   ("word", "[^\\s]+"),
   ("string", "\"([^\"\\\\]*(\\\\.[^\"\\\\]*)*)\"|\x27([^\x27\\\\]*(\\\\.[^\x27\\\\]*)*)\x27"),
   ("bigdecimal", "(?=.*\\d.*)[-+]?\\d*(?:\\.(?=\\d.*))?\\d*(?:\\d+[E][+-]?\\d+)?"),
   ("double", "(?=.*\\d.*)[-+]?\\d*(?:\\.(?=\\d.*))?\\d*(?:\\d+[E][+-]?\\d+)?"),
   ("biginteger", "-?\\d+"),
   ("byte", "-?\\d+"),
   ("short", "-?\\d+"),
   ("long", "-?\\d+"),
   ("", ".*")]

/-- `getParameterTypes().find(paramType)`, with the fragment when the name is registered. -/
def lookupParameterType (paramType : List Char) : Option (List Char) :=
  (getParameterTypes.find? fun t => t.1.toList = paramType).map (·.2.toList)

/-- A character of some registered fragment. -/
def InFragment (c : Char) : Prop :=
  ∃ t ∈ getParameterTypes, c ∈ t.2.toList

instance (c : Char) : Decidable (InFragment c) :=
  inferInstanceAs (Decidable (∃ t ∈ getParameterTypes, c ∈ t.2.toList))

theorem lookupParameterType_mem {paramType fragment : List Char}
    (h : lookupParameterType paramType = some fragment) :
    ∃ t ∈ getParameterTypes, t.1.toList = paramType ∧ t.2.toList = fragment := by
  obtain ⟨t, ht, rfl⟩ := Option.map_eq_some'.mp h
  exact ⟨t, List.mem_of_find?_eq_some ht, by simpa using List.find?_some ht, rfl⟩

theorem not_inFragment_of_mem {fragment : List Char} {paramType : List Char} {c : Char}
    (h : lookupParameterType paramType = some fragment) (hc : ¬ InFragment c) : c ∉ fragment := by
  obtain ⟨t, ht, -, rfl⟩ := lookupParameterType_mem h
  exact fun hm => hc ⟨t, ht, hm⟩

example : lookupParameterType "int".toList = some "-?\\d+".toList := by decide

end CucumberExpression
