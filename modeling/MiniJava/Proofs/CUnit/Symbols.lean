import MiniJava.CUnit.Names
import MiniJava.Proofs.Token.Lexemes
/-!
# The parts of a global name

A global name can be taken apart again (`partsOf`).  Read from the left, two underscores are one underscore of a part, and
an underscore by itself ends the part.  This finds the parts that the name was made of, since no part but the first begins
with an underscore: in a run of underscores the last one is the joint.

So the names of functions, tables, sizes, maps and frames, which have parts of different number or with different fixed
words, are told apart by their parts (`symbolParts_methodSymbol_append`, `symbolParts_globalPart_append`).
-/
namespace MiniJava.CUnit

/-- A character in front of the first part. -/
def consPart (c : Char) : List (List Char) → List (List Char)
  | [] => [[c]]
  | part :: parts => (c :: part) :: parts

/-- The parts of a global name. -/
def partsOf : List Char → List (List Char)
  | [] => [[]]
  | '_' :: '_' :: cs => consPart '_' (partsOf cs)
  | '_' :: cs => [] :: partsOf cs
  | c :: cs => consPart c (partsOf cs)

theorem doubleUnderscores_cons_underscore (cs : List Char) :
    doubleUnderscores ('_' :: cs) = '_' :: '_' :: doubleUnderscores cs := rfl

theorem doubleUnderscores_cons {c : Char} (hc : c ≠ '_') (cs : List Char) :
    doubleUnderscores (c :: cs) = c :: doubleUnderscores cs := by
  rw [doubleUnderscores, List.flatMap_cons, if_neg hc]
  rfl

theorem partsOf_underscore {cs : List Char} (h : cs.head? ≠ some '_') : partsOf ('_' :: cs) = [] :: partsOf cs := by
  rw [partsOf]
  rintro cs' rfl
  exact h rfl

theorem partsOf_cons {c : Char} (hc : c ≠ '_') (cs : List Char) : partsOf (c :: cs) = consPart c (partsOf cs) := by
  rw [partsOf]
  · exact fun _ h _ => hc h
  · exact hc

/-- A part is read as it was if the name ends behind it or goes on at a joint. -/
theorem partsOf_doubleUnderscores {rest : List Char} {parts : List (List Char)} (h : partsOf rest = [] :: parts) :
    ∀ cs : List Char, partsOf (doubleUnderscores cs ++ rest) = cs :: parts
  | [] => h
  | c :: cs => by
    have ih := partsOf_doubleUnderscores h cs
    by_cases hc : c = '_'
    · subst hc
      rw [doubleUnderscores_cons_underscore, List.cons_append, List.cons_append, partsOf, ih]
      rfl
    · rw [doubleUnderscores_cons hc, List.cons_append, partsOf_cons hc, ih]
      rfl

/-- **The parts of a global name**, as names. -/
def symbolParts (symbol : String) : List Name := (partsOf symbol.toList).map String.ofList

theorem toList_globalPart (x : Name) : (globalPart x).toList = doubleUnderscores x.toList := String.toList_ofList

theorem symbolParts_globalPart (x : Name) : symbolParts (globalPart x) = [x] := by
  have hparts := @partsOf_doubleUnderscores [] [] rfl x.toList
  rw [List.append_nil] at hparts
  rw [symbolParts, toList_globalPart, hparts, List.map_singleton, String.ofList_toList]

theorem globalPart_injective : Function.Injective globalPart := fun x y h => by
  have hparts := congrArg symbolParts h
  rw [symbolParts_globalPart, symbolParts_globalPart] at hparts
  exact (List.cons.inj hparts).1

/-- What begins with an underscore joins a part to the next, which does not. -/
theorem symbolParts_globalPart_append (x : Name) {suffix : String} (next : String)
    (hjoint : suffix.toList = '_' :: next.toList) (hnext : next.toList.head? ≠ some '_') : symbolParts (globalPart x ++ suffix) = x :: symbolParts next := by
  have hparts := partsOf_doubleUnderscores (partsOf_underscore hnext) x.toList
  rw [symbolParts, String.toList_append, toList_globalPart, hjoint, hparts, List.map_cons, String.ofList_toList]
  rfl

theorem symbolParts_vtableTag (c : Name) : symbolParts (vtableTag c) = [c, "vtable"] :=
  symbolParts_globalPart_append c "vtable" rfl (by decide)

theorem symbolParts_vtableSymbol (c : Name) : symbolParts (vtableSymbol c) = [c, "vtable", ""] :=
  symbolParts_globalPart_append c "vtable_" rfl (by decide)

theorem symbolParts_sizeSymbol (c : Name) : symbolParts (sizeSymbol c) = [c, "size", ""] :=
  symbolParts_globalPart_append c "size_" rfl (by decide)

/-! ## Symbols with a method's name

The name of a method is an identifier, so it does not begin with an underscore. -/

section

variable {m : Name} (hm : IsIdentifier m) (c : Name)

include hm

theorem head?_globalPart_append (suffix : String) : (globalPart m ++ suffix).toList.head? = m.toList.head? := by
  obtain ⟨d, ds, hchars, -⟩ := hm.exists_chars
  have hd : d ≠ '_' := fun h => hm.head?_ne (by rw [hchars, h]; rfl)
  rw [String.toList_append, toList_globalPart, hchars, doubleUnderscores_cons hd]
  rfl

theorem symbolParts_methodSymbol : symbolParts (methodSymbol c m) = [c, m] := by
  have hnext : (globalPart m).toList.head? ≠ some '_' := by
    rw [← @String.append_empty (globalPart m), head?_globalPart_append hm]
    exact hm.head?_ne
  rw [methodSymbol, String.append_assoc, symbolParts_globalPart_append c _ String.toList_append hnext,
    symbolParts_globalPart]

theorem symbolParts_methodSymbol_append {suffix : String} (next : String) (hjoint : suffix.toList = '_' :: next.toList)
    (hnext : next.toList.head? ≠ some '_') :
    symbolParts (methodSymbol c m ++ suffix) = c :: m :: symbolParts next := by
  have hmethod : (globalPart m ++ suffix).toList.head? ≠ some '_' := by
    rw [head?_globalPart_append hm]
    exact hm.head?_ne
  rw [methodSymbol, String.append_assoc, String.append_assoc,
    symbolParts_globalPart_append c _ String.toList_append hmethod, symbolParts_globalPart_append m next hjoint hnext]

end

namespace Function

variable {f : Function} (hf : IsIdentifier f.name)

include hf

theorem symbolParts_symbol : symbolParts f.symbol = [f.cls, f.name] := symbolParts_methodSymbol hf f.cls

theorem symbolParts_frameTag : symbolParts f.frameTag = [f.cls, f.name, "gc", "frame"] :=
  symbolParts_methodSymbol_append hf f.cls "gc_frame" rfl (by decide)

theorem symbolParts_argumentsMapSymbol :
    symbolParts f.argumentsMapSymbol = [f.cls, f.name, "arguments", "gc", "map"] :=
  symbolParts_methodSymbol_append hf f.cls "arguments_gc_map" rfl (by decide)

theorem symbolParts_localsMapSymbol : symbolParts f.localsMapSymbol = [f.cls, f.name, "locals", "gc", "map"] :=
  symbolParts_methodSymbol_append hf f.cls "locals_gc_map" rfl (by decide)

end Function

/-! ## Members and temporaries -/

theorem toList_memberName (x : Name) : (memberName x).toList = '_' :: x.toList := String.toList_append

theorem memberName_injective : Function.Injective memberName := fun x y h => by
  have hchars := congrArg String.toList h
  rw [toList_memberName, toList_memberName, List.cons.injEq] at hchars
  exact String.toList_injective hchars.2

theorem toList_tempName (n : Nat) : (tempName n).toList = '_' :: '_' :: 't' :: (toString n).toList := String.toList_append

theorem tempName_injective : Function.Injective tempName := fun m n h => by
  have hchars := congrArg String.toList h
  simp only [toList_tempName, List.cons.injEq, true_and] at hchars
  exact toString_nat_injective (String.toList_injective hchars)

end MiniJava.CUnit
