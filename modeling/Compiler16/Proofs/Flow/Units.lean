import Compiler16.Flow.CompilationUnit
import Mathlib.Data.List.Induction

/-!
# Compilation units as maps

Functions are put into a compilation unit, put in again under the same name and changed in place,
while global instructions and arrays are added in between.  What the unit knows of a name depends
only on the calls for that name: it is the function that was put in last, with the changes that came
after.  The functions are listed in the order in which their names first came in.

## Main definitions

* `CompilationUnit.Call`, `CompilationUnit.performAll`: calls that change a compilation unit
* `CompilationUnit.inserted`, `CompilationUnit.edits`, `CompilationUnit.arraysOf`: what calls say
  about names, about the function of a name and about arrays

## Main results

* `CompilationUnit.get?_performAll`: what is known of a name comes from its own calls
* `CompilationUnit.keys_performAll`: the order of the names
* `CompilationUnit.insertionOrdered`: a compilation unit is a map in the order of insertion
-/

namespace Compiler16.Flow

namespace CompilationUnit

variable {ι φ : Type}

/-! ## Calls -/

/-- A call that changes a compilation unit. -/
inductive Call (ι φ : Type) where
  | insertFunction (name : String) (f : φ)
  | modifyFunction (name : String) (f : φ → φ)
  | insertGlobal (i : ι)
  | modifyGlobals (f : Block ι → Block ι)
  | insertArray (name : String) (bytes : List UInt8)

/-- The unit after a call, whether the call succeeds or fails. -/
def perform (u : CompilationUnit ι φ) : Call ι φ → CompilationUnit ι φ
  | .insertFunction name f => u.insertFunction name f
  | .modifyFunction name f =>
    match u.modifyFunction name f with
    | .ok u' => u'
    | .error _ => u
  | .insertGlobal i => u.insertGlobal i
  | .modifyGlobals f => u.modifyGlobals f
  | .insertArray name bytes => (u.insertArray name bytes).2

/-- The unit after calls, one after the other. -/
def performAll (u : CompilationUnit ι φ) (calls : List (Call ι φ)) : CompilationUnit ι φ :=
  calls.foldl perform u

/-- The name under which a call puts a function in. -/
def Call.inserted? : Call ι φ → Option String
  | .insertFunction name _ => some name
  | _ => none

/-- What a call does to the function of a name, if it changes it. -/
def Call.edit? (name : String) : Call ι φ → Option (φ → φ)
  | .modifyFunction other f => if other = name then some f else none
  | _ => none

/-- The bytes of the array that a call adds. -/
def Call.array? : Call ι φ → Option (List UInt8)
  | .insertArray _ bytes => some bytes
  | _ => none

/-- The names under which calls put functions in, in the order of the calls. -/
def inserted (calls : List (Call ι φ)) : List String := calls.filterMap Call.inserted?

/-- The changes of the function of a name, in the order of the calls. -/
def edits (name : String) (calls : List (Call ι φ)) : List (φ → φ) :=
  calls.filterMap (Call.edit? name)

/-- The bytes of the arrays that calls add, in the order of the calls. -/
def arraysOf (calls : List (Call ι φ)) : List (List UInt8) := calls.filterMap Call.array?

/-! ## The function of a name -/

/-- What there is under a name after a call, given what there was before. -/
def Call.next (name : String) (f? : Option φ) : Call ι φ → Option φ
  | .insertFunction other f => if other = name then some f else f?
  | .modifyFunction other f => if other = name then f?.map f else f?
  | _ => f?

theorem get?_perform (u : CompilationUnit ι φ) (c : Call ι φ) (name : String) :
    (u.perform c).functions.get? name = c.next name (u.functions.get? name) := by
  cases c with
  | insertFunction other f => exact IndexedMap.get?_insert ..
  | modifyFunction other f =>
    simp only [perform, modifyFunction, Call.next]
    cases hother : u.functions.get? other with
    | some f₀ => exact IndexedMap.get?_modify ..
    | none =>
      -- nothing is changed, as there is nothing to change
      by_cases heq : other = name
      · subst heq
        simp [hother]
      · simp [heq]
  | insertGlobal i => rfl
  | modifyGlobals f => rfl
  | insertArray other bytes => rfl

/-- **What is known of a name comes from its own calls.** -/
theorem get?_performAll (u : CompilationUnit ι φ) (calls : List (Call ι φ)) (name : String) :
    (u.performAll calls).functions.get? name =
      calls.foldl (fun f? c => c.next name f?) (u.functions.get? name) := by
  induction calls generalizing u with
  | nil => rfl
  | cons c calls ih =>
    rw [List.foldl_cons, ← get?_perform]
    exact ih (u.perform c)

/-- Without an insertion of the name, calls only change what there is. -/
theorem foldl_next_of_notMem {calls : List (Call ι φ)} {name : String}
    (h : name ∉ inserted calls) (f? : Option φ) :
    calls.foldl (fun f? c => c.next name f?) f? =
      f?.map fun f => (edits name calls).foldl (fun body edit => edit body) f := by
  induction calls generalizing f? with
  | nil => simp [edits]
  | cons c calls ih =>
    have hrest : name ∉ inserted calls := by
      intro hmem
      obtain ⟨d, hd, hname⟩ := List.mem_filterMap.mp hmem
      exact h (List.mem_filterMap.mpr ⟨d, List.mem_cons_of_mem _ hd, hname⟩)
    rw [List.foldl_cons, ih hrest]
    cases c with
    | insertFunction other f =>
      have hne : other ≠ name := by
        rintro rfl
        exact h List.mem_cons_self
      rw [Call.next, if_neg hne]
      rfl
    | modifyFunction other f =>
      by_cases heq : other = name <;>
        simp [Call.next, heq, edits, Call.edit?, Function.comp_def]
    | insertGlobal i => rfl
    | modifyGlobals f => rfl
    | insertArray other bytes => rfl

/-! ## The order of the names -/

theorem keys_perform (u : CompilationUnit ι φ) (c : Call ι φ) :
    (u.perform c).functions.keys =
      match c.inserted? with
      | some name =>
        if name ∈ u.functions.keys then u.functions.keys else u.functions.keys ++ [name]
      | none => u.functions.keys := by
  cases c with
  | insertFunction name f => exact IndexedMap.keys_insert ..
  | modifyFunction name f =>
    simp only [perform, modifyFunction, Call.inserted?]
    cases u.functions.get? name with
    | some f₀ => exact IndexedMap.keys_modify ..
    | none => rfl
  | insertGlobal i => rfl
  | modifyGlobals f => rfl
  | insertArray other bytes => rfl

theorem performAll_append (u : CompilationUnit ι φ) (calls calls' : List (Call ι φ)) :
    u.performAll (calls ++ calls') = (u.performAll calls).performAll calls' :=
  List.foldl_append

theorem inserted_append (calls calls' : List (Call ι φ)) :
    inserted (calls ++ calls') = inserted calls ++ inserted calls' :=
  List.filterMap_append

/-- **The names are in the order in which they first came in.** -/
theorem keys_performAll (calls : List (Call ι φ)) :
    ((empty : CompilationUnit ι φ).performAll calls).functions.keys =
      (inserted calls).eraseDups := by
  -- by the last call, as only a name that has not come in before is added to the names
  induction calls using List.reverseRecOn with
  | nil => rfl
  | append_singleton calls c ih =>
    rw [performAll_append]
    refine (keys_perform _ c).trans ?_
    rw [ih, inserted_append, List.eraseDups_append]
    cases hc : c.inserted? with
    | none => simp [inserted, hc]
    | some name =>
      have hlast : inserted [c] = [name] := by simp [inserted, hc]
      by_cases hname : name ∈ inserted calls <;>
        simp [hlast, hname, List.mem_eraseDups, List.cons_removeAll, List.eraseDups_cons]

/-! ## Arrays -/

theorem arrays_perform (u : CompilationUnit ι φ) (c : Call ι φ) :
    (u.perform c).arrays.map Prod.snd = u.arrays.map Prod.snd ++ c.array?.toList := by
  cases c with
  | insertFunction name f => simp [perform, insertFunction, Call.array?]
  | modifyFunction name f =>
    simp only [perform, modifyFunction, Call.array?]
    cases u.functions.get? name <;> simp
  | insertGlobal i => simp [perform, insertGlobal, Call.array?]
  | modifyGlobals f => simp [perform, modifyGlobals, Call.array?]
  | insertArray name bytes => simp [perform, insertArray, Call.array?]

theorem arrays_performAll (u : CompilationUnit ι φ) (calls : List (Call ι φ)) :
    (u.performAll calls).arrays.map Prod.snd = u.arrays.map Prod.snd ++ arraysOf calls := by
  induction calls generalizing u with
  | nil => simp [performAll, arraysOf]
  | cons c calls ih =>
    refine (ih (u.perform c)).trans ?_
    rw [arrays_perform, List.append_assoc, arraysOf, arraysOf, List.filterMap_cons]
    cases c.array? <;> rfl

/-! ## Maps in the order of insertion -/

theorem function_eq_ok_iff {u : CompilationUnit ι φ} {name : String} {f : φ} :
    u.function name = .ok f ↔ u.functions.get? name = some f := by
  unfold function
  cases u.functions.get? name <;> simp

theorem function_eq_error_iff {u : CompilationUnit ι φ} {name : String} {e : Error} :
    u.function name = .error e ↔ u.functions.get? name = none ∧ e = .functionNotFound name := by
  unfold function
  cases u.functions.get? name <;> simp [eq_comm]

theorem modifyFunction_eq_error_iff {u : CompilationUnit ι φ} {name : String} {f : φ → φ}
    {e : Error} :
    u.modifyFunction name f = .error e ↔
      u.functions.get? name = none ∧ e = .functionNotFound name := by
  unfold modifyFunction
  cases u.functions.get? name <;> simp [eq_comm]

/-- **A compilation unit is a map in the order of insertion.**  Whatever calls have built it, there
is a function of a name if and only if one was put in, and it is the one that was put in last with
the changes that came after.  The functions are listed with their names, each name once and in the
order in which the names first came in.  The arrays have the slots 0, 1, 2 and so on in the order of
the calls, and they keep their bytes. -/
theorem insertionOrdered (calls : List (Call ι φ)) :
    let u := (empty : CompilationUnit ι φ).performAll calls
    (∀ name, u.function name = .error (.functionNotFound name) ↔ name ∉ inserted calls) ∧
    (∀ name edit, u.modifyFunction name edit = .error (.functionNotFound name) ↔
      name ∉ inserted calls) ∧
    (∀ before name f after, calls = before ++ .insertFunction name f :: after →
      name ∉ inserted after →
      u.function name = .ok ((edits name after).foldl (fun body edit => edit body) f)) ∧
    (u.functions.keys = (inserted calls).eraseDups ∧ u.functions.keys.Nodup ∧
      u.functions.size = (inserted calls).eraseDups.length ∧
      ∀ name f, (name, f) ∈ u.functions.entries ↔ u.function name = .ok f) ∧
    ∀ before name bytes after, calls = before ++ .insertArray name bytes :: after →
      (((empty : CompilationUnit ι φ).performAll before).insertArray name bytes).1 =
          (arraysOf before).length ∧
        u.array? (arraysOf before).length = some bytes := by
  intro u
  have hkeys : u.functions.keys = (inserted calls).eraseDups := keys_performAll calls
  refine ⟨fun name => ?_, fun name edit => ?_, ?_,
    ⟨hkeys, u.functions.nodup_keys, ?_, fun name f => ?_⟩, ?_⟩
  · rw [function_eq_error_iff, IndexedMap.get?_eq_none_iff, hkeys, List.mem_eraseDups]
    simp
  · rw [modifyFunction_eq_error_iff, IndexedMap.get?_eq_none_iff, hkeys, List.mem_eraseDups]
    simp
  · rintro before name f after rfl hlast
    rw [function_eq_ok_iff, get?_performAll, List.foldl_append, List.foldl_cons, Call.next,
      if_pos rfl, foldl_next_of_notMem hlast, Option.map_some]
  · rw [← IndexedMap.length_keys, hkeys]
  · rw [IndexedMap.mem_entries_iff, function_eq_ok_iff]
  · rintro before name bytes after rfl
    constructor
    · have hlength := congrArg List.length
        (arrays_performAll (empty : CompilationUnit ι φ) before)
      simpa [insertArray, empty] using hlength
    · rw [array?, ← List.getElem?_map, arrays_performAll]
      simp [empty, arraysOf, Call.array?]

/-- Two functions of which the first is put in again and changed, and two arrays. -/
def sampleCalls : List (Call Nat Nat) :=
  [.insertFunction "zeta" 1, .modifyFunction "alpha" (· + 1), .insertArray "a" [104, 105],
    .insertFunction "alpha" 2, .insertFunction "zeta" 5, .insertGlobal 7,
    .modifyFunction "zeta" (· * 2), .insertArray "b" [], .modifyFunction "zeta" (· + 1)]

theorem insertionOrdered_sample :
    let u := (empty : CompilationUnit Nat Nat).performAll sampleCalls
    u.function "zeta" = .ok 11 ∧ u.function "omega" = .error (.functionNotFound "omega") ∧
      u.functions.keys = ["zeta", "alpha"] ∧ u.array? 0 = some [104, 105] := by
  intro u
  obtain ⟨hmissing, _, hlast, ⟨hkeys, _⟩, harray⟩ := insertionOrdered sampleCalls
  refine ⟨?_, (hmissing "omega").mpr (by decide), hkeys.trans (by decide), ?_⟩
  · exact hlast (sampleCalls.take 4) "zeta" 5 (sampleCalls.drop 5) rfl (by decide)
  · exact (harray (sampleCalls.take 2) "a" [104, 105] (sampleCalls.drop 3) rfl).2

end CompilationUnit

end Compiler16.Flow
