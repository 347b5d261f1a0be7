import ExtensionCompiler.Proofs.FileLevel
import ExtensionCompiler.Proofs.Rescanned

set_option autoImplicit false

/-! # Functions and methods, and the nodes that declare them

The entry of a function or a method was made together with a node (`Visit.Heads`), and the node
holds all that the entry does: `Part.callable?` reads the entry off the node. This module follows
the two. The second pass settles the types of the node and nothing else (`Part.callable?_rescan`),
and the line that the node writes at the top of the file is the one that its entry asks for
(`Stmt.header_of_callable`). -/

namespace ExtensionCompiler

/-! ## From the node to its line -/

/-- The second pass gives the entry of a node its settled type. -/
theorem Part.callable?_rescan {p : Part} {e : Entry} (h : p.callable? = some e)
    (hentered : p.isEntered = true) (scope : ScopeId) (c : Checker) :
    ∃ name cName params result, e.type = .function name cName params result
      ∧ (p.rescan scope c).1.callable?
        = some { e with type := .function name cName (params.map (Ty.settle c.registry))
                          (result.rescan c.registry) } := by
  cases p with
  | prototype d =>
      rw [callable?] at h
      split at h
      · rename_i name cName params result htype
        cases h
        refine ⟨name, cName, Parameter.types d.params, result, rfl, ?_⟩
        show (Part.prototype (d.rescan scope c).1).callable? = _
        unfold Prototype.rescan
        rw [htype]
        dsimp only [callable?]
        rw [Parameter.types_rescanAll, Parameter.registry_rescanAll]
      · cases h
  | function d =>
      cases h
      obtain ⟨inner, hinner⟩ := Option.isSome_iff_exists.mp hentered
      refine ⟨_, _, Parameter.types d.params, d.returnType, rfl, ?_⟩
      unfold rescan
      dsimp only
      rw [hinner]
      show (Part.function (d.rescan inner scope c).1).callable? = _
      unfold Function.rescan
      dsimp only [callable?, Function.type]
      rw [Parameter.types_rescanAll, Parameter.registry_rescanAll]
  | method d =>
      cases h
      obtain ⟨inner, hinner⟩ := Option.isSome_iff_exists.mp hentered
      refine ⟨_, _, Parameter.types d.params, .object, rfl, ?_⟩
      unfold rescan
      dsimp only
      rw [hinner]
      show (Part.method (d.rescan inner c).1).callable? = _
      unfold Method.rescan
      dsimp only [callable?]
      rw [Parameter.types_rescanAll]
      rfl
  | _ => cases h

/-- The heading that is written for a function or a method: with its own types for a function, and
for a method with those that the host calls it with. -/
def Entry.heading? (e : Entry) : Option C.Heading :=
  match e.kind, e.type with
  | .function, .function _ _ params result => some ⟨result, e.cName, .types params⟩
  | .method, .function _ _ _ _ => some ⟨.object, e.cName, .host⟩
  | _, _ => none

/-- The node of a function or a method writes the heading of its entry, unless a header provides
it. -/
theorem Stmt.header_of_callable {stmt : Stmt} {p : Part} {e : Entry} (hpart : stmt.part? = some p)
    (he : p.callable? = some e) (hext : e.isExternal = false) (c : Checker) :
    ∃ heading, e.heading? = some heading
      ∧ stmt.alone.header .prototypes c = [.prototype heading] := by
  cases stmt with
  | prototype d =>
      cases hpart
      rw [Part.callable?] at he
      split at he
      · rename_i name cName params result htype
        cases he
        change d.isExternal = false at hext
        refine ⟨_, rfl, ?_⟩
        simp [alone, header, Prototype.header, htype, hext, Parameter.unnamed]
      · cases he
  | function d body | method d body =>
      cases hpart
      cases he
      exact ⟨_, rfl, rfl⟩
  | library _ _ _ | conditional _ _ => cases hpart
  | _ =>
      cases hpart
      cases he

end ExtensionCompiler
