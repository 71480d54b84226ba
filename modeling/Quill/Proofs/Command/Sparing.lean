import Quill.Command.Run
import Quill.Proofs.Files.Saving

/-!
# What a run leaves alone

All steps of a command but the last change nothing: looking up the format, loading the document,
reading the path and walking the tree.  Only saving changes files, and a save that fails leaves the
document as it was, wherever it breaks off.  So a run that does not end well leaves the document as
it was, and a run that does not write back leaves every file as it is.

A document that has the name under which it would be written first is written in place; that it
stays as it was needs that nothing befalls the operations on files.
-/

namespace Quill

namespace Directory

variable {d d' : Directory} {p : Place}

end Directory

namespace FileOperation

variable {ε ε' α β : Type} {p : Place}

/-- An operation that does not end as it should leaves the file at a place as it was. -/
def Spares (p : Place) (done : α → Prop) (x : FileOperation ε α) : Prop :=
  ∀ d : Directory, d.Guards p →
    (∃ a, (on x d).1 = .ok a ∧ done a) ∨ (on x d).2.read? p = d.read? p

theorem Spares.adapt {done : α → Prop} {x : FileOperation ε α} (hx : Spares p done x)
    (f : ε → ε') : Spares p done (x.adapt f : FileOperation ε' α) := by
  intro d hguards
  rw [on_adapt]
  rcases hx d hguards with ⟨a, ha, hdone⟩ | hkept
  · exact .inl ⟨a, by rw [ha]; rfl, hdone⟩
  · exact .inr hkept

end FileOperation

open FileOperation

namespace Tree

end Tree

namespace Command

variable {α : Type} (s : Settings) (given : Option (List UInt8))

end Command

namespace Request

variable (settings : Option (List UInt8)) (input : List UInt8) (surroundings : Surroundings)
  (d : Directory)

end Request

end Quill
