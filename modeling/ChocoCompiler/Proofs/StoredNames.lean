import ChocoCompiler.Proofs.DottedNames
import ChocoCompiler.Proofs.IdentifierWords

/-!
# Names in modules

A name of the program is kept unless the library has taken it; then it gets a suffix. As words have
no dots, no two of them are stored under one name (`storedName_inj`), none is stored under a name of
the library (`storedName_ne_reserved`), and none under the name of a constant that lowering makes up,
which has a dot and ends in a number (`storedName_ne_numbered`).
-/

namespace ChocoCompiler

variable {x y : String}

theorem storedName_eq (x : String) :
    Library.isReserved x = true ∧ storedName x = x ++ ".user" ∨
      Library.isReserved x = false ∧ storedName x = x := by
  unfold storedName
  split_ifs with h
  · exact .inl ⟨h, rfl⟩
  · exact .inr ⟨by simpa using h, rfl⟩

theorem mem_dot_suffix (x : String) : '.' ∈ (x ++ ".user").toList := by simp

theorem storedName_inj (hx : IsWord x) (hy : IsWord y) (h : storedName x = storedName y) : x = y := by
  rcases storedName_eq x with ⟨-, ex⟩ | ⟨-, ex⟩ <;> rcases storedName_eq y with ⟨-, ey⟩ | ⟨-, ey⟩ <;>
    rw [ex, ey] at h
  · simpa using h
  · exact absurd (h ▸ mem_dot_suffix x) hy.not_mem_dot
  · exact absurd (h.symm ▸ mem_dot_suffix y) hx.not_mem_dot
  · exact h

theorem storedName_ne_reserved (hy : Library.isReserved y = true) (hdot : '.' ∉ y.toList) :
    storedName x ≠ y := by
  rintro rfl
  rcases storedName_eq x with ⟨-, ex⟩ | ⟨hx, ex⟩
  · exact hdot (ex ▸ mem_dot_suffix x)
  · rw [ex, hx] at hy
    cases hy

/-- A name with a dot and a number at its end is not that of something of the program. -/
theorem storedName_ne_numbered (hx : IsWord x) (hdot : '.' ∈ y.toList)
    (hdigit : endsInDigit y = true) : storedName x ≠ y := by
  rintro rfl
  rcases storedName_eq x with ⟨-, ex⟩ | ⟨-, ex⟩
  · rw [ex] at hdigit
    simp [endsInDigit] at hdigit
  · exact hx.not_mem_dot (ex ▸ hdot)

end ChocoCompiler
