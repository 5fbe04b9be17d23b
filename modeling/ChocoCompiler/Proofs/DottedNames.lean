import Mathlib.Tactic.Common

/-!
# Names with dots

The names that lowering makes up are put together from words and numbers with dots between them.
Words and numbers have no dots of their own, so such a name can be taken apart again (`parts`), and
a name that ends in a number determines the number and what stands before it (`numbered_inj`).
-/

namespace ChocoCompiler

/-- What stands between the dots of a name. -/
def parts (s : String) : List (List Char) := s.toList.splitOn '.'

/-- The name is a word with a dot at its end, so that a number can follow. -/
def EndsInDot (s : String) : Prop := s.toList.getLast? = some '.'

instance (s : String) : Decidable (EndsInDot s) := inferInstanceAs (Decidable (_ = _))

theorem toList_toString_nat (n : Nat) : (toString n).toList = Nat.toDigits 10 n := Nat.toList_repr

theorem not_mem_dot_digits (n : Nat) : '.' ∉ (toString n).toList := by
  intro h
  rw [toList_toString_nat] at h
  exact absurd (Nat.isDigit_of_mem_toDigits (by decide) (by decide) h) (by decide)

theorem toString_nat_inj {m n : Nat} (h : toString m = toString n) : m = n := by
  have hd : Nat.toDigits 10 m = Nat.toDigits 10 n := by
    rw [← toList_toString_nat, ← toList_toString_nat, h]
  rw [← Nat.ofDigitChars_ten_toDigits (n := m), hd, Nat.ofDigitChars_ten_toDigits]

theorem parts_eq_singleton {s : String} (h : '.' ∉ s.toList) : parts s = [s.toList] :=
  List.splitOn_eq_singleton h

theorem parts_toString_nat (n : Nat) : parts (toString n) = [(toString n).toList] :=
  parts_eq_singleton (not_mem_dot_digits n)

theorem parts_append_dot (s t : String) : parts (s ++ "." ++ t) = parts s ++ parts t := by
  unfold parts
  rw [String.toList_append, String.toList_append, List.append_assoc]
  exact List.splitOn_append_cons_self _ _

theorem EndsInDot.eq_append {s : String} (h : EndsInDot s) : ∃ r, s = r ++ "." := by
  obtain ⟨cs, hcs⟩ := List.getLast?_eq_some_iff.1 h
  refine ⟨String.ofList cs, ?_⟩
  rw [← String.toList_inj, hcs]
  simp

theorem parts_numbered {s : String} (h : EndsInDot s) (n : Nat) :
    ∃ ps, parts (s ++ toString n) = ps ++ [(toString n).toList] := by
  obtain ⟨r, rfl⟩ := h.eq_append
  exact ⟨parts r, by rw [parts_append_dot, parts_toString_nat]⟩

theorem numbered_inj {s t : String} {m n : Nat} (hs : EndsInDot s) (ht : EndsInDot t)
    (h : s ++ toString m = t ++ toString n) : s = t ∧ m = n := by
  obtain ⟨ps, hps⟩ := parts_numbered hs m
  obtain ⟨qs, hqs⟩ := parts_numbered ht n
  have hp : ps ++ [(toString m).toList] = qs ++ [(toString n).toList] := by rw [← hps, ← hqs, h]
  have hd : toString m = toString n := by
    rw [← String.toList_inj]
    exact List.head_eq_of_cons_eq (List.append_inj' hp rfl).2
  refine ⟨?_, toString_nat_inj hd⟩
  rw [hd] at h
  simpa using h

/-- Whether the last character of a name is a digit. -/
def endsInDigit (s : String) : Bool := s.toList.getLast?.any Char.isDigit

theorem endsInDigit_numbered (s : String) (n : Nat) : endsInDigit (s ++ toString n) = true := by
  have hne : Nat.toDigits 10 n ≠ [] := Nat.toDigits_ne_nil
  unfold endsInDigit
  rw [String.toList_append, toList_toString_nat, List.getLast?_append,
    List.getLast?_eq_some_getLast hne]
  exact Nat.isDigit_of_mem_toDigits (by decide) (by decide) (List.getLast_mem hne)

end ChocoCompiler
