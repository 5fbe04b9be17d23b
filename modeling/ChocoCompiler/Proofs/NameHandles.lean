import ChocoCompiler.Proofs.EnteredNames

/-!
# The numbers of names

A table has no name twice: a name that it has is not entered again. So the number of a name and the name with a
number determine each other (`NameTable.lookup_eq_some_iff`). Entering names adds to the end of the table, so
this holds however many have been entered, and a number that has been given to a name stays with it
(`NameTable.internAll_numbers`).
-/

namespace ChocoCompiler.NameTable

variable {t : NameTable} {x : String} {k : Handle}

/-- The table after names have been entered one by one. -/
def internAll (t : NameTable) (xs : List String) : NameTable := xs.foldl (fun t x => (t.intern x).2) t

/-- The table numbers its names from one, the built-in functions first; what `lookup` says of a name and what
`get?` says of a number is the same. -/
structure IsNumbering (t : NameTable) : Prop where
  builtins : t.get? 1 = some "print" ∧ t.get? 2 = some "len" ∧ t.get? 3 = some "input"
  handles : ∀ k, (∃ x, t.get? k = some x) ↔ 1 ≤ k ∧ k ≤ t.size
  inverse : ∀ x k, t.lookup x = some k ↔ t.get? k = some x

/-! ## Tables without repetition -/

theorem get?_eq_some_iff : t.get? k = some x ↔ ∃ n, k = n + 1 ∧ t.names[n]? = some x := by
  cases k with
  | zero => exact ⟨fun h => (by cases h), fun ⟨_, h, _⟩ => (by cases h)⟩
  | succ n =>
    refine ⟨fun h => ⟨n, rfl, h⟩, ?_⟩
    rintro ⟨m, hm, h⟩
    cases hm
    exact h

theorem exists_get?_iff (k : Handle) : (∃ x, t.get? k = some x) ↔ 1 ≤ k ∧ k ≤ t.size := by
  simp only [get?_eq_some_iff, List.getElem?_eq_some_iff]
  constructor
  · rintro ⟨x, n, rfl, hn, -⟩
    exact ⟨Nat.succ_pos n, hn⟩
  · rintro ⟨hpos, hle⟩
    obtain ⟨n, rfl⟩ := Nat.exists_eq_succ_of_ne_zero (Nat.ne_of_gt hpos)
    exact ⟨_, n, rfl, hle, rfl⟩

/-- Without repetition the first place where a name stands is the only one. -/
theorem lookup_eq_some_iff (h : t.names.Nodup) : t.lookup x = some k ↔ t.get? k = some x := by
  rw [get?_eq_some_iff, lookup, Option.map_eq_some_iff]
  refine exists_congr fun n => ?_
  rw [List.getElem?_eq_some_iff, and_comm, eq_comm]
  refine and_congr_right fun _ => ?_
  constructor
  · intro hn
    obtain ⟨hlt, hx, -⟩ := List.idxOf?_eq_some_iff.1 hn
    exact ⟨hlt, hx⟩
  · rintro ⟨hlt, rfl⟩
    exact List.idxOf?_eq_some_iff.2 ⟨hlt, rfl, fun m hm he => hm.ne (h.getElem_inj_iff.1 he)⟩

/-! ## Entering names -/

theorem names_prefix_intern (t : NameTable) (x : String) : t.names <+: (t.intern x).2.names := by
  rw [names_intern]
  split_ifs
  · exact List.prefix_rfl
  · exact List.prefix_append ..

theorem nodup_intern (h : t.names.Nodup) (x : String) : (t.intern x).2.names.Nodup := by
  rw [names_intern]
  split_ifs with hx
  · exact h
  · exact List.nodup_append.2 ⟨h, List.nodup_singleton x, fun y hy z hz => by
      rw [List.mem_singleton.1 hz]
      rintro rfl
      exact hx hy⟩

theorem get?_intern (t : NameTable) (x : String) : (t.intern x).2.get? (t.intern x).1 = some x := by
  unfold intern
  cases hx : t.lookup x with
  | some k =>
    obtain ⟨n, hn, rfl⟩ := Option.map_eq_some_iff.1 hx
    obtain ⟨hlt, he, -⟩ := List.idxOf?_eq_some_iff.1 hn
    exact get?_eq_some_iff.2 ⟨n, rfl, List.getElem?_eq_some_iff.2 ⟨hlt, he⟩⟩
  | none => exact get?_eq_some_iff.2 ⟨t.size, rfl, List.getElem?_concat_length⟩

theorem names_prefix_internAll (t : NameTable) (xs : List String) : t.names <+: (t.internAll xs).names := by
  induction xs generalizing t with
  | nil => exact List.prefix_rfl
  | cons x xs ih => exact (t.names_prefix_intern x).trans (ih (t.intern x).2)

theorem nodup_internAll (h : t.names.Nodup) (xs : List String) : (t.internAll xs).names.Nodup := by
  induction xs generalizing t with
  | nil => exact h
  | cons x xs ih => exact ih (nodup_intern h x)

theorem nodup_initial : initial.names.Nodup := by decide

theorem isNumbering_internAll (xs : List String) : (initial.internAll xs).IsNumbering where
  builtins := by
    have hkept := fun {k x} => @get?_mono _ _ x (initial.names_prefix_internAll xs) k
    exact ⟨hkept rfl, hkept rfl, hkept rfl⟩
  handles := exists_get?_iff
  inverse := fun _ _ => lookup_eq_some_iff (nodup_internAll nodup_initial xs)

/-- A number that has been given out is given again for the same name only. -/
theorem intern_eq_iff (h : t.names.Nodup) (hk : t.get? k = some x) (y : String) :
    k = (t.intern y).1 ↔ x = y := by
  have hx := get?_mono (t.names_prefix_intern y) hk
  have hy := t.get?_intern y
  constructor
  · rintro rfl
    exact Option.some.inj (hx.symm.trans hy)
  · rintro rfl
    have hnodup := nodup_intern h x
    exact Option.some.inj (((lookup_eq_some_iff hnodup).2 hx).symm.trans ((lookup_eq_some_iff hnodup).2 hy))

end ChocoCompiler.NameTable
