import ChocoCompiler.Proofs.LocalNames

/-!
# The names of slots

A slot gets the name it is asked for, with a number behind a dot from the second time on. The name and the number
of times that it has been asked for before are never the same for two slots (`slotKeys_nodup`), and slots that
are both numbered have different names. So two names can only be the same if a slot is asked for under a name that
looks numbered and that another one gets by its number (`allocas_nodup_iff`).
-/

namespace ChocoCompiler.Ir

/-- Slots that are asked for one after the other. -/
def Build.allocaAll (calls : List (String × Ty)) : Build (List Place) :=
  calls.mapM fun call => Build.alloca call.1 call.2

/-- The names that slots are asked for, each with the number of times that it has been asked for before, where
`before` has been asked for already. -/
def slotKeys (before : List String) : List String → List (String × Nat)
  | [] => []
  | hint :: hints => (hint, before.count hint) :: slotKeys (before ++ [hint]) hints

def slotNames (before hints : List String) : List String :=
  (slotKeys before hints).map fun key => slotName key.1 key.2

section Keys

variable {before hints : List String} {hint : String} {n : Nat}

theorem mem_slotKeys : (hint, n) ∈ slotKeys before hints ↔
    before.count hint ≤ n ∧ n < (before ++ hints).count hint := by
  induction hints generalizing before with
  | nil =>
    rw [List.append_nil]
    exact ⟨fun h => absurd h List.not_mem_nil, fun h => by omega⟩
  | cons first hints ih =>
    have hcount : (before ++ [first]).count hint = before.count hint + if first == hint then 1 else 0 := by
      rw [List.count_append, List.count_singleton]
    have hlater : (before ++ first :: hints).count hint = (before ++ [first] ++ hints).count hint := by
      rw [List.append_assoc, List.singleton_append]
    have hle : (before ++ [first]).count hint ≤ (before ++ [first] ++ hints).count hint :=
      (List.sublist_append_left _ _).count_le hint
    rw [slotKeys, List.mem_cons, ih, hlater, Prod.mk.injEq]
    by_cases h : first = hint
    · subst h
      simp only [beq_self_eq_true, if_true] at hcount
      simp only [true_and]
      omega
    · rw [if_neg (by simpa using h)] at hcount
      simp only [show hint ≠ first from fun he => h he.symm, false_and, false_or]
      omega

theorem slotKeys_nodup (before hints : List String) : (slotKeys before hints).Nodup := by
  induction hints generalizing before with
  | nil => exact List.nodup_nil
  | cons first hints ih =>
    refine List.nodup_cons.2 ⟨fun h => ?_, ih _⟩
    have hle := (mem_slotKeys.1 h).1
    rw [List.count_append, List.count_singleton_self] at hle
    omega

/-- Two slots with different keys have one name only if one of the keys is numbered and the other spells it. -/
theorem slotName_eq_cases {g h : String} {m n : Nat} (he : slotName g m = slotName h n) :
    (g = h ∧ m = n) ∨ (m = 0 ∧ 0 < n ∧ g = h ++ "." ++ toString n) ∨
      (n = 0 ∧ 0 < m ∧ h = g ++ "." ++ toString m) := by
  unfold slotName at he
  split_ifs at he with hm hn hn
  · exact .inl ⟨he, hm.trans hn.symm⟩
  · exact .inr (.inl ⟨hm, Nat.pos_of_ne_zero hn, he⟩)
  · exact .inr (.inr ⟨hn, Nat.pos_of_ne_zero hm, he.symm⟩)
  · obtain ⟨hs, hmn⟩ := numbered_inj (endsInDot_append_dot g) (endsInDot_append_dot h) he
    exact .inl ⟨(String.append_left_inj _).1 hs, hmn⟩

theorem mem_slotKeys_zero : (hint, 0) ∈ slotKeys before hints ↔ hint ∈ hints ∧ hint ∉ before := by
  rw [mem_slotKeys, List.count_append]
  by_cases hb : hint ∈ before
  · have := List.count_pos_iff.2 hb
    simp only [hb, not_true_eq_false, and_false, iff_false]
    omega
  · rw [List.count_eq_zero.2 hb, Nat.zero_add, List.count_pos_iff]
    simp [hb]

theorem slotNames_nodup_iff (before hints : List String) : (slotNames before hints).Nodup ↔
    ∀ hint ∈ hints, hint ∉ before → ∀ g n, 0 < n → before.count g ≤ n → n < (before ++ hints).count g →
      hint ≠ g ++ "." ++ toString n := by
  rw [slotNames, List.nodup_map_iff_inj_on (slotKeys_nodup before hints)]
  constructor
  · rintro hinj hint hmem hnew g n hpos hlo hhi rfl
    have hkey := hinj _ (mem_slotKeys_zero.2 ⟨hmem, hnew⟩) _ (mem_slotKeys.2 ⟨hlo, hhi⟩)
      (by simp [slotName, hpos.ne'])
    exact hpos.ne (Prod.mk.inj hkey).2
  · rintro hno ⟨g, m⟩ hg ⟨h, n⟩ hh he
    have hspelled : ∀ {g h n}, (g, 0) ∈ slotKeys before hints → (h, n) ∈ slotKeys before hints → 0 < n →
        g ≠ h ++ "." ++ toString n := by
      intro g h n hg hh hpos
      obtain ⟨hmem, hnew⟩ := mem_slotKeys_zero.1 hg
      obtain ⟨hlo, hhi⟩ := mem_slotKeys.1 hh
      exact hno g hmem hnew h n hpos hlo hhi
    rcases slotName_eq_cases he with ⟨rfl, rfl⟩ | ⟨rfl, hpos, hs⟩ | ⟨rfl, hpos, hs⟩
    · rfl
    · exact absurd hs (hspelled hg hh hpos)
    · exact absurd hs (hspelled hh hg hpos)

end Keys

/-- Every slot that is asked for is added to the function under the name it is given back with. -/
theorem allocaAll_names (b : Builder) (calls : List (String × Ty)) :
    ((Build.allocaAll calls b).1.map Place.operand = (slotNames b.slotHints (calls.map Prod.fst)).map .local) ∧
      (Build.allocaAll calls b).2.function.slots.map Slot.name =
        b.function.slots.map Slot.name ++ slotNames b.slotHints (calls.map Prod.fst) := by
  induction calls generalizing b with
  | nil => exact ⟨rfl, (List.append_nil _).symm⟩
  | cons call calls ih =>
    obtain ⟨hplaces, hslots⟩ := ih (Build.alloca call.1 call.2 b).2
    have hrun : Build.allocaAll (call :: calls) b =
        ((Build.alloca call.1 call.2 b).1 :: (Build.allocaAll calls (Build.alloca call.1 call.2 b).2).1,
          (Build.allocaAll calls (Build.alloca call.1 call.2 b).2).2) := by
      rw [Build.allocaAll, List.mapM_cons]
      rfl
    rw [hrun]
    refine ⟨?_, ?_⟩
    · rw [List.map_cons, hplaces]
      rfl
    · show (Build.allocaAll calls _).2.function.slots.map Slot.name = _
      rw [hslots]
      show (b.function.slots ++ [_]).map Slot.name ++ _ = _
      rw [List.map_append, List.append_assoc]
      rfl

/-- Slots are asked for one after the other, of any builder. Their names are pairwise distinct if and only if no
name that is asked for, for the first time, is one that another slot gets by its number. -/
theorem allocas_nodup_iff (b : Builder) (calls : List (String × Ty)) :
    ∃ places b' names, Build.allocaAll calls b = (places, b') ∧
      places.map Place.operand = names.map .local ∧
      b'.function.slots.map Slot.name = b.function.slots.map Slot.name ++ names ∧
      (names.Nodup ↔ ∀ hint ∈ calls.map Prod.fst, hint ∉ b.slotHints → ∀ g n, 0 < n →
        b.slotHints.count g ≤ n → n < (b.slotHints ++ calls.map Prod.fst).count g →
          hint ≠ g ++ "." ++ toString n) := by
  obtain ⟨hplaces, hslots⟩ := allocaAll_names b calls
  exact ⟨_, _, _, rfl, hplaces, hslots, slotNames_nodup_iff ..⟩

/-- The second slot for `tmp` has the name of the slot for `tmp.1`. -/
theorem suffixedHint_not_nodup : ∃ places b',
    Build.allocaAll [("tmp", .i1), ("tmp", .i1), ("tmp.1", .i1)] (.start "f" .void []) = (places, b') ∧
      places.map Place.operand = [.local "tmp", .local "tmp.1", .local "tmp.1"] ∧
      ¬ (b'.function.slots.map Slot.name).Nodup :=
  ⟨_, _, rfl, by decide +kernel, by decide +kernel⟩

end ChocoCompiler.Ir
