import ChocoCompiler.Proofs.LibraryEmitted

/-!
# Temporaries

What one step does to one block (`Draft.Step.touched`): it keeps it, opens it, appends an instruction
or closes it. From this follows that the temporaries of a function are numbered and no number is used
twice (`Draft.Temps`), and that no argument and no slot has the name of a temporary
(`Function.Emitted.ambient_ne_temp`).
-/

namespace ChocoCompiler.Ir

/-- What a step does to the block at position `j`, which it leaves as `b'`. -/
inductive Draft.Touched (d d' : Draft) (j : Nat) (b' : Block) : Prop where
  | kept (h : d.builder.function.blocks[j]? = some b')
  | opened (hinstrs : b'.instrs = []) (hterm : b'.terminator = none)
  | appended (b : Block) (i : Instr) (hb : d.builder.function.blocks[j]? = some b)
    (hj : d.builder.current = j) (heq : b' = { b with instrs := b.instrs ++ [i] })
    (hdst : i.dst? = none ∨ i.dst? = some (tempName d.builder.nextTemp) ∧
      d'.builder.nextTemp = d.builder.nextTemp + 1)
    (hknown : ∀ v ∈ i.operands, d.Knows v)
  | closed (b : Block) (t : Terminator) (hb : d.builder.function.blocks[j]? = some b)
    (hj : d.builder.current = j) (heq : b' = { b with terminator := some t })
    (hknown : ∀ v ∈ t.operands, d.Knows v)
    (hleads : ∀ l ∈ t.successors, d.Leads d.builder.current l)

namespace Draft

variable {d d' : Draft}

theorem modifyBlock_cases {b : Builder} {f : Block → Block} {j : Nat} {blk' : Block}
    (h : (b.modifyBlock f).function.blocks[j]? = some blk') :
    b.function.blocks[j]? = some blk' ∨
      ∃ blk, b.function.blocks[j]? = some blk ∧ b.current = j ∧ blk' = f blk := by
  rw [modifyBlock_blocks_getElem?] at h
  obtain ⟨blk, hblk, rfl⟩ := Option.map_eq_some_iff.1 h
  split_ifs with hj
  · exact .inr ⟨blk, hblk, hj, rfl⟩
  · exact .inl hblk

theorem Step.touched (hs : d.Step d') {j : Nat} {b' : Block}
    (hb' : d'.builder.function.blocks[j]? = some b') : Touched d d' j b' := by
  have hsnoc : ∀ {label : String},
      (d.builder.function.blocks ++ [Block.mk label [] none])[j]? = some b' → Touched d d' j b' := by
    intro label h
    rw [List.getElem?_append] at h
    split_ifs at h
    · exact .kept h
    · have hm := List.mem_of_getElem? h
      rw [List.mem_singleton] at hm
      subst hm
      exact .opened rfl rfl
  cases hs with
  | number => exact .kept hb'
  | block label => exact hsnoc hb'
  | dead => exact hsnoc hb'
  | move => exact .kept hb'
  | define i hopen hdst htyped hknown =>
    rcases modifyBlock_cases hb' with h | ⟨b, hb, hj, heq⟩
    · exact .kept h
    · exact .appended b i hb hj heq (.inr ⟨hdst, rfl⟩) hknown
  | effect i hopen hdst htyped hknown =>
    rcases modifyBlock_cases hb' with h | ⟨b, hb, hj, heq⟩
    · exact .kept h
    · exact .appended b i hb hj heq (.inl hdst) hknown
  | close t hopen htyped hknown hleads =>
    rcases modifyBlock_cases hb' with h | ⟨b, hb, hj, heq⟩
    · exact .kept h
    · exact .closed b t hb hj heq hknown hleads
  | slot => exact .kept hb'
  | varSlot => exact .kept hb'

theorem Step.nextTemp_le (hs : Step d d') : d.builder.nextTemp ≤ d'.builder.nextTemp := by
  cases hs <;> first | exact le_rfl | exact Nat.le_succ _

theorem tempName_inj {m n : Nat} (h : tempName m = tempName n) : m = n :=
  toString_nat_inj ((String.append_right_inj _).1 h)

/-- Temporaries are numbered in the order in which they are drawn, each for one instruction. -/
structure Temps (d : Draft) : Prop where
  drawn : ∀ {i : Nat} {b : Block} {x}, d.builder.function.blocks[i]? = some b → x ∈ b.defs →
    ∃ n < d.builder.nextTemp, x = tempName n
  nodup : ∀ {i : Nat} {b : Block}, d.builder.function.blocks[i]? = some b → b.defs.Nodup
  unique : ∀ {i j : Nat} {b b' : Block} {x}, d.builder.function.blocks[i]? = some b →
    d.builder.function.blocks[j]? = some b' → x ∈ b.defs → x ∈ b'.defs → i = j

theorem Touched.defs {j : Nat} {b' : Block} (h : Touched d d' j b') {x : String} (hx : x ∈ b'.defs) :
    (∃ b, d.builder.function.blocks[j]? = some b ∧ x ∈ b.defs) ∨
      j = d.builder.current ∧ x = tempName d.builder.nextTemp ∧
        d'.builder.nextTemp = d.builder.nextTemp + 1 := by
  cases h with
  | kept hb => exact .inl ⟨b', hb, hx⟩
  | opened hinstrs =>
    rw [Block.defs, hinstrs] at hx
    cases hx
  | appended b i hb hj heq hdst =>
    subst heq
    rw [Block.defs, List.filterMap_append] at hx
    rcases List.mem_append.1 hx with hx | hx
    · exact .inl ⟨b, hb, hx⟩
    · obtain ⟨i', hi', hx⟩ := List.mem_filterMap.1 hx
      rw [List.mem_singleton.1 hi'] at hx
      rcases hdst with hdst | ⟨hdst, hnext⟩
      · rw [hdst] at hx
        cases hx
      · rw [hdst] at hx
        cases hx
        exact .inr ⟨hj.symm, rfl, hnext⟩
  | closed b t hb hj heq =>
    subst heq
    exact .inl ⟨b, hb, hx⟩

theorem Step.temps (hs : Step d d') (h : d.Temps) : d'.Temps where
  drawn hb hx := by
    rcases (hs.touched hb).defs hx with ⟨b, hb, hx⟩ | ⟨-, rfl, hnext⟩
    · obtain ⟨n, hn, rfl⟩ := h.drawn hb hx
      exact ⟨n, hn.trans_le hs.nextTemp_le, rfl⟩
    · exact ⟨_, by omega, rfl⟩
  nodup hb' := by
    cases hs.touched hb' with
    | kept hb => exact h.nodup hb
    | opened hinstrs =>
      rw [Block.defs, hinstrs]
      exact List.nodup_nil
    | appended b i hb hj heq hdst =>
      have hold := h.nodup hb
      rw [heq]
      rcases hdst with hdst | ⟨hdst, -⟩
      · simpa [Block.defs, hdst] using hold
      · have hnew : tempName d.builder.nextTemp ∉ b.defs := by
          intro hx
          obtain ⟨n, hn, he⟩ := h.drawn hb hx
          exact absurd (tempName_inj he) (by omega)
        rw [Block.defs, List.filterMap_append]
        refine List.nodup_append.2 ⟨hold, by simp [hdst], fun x hx y hy => ?_⟩
        rw [show y = tempName d.builder.nextTemp by simpa [hdst] using hy]
        rintro rfl
        exact hnew hx
    | closed b t hb hj heq =>
      have hold := h.nodup hb
      rw [heq]
      exact hold
  unique hb hb' hx hx' := by
    rcases (hs.touched hb).defs hx with ⟨b, hb, hx⟩ | ⟨hi, rfl, -⟩
    · rcases (hs.touched hb').defs hx' with ⟨b', hb', hx'⟩ | ⟨hj, rfl, -⟩
      · exact h.unique hb hb' hx hx'
      · obtain ⟨n, hn, he⟩ := h.drawn hb hx
        exact absurd (tempName_inj he) (by omega)
    · rcases (hs.touched hb').defs hx' with ⟨b', hb', hx'⟩ | ⟨hj, -, -⟩
      · obtain ⟨n, hn, he⟩ := h.drawn hb' hx'
        exact absurd (tempName_inj he) (by omega)
      · exact hi.trans hj.symm

theorem start_temps (name : String) (ret : Ty) (params : List (String × Ty)) :
    (start name ret params).Temps := by
  have hdefs : ∀ {i : Nat} {b : Block}, (start name ret params).builder.function.blocks[i]? = some b →
      b.defs = [] := by
    intro i b hb
    have hm : b ∈ [Block.mk "entry" [] none] := List.mem_of_getElem? hb
    rw [List.mem_singleton.1 hm]
    rfl
  refine ⟨fun hb hx => ?_, fun hb => ?_, fun hb _ hx _ => ?_⟩
  · rw [hdefs hb] at hx
    cases hx
  · rw [hdefs hb]
    exact List.nodup_nil
  · rw [hdefs hb] at hx
    cases hx

theorem Emits.temps (he : Emits d d') (h : d.Temps) : d'.Temps :=
  he.keeps (fun _ _ hs => hs.temps) h

end Draft

/-! ## Arguments and slots -/

theorem not_mem_dot_tempName (n : Nat) : '.' ∉ (tempName n).toList := by
  unfold tempName
  rw [String.toList_append, List.mem_append, not_or]
  exact ⟨by decide, not_mem_dot_digits n⟩

theorem ne_tempName_of_dot {s : String} (h : '.' ∈ s.toList) (n : Nat) : s ≠ tempName n := by
  rintro rfl
  exact not_mem_dot_tempName n h

theorem ne_tempName_of_mem_slotHints {hint : String} (h : hint ∈ slotHints) (n : Nat) :
    hint ≠ tempName n := by
  have hall : ∀ hint ∈ slotHints, '.' ∈ hint.toList ∨ hint.toList.head? = some 'i' := by decide
  rcases hall hint h with hdot | hhead
  · exact ne_tempName_of_dot hdot n
  · rintro rfl
    rw [tempName, String.toList_append] at hhead
    cases hhead

/-- The name of a slot whose hint has been used `n` times before. -/
def slotName (hint : String) (n : Nat) : String := if n = 0 then hint else hint ++ "." ++ toString n

theorem alloca_slots (hint : String) (ty : Ty) (b : Builder) :
    ∃ s : Slot, (Build.alloca hint ty b).2.function.slots = b.function.slots ++ [s] ∧
      s.name = slotName hint (b.slotHints.count hint) :=
  ⟨_, rfl, rfl⟩

theorem alloca_ne_temp {hint : String} {ty : Ty} {b : Builder}
    (hhint : ∀ n, hint ≠ tempName n) (h : ∀ s ∈ b.function.slots, ∀ n, s.name ≠ tempName n) :
    ∀ s ∈ (Build.alloca hint ty b).2.function.slots, ∀ n, s.name ≠ tempName n := by
  obtain ⟨new, hslots, hname⟩ := alloca_slots hint ty b
  rw [hslots]
  intro s hs n
  rcases List.mem_append.1 hs with hs | hs
  · exact h s hs n
  · rw [List.mem_singleton.1 hs, hname, slotName]
    split_ifs
    · exact hhint n
    · exact ne_tempName_of_dot (by simp) n

theorem Draft.Step.slot_ne_temp {d d' : Draft} (hs : d.Step d')
    (h : ∀ s ∈ d.builder.function.slots, ∀ n, s.name ≠ tempName n) :
    ∀ s ∈ d'.builder.function.slots, ∀ n, s.name ≠ tempName n := by
  cases hs with
  | slot hint ty hhint => exact alloca_ne_temp (ne_tempName_of_mem_slotHints hhint) h
  | varSlot x ty => exact alloca_ne_temp (ne_tempName_of_dot (by simp)) h
  | number => exact h
  | block => exact h
  | dead => exact h
  | move => exact h
  | define => exact h
  | effect => exact h
  | close => exact h

theorem Function.Emitted.ambient_ne_temp {f : Function} {ps vs : List String} (h : f.Emitted ps vs)
    {x : String} (hx : x ∈ f.ambient) (n : Nat) : x ≠ tempName n := by
  rcases List.mem_append.1 hx with hx | hx
  · rw [h.params] at hx
    obtain ⟨p, -, rfl⟩ := List.mem_map.1 hx
    exact ne_tempName_of_dot (by simp) n
  · obtain ⟨d, he, -, hf⟩ := h.steps
    obtain ⟨s, hs, rfl⟩ := List.mem_map.1 hx
    rw [hf] at hs
    exact he.keeps (P := fun d => ∀ s ∈ d.builder.function.slots, ∀ n, s.name ≠ tempName n)
      (fun _ _ hs => hs.slot_ne_temp) nofun s hs n

end ChocoCompiler.Ir
