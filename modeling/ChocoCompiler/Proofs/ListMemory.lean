import ChocoCompiler.ListShape
import ChocoCompiler.Proofs.ByteMemory

/-!
# Lists in memory

A list is a struct that points to its elements. What a pointer stands for is read off the memory
(`Memory.ListAt`): the elements, or nothing where the pointer is null or the list was never made. A memory
that extends another has the same lists (`Memory.ListAt.extends`).
-/

namespace ChocoCompiler.Ir.Memory

variable {mem mem' mem'' : Memory} {s : ListShape} {p q c c₁ c₂ r : Pointer} {xs ys : List Datum}

/-- `p` points to a list that was made, whose elements are stored from `c` on. -/
structure MadeList (mem : Memory) (s : ListShape) (p c : Pointer) (xs : List Datum) : Prop where
  content : mem.load (.ptr s.elem) p = some (.pointer c)
  size : ∃ n : BitVec 32, mem.load .i32 (p.add 8) = some (.int 32 n) ∧ n.toInt = xs.length
  init : mem.load .i1 (p.add 12) = some (.ofBool true)
  elements : ∀ {i x}, xs[i]? = some x → mem.load s.elem (c.add (i * s.elem.size : Nat)) = some x

/-- What a pointer to a list stands for: the elements, or nothing where no list was made. -/
inductive ListAt (mem : Memory) (s : ListShape) (p : Pointer) : Option (List Datum) → Prop
  | null (h : p = .null) : ListAt mem s p none
  | unmade (h : mem.load .i1 (p.add 12) = some (.ofBool false)) : ListAt mem s p none
  | made {c : Pointer} {xs : List Datum} (h : mem.MadeList s p c xs) : ListAt mem s p (some xs)

/-- The block holds the struct of a list or its elements. -/
def IsBlockOf (mem : Memory) (s : ListShape) (p : Pointer) (b : Option Base) : Prop :=
  b = p.base ∨ ∃ c, mem.load (.ptr s.elem) p = some (.pointer c) ∧ b = c.base

theorem MadeList.extends (h : mem.MadeList s p c xs) (he : mem.Extends mem') : mem'.MadeList s p c xs where
  content := he.load h.content
  size := let ⟨n, hn, hlen⟩ := h.size; ⟨n, he.load hn, hlen⟩
  init := he.load h.init
  elements hx := he.load (h.elements hx)

theorem ListAt.extends {l : Option (List Datum)} (h : mem.ListAt s p l) (he : mem.Extends mem') :
    mem'.ListAt s p l := by
  cases h with
  | null h => exact .null h
  | unmade h => exact .unmade (he.load h)
  | made h => exact .made (h.extends he)

theorem MadeList.get_isSome (h : mem.MadeList s p c xs) {j : Nat} (hj : j < xs.length * s.elem.size) :
    (mem.get (c.add j)).isSome := by
  have hpos : 0 < s.elem.size := Nat.pos_of_mul_pos_left (Nat.zero_lt_of_lt hj)
  have hi : j / s.elem.size < xs.length := Nat.div_lt_of_lt_mul (Nat.mul_comm .. ▸ hj)
  have hbyte := (load_spec (h.elements (List.getElem?_eq_getElem hi))).2.2 _ (Nat.mod_lt j hpos)
  rwa [Pointer.add_add, ← Int.natCast_add, Nat.div_add_mod' j s.elem.size] at hbyte

theorem ne_null_of_load {ty : Ty} {n : Int} {d : Datum} (h : mem.load ty (p.add n) = some d) : p ≠ .null := by
  rintro rfl
  obtain ⟨hsize, -, hget⟩ := load_spec h
  cases hget 0 (Nat.pos_of_ne_zero hsize)

theorem load_of_copied {ty : Ty} {n i : Nat} {x : Datum} (hget : ∀ j < n * ty.size,
    mem'.get (r.add j) = mem.get (c.add j)) (hr : r.offset % ty.size = 0) (hi : i < n)
    (h : mem.load ty (c.add (i * ty.size : Nat)) = some x) :
    mem'.load ty (r.add (i * ty.size : Nat)) = some x := by
  have haligned : (r.add (i * ty.size : Nat)).offset % ty.size = 0 := by
    rw [Pointer.offset_add, Int.natCast_mul, Int.add_mul_emod_self_right, hr]
  rw [← h]
  refine load_congr (iff_of_true haligned (load_spec h).2.1) fun k hk => ?_
  have hj : i * ty.size + k < n * ty.size := calc
    i * ty.size + k < (i + 1) * ty.size := by rw [Nat.succ_mul]; omega
    _ ≤ n * ty.size := Nat.mul_le_mul_right _ hi
  rw [Pointer.add_add, Pointer.add_add, ← Int.natCast_add]
  exact hget _ hj

theorem apart_of_fresh {q : Pointer} {k n : Nat} (hk : mem.next ≤ k) (hp : p.base = some (.heap k))
    (h : ∀ i < n, (mem.get (q.add i)).isSome) :
    p.base ≠ q.base ∨ p.offset + n ≤ q.offset ∨ q.offset + n ≤ p.offset := by
  rcases Nat.eq_zero_or_pos n with rfl | hn
  · exact .inr (by omega)
  · refine .inl fun hbase => base_ne_of_get hk (h 0 hn) ?_
    rw [Pointer.base_add, ← hbase, hp]

/-- Both contents have been copied to `r`, one after the other. -/
structure Copied (mem mem' : Memory) (c₁ c₂ r : Pointer) (a b : Nat) : Prop where
  ext : mem.Extends mem'
  next : mem.next < mem'.next
  first : ∀ i < a, mem'.get (r.add i) = mem.get (c₁.add i)
  second : ∀ i < b, mem'.get ((r.add a).add i) = mem.get (c₂.add i)

theorem alloc_copies {c₁ c₂ : Pointer} {a b : Nat} (h₁ : ∀ i < a, (mem.get (c₁.add i)).isSome)
    (h₂ : ∀ i < b, (mem.get (c₂.add i)).isSome) :
    ∃ mem₁ mem₂, (mem.alloc (a + b)).copy mem.nextBlock c₁ a = some mem₁ ∧
      mem₁.copy (mem.nextBlock.add a) c₂ b = some mem₂ ∧ Copied mem mem₂ c₁ c₂ mem.nextBlock a b := by
  let r := mem.nextBlock
  have hnew : ∀ i < a + b, (mem.alloc (a + b)).get (r.add i) = some .unset := fun i hi => mem.get_alloc hi
  have hext := Extends.alloc mem (a + b)
  obtain ⟨bs₁, hcopy₁, hlen₁, hget₁⟩ := copy_eq (mem.alloc (a + b)) (p := r)
    (apart_of_fresh (Nat.le_refl _) rfl h₁) (fun i hi => by rw [hnew i (by omega)]; rfl)
    (fun i hi => by rw [hext.get_eq (h₁ i hi)]; exact h₁ i hi)
  have hext₁ : mem.Extends ((mem.alloc (a + b)).overwrite r bs₁) :=
    hext.overwrite rfl (Nat.le_refl _) bs₁
  obtain ⟨bs₂, hcopy₂, hlen₂, hget₂⟩ := copy_eq ((mem.alloc (a + b)).overwrite r bs₁)
    (p := r.add a) (apart_of_fresh (Nat.le_refl _) rfl h₂)
    (fun i hi => by
      rw [overwrite_get_isSome, Pointer.add_add, ← Int.natCast_add, hnew (a + i) (by omega)]
      rfl)
    (fun i hi => by rw [hext₁.get_eq (h₂ i hi)]; exact h₂ i hi)
  refine ⟨_, _, hcopy₁, hcopy₂, hext₁.overwrite rfl (Nat.le_refl _) bs₂, Nat.lt_succ_self _,
    fun i hi => ?_, fun i hi => ?_⟩
  · rw [get_overwrite_apart (.inr (.inl ?_)), hget₁ i hi, hext.get_eq (h₁ i hi)]
    show (0 : Int) + i < 0 + a
    omega
  · rw [hget₂ i hi, hext₁.get_eq (h₂ i hi)]

theorem Copied.extends {a b : Nat} (h : mem.Copied mem' c₁ c₂ r a b) (he : mem'.Extends mem'')
    (h₁ : ∀ i < a, (mem.get (c₁.add i)).isSome) (h₂ : ∀ i < b, (mem.get (c₂.add i)).isSome) :
    mem.Copied mem'' c₁ c₂ r a b where
  ext := h.ext.trans he
  next := Nat.lt_of_lt_of_le h.next he.next
  first i hi := by
    have hget := h.first i hi
    rw [he.get_eq (hget ▸ h₁ i hi), hget]
  second i hi := by
    have hget := h.second i hi
    rw [he.get_eq (hget ▸ h₂ i hi), hget]

theorem Copied.elements (hx : mem.MadeList s p c₁ xs) (hy : mem.MadeList s q c₂ ys)
    (h : mem.Copied mem' c₁ c₂ r (xs.length * s.elem.size) (ys.length * s.elem.size)) (hr : r.offset = 0)
    {i : Nat} {x : Datum} (hi : (xs ++ ys)[i]? = some x) :
    mem'.load s.elem (r.add (i * s.elem.size : Nat)) = some x := by
  rcases Nat.lt_or_ge i xs.length with hlt | hge
  · rw [List.getElem?_append_left hlt] at hi
    exact load_of_copied h.first (by rw [hr, Int.zero_emod]) hlt (hx.elements hi)
  · rw [List.getElem?_append_right hge] at hi
    have hlt := (List.getElem?_eq_some_iff.1 hi).1
    have hload := load_of_copied h.second (by simp [hr]) hlt (hy.elements hi)
    rwa [Pointer.add_add, ← Int.natCast_add, ← Nat.add_mul, Nat.add_sub_cancel' hge] at hload

theorem alloc_struct (mem : Memory) (ty : Ty) (c : Pointer) (n : BitVec 32) :
    ∃ mem₁ mem₂ mem₃, (mem.alloc 16).store (.ptr ty) (mem.nextBlock.add 0) (.pointer c) = some mem₁ ∧
      mem₁.store .i32 (mem.nextBlock.add 8) (.int 32 n) = some mem₂ ∧
      mem₂.store .i1 (mem.nextBlock.add 12) (.ofBool true) = some mem₃ ∧ mem.Extends mem₃ ∧
      mem₃.load (.ptr ty) mem.nextBlock = some (.pointer c) ∧
      mem₃.load .i32 (mem.nextBlock.add 8) = some (.int 32 n) ∧
      mem₃.load .i1 (mem.nextBlock.add 12) = some (.ofBool true) := by
  let r := mem.nextBlock
  let mem₀ := mem.alloc 16
  let mem₁ := mem₀.overwrite (r.add 0) ((Datum.pointer c).encode 8)
  let mem₂ := mem₁.overwrite (r.add 8) ((Datum.int 32 n).encode 4)
  let mem₃ := mem₂.overwrite (r.add 12) ((Datum.ofBool true).encode 1)
  have hroom₀ : ∀ i < (16 : Nat), (mem₀.get (r.add i)).isSome := fun i hi => by rw [mem.get_alloc hi]; rfl
  have hroom₁ : ∀ i < (16 : Nat), (mem₁.get (r.add i)).isSome := fun i hi =>
    overwrite_get_isSome.trans (hroom₀ i hi)
  have hroom₂ : ∀ i < (16 : Nat), (mem₂.get (r.add i)).isSome := fun i hi =>
    overwrite_get_isSome.trans (hroom₁ i hi)
  have hfield : ∀ {mem' : Memory}, (∀ i < (16 : Nat), (mem'.get (r.add i)).isSome) → ∀ {k size : Nat},
      k + size ≤ 16 → ∀ i < size, (mem'.get ((r.add k).add i)).isSome := by
    intro mem' h k size hle i hi
    rw [Pointer.add_add, ← Int.natCast_add]
    exact h (k + i) (by omega)
  have hcontent := hfield hroom₀ (k := 0) (show 0 + 8 ≤ 16 by decide)
  have hsize := hfield hroom₁ (k := 8) (show 8 + 4 ≤ 16 by decide)
  have hinit := hfield hroom₂ (k := 12) (show 12 + 1 ≤ 16 by decide)
  have hext : mem.Extends mem₃ := (((Extends.alloc mem 16).overwrite rfl (Nat.le_refl _) _).overwrite rfl
    (Nat.le_refl _) _).overwrite rfl (Nat.le_refl _) _
  refine ⟨mem₁, mem₂, mem₃, store_eq rfl rfl hcontent, store_eq rfl rfl hsize, store_eq rfl rfl hinit, hext,
    ?_, ?_, load_overwrite_same rfl rfl hinit⟩
  · rw [load_overwrite_apart (.inr (.inl (show (0 : Int) + 8 ≤ 0 + 12 by decide))),
      load_overwrite_apart (.inr (.inl (show (0 : Int) + 8 ≤ 0 + 8 by decide)))]
    exact load_overwrite_same rfl rfl hcontent
  · rw [load_overwrite_apart (.inr (.inl (show (0 : Int) + 8 + 4 ≤ 0 + 12 by decide)))]
    exact load_overwrite_same rfl rfl hsize

end ChocoCompiler.Ir.Memory
