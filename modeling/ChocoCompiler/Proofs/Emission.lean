import ChocoCompiler.Proofs.DottedNames
import ChocoCompiler.Proofs.IrTyping
import Mathlib.Data.Set.Insert
import Mathlib.Logic.Relation

/-!
# How a function comes about

A draft is a function under construction together with the names that are known wherever a block is entered.
`Step` lists the things that lowering and the library do to a draft, each with the conditions under which they
do it: an instruction is well typed and reads only names known at its place, a branch leads to blocks that ask
for no more than what is known, and labels and slots get names of a few shapes. Whatever every step keeps
holds of every function that came about by steps (`Emits.keeps`), so what is said of generated functions is
proved step by step.
-/

namespace ChocoCompiler.Ir

def tempName (n : Nat) : String := "t" ++ toString n

/-- What stands in front of the number in the labels of a construct. -/
def labelStems : List String :=
  ["then.", "else.", "exit.", "while.cond.", "while.body.", "while.exit.", "for.cond.", "for.body.",
    "for.inc.", "for.exit.", "and.rhs.", "and.exit.", "or.rhs.", "or.exit.", "ifexpr.then.",
    "ifexpr.else.", "ifexpr.exit."]

/-- The labels in the functions of the library. -/
def libraryLabels : List String := ["div.zero", "div.ok", "len.check", "len.ok", "len.none"]

/-- What the slots are asked for that do not hold variables. -/
def slotHints : List String := ["and.slot", "or.slot", "ifexpr", "for.idx"]

/-- The label of a block that some branch can lead to, when `n` numbers have been given out. -/
def IsLabel (n : Nat) (l : String) : Prop :=
  (∃ stem ∈ labelStems, ∃ k < n, l = stem ++ toString k) ∨ l ∈ libraryLabels

/-- The label of a block behind a finished one. -/
def deadLabel (n : Nat) : String := "dead." ++ toString n

theorem IsLabel.mono {m n : Nat} (hmn : m ≤ n) {l : String} (h : IsLabel m l) : IsLabel n l := by
  rcases h with ⟨stem, hstem, k, hk, rfl⟩ | h
  · exact .inl ⟨stem, hstem, k, by omega, rfl⟩
  · exact .inr h

theorem endsInDot_of_mem_labelStems : ∀ stem ∈ "dead." :: labelStems, EndsInDot stem := by decide

theorem not_endsInDigit_of_mem_libraryLabels :
    ∀ l ∈ "entry" :: libraryLabels, endsInDigit l = false := by decide

theorem numbered_ne {stem l : String} {n : Nat} (hstem : stem ∈ "dead." :: labelStems)
    (hl : IsLabel n l ∨ (∃ k < n, l = deadLabel k) ∨ l = "entry") : l ≠ stem ++ toString n := by
  rintro rfl
  rcases hl with (⟨stem', hstem', k, hk, he⟩ | hl) | ⟨k, hk, he⟩ | he
  · have := (numbered_inj (endsInDot_of_mem_labelStems _ hstem)
      (endsInDot_of_mem_labelStems _ (List.mem_cons_of_mem _ hstem')) he).2
    omega
  · have := not_endsInDigit_of_mem_libraryLabels _ (List.mem_cons_of_mem _ hl)
    rw [endsInDigit_numbered] at this
    exact absurd this (by decide)
  · have := (numbered_inj (endsInDot_of_mem_labelStems _ hstem)
      (endsInDot_of_mem_labelStems _ (List.mem_cons_self ..)) he).2
    omega
  · have := not_endsInDigit_of_mem_libraryLabels _ (List.mem_cons_self ..)
    rw [← he, endsInDigit_numbered] at this
    exact absurd this (by decide)

def Block.defs (b : Block) : List String := b.instrs.filterMap Instr.dst?

namespace Function

def labels (f : Function) : List String := f.blocks.map Block.label

/-- The local names that are known everywhere in a function. -/
def ambient (f : Function) : List String := f.params.map Prod.fst ++ f.slots.map Slot.name

end Function

namespace Builder

def append (b : Builder) (i : Instr) : Builder :=
  b.modifyBlock fun block => { block with instrs := block.instrs ++ [i] }

def close (b : Builder) (t : Terminator) : Builder :=
  b.modifyBlock fun block => { block with terminator := some t }

def openDead (b : Builder) : Builder :=
  { b with
    function := { b.function with blocks := b.function.blocks ++ [{ label := deadLabel b.nextLabel }] }
    current := b.function.blocks.length
    nextLabel := b.nextLabel + 1 }

def drawTemp (b : Builder) : Builder := { b with nextTemp := b.nextTemp + 1 }

end Builder

section Builder

variable (b : Builder) (i : Instr) (t : Terminator) (label hint : String) (ty : Ty)

theorem modifyBlock_blocks_getElem? (f : Block → Block) (j : Nat) :
    (b.modifyBlock f).function.blocks[j]? =
      b.function.blocks[j]?.map fun blk => if b.current = j then f blk else blk := by
  simp only [Builder.modifyBlock, List.getElem?_modify]
  rfl

theorem modifyBlock_labels {f : Block → Block} (hf : ∀ blk, (f blk).label = blk.label) :
    (b.modifyBlock f).function.labels = b.function.labels := by
  unfold Function.labels
  refine List.ext_getElem? fun j => ?_
  rw [List.getElem?_map, List.getElem?_map, modifyBlock_blocks_getElem?]
  cases b.function.blocks[j]? with
  | none => rfl
  | some blk => by_cases h : b.current = j <;> simp [h, hf]

@[simp] theorem append_labels : (b.append i).function.labels = b.function.labels :=
  modifyBlock_labels b fun _ => rfl

@[simp] theorem close_labels : (b.close t).function.labels = b.function.labels :=
  modifyBlock_labels b fun _ => rfl

@[simp] theorem openDead_labels :
    b.openDead.function.labels = b.function.labels ++ [deadLabel b.nextLabel] := by
  simp [Builder.openDead, Function.labels]

@[simp] theorem appendBlock_labels :
    (Build.appendBlock label b).2.function.labels = b.function.labels ++ [label] := by
  simp [Build.appendBlock, Function.labels]

@[simp] theorem alloca_labels :
    (Build.alloca hint ty b).2.function.labels = b.function.labels := rfl

end Builder

/-! ## Growth -/

/-- A block keeps its label and its instructions, and once it is closed it stays as it is. -/
structure Block.Grows (b b' : Block) : Prop where
  label : b'.label = b.label
  instrs : b.instrs <+: b'.instrs
  closed : b.terminator.isSome = true → b' = b

/-- A function keeps its signature, its slots and its blocks, and may get more of them. -/
structure Function.Grows (f g : Function) : Prop where
  name : g.name = f.name
  ret : g.ret = f.ret
  params : g.params = f.params
  slots : f.slots <+: g.slots
  blocks : ∀ {j : Nat} {b : Block}, f.blocks[j]? = some b → ∃ b', g.blocks[j]? = some b' ∧ b.Grows b'

theorem Block.Grows.refl (b : Block) : b.Grows b := ⟨rfl, List.prefix_rfl, fun _ => rfl⟩

theorem Block.Grows.trans {b₁ b₂ b₃ : Block} (h : b₁.Grows b₂) (h' : b₂.Grows b₃) : b₁.Grows b₃ := by
  refine ⟨h'.label.trans h.label, h.instrs.trans h'.instrs, fun ht => ?_⟩
  have he := h.closed ht
  subst he
  exact h'.closed ht

theorem Function.Grows.refl (f : Function) : f.Grows f :=
  ⟨rfl, rfl, rfl, List.prefix_rfl, fun hb => ⟨_, hb, .refl _⟩⟩

theorem Function.Grows.trans {f₁ f₂ f₃ : Function} (h : f₁.Grows f₂) (h' : f₂.Grows f₃) :
    f₁.Grows f₃ := by
  refine ⟨h'.name.trans h.name, h'.ret.trans h.ret, h'.params.trans h.params,
    h.slots.trans h'.slots, fun hb => ?_⟩
  obtain ⟨b₂, hb₂, hg⟩ := h.blocks hb
  obtain ⟨b₃, hb₃, hg'⟩ := h'.blocks hb₂
  exact ⟨b₃, hb₃, hg.trans hg'⟩

section Builder

variable {b : Builder}

theorem modifyBlock_grows {f : Block → Block} (hopen : b.isTerminated = false)
    (hlabel : ∀ blk, (f blk).label = blk.label)
    (hinstrs : ∀ blk : Block, blk.instrs <+: (f blk).instrs) :
    b.function.Grows (b.modifyBlock f).function := by
  refine ⟨rfl, rfl, rfl, List.prefix_rfl, fun {j blk} hb => ?_⟩
  rw [modifyBlock_blocks_getElem?, hb]
  refine ⟨_, rfl, ?_⟩
  dsimp only
  split_ifs with hj
  · refine ⟨hlabel blk, hinstrs blk, fun ht => ?_⟩
    rw [Builder.isTerminated, hj, hb] at hopen
    simp [ht] at hopen
  · exact .refl blk

theorem append_grows (hopen : b.isTerminated = false) (i : Instr) :
    b.function.Grows (b.append i).function :=
  modifyBlock_grows hopen (fun _ => rfl) fun _ => List.prefix_append _ _

theorem close_grows (hopen : b.isTerminated = false) (t : Terminator) :
    b.function.Grows (b.close t).function :=
  modifyBlock_grows hopen (fun _ => rfl) fun _ => List.prefix_rfl

theorem snocBlock_grows (f : Function) (blk : Block) :
    f.Grows { f with blocks := f.blocks ++ [blk] } := by
  refine ⟨rfl, rfl, rfl, List.prefix_rfl, fun {j b} hb => ⟨b, ?_, .refl b⟩⟩
  rw [List.getElem?_append_left (List.getElem?_eq_some_iff.1 hb).1, hb]

theorem alloca_grows (b : Builder) (hint : String) (ty : Ty) :
    b.function.Grows (Build.alloca hint ty b).2.function :=
  ⟨rfl, rfl, rfl, List.prefix_append _ _, fun hb => ⟨_, hb, .refl _⟩⟩

end Builder

theorem Block.Grows.defs {b b' : Block} (h : b.Grows b') {x : String} (hx : x ∈ b.defs) :
    x ∈ b'.defs := by
  obtain ⟨is, his⟩ := h.instrs
  unfold Block.defs at hx ⊢
  rw [← his, List.filterMap_append]
  exact List.mem_append_left _ hx

theorem Function.Grows.ambient {f g : Function} (h : f.Grows g) {x : String} (hx : x ∈ f.ambient) :
    x ∈ g.ambient := by
  obtain ⟨ss, hss⟩ := h.slots
  unfold Function.ambient at hx ⊢
  rw [h.params, ← hss, List.map_append]
  rcases List.mem_append.1 hx with hx | hx
  · exact List.mem_append_left _ hx
  · exact List.mem_append_right _ (List.mem_append_left _ hx)

theorem Function.Grows.label {f g : Function} (h : f.Grows g) {j : Nat} {l : String}
    (hl : f.labels[j]? = some l) : g.labels[j]? = some l := by
  unfold Function.labels at hl ⊢
  rw [List.getElem?_map] at hl ⊢
  obtain ⟨b, hb, rfl⟩ := Option.map_eq_some_iff.1 hl
  obtain ⟨b', hb', hg⟩ := h.blocks hb
  rw [hb', Option.map_some, hg.label]

/-! ## Drafts -/

/-- A function under construction, the names known on entry to each of its blocks, and the variables
that have slots. -/
structure Draft where
  builder : Builder
  known : List (Set String)
  vars : List String

namespace Draft

variable {d d' : Draft}

/-- The names known at the end of a block. -/
def namesAt (d : Draft) (i : Nat) : Set String :=
  {x | x ∈ d.builder.function.ambient ∨ (∃ K, d.known[i]? = some K ∧ x ∈ K) ∨
    ∃ b, d.builder.function.blocks[i]? = some b ∧ x ∈ b.defs}

/-- The names known where the next instruction goes. -/
def scope (d : Draft) : Set String := d.namesAt d.builder.current

/-- Whether a value can be read where the next instruction goes. -/
def Knows (d : Draft) (v : Value) : Prop := ∀ x, v.operand = .local x → x ∈ d.scope

/-- Whether a label is that of a block whose names are all known at the end of block `i`. -/
def Leads (d : Draft) (i : Nat) (l : String) : Prop :=
  IsLabel d.builder.nextLabel l ∧
    ∃ j K, 0 < j ∧ d.builder.function.labels[j]? = some l ∧ d.known[j]? = some K ∧ K ⊆ d.namesAt i

def start (name : String) (ret : Ty) (params : List (String × Ty)) : Draft :=
  ⟨.start name ret params, [∅], []⟩

/-- What lowering and the library do to a draft. -/
inductive Step : Draft → Draft → Prop where
  | number (d : Draft) :
    Step d { d with builder := { d.builder with nextLabel := d.builder.nextLabel + 1 } }
  | block (d : Draft) (label : String) (names : Set String)
    (hlabel : IsLabel d.builder.nextLabel label) (hfresh : label ∉ d.builder.function.labels) :
    Step d { d with
      builder := (Build.appendBlock label d.builder).2
      known := d.known ++ [names] }
  | dead (d : Draft) (hclosed : d.builder.isTerminated = true) :
    Step d { d with builder := d.builder.openDead, known := d.known ++ [Set.univ] }
  | move (d : Draft) (i : Nat) (hi : i < d.builder.function.blocks.length) :
    Step d { d with builder := { d.builder with current := i } }
  | define (d : Draft) (i : Instr) (hopen : d.builder.isTerminated = false)
    (hdst : i.dst? = some (tempName d.builder.nextTemp)) (htyped : i.isWellTyped = true)
    (hknown : ∀ v ∈ i.operands, d.Knows v) :
    Step d { d with builder := (d.builder.append i).drawTemp }
  | effect (d : Draft) (i : Instr) (hopen : d.builder.isTerminated = false)
    (hdst : i.dst? = none) (htyped : i.isWellTyped = true)
    (hknown : ∀ v ∈ i.operands, d.Knows v) :
    Step d { d with builder := d.builder.append i }
  | close (d : Draft) (t : Terminator) (hopen : d.builder.isTerminated = false)
    (htyped : t.isWellTyped d.builder.function.ret = true) (hknown : ∀ v ∈ t.operands, d.Knows v)
    (hleads : ∀ l ∈ t.successors, d.Leads d.builder.current l) :
    Step d { d with builder := d.builder.close t }
  | slot (d : Draft) (hint : String) (ty : Ty) (hhint : hint ∈ slotHints) :
    Step d { d with builder := (Build.alloca hint ty d.builder).2 }
  | varSlot (d : Draft) (x : String) (ty : Ty) :
    Step d { d with
      builder := (Build.alloca (x ++ ".addr") ty d.builder).2
      vars := d.vars ++ [x] }

def Emits : Draft → Draft → Prop := Relation.ReflTransGen Step

theorem Emits.refl (d : Draft) : Emits d d := Relation.ReflTransGen.refl

theorem Emits.trans {d₁ d₂ d₃ : Draft} (h : Emits d₁ d₂) (h' : Emits d₂ d₃) : Emits d₁ d₃ :=
  Relation.ReflTransGen.trans h h'

theorem Step.emits (h : Step d d') : Emits d d' := Relation.ReflTransGen.single h

/-- What every step keeps is kept all the way. -/
theorem Emits.keeps {P : Draft → Prop} (hstep : ∀ d d', Step d d' → P d → P d')
    (h : Emits d d') (hd : P d) : P d' := by
  induction h with
  | refl => exact hd
  | tail _ hs ih => exact hstep _ _ hs ih

theorem Step.grows (hs : Step d d') : d.builder.function.Grows d'.builder.function := by
  cases hs with
  | number => exact .refl _
  | block label => exact snocBlock_grows _ _
  | dead => exact snocBlock_grows _ _
  | move => exact .refl _
  | define i hopen => exact append_grows hopen i
  | effect i hopen => exact append_grows hopen i
  | close t hopen => exact close_grows hopen t
  | slot hint ty => exact alloca_grows _ hint ty
  | varSlot x ty => exact alloca_grows _ _ ty

theorem Emits.grows (h : Emits d d') : d.builder.function.Grows d'.builder.function :=
  h.keeps (P := fun e => d.builder.function.Grows e.builder.function)
    (fun _ _ hs hg => hg.trans hs.grows) (.refl _)

theorem Step.known_prefix (hs : Step d d') : d.known <+: d'.known := by
  cases hs <;> first | exact List.prefix_rfl | exact List.prefix_append _ _

theorem Step.nextLabel_le (hs : Step d d') : d.builder.nextLabel ≤ d'.builder.nextLabel := by
  cases hs <;> first | exact le_rfl | exact Nat.le_succ _

theorem known_getElem? (h : d.known <+: d'.known) {j : Nat} {K : Set String}
    (hK : d.known[j]? = some K) : d'.known[j]? = some K := by
  obtain ⟨Ks, hKs⟩ := h
  rw [← hKs, List.getElem?_append_left (List.getElem?_eq_some_iff.1 hK).1, hK]

theorem Step.namesAt (hs : Step d d') (j : Nat) : d.namesAt j ⊆ d'.namesAt j := by
  rintro x (hx | ⟨K, hK, hx⟩ | ⟨b, hb, hx⟩)
  · exact .inl (hs.grows.ambient hx)
  · exact .inr (.inl ⟨K, known_getElem? hs.known_prefix hK, hx⟩)
  · obtain ⟨b', hb', hg⟩ := hs.grows.blocks hb
    exact .inr (.inr ⟨b', hb', hg.defs hx⟩)

/-- The shape of a draft: where it stands, and which labels its blocks have. -/
structure Valid (d : Draft) : Prop where
  known_length : d.known.length = d.builder.function.labels.length
  current_lt : d.builder.current < d.builder.function.labels.length
  known_entry : d.known[0]? = some ∅
  labels_eq : ∃ ls, d.builder.function.labels = "entry" :: ls ∧
    ∀ l ∈ ls, IsLabel d.builder.nextLabel l ∨ ∃ k < d.builder.nextLabel, l = deadLabel k
  labels_nodup : d.builder.function.labels.Nodup

theorem start_valid (name : String) (ret : Ty) (params : List (String × Ty)) :
    (start name ret params).Valid where
  known_length := rfl
  current_lt := Nat.zero_lt_one
  known_entry := rfl
  labels_eq := ⟨[], rfl, by simp⟩
  labels_nodup := by simp [start, Builder.start, Function.labels]

theorem Valid.label_shape (h : d.Valid) {l : String} (hl : l ∈ d.builder.function.labels) :
    IsLabel d.builder.nextLabel l ∨ (∃ k < d.builder.nextLabel, l = deadLabel k) ∨ l = "entry" := by
  obtain ⟨ls, he, hs⟩ := h.labels_eq
  rw [he] at hl
  rcases List.mem_cons.1 hl with rfl | hl
  · exact .inr (.inr rfl)
  · exact (hs l hl).imp_right .inl

theorem Valid.numbered_fresh (h : d.Valid) {stem : String} (hstem : stem ∈ "dead." :: labelStems) :
    stem ++ toString d.builder.nextLabel ∉ d.builder.function.labels :=
  fun hl => numbered_ne hstem (h.label_shape hl) rfl

theorem Valid.labels_snoc (h : d.Valid) {n : Nat} (hn : d.builder.nextLabel ≤ n) {label : String}
    (hlabel : IsLabel n label ∨ ∃ k < n, label = deadLabel k) :
    ∃ ls, d.builder.function.labels ++ [label] = "entry" :: ls ∧
      ∀ l ∈ ls, IsLabel n l ∨ ∃ k < n, l = deadLabel k := by
  obtain ⟨ls, he, hs⟩ := h.labels_eq
  refine ⟨ls ++ [label], by rw [he]; rfl, fun l hl => ?_⟩
  rcases List.mem_append.1 hl with hl | hl
  · rcases hs l hl with hl | ⟨k, hk, rfl⟩
    · exact .inl (hl.mono hn)
    · exact .inr ⟨k, by omega, rfl⟩
  · rw [List.mem_singleton.1 hl]
    exact hlabel

theorem Step.valid (hs : Step d d') (h : d.Valid) : d'.Valid := by
  cases hs with
  | number =>
    refine ⟨h.known_length, h.current_lt, h.known_entry, ?_, h.labels_nodup⟩
    obtain ⟨ls, he, hl⟩ := h.labels_eq
    refine ⟨ls, he, fun l hm => ?_⟩
    rcases hl l hm with hl | ⟨k, hk, rfl⟩
    · exact .inl (hl.mono (Nat.le_succ _))
    · exact .inr ⟨k, Nat.lt_succ_of_lt hk, rfl⟩
  | block label names hlabel hfresh =>
    refine ⟨?_, ?_, ?_, ?_, ?_⟩
    · simp [h.known_length]
    · rw [appendBlock_labels, List.length_append]
      exact Nat.lt_add_right _ h.current_lt
    · simp only []
      rw [List.getElem?_append_left (by rw [h.known_length]; exact Nat.zero_lt_of_lt h.current_lt)]
      exact h.known_entry
    · rw [appendBlock_labels]
      exact h.labels_snoc le_rfl (.inl hlabel)
    · rw [appendBlock_labels]
      exact List.nodup_append.2 ⟨h.labels_nodup, by simp, by
        intro a ha b hb
        rw [List.mem_singleton.1 hb]
        rintro rfl
        exact hfresh ha⟩
  | dead hclosed =>
    refine ⟨?_, ?_, ?_, ?_, ?_⟩
    · simp [h.known_length]
    · rw [openDead_labels]
      simp [Builder.openDead, Function.labels]
    · simp only []
      rw [List.getElem?_append_left (by rw [h.known_length]; exact Nat.zero_lt_of_lt h.current_lt)]
      exact h.known_entry
    · rw [openDead_labels]
      exact h.labels_snoc (Nat.le_succ _) (.inr ⟨_, Nat.lt_succ_self _, rfl⟩)
    · rw [openDead_labels]
      exact List.nodup_append.2 ⟨h.labels_nodup, by simp, by
        intro a ha b hb
        rw [List.mem_singleton.1 hb]
        rintro rfl
        exact h.numbered_fresh (List.mem_cons_self ..) ha⟩
  | move i hi =>
    exact ⟨h.known_length, by simpa [Function.labels] using hi, h.known_entry, h.labels_eq,
      h.labels_nodup⟩
  | define i =>
    have hl : (d.builder.append i).drawTemp.function.labels = d.builder.function.labels := append_labels _ i
    exact ⟨by rw [hl]; exact h.known_length, by rw [hl]; exact h.current_lt, h.known_entry,
      by rw [hl]; exact h.labels_eq, by rw [hl]; exact h.labels_nodup⟩
  | effect i =>
    exact ⟨by rw [append_labels]; exact h.known_length, by rw [append_labels]; exact h.current_lt,
      h.known_entry, by rw [append_labels]; exact h.labels_eq,
      by rw [append_labels]; exact h.labels_nodup⟩
  | close t =>
    exact ⟨by rw [close_labels]; exact h.known_length, by rw [close_labels]; exact h.current_lt,
      h.known_entry, by rw [close_labels]; exact h.labels_eq,
      by rw [close_labels]; exact h.labels_nodup⟩
  | slot => exact ⟨h.known_length, h.current_lt, h.known_entry, h.labels_eq, h.labels_nodup⟩
  | varSlot => exact ⟨h.known_length, h.current_lt, h.known_entry, h.labels_eq, h.labels_nodup⟩

theorem Emits.valid (he : Emits d d') (h : d.Valid) : d'.Valid :=
  he.keeps (fun _ _ hs => hs.valid) h

end Draft

end ChocoCompiler.Ir
