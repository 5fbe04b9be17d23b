import ChocoCompiler.Lowering.Program
import ChocoCompiler.Proofs.LibraryRuns

/-!
# The module that lowering starts from

Emitting texts and functions only adds to a module (`Module.Grows`), so what is found in a module is
found in whatever it becomes. A program is lowered into a module that declares the C functions and
has the functions of the library, each with the signature it is called by.
-/

namespace ChocoCompiler

open Ir

/-! ## Growing modules -/

namespace Ir

/-- Functions and globals have been added to a module, behind those it had. -/
structure Module.Grows (m m' : Module) : Prop where
  functions : m.functions <+: m'.functions
  globals : m.globals <+: m'.globals
  declarations : m'.declarations = m.declarations

namespace Module.Grows

variable {m m' m'' : Module}

theorem refl (m : Module) : m.Grows m := ⟨List.prefix_rfl, List.prefix_rfl, rfl⟩

theorem trans (h : m.Grows m') (h' : m'.Grows m'') : m.Grows m'' :=
  ⟨h.functions.trans h'.functions, h.globals.trans h'.globals,
    h'.declarations.trans h.declarations⟩

theorem function? (h : m.Grows m') {x : String} {f : Function} (hf : m.function? x = some f) :
    m'.function? x = some f :=
  h.functions.find?_eq_some hf

theorem text? (h : m.Grows m') {x text : String} (hx : m.text? x = some text) :
    m'.text? x = some text := by
  cases hg : m.globals.find? (·.name == x) with
  | none => simp [Module.text?, hg] at hx
  | some g => rw [← hx, Module.text?, Module.text?, h.globals.find?_eq_some hg, hg]

theorem initial (h : m.Grows m') {x : String} {w : Word} (hx : m.initial x = some w) :
    m'.initial x = some w := by
  cases hg : m.globals.find? (·.name == x) with
  | none => simp [Module.initial, hg] at hx
  | some g => rw [← hx, Module.initial, Module.initial, h.globals.find?_eq_some hg, hg]

theorem hasLibrary (h : m.Grows m') (hm : Machine.HasLibrary m) : Machine.HasLibrary m' := by
  obtain ⟨message, hf, ht⟩ := hm.floordiv
  exact ⟨h.function? hm.newint, h.function? hm.newbool, message, h.function? hf, h.text? ht⟩

theorem addFunction (m : Module) (f : Function) : m.Grows (m.addFunction f) :=
  ⟨List.prefix_append .., List.prefix_rfl, rfl⟩

theorem addText (m : Module) (s : String) : m.Grows (m.addText s).2 := by
  unfold Module.addText
  split
  · exact .refl m
  · exact ⟨List.prefix_rfl, List.prefix_append .., rfl⟩

theorem addType (m : Module) (name : String) (fields : Option (List Ty)) :
    m.Grows (m.addType name fields) :=
  ⟨List.prefix_rfl, List.prefix_rfl, rfl⟩

theorem foldl {α : Type} {f : Module → α → Module} (hf : ∀ (m : Module) a, m.Grows (f m a))
    (m : Module) (as : List α) : m.Grows (as.foldl f m) :=
  List.foldlRecOn as f (.refl m) fun _ h a _ => h.trans (hf _ a)

end Module.Grows

end Ir

def Ir.textName (n : Nat) : String := ".str." ++ toString n

theorem Ir.Module.addText_cases (m : Module) (s : String) :
    (∃ g ∈ m.texts, g.init = .bytes s ∧ m.addText s = (.global g.name (.ptr .i8), m)) ∨
      (∀ g ∈ m.texts, g.init ≠ .bytes s) ∧ m.addText s = (.global (textName m.texts.length) (.ptr .i8),
        { m with globals := m.globals ++ [⟨textName m.texts.length, true, .bytes s⟩] }) := by
  unfold Module.addText
  split
  · rename_i g hg
    exact .inl ⟨g, List.mem_of_find?_eq_some hg, by simpa using List.find?_some hg, rfl⟩
  · rename_i hnone
    rw [List.find?_eq_none] at hnone
    exact .inr ⟨fun g hg => by simpa using hnone g hg, rfl⟩

namespace Library

variable {α β : Type}

/-! ## Properties of modules that are kept -/

/-- The action keeps a property of the module. -/
def Keeps (P : Module → Prop) (x : Emit α) : Prop := ∀ m, P m → P (x m).2

section Keeps

variable {P : Module → Prop}

theorem Keeps.bind {x : Emit α} {f : α → Emit β} (hx : Keeps P x) (hf : ∀ a, Keeps P (f a)) :
    Keeps P (x >>= f) :=
  fun m hm => hf _ _ (hx m hm)

theorem Keeps.forM {x : α → Emit Unit} (h : ∀ a, Keeps P (x a)) :
    ∀ as : List α, Keeps P (as.forM x)
  | [] => fun _ hm => hm
  | a :: as => (h a).bind fun _ => Keeps.forM h as

variable (htext : ∀ s, Keeps P (text s)) (hemit : ∀ f, Keeps P (emit f))
include htext hemit

theorem emitAll_keeps (n : Nat) : Keeps P (emitAll n) :=
  (htext _).bind fun _ => (hemit _).bind fun _ => (htext _).bind fun _ => (htext _).bind fun _ =>
  (htext _).bind fun _ => (hemit _).bind fun _ => (hemit _).bind fun _ => (htext _).bind fun _ =>
  (hemit _).bind fun _ => (hemit _).bind fun _ => (hemit _).bind fun _ => (htext _).bind fun _ =>
  (hemit _).bind fun _ => (hemit _).bind fun _ => (hemit _).bind fun _ => hemit _

theorem emitList_keeps (s : ListShape) : Keeps P (emitList s) :=
  (htext _).bind fun _ => (hemit _).bind fun _ => (hemit _).bind fun _ => hemit _

end Keeps

theorem text_grows (m₀ : Module) (s : String) : Keeps m₀.Grows (text s) :=
  fun m h => h.trans (.addText m s)

theorem emit_grows (m₀ : Module) (f : Function) : Keeps m₀.Grows (emit f) :=
  fun m h => h.trans (.addFunction m f)

/-! ## Signatures -/

/-- The functions that the action adds have the given signatures. -/
def Brings (x : Emit α) (cs : List Callee) : Prop :=
  ∀ m, (x m).2.functions.map Function.callee = m.functions.map Function.callee ++ cs

namespace Brings

variable {cs cs' : List Callee}

theorem bind {x : Emit α} {f : α → Emit β} (hx : Brings x cs) (hf : ∀ a, Brings (f a) cs') :
    Brings (x >>= f) (cs ++ cs') := by
  intro m
  rw [← List.append_assoc, ← hx m]
  exact hf (x m).1 (x m).2

theorem text (s : String) : Brings (text s) [] := by
  intro m
  rw [Library.text, List.append_nil]
  rcases m.addText_cases s with ⟨g, -, -, h⟩ | ⟨-, h⟩ <;> rw [h]

theorem emit {f : Function} {c : Callee} (hf : f.callee = c) : Brings (emit f) [c] := by
  intro m
  simp [Library.emit, Module.addFunction, hf]

theorem forM {x : α → Emit Unit} {cs : α → List Callee} (h : ∀ a, Brings (x a) (cs a)) :
    ∀ as : List α, Brings (as.forM x) (as.flatMap cs)
  | [] => fun _ => (List.append_nil _).symm
  | a :: as => (h a).bind fun _ => forM h as

end Brings

def listCallees (s : ListShape) : List Callee := [listLen s, listElemptr s, listConcat s]

theorem emitList_brings (s : ListShape) : Brings (emitList s) (listCallees s) :=
  .bind (.text _) fun _ => .bind (.emit rfl) fun _ => .bind (.emit rfl) fun _ => .emit rfl

theorem emitAll_brings (n : Nat) : Brings (emitAll n) all :=
  .bind (.text _) fun _ => .bind (.emit rfl) fun _ => .bind (.text _) fun _ =>
  .bind (.text _) fun _ => .bind (.text _) fun _ => .bind (.emit rfl) fun _ =>
  .bind (.emit rfl) fun _ => .bind (.text _) fun _ => .bind (.emit rfl) fun _ =>
  .bind (.emit rfl) fun _ => .bind (.emit rfl) fun _ => .bind (.text _) fun _ =>
  .bind (.emit rfl) fun _ => .bind (.emit rfl) fun _ => .bind (.emit rfl) fun _ => .emit rfl

end Library

/-! ## The start and the end of lowering -/

section Start

variable (options : Options) (p : Program TypedTag)

theorem start_module : (Lower.start options p).module =
    (Library.emitAll options.bufferLength { declarations := Extern.all }).2 := rfl

theorem start_callees : (Lower.start options p).module.functions.map Function.callee = Library.all := by
  rw [start_module, Library.emitAll_brings]
  rfl

theorem start_declarations : (Lower.start options p).module.declarations = Extern.all := by
  have hgrows := Library.emitAll_keeps (Library.text_grows _) (Library.emit_grows _)
    options.bufferLength { declarations := Extern.all } (.refl _)
  exact hgrows.declarations

theorem start_texts : ∀ g ∈ (Lower.start options p).module.globals, ∃ n, g.name = textName n := by
  refine Library.emitAll_keeps (P := fun m => ∀ g ∈ m.globals, ∃ n, g.name = textName n) ?_
    (fun _ _ hm => hm) options.bufferLength { declarations := Extern.all } (by simp)
  intro s m hm
  rw [Library.text]
  rcases m.addText_cases s with ⟨g, -, -, h⟩ | ⟨-, h⟩
  · rw [h]
    exact hm
  · rw [h]
    intro g hg
    rcases List.mem_append.1 hg with hg | hg
    · exact hm g hg
    · rw [List.mem_singleton.1 hg]
      exact ⟨_, rfl⟩

theorem Library.bind_apply {α β : Type} (x : Library.Emit α) (f : α → Library.Emit β) (m : Module) :
    (x >>= f) m = f (x m).1 (x m).2 := rfl

theorem Library.emit_apply (f : Function) (m : Module) : (Library.emit f m).2 = m.addFunction f := rfl

theorem Library.text_apply (t : String) (m : Module) : Library.text t m = m.addText t := rfl

theorem start_hasLibrary : Machine.HasLibrary (Lower.start options p).module := by
  -- The texts and functions up to `newbool`; the text after them depends on the options.
  rw [start_module]
  simp only [Library.emitAll, Library.bind_apply, Library.emit_apply, Library.text_apply]
  refine (((((Module.Grows.addText _ _).trans (.addFunction _ _)).trans (.addFunction _ _)).trans
    (.addFunction _ _)).trans (.addFunction _ _)).hasLibrary ⟨?_, ?_, ".str.4", ?_, ?_⟩
  · decide +kernel
  · decide +kernel
  · decide +kernel
  · decide +kernel

theorem start_no_main : (Lower.start options p).module.function? "main" = none := by
  have hnames : ∀ c ∈ Library.all, c.name ≠ "main" := by decide
  rw [Module.function?, List.find?_eq_none]
  intro f hf hname
  have hmem : f.callee ∈ Library.all := by
    rw [← start_callees options p]
    exact List.mem_map_of_mem hf
  exact hnames _ hmem (eq_of_beq hname)

end Start

/-- What is added to a module at the end: the main function, the functions for list shapes, types. -/
theorem finish_grows (s : LowerState) :
    (s.module.addFunction s.builder.finish).Grows (Lower.finish s) := by
  have hlists := Library.Keeps.forM (Library.emitList_keeps (Library.text_grows _)
    (Library.emit_grows _)) s.shapes.all (s.module.addFunction s.builder.finish) (.refl _)
  refine hlists.trans ?_
  exact (Module.Grows.foldl (fun m _ => .addType m _ _) _ _).trans
    (.foldl (fun m _ => .addType m _ _) _ _)

theorem finish_main {s : LowerState} (hnone : s.module.function? "main" = none)
    (hname : s.builder.function.name = "main") :
    (Lower.finish s).function? "main" = some s.builder.finish := by
  refine (finish_grows s).function? ?_
  have hfinish : s.builder.finish.name = "main" := hname
  rw [Module.function?] at hnone ⊢
  rw [Module.addFunction, List.find?_append, hnone, Option.none_or, List.find?_cons, hfinish]
  rfl

end ChocoCompiler
