import ChocoCompiler.Proofs.CheckedMeaning
import ChocoCompiler.Proofs.ControlFlow
import ChocoCompiler.Proofs.LibraryModule
import ChocoCompiler.Proofs.ProgramGrammar
import ChocoCompiler.Proofs.ScalarStatements
import ChocoCompiler.Proofs.StoredNames

/-!
# Modules of scalar programs

A scalar program has a module, and a machine that runs its main function does what the program means
(`lowerProgram_runsAs`).
-/

namespace ChocoCompiler

open Ir

/-! ## Variables become globals -/

/-- The constant that a literal of type `int` or `bool` is stored as. -/
def Literal.constant? : Literal → Option Value
  | .int n => some (.i32 n)
  | .bool b => some (.bool b)
  | _ => Option.none

/-- The variable that a definition makes and the constant it starts with. -/
def Definition.constant? {τ : Type} : Definition τ → Option (String × Value)
  | .var d => d.value.constant?.map (d.var.name.name, ·)
  | .func _ => none

/-- The global that a variable becomes. -/
def variableGlobal (v : String × Value) : Global := ⟨storedName v.1, false, .value v.2⟩

/-- The state once variables have become globals. -/
def LowerState.withVariables (s : LowerState) (vs : List (String × Value)) : LowerState :=
  { s with
    module := { s.module with globals := s.module.globals ++ vs.map variableGlobal }
    globals := (vs.map fun v => (v.1, ⟨v.2.ty, .global (storedName v.1)⟩)).reverse ++ s.globals }

theorem withVariables_append (s : LowerState) (vs vs' : List (String × Value)) :
    (s.withVariables vs).withVariables vs' = s.withVariables (vs ++ vs') := by
  simp [LowerState.withVariables]

theorem withVariables_grows (s : LowerState) (vs : List (String × Value)) :
    s.module.Grows (s.withVariables vs).module :=
  ⟨List.prefix_rfl, List.prefix_append .., rfl⟩

theorem withVariables_function? (s : LowerState) (vs : List (String × Value)) (x : String) :
    (s.withVariables vs).module.function? x = s.module.function? x := rfl

theorem Literal.constant_of_isAssignable {l : Literal} {t : ValueType} (ht : t.isScalar = true)
    (h : (ValueType.ofLiteral l).isAssignable t = true) :
    ∃ a v, l.scalar? = some a ∧ l.constant? = some v ∧ a.type = t ∧ t.StoredAs v.ty ∧
      v.word? (fun _ => Option.none) = some a.word := by
  have hl : (ValueType.ofLiteral l).isScalar = true := by
    cases l <;> cases t <;> cases ht <;> first | rfl | cases h
  obtain rfl := isAssignable_scalar hl ht h
  cases l with
  | int n => exact ⟨_, _, rfl, rfl, rfl, rfl, rfl⟩
  | bool b => exact ⟨_, _, rfl, rfl, rfl, rfl, by cases b <;> rfl⟩
  | none => cases hl
  | str s => cases hl

theorem global_run {d : VarDef TypedTag} (s : LowerState)
    (ht : (ValueType.ofSyntax d.var.type).isScalar = true)
    (h : (ValueType.ofLiteral d.value).isAssignable (.ofSyntax d.var.type) = true) {v : Value}
    (hv : d.value.constant? = some v) :
    Lower.global d s = .ok () (s.withVariables [(d.var.name.name, v)]) := by
  have hl : (ValueType.ofLiteral d.value).isScalar = true := by
    cases hd : d.value <;> rw [hd] at hv <;> first | rfl | cases hv
  have htype := isAssignable_scalar hl ht h
  unfold Lower.global
  cases hd : d.value with
  | int n =>
    rw [hd] at hv htype
    cases hv
    rw [htype]
    rfl
  | bool b =>
    rw [hd] at hv htype
    cases hv
    rw [htype]
    rfl
  | none => rw [hd] at hv; cases hv
  | str t => rw [hd] at hv; cases hv

theorem definitions_run : ∀ (ds : List (Definition TypedTag)) (s : LowerState),
    (∀ d ∈ ds, d.isScalar = true) →
    (∀ d, .var d ∈ ds → (ValueType.ofLiteral d.value).isAssignable (.ofSyntax d.var.type) = true) →
      ds.forM Lower.definition s = .ok () (s.withVariables (ds.filterMap Definition.constant?))
  | [], s, _, _ => by simp [LowerState.withVariables]; rfl
  | .func f :: ds, s, hs, _ => by cases hs _ (List.mem_cons_self ..)
  | .var d :: ds, s, hs, ha => by
    obtain ⟨hd, hs⟩ := List.forall_mem_cons.1 hs
    have had := ha d (List.mem_cons_self ..)
    obtain ⟨a, v, -, hv, -⟩ := Literal.constant_of_isAssignable hd had
    have hrest := definitions_run ds (s.withVariables [(d.var.name.name, v)]) hs
      fun d' hd' => ha d' (List.mem_cons_of_mem _ hd')
    rw [withVariables_append] at hrest
    rw [List.filterMap_cons, Definition.constant?, hv]
    exact run_bind_eq_ok.2 ⟨(), _, global_run s hd had hv, hrest⟩

/-! ## Where they are found -/

theorem find?_variableGlobal {vs : List (String × Value)} {x : String} {v : Value}
    (hn : (vs.map Prod.fst).Nodup) (hw : ∀ u ∈ vs, IsWord u.1) (h : (x, v) ∈ vs) :
    (vs.map variableGlobal).find? (·.name == storedName x) = some (variableGlobal (x, v)) := by
  induction vs with
  | nil => cases h
  | cons u us ih =>
    rw [List.map_cons, List.nodup_cons] at hn
    obtain ⟨hu, hw⟩ := List.forall_mem_cons.1 hw
    rw [List.map_cons, List.find?_cons]
    rcases List.mem_cons.1 h with rfl | h
    · simp [variableGlobal]
    · have hne : storedName u.1 ≠ storedName x := by
        intro he
        rw [storedName_inj hu (hw _ h) he] at hn
        exact hn.1 (List.mem_map_of_mem h)
      rw [show ((variableGlobal u).name == storedName x) = false by simpa [variableGlobal] using hne]
      exact ih hn.2 hw h

variable {vs : List (String × Value)} {x : String} {v : Value}

theorem initial_withVariables {s : LowerState} (hs : ∀ g ∈ s.module.globals, ∃ n, g.name = textName n)
    (hn : (vs.map Prod.fst).Nodup) (hw : ∀ u ∈ vs, IsWord u.1) (h : (x, v) ∈ vs) :
    (s.withVariables vs).module.initial (storedName x) = v.word? fun _ => none := by
  have hnone : s.module.globals.find? (·.name == storedName x) = none := by
    rw [List.find?_eq_none]
    intro g hg hname
    obtain ⟨n, hgn⟩ := hs g hg
    refine storedName_ne_numbered (y := textName n) (hw _ h) ?_ (endsInDigit_numbered _ _) ?_
    · simp [textName]
    · rw [← hgn]
      exact (eq_of_beq hname).symm
  unfold Module.initial LowerState.withVariables
  rw [List.find?_append, hnone, Option.none_or, find?_variableGlobal hn hw h]
  rfl

theorem lookup_withVariables {s : LowerState} (hs : s.globals = []) (hn : (vs.map Prod.fst).Nodup)
    (h : (x, v) ∈ vs) :
    (s.withVariables vs).globals.lookup x = some ⟨v.ty, .global (storedName x)⟩ := by
  unfold LowerState.withVariables
  rw [hs, List.append_nil]
  refine lookup_of_mem ?_ ?_
  · simpa [List.map_reverse, List.nodup_reverse, Function.comp_def] using hn
  · rw [List.mem_reverse, List.mem_map]
    exact ⟨_, h, rfl⟩

/-! ## Machines and programs -/

/-- The state that an evaluation has led to. -/
def resultWorld {α : Type} : EStateM.Result Halt World α → World
  | .ok _ w => w
  | .error _ w => w

/-- A machine runs as a program does. It comes to its end in the same way and only if the program does,
with the same events and the same values of all variables, and it never gets stuck. While it runs, it
shows the events of the program, those of a program without end included. -/
structure RunsAs (m : Module) (s : Machine) (p : Program Tag) : Prop where
  returned_iff : (∃ k, (Machine.run m k s).status = .returned) ↔ ∃ n w, p.exec n = .ok () w
  exited_iff : (∃ k, (Machine.run m k s).status = .exited) ↔ ∃ n w, p.exec n = .error .exited w
  returned : ∀ {k n w}, (Machine.run m k s).status = .returned → p.exec n = .ok () w →
    (Machine.run m k s).events = w.events ∧ ∀ x ∈ p.variables.map Prod.fst, ∃ a,
      w.store x = some a ∧ (Machine.run m k s).memory (.global (storedName x)) = some a.word
  exited : ∀ {k n w}, (Machine.run m k s).status = .exited → p.exec n = .error .exited w →
    (Machine.run m k s).events = w.events
  not_stuck : (∀ k, (Machine.run m k s).status ≠ .stuck) ∧ ∀ n w, p.exec n ≠ .error .stuck w
  events_of_program : ∀ n, ∃ k, (Machine.run m k s).events = (resultWorld (p.exec n)).events
  events_of_machine : ∀ k, ∃ n, (Machine.run m k s).events <+: (resultWorld (p.exec n)).events

/-- The main function has returned, and the globals hold what the variables of the program are. -/
structure Finished (xs : List String) (_ : Unit) (w : World) (s : Machine) : Prop where
  status : s.status = .returned
  events : s.events = w.events
  var : ∀ x ∈ xs, ∃ a, w.store x = some a ∧ s.memory (.global (storedName x)) = some a.word

section Follows

variable {m : Module} {s : Machine} {k j : Nat}

theorem Ir.Machine.run_eq_of_le (hk : (Machine.run m k s).status ≠ .running) (hkj : k ≤ j) :
    Machine.run m j s = Machine.run m k s := by
  obtain ⟨i, rfl⟩ := Nat.exists_eq_add_of_le hkj
  rw [Machine.run_add, Machine.run_of_ended hk]

theorem Ir.Machine.run_events_of_le (hkj : k ≤ j) :
    (Machine.run m k s).events <+: (Machine.run m j s).events := by
  obtain ⟨i, rfl⟩ := Nat.exists_eq_add_of_le hkj
  rw [Machine.run_add]
  exact Machine.run_events i _

theorem Ir.Machine.run_eq_of_ended (hk : (Machine.run m k s).status ≠ .running)
    (hj : (Machine.run m j s).status ≠ .running) : Machine.run m k s = Machine.run m j s := by
  rcases Nat.le_total k j with h | h
  · exact (Machine.run_eq_of_le hk h).symm
  · exact Machine.run_eq_of_le hj h

/-- The machine has got as far as the evaluation, and not less than `n` steps unless both have come to
their end. -/
theorem Follows.reaches {xs : List String} {n : Nat} {r : EStateM.Result Halt World Unit}
    (h : Follows m n s r (Finished xs)) : ∃ k, (Machine.run m k s).events = (resultWorld r).events ∧
      ((∃ w, r = .ok () w ∧ Finished xs () w (Machine.run m k s)) ∨
        (∃ w, r = .error .exited w ∧ (Machine.run m k s).status = .exited) ∨
        ∃ w, r = .error .exhausted w ∧ n ≤ k ∧ (Machine.run m k s).status = .running) := by
  obtain ⟨k, h⟩ := h
  cases r with
  | ok a w => exact ⟨k, h.events, .inl ⟨w, rfl, h⟩⟩
  | error e w =>
    cases e with
    | exited => exact ⟨k, h.2, .inr (.inl ⟨w, rfl, h.1⟩)⟩
    | exhausted => exact ⟨k, h.2.2, .inr (.inr ⟨w, rfl, h.1, h.2.1⟩)⟩
    | stuck => exact h.elim

variable {p : Program Tag}

/-- A machine that has come to its end within `k` steps does so because the program does. -/
theorem ended_of_follows (h : ∀ n, Follows m n s (p.exec n) (Finished (p.variables.map Prod.fst)))
    (hk : (Machine.run m k s).status ≠ .running) :
    (∃ n w, p.exec n = .ok () w ∧ (Machine.run m k s).status = .returned) ∨
      ∃ n w, p.exec n = .error .exited w ∧ (Machine.run m k s).status = .exited := by
  obtain ⟨j, -, ⟨w, hw, hj⟩ | ⟨w, hw, hj⟩ | ⟨w, -, hle, hj⟩⟩ := (h (k + 1)).reaches
  · rw [Machine.run_eq_of_ended (j := j) hk (by simp [hj.status])]
    exact .inl ⟨_, w, hw, hj.status⟩
  · rw [Machine.run_eq_of_ended (j := j) hk (by simp [hj])]
    exact .inr ⟨_, w, hw, hj⟩
  · rw [Machine.run_eq_of_le hk (by omega)] at hj
    exact absurd hj hk

/-- A machine that follows the evaluations with any number of rounds runs as the program does. -/
theorem RunsAs.of_follows
    (h : ∀ n, Follows m n s (p.exec n) (Finished (p.variables.map Prod.fst))) : RunsAs m s p where
  returned_iff := by
    constructor
    · rintro ⟨k, hk⟩
      rcases ended_of_follows h (k := k) (by simp [hk]) with ⟨n, w, hw, -⟩ | ⟨n, w, -, he⟩
      · exact ⟨n, w, hw⟩
      · rw [hk] at he
        cases he
    · rintro ⟨n, w, hw⟩
      obtain ⟨k, hk⟩ := h n
      rw [hw] at hk
      exact ⟨k, hk.status⟩
  exited_iff := by
    constructor
    · rintro ⟨k, hk⟩
      rcases ended_of_follows h (k := k) (by simp [hk]) with ⟨n, w, -, he⟩ | ⟨n, w, hw, -⟩
      · rw [hk] at he
        cases he
      · exact ⟨n, w, hw⟩
    · rintro ⟨n, w, hw⟩
      obtain ⟨k, hk⟩ := h n
      rw [hw] at hk
      exact ⟨k, hk.1⟩
  returned {k n w} hk hw := by
    obtain ⟨j, hj⟩ := h n
    rw [hw] at hj
    rw [Machine.run_eq_of_ended (k := k) (j := j) (by simp [hk]) (by simp [hj.status])]
    exact ⟨hj.events, hj.var⟩
  exited {k n w} hk hw := by
    obtain ⟨j, hj⟩ := h n
    rw [hw] at hj
    rw [Machine.run_eq_of_ended (k := k) (j := j) (by simp [hk]) (by simp [hj.1])]
    exact hj.2
  not_stuck := by
    refine ⟨fun k hk => ?_, fun n w hw => ?_⟩
    · rcases ended_of_follows h (k := k) (by simp [hk]) with ⟨n, w, -, he⟩ | ⟨n, w, -, he⟩ <;>
        · rw [hk] at he
          cases he
    · obtain ⟨j, hj⟩ := h n
      rw [hw] at hj
      exact hj
  events_of_program n := by
    obtain ⟨k, hk, -⟩ := (h n).reaches
    exact ⟨k, hk⟩
  events_of_machine k := by
    refine ⟨k, ?_⟩
    obtain ⟨j, he, hj⟩ := (h k).reaches
    rw [← he]
    rcases Nat.le_total k j with hkj | hjk
    · exact Machine.run_events_of_le hkj
    · have hended : (Machine.run m j s).status ≠ .running →
          (Machine.run m k s).events <+: (Machine.run m j s).events := by
        intro hj
        have hrun := Machine.run_eq_of_le hj hjk
        exact hrun ▸ List.prefix_rfl
      rcases hj with ⟨w, -, hj⟩ | ⟨w, -, hj⟩ | ⟨w, -, hle, -⟩
      · exact hended (by simp [hj.status])
      · exact hended (by simp [hj])
      · exact Machine.run_events_of_le hle

end Follows

/-! ## Scalar programs -/

theorem Ir.Builder.grows_finish (b : Builder) : b.function.Grows b.finish := by
  refine ⟨rfl, rfl, rfl, List.prefix_rfl, fun {j blk} hb => ?_⟩
  refine ⟨blk.close b.function.ret, by rw [finish_blocks, hb, Option.map_some], ?_⟩
  unfold Block.close
  split_ifs with hclosed
  · exact .refl blk
  · exact ⟨rfl, List.prefix_rfl, fun h => absurd h hclosed⟩

/-- Any function of the module of an accepted program can run as the main one. -/
theorem linked_of_mem {options : Options} {p : Program TypedTag} {env : TypeEnv}
    (hp : p.Checked env) {m : Module} (hm : p.lower options = .ok m)
    (hlib : Machine.HasLibrary m) {F : Function} (hF : F ∈ m.functions) : Linked m F := by
  obtain ⟨shapes, hall⟩ := Program.lower_emitted hp hm
  obtain ⟨ns, -, hns⟩ := exists_of_mem_left hall hF
  refine ⟨hlib, hns.hasControlFlow.labels_nodup, fun hslot n => hns.ambient_ne_temp ?_ n⟩
  exact List.mem_append_right _ (List.mem_map_of_mem hslot)

section Lowering

variable {p : Program Tag} {typed : Program TypedTag}

/-- What is known of a variable of an accepted scalar program. -/
structure IsVariable (typed : Program TypedTag) (x : String) (t : ValueType) (a : Scalar) (v : Value) :
    Prop where
  mem_variables : (x, a) ∈ typed.variables
  mem_constants : (x, v) ∈ typed.definitions.filterMap Definition.constant?
  type : a.type = t
  stored : t.StoredAs v.ty
  word : v.word? (fun _ => none) = some a.word

theorem isVariable_of_mem (hcheck : checkProgram p = .ok typed) (hscalar : typed.isScalar = true)
    {d : VarDef TypedTag} (hd : .var d ∈ typed.definitions) :
    ∃ a v, IsVariable typed d.var.name.name (.ofSyntax d.var.type) a v := by
  rw [Program.isScalar, Bool.and_eq_true, List.all_eq_true] at hscalar
  obtain ⟨a, v, ha, hv, htype, hstored, hword⟩ := Literal.constant_of_isAssignable
    (hscalar.1 _ hd) (checkProgram_constant hcheck hd)
  refine ⟨a, v, List.mem_filterMap.2 ⟨_, hd, ?_⟩, List.mem_filterMap.2 ⟨_, hd, ?_⟩, htype, hstored,
    hword⟩
  · rw [Definition.scalar?, ha, Option.map_some]
  · rw [Definition.constant?, hv, Option.map_some]

theorem isVariable_of_lookup (hcheck : checkProgram p = .ok typed) (hscalar : typed.isScalar = true)
    {x : String} {t : ValueType} (hx : (TypeEnv.ofProgram p).lookup x = some (.var t)) :
    ∃ a v, IsVariable typed x t a v := by
  rcases checkProgram_entry hcheck (e := .var t) hx with ⟨d, hd, rfl, he⟩ | hb
  · cases d with
    | var d =>
      cases he
      exact isVariable_of_mem hcheck hscalar hd
    | func f => cases he
  · simp [TypeEnv.builtins] at hb

theorem constants_nodup {α : Type} {f : Definition TypedTag → Option (String × α)}
    (hf : ∀ d y, f d = some y → y.1 = d.ident.name) (hn : (typed.definitions.map (·.ident.name)).Nodup) :
    ((typed.definitions.filterMap f).map Prod.fst).Nodup := by
  refine hn.sublist ?_
  induction typed.definitions with
  | nil => exact .slnil
  | cons d ds ih =>
    rw [List.filterMap_cons]
    split
    · exact ih.cons _
    · rename_i y hy
      rw [List.map_cons, List.map_cons, hf d y hy]
      exact ih.cons_cons _

theorem Definition.constant?_name {d : Definition TypedTag} {v : String × Value}
    (h : d.constant? = some v) : v.1 = d.ident.name := by
  cases d with
  | var d =>
    obtain ⟨c, -, rfl⟩ := Option.map_eq_some_iff.1 h
    rfl
  | func f => cases h

theorem Definition.scalar?_name {d : Definition TypedTag} {v : String × Scalar}
    (h : d.scalar? = some v) : v.1 = d.ident.name := by
  cases d with
  | var d =>
    obtain ⟨c, -, rfl⟩ := Option.map_eq_some_iff.1 h
    rfl
  | func f => cases h

theorem constant_isWord (hw : ∀ x ∈ typed.names, IsWord x) :
    ∀ v ∈ typed.definitions.filterMap Definition.constant?, IsWord v.1 := by
  intro v hv
  obtain ⟨d, hd, hdv⟩ := List.mem_filterMap.1 hv
  refine hw _ (List.mem_flatMap.2 ⟨d, hd, ?_⟩)
  rw [Definition.constant?_name hdv]
  cases d <;> exact List.mem_cons_self ..

/-- The state in which the statements of a scalar program are lowered. -/
def scalarState (options : Options) (typed : Program TypedTag) : LowerState :=
  (Lower.start options typed).withVariables (typed.definitions.filterMap Definition.constant?)

theorem scalarState_no_main (options : Options) (typed : Program TypedTag) :
    (scalarState options typed).module.function? "main" = none :=
  (withVariables_function? ..).trans (start_no_main options typed)

theorem scalarState_stores (hcheck : checkProgram p = .ok typed) (hscalar : typed.isScalar = true)
    (hw : ∀ x ∈ typed.names, IsWord x) (options : Options) :
    StoresScalars (.ofProgram p) (scalarState options typed) where
  place hx _ := by
    obtain ⟨a, v, h⟩ := isVariable_of_lookup hcheck hscalar hx
    refine ⟨v.ty, h.stored, ?_⟩
    exact lookup_withVariables rfl (constants_nodup (fun _ _ => Definition.constant?_name)
      (checkProgram_checked hcheck).nodup) h.mem_constants
  inj hx hy he := by
    obtain ⟨a, v, h⟩ := isVariable_of_lookup hcheck hscalar hx
    obtain ⟨c, u, h'⟩ := isVariable_of_lookup hcheck hscalar hy
    exact storedName_inj (constant_isWord hw _ h.mem_constants) (constant_isWord hw _ h'.mem_constants)
      he

theorem lower_eq_finish {options : Options} (hcheck : checkProgram p = .ok typed)
    (hscalar : typed.isScalar = true) {b : Builder} (hopen : b.IsOpen)
    (hb : Lower.Builds (scalarState options typed) (Stmt.lowerAll typed.statements)
      (scalarState options typed).builder () b) :
    typed.lower options = .ok (Lower.finish
      { scalarState options typed with builder := b.close (.ret (some (.i32 0))) }) := by
  rw [Program.isScalar, Bool.and_eq_true, List.all_eq_true] at hscalar
  have hfunctions : typed.functions = [] := by
    rw [List.eq_nil_iff_forall_not_mem]
    intro f hf
    cases hscalar.1 _ (mem_functions.1 hf)
  have hdefs := definitions_run typed.definitions (Lower.start options typed) hscalar.1
    fun d => checkProgram_constant hcheck
  have hrun : Lower.program typed (Lower.start options typed) = .ok ()
      { scalarState options typed with builder := b.close (.ret (some (.i32 0))) } := by
    unfold Lower.program
    rw [hfunctions]
    refine run_bind_eq_ok.2 ⟨(), _, rfl, run_bind_eq_ok.2 ⟨(), _, hdefs, ?_⟩⟩
    exact run_bind_eq_ok.2 ⟨(), _, hb, Lower.Builds.terminate hopen _⟩
  unfold Program.lower
  rw [hrun]

/-- The main function before its first instruction agrees with the variables at the start. -/
theorem start_agrees {options : Options} (hcheck : checkProgram p = .ok typed)
    (hscalar : typed.isScalar = true) (hw : ∀ x ∈ typed.names, IsWord x) {m : Module} {F : Function}
    (hm : (scalarState options typed).module.Grows m) (hF : F.params = []) :
    Agrees (.ofProgram p) F { store := fun x => typed.variables.lookup x }
      { frame := .enter 0 F []
        memory := fun
          | .global x => m.initial x
          | .slot _ _ => none } where
  running := rfl
  function := rfl
  callers := rfl
  slot {slot} hslot := by
    simp only [Frame.enter, hF, List.map_nil, List.zip_nil_left, List.lookup_nil, Option.none_or]
    exact if_pos (List.any_eq_true.2 ⟨slot, hslot, beq_self_eq_true slot.name⟩)
  var hx _ := by
    have hn := (checkProgram_checked hcheck).nodup
    obtain ⟨a, v, h⟩ := isVariable_of_lookup hcheck hscalar hx
    refine ⟨a, ?_, h.type, ?_⟩
    · exact lookup_of_mem (constants_nodup (fun _ _ => Definition.scalar?_name) hn) h.mem_variables
    · refine hm.initial ?_
      unfold scalarState
      rw [initial_withVariables (start_texts options typed)
        (constants_nodup (fun _ _ => Definition.constant?_name) hn) (constant_isWord hw)
        h.mem_constants, h.word]
  events := rfl

end Lowering

/-- An accepted program without functions whose variables are integers and booleans and whose statements
assign, branch, loop and print has a module, and its main function runs as the program does. -/
theorem lowerProgram_runsAs {options : Options} {names : NameTable} {source : String}
    {p : Program Tag} {typed : Program TypedTag} (hparse : (parseProgram names source).1 = .ok p)
    (hcheck : checkProgram p = .ok typed) (hscalar : typed.isScalar = true) :
    ∃ m s, lowerProgram options typed = .ok m ∧ Machine.start m = some s ∧ RunsAs m s p := by
  have hw : ∀ x ∈ typed.names, IsWord x := by
    rw [checkProgram_names hcheck]
    exact parseProgram_names hparse
  have hchecked := checkProgram_checked hcheck
  have hstatements := hscalar
  rw [Program.isScalar, Bool.and_eq_true] at hstatements
  let st := scalarState options typed
  obtain ⟨b, hb, hext, hopen, hrun⟩ := Stmt.lowerAll_does (scalarState_stores hcheck hscalar hw options)
    typed.statements hchecked.statements hstatements.2 st.builder ⟨_, rfl, rfl⟩
  have hlower := lower_eq_finish hcheck hscalar hopen hb
  let last : LowerState := { st with builder := b.close (.ret (some (.i32 0))) }
  let F := last.builder.finish
  have hclose : (b.close (.ret (some (.i32 0)))).function.Grows F := Builder.grows_finish _
  have hgrows : b.function.Grows F := (Builder.close_extends hopen _).grows.trans hclose
  have hF := hext.grows.trans hgrows
  have hmain : (Lower.finish last).function? "main" = some F :=
    finish_main (scalarState_no_main options typed)
      (hext.grows.trans (Builder.close_extends hopen _).grows).name
  have hmodule : st.module.Grows (Lower.finish last) :=
    (Module.Grows.addFunction _ _).trans (finish_grows last)
  have hlib : Machine.HasLibrary (Lower.finish last) :=
    ((withVariables_grows _ _).trans hmodule).hasLibrary (start_hasLibrary options typed)
  have hlinked := linked_of_mem hchecked hlower hlib (List.mem_of_find?_eq_some hmain)
  have hstart := start_agrees hcheck hscalar hw hmodule hF.params
  refine ⟨_, _, phase_eq_ok.2 hlower, by rw [Machine.start, hmain, Option.map_some], .of_follows ?_⟩
  intro n
  obtain ⟨hvars, hexec⟩ := checkProgram_exec hcheck
  rw [← hvars, ← hexec]
  refine (hrun hlinked hgrows hstart ⟨rfl, rfl⟩ n).trans fun _ w s hs => ?_
  have hret : s.terminate (.ret (some (.i32 0))) = some { s with status := .returned } := by
    rw [Machine.terminate, Frame.read_i32]
    simp [Machine.leave, hs.agrees.callers]
  refine .step (Machine.step_close hs.agrees.running hs.agrees.function hs.stands hopen hclose hret)
    (.ok ⟨rfl, hs.agrees.events, fun x hx => ?_⟩)
  obtain ⟨v, hv, rfl⟩ := List.mem_map.1 hx
  obtain ⟨d, hd, hdv⟩ := List.mem_filterMap.1 hv
  have hlookup := hchecked.definition d hd
  rw [← Definition.scalar?_name hdv] at hlookup
  cases d with
  | var d =>
    obtain ⟨a, ha, -, hmem⟩ := hs.agrees.var hlookup (List.all_eq_true.1 hstatements.1 _ hd)
    exact ⟨a, ha, hmem⟩
  | func f => cases hdv

/-- A program that counts down, prints, overflows and in the end divides by zero. -/
def scalarProgram : String :=
  "x: int = 4\ny: int = 0\ngo: bool = True\nwhile go:\n    if x % 2 == 0:\n" ++
    "        y = x = x - 1\n    elif x == 3 or not go:\n        x = x - 3\n" ++
    "        print(y * 2147483647 if x < y else -y)\n    else:\n        pass\n    print(go)\n" ++
    "    go = 7 // x != 0\n"

theorem scalarProgram_runsAs : ∃ p typed m s, (parseProgram .initial scalarProgram).1 = .ok p ∧
    checkProgram p = .ok typed ∧ typed.isScalar = true ∧
      (resultWorld (p.exec 2)).events = [.bool true, .int 2147483645, .bool true,
        .message Library.divisionByZero] ∧
      lowerProgram {} typed = .ok m ∧ Machine.start m = some s ∧ RunsAs m s p := by
  have heval : ((do
      let p ← (parseProgram .initial scalarProgram).1
      let typed ← checkProgram p
      return (typed.isScalar, (resultWorld (p.exec 2)).events)) :
        Except Diagnostic (Bool × List Event)).toOption = some (true, [.bool true, .int 2147483645,
          .bool true, .message Library.divisionByZero]) := by decide +kernel
  obtain ⟨p, hp, h⟩ := bind_eq_ok.1 (toOption_eq_some.1 heval)
  obtain ⟨typed, ht, h⟩ := bind_eq_ok.1 h
  obtain ⟨hscalar, hevents⟩ := Prod.mk.inj (Except.ok.inj h)
  have hmodule : ∃ m s, lowerProgram {} typed = .ok m ∧ Machine.start m = some s ∧ RunsAs m s p :=
    lowerProgram_runsAs hp ht hscalar
  obtain ⟨m, s, hm, hs, hruns⟩ := hmodule
  exact ⟨p, typed, m, s, hp, ht, hscalar, hevents, hm, hs, hruns⟩

end ChocoCompiler
