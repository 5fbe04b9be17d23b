import ChocoCompiler.Proofs.ModulesEmitted

/-!
# Where lowering fails

A checked expression or statement is lowered from one end to the other, whether it is ever run or not, so the
nodes at which lowering fails can be read off the tree: a variable without storage, a value that cannot be
printed, lists that are not stored alike, and a list display that is too long. `Expr.visits` and `Stmt.visits`
put the nodes in the order in which lowering is done with them. `Lower.Decides σ x faults Q` says that `x`
fails exactly if there are faults, and then with the first one; `Stmt.lowerAll_decides` says so of statements.
-/

namespace ChocoCompiler

open Ir

/-! ## Builders keep the signature of their function -/

namespace Ir.Build

variable {α β : Type}

/-- The action changes neither the name of the function nor its types. -/
def Keeps (x : Build α) : Prop := ∀ b, (x b).2.function.callee = b.function.callee

namespace Keeps

theorem pure (a : α) : Keeps (Pure.pure a) := fun _ => rfl

theorem bind {x : Build α} {f : α → Build β} (hx : Keeps x) (hf : ∀ a, Keeps (f a)) :
    Keeps (x >>= f) :=
  fun b => (hf (x b).1 (x b).2).trans (hx b)

theorem labelId : Keeps labelId := fun _ => rfl

theorem appendBlock (label : String) : Keeps (appendBlock label) := fun _ => rfl

theorem moveTo (block : BlockRef) : Keeps (moveTo block) := fun _ => rfl

theorem isTerminated : Keeps isTerminated := fun _ => rfl

theorem alloca (hint : String) (ty : Ty) : Keeps (alloca hint ty) := fun _ => rfl

theorem reopen : Keeps reopen := by
  refine .bind .isTerminated fun t => ?_
  split_ifs
  · exact .bind .labelId fun _ => .bind (.appendBlock _) fun _ => .moveTo _
  · exact .pure ()

theorem push (i : Instr) : Keeps (push i) := .bind .reopen fun _ _ => rfl

theorem terminate (t : Terminator) : Keeps (terminate t) := .bind .reopen fun _ _ => rfl

theorem define (ty : Ty) (instr : String → Instr) : Keeps (define ty instr) :=
  .bind (fun _ => rfl) fun _ => .bind (.push _) fun _ => .pure _

theorem load (p : Place) : Keeps (load p) := .define _ _

theorem store (v ptr : Value) : Keeps (store v ptr) := .push _

theorem binary (op : ArithOp) (l r : Value) : Keeps (binary op l r) := .define _ _

theorem icmp (pred : Pred) (l r : Value) : Keeps (icmp pred l r) := .define _ _

theorem callValue (c : Callee) (args : List Value) : Keeps (callValue c args) := .define _ _

theorem cast (op : CastOp) (v : Value) (ty : Ty) : Keeps (cast op v ty) := .define _ _

theorem gep (base : Ty) (ptr : Value) (indices : List Value) (result : Ty) :
    Keeps (gep base ptr indices result) :=
  .bind (.define _ _) fun _ => .pure _

theorem sizeOf (ty : Ty) : Keeps (sizeOf ty) := .bind (.gep _ _ _ _) fun _ => .cast _ _ _

theorem br (target : BlockRef) : Keeps (br target) := .terminate _

theorem brIfOpen (target : BlockRef) : Keeps (brIfOpen target) := by
  refine .bind .isTerminated fun t => ?_
  split_ifs
  · exact .br target
  · exact .pure ()

theorem condBr (c : Value) (yes no : BlockRef) : Keeps (condBr c yes no) := .terminate _

theorem ret (v : Option Value) : Keeps (ret v) := .terminate _

theorem newList (s : ListShape) (content size : Value) : Keeps (Library.newList s content size) :=
  .bind (.sizeOf _) fun _ => .bind (.callValue _ _) fun _ => .bind (.gep _ _ _ _) fun _ =>
  .bind (.store _ _) fun _ => .bind (.gep _ _ _ _) fun _ => .bind (.store _ _) fun _ =>
  .bind (.gep _ _ _ _) fun _ => .bind (.store _ _) fun _ => .pure _

end Keeps

/-- What the action gives back, whatever was built before. -/
def Returns (x : Build α) (Q : α → Prop) : Prop := ∀ b, Q (x b).1

theorem Returns.bind {x : Build α} {f : α → Build β} {Q : β → Prop} (h : ∀ a, Returns (f a) Q) :
    Returns (x >>= f) Q :=
  fun b => h (x b).1 (x b).2

theorem Returns.newList (s : ListShape) (content size : Value) :
    Returns (Library.newList s content size) fun v => v.ty.isPtr = true :=
  .bind fun _ => .bind fun _ => .bind fun _ => .bind fun _ => .bind fun _ => .bind fun _ =>
  .bind fun _ => .bind fun _ _ => rfl

end Ir.Build

/-! ## Types whose values can be stored in each other's places -/

/-- Whether values of two types are represented alike. Which list shapes are known does not matter
(`ValueType.isStoredAlike_eq`). -/
def ValueType.isStoredAlike (t u : ValueType) : Bool :=
  (Shapes.ty t {}).1.sameRepr (Shapes.ty u {}).1

theorem ValueType.isStoredAlike_eq {t u : ValueType} {a b : Ty} (ha : t.StoredAs a)
    (hb : u.StoredAs b) : t.isStoredAlike u = a.sameRepr b := by
  have hptr : ∀ {c : Ty}, c.isPtr = true → ∃ d, c = .ptr d := by
    intro c hc
    cases c with
    | ptr d => exact ⟨d, rfl⟩
    | _ => cases hc
  unfold isStoredAlike
  have ht := Shapes.ty_storedAs t {}
  have hu := Shapes.ty_storedAs u {}
  revert ht hu
  generalize (Shapes.ty t {}).1 = c
  generalize (Shapes.ty u {}).1 = d
  intro hc hd
  cases t <;> cases u <;> simp only [StoredAs] at ha hb hc hd <;>
    first
    | (subst ha hb hc hd; rfl)
    | (obtain ⟨b, rfl⟩ := hptr hb; obtain ⟨d, rfl⟩ := hptr hd; subst ha hc; rfl)
    | (obtain ⟨a, rfl⟩ := hptr ha; obtain ⟨c, rfl⟩ := hptr hc; subst hb hd; rfl)
    | rw [Ty.sameRepr_of_isPtr ha hb, Ty.sameRepr_of_isPtr hc hd]

/-- A value of the first type can be stored in a place for the second one: nothing is made an integer
or a boolean that is not one already. -/
def ValueType.Fits (t u : ValueType) : Prop := u = .int ∨ u = .bool → t = u

namespace ValueType.Fits

variable {t u v : ValueType}

theorem refl (t : ValueType) : t.Fits t := fun _ => rfl

theorem trans (h : t.Fits u) (h' : u.Fits v) : t.Fits v := by
  intro hv
  have hu := h' hv
  exact (h (hu ▸ hv)).trans hu

theorem of_isAssignable (h : t.isAssignable u = true) : t.Fits u := by
  rintro (rfl | rfl) <;> cases t <;> simp_all [isAssignable, isSubtype, isSpecial]

theorem join_left (t u : ValueType) : t.Fits (t.join u) := by
  unfold join
  split_ifs with h
  · exact of_isAssignable h
  · exact .refl t
  · rintro (h | h) <;> cases h

theorem join_right (t u : ValueType) : u.Fits (t.join u) := by
  unfold join
  split_ifs with _ h
  · exact .refl u
  · exact of_isAssignable h
  · rintro (h | h) <;> cases h

end ValueType.Fits

theorem fits_displayType {es : List (Expr TypedTag)} {elem : ValueType}
    (h : displayType es = .list elem) : ∀ e ∈ es, e.type.Fits elem := by
  have hfold : ∀ (es : List (Expr TypedTag)) (t : ValueType),
      t.Fits (es.foldl (fun t e => t.join e.type) t) ∧
        ∀ e ∈ es, e.type.Fits (es.foldl (fun t e => t.join e.type) t) := by
    intro es
    induction es with
    | nil => exact fun t => ⟨.refl t, nofun⟩
    | cons e es ih =>
      intro t
      obtain ⟨hacc, hes⟩ := ih (t.join e.type)
      exact ⟨(ValueType.Fits.join_left _ _).trans hacc,
        List.forall_mem_cons.2 ⟨(ValueType.Fits.join_right _ _).trans hacc, hes⟩⟩
  cases es with
  | nil => cases h
  | cons e es =>
    cases h
    exact List.forall_mem_cons.2 (hfold es e.type)

/-! ## Faults -/

/-- The types whose values cannot be printed. -/
def ValueType.isUnprintable : ValueType → Bool
  | .object | .empty | .list _ => true
  | _ => false

/-- What cannot be lowered at an expression itself, whatever its parts are. -/
def Expr.unsupported? : Expr TypedTag → Option (Located Unsupported)
  | .call _ f [arg] =>
    if f.name = "print" ∧ arg.type.isUnprintable = true then some ⟨arg.span, .printing⟩ else none
  | .binary t .add l r =>
    match l.type, r.type with
    | .list u, .list v =>
      if u.isStoredAlike (u.join v) && v.isStoredAlike (u.join v) then none
      else some ⟨t.span, .concatenation⟩
    | _, _ => none
  | .list t es => if Lower.maxDisplay < es.length then some ⟨t.span, .longList⟩ else none
  | _ => none

/-- What keeps lowering from a use of a variable, where those with the given names are stored. -/
def Ident.fault? (stored : List String) (x : Ident) : Option (Located LoweringError) :=
  if x.name ∈ stored then none else some ⟨x.span, .unknownSymbol x.name⟩

/-- What keeps lowering from a node. -/
def Visit.fault? (stored : List String) : Visit TypedTag → Option (Located LoweringError)
  | .expr (.ident _ x) => x.fault? stored
  | .expr e => e.unsupported?.map fun u => ⟨u.span, .unsupported u.value⟩
  | .stmt (.forLoop _ x _ _) => x.fault? stored
  | _ => none

mutual

/-- The expression and all its parts, in the order in which lowering is done with them: a node after
its parts, but a list display before its elements. -/
def Expr.visits : Expr TypedTag → List (Visit TypedTag)
  | .literal t v => [.expr (.literal t v)]
  | .ident t x => [.expr (.ident t x)]
  | .unary t op e => e.visits ++ [.expr (.unary t op e)]
  | .binary t op l r => l.visits ++ r.visits ++ [.expr (.binary t op l r)]
  | .cond t c a b => c.visits ++ a.visits ++ b.visits ++ [.expr (.cond t c a b)]
  | .list t es => .expr (.list t es) :: Expr.allVisits es
  | .call t f es => Expr.allVisits es ++ [.expr (.call t f es)]
  | .index t e i => e.visits ++ i.visits ++ [.expr (.index t e i)]

def Expr.allVisits : List (Expr TypedTag) → List (Visit TypedTag)
  | [] => []
  | e :: es => e.visits ++ Expr.allVisits es

end

mutual

/-- The statement and all its parts, in the order in which lowering is done with them; a loop over a
sequence stands where its variable is looked up. -/
def Stmt.visits : Stmt TypedTag → List (Visit TypedTag)
  | .ifElse s c a b =>
    .stmt (.ifElse s c a b) :: c.visits ++ Stmt.allVisits a ++ Stmt.allVisits b
  | .whileLoop s c a => .stmt (.whileLoop s c a) :: c.visits ++ Stmt.allVisits a
  | .forLoop s x e a => e.visits ++ .stmt (.forLoop s x e a) :: Stmt.allVisits a
  | .pass s => [.stmt (.pass s)]
  | .ret s none => [.stmt (.ret s none)]
  | .ret s (some e) => .stmt (.ret s (some e)) :: e.visits
  | .assign s targets e => .stmt (.assign s targets e) :: e.visits ++ Expr.allVisits targets
  | .expr s e => .stmt (.expr s e) :: e.visits

def Stmt.allVisits : List (Stmt TypedTag) → List (Visit TypedTag)
  | [] => []
  | s :: ss => s.visits ++ Stmt.allVisits ss

end

/-- The faults at some nodes, in their order. -/
def faults (stored : List String) (vs : List (Visit TypedTag)) : List (Located LoweringError) :=
  vs.filterMap (Visit.fault? stored)

section Faults

variable {stored : List String} {vs ws : List (Visit TypedTag)}

@[simp] theorem faults_nil : faults stored [] = [] := rfl

@[simp] theorem faults_append : faults stored (vs ++ ws) = faults stored vs ++ faults stored ws :=
  List.filterMap_append

@[simp] theorem faults_cons {v : Visit TypedTag} :
    faults stored (v :: vs) = (v.fault? stored).toList ++ faults stored vs := by
  unfold faults
  rw [List.filterMap_cons]
  cases v.fault? stored <;> rfl

end Faults

/-! ## Actions that fail at the first fault -/

namespace Lower

/-- Where a body is lowered: what its names are known as, which variables have storage, and whether it
may return. -/
structure Setting where
  env : TypeEnv
  stored : List String
  returns : Bool

end Lower

/-- Where the variable of a name is stored. -/
def LowerState.place? (s : LowerState) (x : String) : Option Place :=
  (s.locals.lookup x).or (s.globals.lookup x)

namespace Lower

/-- The state of lowering is as the setting says. -/
structure Setting.Holds (σ : Setting) (s : LowerState) : Prop where
  var : ∀ {x t}, σ.env.lookup x = some (.var t) → x ∈ σ.stored →
    ∃ p, s.place? x = some p ∧ t.StoredAs p.ty
  missing : ∀ {x}, x ∉ σ.stored → s.place? x = none
  func : ∀ {x ft}, σ.env.lookup x = some (.func ft) → x ∉ builtinNames →
    ∃ c, s.functions.lookup x = some c ∧ ft.ret.StoredAs c.ret ∧
      List.Forall₂ ValueType.StoredAs ft.params c.params
  ret : σ.returns = true → σ.env.returnType.StoredAs s.builder.function.ret

variable {α β : Type} {σ : Setting}

/-- Nothing has changed in the tables of names and in the signature of the function. -/
structure Frame (s s' : LowerState) : Prop where
  locals : s'.locals = s.locals
  globals : s'.globals = s.globals
  functions : s'.functions = s.functions
  callee : s'.builder.function.callee = s.builder.function.callee

theorem Frame.refl (s : LowerState) : Frame s s := ⟨rfl, rfl, rfl, rfl⟩

theorem Frame.trans {s₁ s₂ s₃ : LowerState} (h : Frame s₁ s₂) (h' : Frame s₂ s₃) : Frame s₁ s₃ :=
  ⟨h'.locals.trans h.locals, h'.globals.trans h.globals, h'.functions.trans h.functions,
    h'.callee.trans h.callee⟩

theorem Setting.Holds.of_frame {s s' : LowerState} (hs : σ.Holds s) (h : Frame s s') : σ.Holds s' := by
  have hplace : s'.place? = s.place? := by
    funext x
    unfold LowerState.place?
    rw [h.locals, h.globals]
  refine ⟨fun hx hm => hplace ▸ hs.var hx hm, fun hx => hplace ▸ hs.missing hx,
    fun hx hb => h.functions ▸ hs.func hx hb, fun hr => ?_⟩
  rw [show s'.builder.function.ret = _ from congrArg Callee.ret h.callee]
  exact hs.ret hr

/-- From the state `s` the action fails exactly if there are faults, and then with the first one;
otherwise `Q` describes its result and the state it leads to. -/
def Ends (s : LowerState) (x : Lower α) (faults : List (Located LoweringError))
    (Q : α → LowerState → Prop) : Prop :=
  match faults with
  | [] => ∃ a s', x s = .ok a s' ∧ Q a s'
  | e :: _ => ∃ s', x s = .error e s'

theorem Ends.bind {s : LowerState} {x : Lower α} {f : α → Lower β} {F G : List (Located LoweringError)}
    {R : α → LowerState → Prop} {Q : β → LowerState → Prop} (hx : Ends s x F R)
    (hf : ∀ a s', R a s' → Ends s' (f a) G Q) : Ends s (x >>= f) (F ++ G) Q := by
  have hbind : (x >>= f) s = EStateM.bind x f s := rfl
  unfold EStateM.bind at hbind
  cases F with
  | nil =>
    obtain ⟨a, s₁, ha, hR⟩ := hx
    rw [ha] at hbind
    have h := hf a s₁ hR
    unfold Ends at h ⊢
    rw [hbind]
    exact h
  | cons e es =>
    obtain ⟨s₁, he⟩ := hx
    rw [he] at hbind
    exact ⟨s₁, hbind⟩

theorem Ends.mono {s : LowerState} {x : Lower α} {F : List (Located LoweringError)}
    {R Q : α → LowerState → Prop} (hx : Ends s x F R) (h : ∀ a s', R a s' → Q a s') : Ends s x F Q := by
  cases F with
  | nil =>
    obtain ⟨a, s₁, ha, hR⟩ := hx
    exact ⟨a, s₁, ha, h a s₁ hR⟩
  | cons e es => exact hx

theorem Ends.before {s : LowerState} {x : Lower α} {f : α → Lower β} {F : List (Located LoweringError)}
    {R : α → LowerState → Prop} {Q : β → LowerState → Prop} (hx : Ends s x F R)
    (hf : ∀ a s', R a s' → Ends s' (f a) [] Q) : Ends s (x >>= f) F Q :=
  List.append_nil F ▸ Ends.bind hx hf

theorem Ends.run {s : LowerState} {x : Lower α} {F : List (Located LoweringError)}
    {Q : α → LowerState → Prop} (hx : Ends s x F Q) :
    Ends s x F fun a s' => x s = .ok a s' ∧ Q a s' := by
  cases F with
  | nil =>
    obtain ⟨a, s₁, ha, hQ⟩ := hx
    exact ⟨a, s₁, ha, ha, hQ⟩
  | cons e es => exact hx

/-- Wherever the setting holds, the action fails at the first fault or leaves the tables as they were,
and `Q` describes its result. -/
def Decides (σ : Setting) (x : Lower α) (faults : List (Located LoweringError)) (Q : α → Prop) :
    Prop :=
  ∀ s, σ.Holds s → Ends s x faults fun a s' => Frame s s' ∧ Q a

namespace Decides

variable {Q R : α → Prop} {F G : List (Located LoweringError)}

theorem pure {a : α} (h : Q a) : Decides σ (Pure.pure a) [] Q := fun s _ => ⟨a, s, rfl, .refl s, h⟩

theorem bind {x : Lower α} {f : α → Lower β} {Q : β → Prop} (hx : Decides σ x F R)
    (hf : ∀ a, R a → Decides σ (f a) G Q) : Decides σ (x >>= f) (F ++ G) Q := by
  intro s hs
  refine (hx s hs).bind fun a s₁ ha => ?_
  exact (hf a ha.2 s₁ (hs.of_frame ha.1)).mono fun b s₂ hb => ⟨ha.1.trans hb.1, hb.2⟩

theorem andThen {x : Lower α} {f : α → Lower β} {Q : β → Prop} (hx : Decides σ x [] R)
    (hf : ∀ a, R a → Decides σ (f a) G Q) : Decides σ (x >>= f) G Q :=
  bind hx hf

theorem before {x : Lower α} {f : α → Lower β} {Q : β → Prop} (hx : Decides σ x F R)
    (hf : ∀ a, R a → Decides σ (f a) [] Q) : Decides σ (x >>= f) F Q :=
  List.append_nil F ▸ bind hx hf

theorem mono {x : Lower α} (hx : Decides σ x F R) (h : ∀ a, R a → Q a) : Decides σ x F Q :=
  fun s hs => (hx s hs).mono fun a _ ha => ⟨ha.1, h a ha.2⟩

theorem fail {span : Span} {e : LoweringError} :
    Decides σ (failAt span e : Lower α) [⟨span, e⟩] Q :=
  fun s _ => ⟨s, rfl⟩

theorem build {x : Build α} (hk : Build.Keeps x) (h : Build.Returns x Q) :
    Decides σ (liftM x) [] Q :=
  fun s _ => ⟨_, _, rfl, ⟨rfl, rfl, rfl, hk s.builder⟩, h s.builder⟩

theorem act {x : Build α} (hk : Build.Keeps x) : Decides σ (liftM x) [] fun _ => True :=
  build hk fun _ => trivial

theorem shapes {x : StateM Shapes α} (h : ∀ sh, Q (x sh).1) : Decides σ (liftM x) [] Q :=
  fun s _ => ⟨_, _, rfl, ⟨rfl, rfl, rfl, rfl⟩, h s.shapes⟩

theorem shapesTy (t : ValueType) : Decides σ (liftM (Shapes.ty t)) [] t.StoredAs :=
  shapes fun sh => Shapes.ty_storedAs t sh

theorem text (t : String) : Decides σ (liftM (Library.text t)) [] fun v => v.ty = stringTy :=
  fun s _ => ⟨_, _, rfl, ⟨rfl, rfl, rfl, rfl⟩, (Library.Adds.text t s.module).1.ty⟩

theorem variablePlace {x : Ident} {t : ValueType} (ht : σ.env.lookup x.name = some (.var t)) :
    Decides σ (variablePlace x) (x.fault? σ.stored).toList fun p => t.StoredAs p.ty := by
  intro s hs
  unfold Ident.fault?
  by_cases hx : x.name ∈ σ.stored
  · rw [if_pos hx]
    obtain ⟨p, hp, hty⟩ := hs.var ht hx
    refine ⟨p, s, ?_, .refl s, hty⟩
    unfold Lower.variablePlace
    rw [show (s.locals.lookup x.name).or (s.globals.lookup x.name) = some p from hp]
  · rw [if_neg hx]
    refine ⟨s, ?_⟩
    unfold Lower.variablePlace
    rw [show (s.locals.lookup x.name).or (s.globals.lookup x.name) = none from hs.missing hx]

theorem functionCallee {x : Ident} {ft : FuncType} (ht : σ.env.lookup x.name = some (.func ft))
    (hb : x.name ∉ builtinNames) :
    Decides σ (functionCallee x) [] fun c => ft.ret.StoredAs c.ret ∧
      List.Forall₂ ValueType.StoredAs ft.params c.params := by
  intro s hs
  obtain ⟨c, hc, hstored⟩ := hs.func ht hb
  refine ⟨c, s, ?_, .refl s, hstored⟩
  unfold Lower.functionCallee
  rw [hc]

theorem returnTy (h : σ.returns = true) :
    Decides σ returnTy [] fun ty => σ.env.returnType.StoredAs ty :=
  fun s hs => ⟨_, s, rfl, .refl s, hs.ret h⟩

theorem coerce {v : Value} {ty : Ty} {span : Span} {t u : ValueType} (hv : t.StoredAs v.ty)
    (hu : u.StoredAs ty) (h : t.Fits u) : Decides σ (coerce v ty span) [] fun w => w.ty = ty := by
  unfold Lower.coerce
  split_ifs with h₁ h₂ h₃
  · exact pure h₁
  · exact pure rfl
  · refine andThen (act (.sizeOf _)) fun size _ => ?_
    refine andThen (act (.callValue _ _)) fun box _ => ?_
    exact andThen (act (.store _ _)) fun _ _ => pure rfl
  · -- A place for integers or booleans gets a value of its own type, any other one is a pointer.
    have hptr : ty.isPtr = true := by
      by_cases hu' : u = .int ∨ u = .bool
      · have htu := h hu'
        rw [htu] at hv
        rcases hu' with rfl | rfl
        · exact absurd (hv.trans hu.symm) h₁
        · exact absurd (hv.trans hu.symm) h₁
      · cases u with
        | int => exact absurd (.inl rfl) hu'
        | bool => exact absurd (.inr rfl) hu'
        | _ => exact hu
    cases t with
    | int => simp [show v.ty = .i32 from hv, hptr] at h₃
    | bool => simp [show v.ty = .i1 from hv, hptr] at h₃
    | _ => simp [show v.ty.isPtr = true from hv, hptr] at h₂

end Decides

end Lower

/-- The type of the value, or of what the place holds. -/
def Lowered.ty : Lowered → Ty
  | .value v => v.ty
  | .place p => p.ty

/-- Whether something can be stored there. -/
def Lowered.isPlace : Lowered → Bool
  | .value _ => false
  | .place _ => true

namespace Lower

variable {σ : Setting} {F G : List (Located LoweringError)} {t u : ValueType} {span : Span}

theorem rvalue_decides {lo : Lowered} (h : t.StoredAs lo.ty) :
    Decides σ (rvalue lo) [] fun v => t.StoredAs v.ty := by
  cases lo with
  | value v => exact .pure h
  | place p => exact .build (.load p) fun _ => h

theorem noneList_decides (elem : ValueType) :
    Decides σ (noneList elem) [] fun v => v.ty.isPtr = true := by
  unfold noneList
  refine .andThen (.shapes (Q := fun _ => True) fun _ => trivial) fun shape _ s _ => ?_
  dsimp only [Ends]
  split_ifs
  · exact ⟨_, s, rfl, .refl s, rfl⟩
  · exact ⟨_, _, rfl, ⟨rfl, rfl, rfl, rfl⟩, rfl⟩

theorem literal_decides (l : Literal) :
    Decides σ (literal l) [] fun v => (ValueType.ofLiteral l).StoredAs v.ty := by
  cases l with
  | none => exact .pure rfl
  | bool b => exact .build (.callValue _ _) fun _ => rfl
  | int n => exact .build (.callValue _ _) fun _ => rfl
  | str t =>
    refine .andThen (.text t) fun constant _ => .andThen (.text "%s") fun format _ => ?_
    refine .andThen (.build (Q := fun v => v.ty.isPtr = true) (.callValue _ _) fun _ => rfl)
      fun buffer hb => ?_
    exact .andThen (.act (.callValue _ _)) fun _ _ => .pure hb

/-! ## Sequences and operations -/

theorem length_decides {seq : Value} (h : t = .str ∨ t.isList = true ∨ t = .empty) :
    Decides σ (length seq t span) [] fun v => v.ty = .i32 := by
  have hlist : ∀ {x : StateM Shapes ListShape}, Decides σ (do
      let shape ← x
      Build.callValue (Library.listLen shape) [seq.retyped shape.ptrTy]) [] fun v => v.ty = .i32 :=
    .andThen (.shapes (Q := fun _ => True) fun _ => trivial) fun shape _ =>
      .build (.callValue _ _) fun _ => rfl
  cases t with
  | str =>
    exact .andThen (.act (.callValue _ _)) fun n _ => .build (.cast _ _ _) fun _ => rfl
  | list elem => exact hlist
  | empty => exact hlist
  | _ => simp [ValueType.isList] at h

theorem item_decides {seq index : Value} (h : t.item? = some u) :
    Decides σ (item seq t index span) [] fun lo => u.StoredAs lo.ty ∧ (t ≠ .str → lo.isPlace = true) := by
  cases t with
  | str =>
    cases h
    exact .andThen (.build (Q := fun v : Value => ValueType.str.StoredAs v.ty) (.callValue _ _)
      fun _ => rfl)
      fun v hv => .pure ⟨hv, fun hn => absurd rfl hn⟩
  | list elem =>
    cases h
    refine .andThen (.shapes (Q := fun shape => u.StoredAs shape.elem)
      fun sh => Shapes.shape_storedAs u sh) fun shape hshape => ?_
    exact .andThen (.act (.callValue _ _)) fun ptr _ => .pure ⟨hshape, fun _ => rfl⟩
  | _ => cases h

theorem checkStored_decides {shape : ListShape} {elem : ValueType} (hs : elem.StoredAs shape.elem)
    (hu : t = .list u) : Decides σ (checkStored shape t span)
      (if u.isStoredAlike elem then [] else [⟨span, .unsupported .concatenation⟩]) fun _ => True := by
  subst hu
  refine .andThen (.shapesTy u) fun ty hty => ?_
  rw [ValueType.isStoredAlike_eq hty hs]
  split_ifs
  · exact .pure trivial
  · exact .fail

theorem concat_decides {l r : Expr TypedTag} {lv rv : Value} {a b elem : ValueType}
    (hl : l.type = .list a) (hr : r.type = .list b) :
    Decides σ (concat elem l r lv rv span)
      (if a.isStoredAlike elem && b.isStoredAlike elem then []
        else [⟨span, .unsupported .concatenation⟩]) fun v => v.ty.isPtr = true := by
  refine .andThen (.shapes (Q := fun shape => elem.StoredAs shape.elem)
    fun sh => Shapes.shape_storedAs elem sh) fun shape hshape => ?_
  have hcall : Decides σ (Build.callValue (Library.listConcat shape)
      [lv.retyped shape.ptrTy, rv.retyped shape.ptrTy] : Lower Value) [] fun v => v.ty.isPtr = true :=
    .build (.callValue _ _) fun _ => rfl
  have hchecked {t u : ValueType} (ht : t = .list u) : Decides σ (checkStored shape t span)
      (if u.isStoredAlike elem then [] else [⟨span, .unsupported .concatenation⟩]) fun _ => True :=
    checkStored_decides hshape ht
  have ha := hchecked hl
  have hb := hchecked hr
  rcases Bool.eq_false_or_eq_true (a.isStoredAlike elem) with hal | hal <;> rw [hal] at ha ⊢
  · exact .andThen ha fun _ _ => .before hb fun _ _ => hcall
  · -- Whatever follows the first fault does not matter.
    exact fun s hs => (Decides.bind ha fun _ _ => .before hb fun _ _ => hcall) s hs

theorem sum_decides {t : TypedTag} {l r : Expr TypedTag} {lv rv : Value}
    (hleft : BinaryOp.add.checkLeft l.type l.span = .ok ()) (ht : sumType l r = .ok t.type)
    (hl : l.type.StoredAs lv.ty) :
    Decides σ (binaryOp t .add l r lv rv)
      (Visit.fault? σ.stored (.expr (.binary t .add l r))).toList fun v => t.type.StoredAs v.ty := by
  have hnode : Visit.fault? σ.stored (.expr (.binary t .add l r)) =
      (Expr.unsupported? (.binary t .add l r)).map fun u => ⟨u.span, .unsupported u.value⟩ := rfl
  have htypes := sumType_ok ht
  obtain ⟨⟨id, span⟩, type⟩ := t
  dsimp only at htypes
  rcases htypes with ⟨a, b, hlt, hrt, rfl⟩ | ⟨hlt, -, hnl⟩
  · have h : Decides σ (concat (a.join b) l r lv rv span) _ _ := concat_decides hlt hrt
    rw [hnode]
    simp only [Expr.unsupported?, hlt, hrt]
    refine .mono (F := _) ?_ fun v (hv : v.ty.isPtr = true) => hv
    split_ifs with halike
    · rwa [if_pos halike] at h
    · rwa [if_neg halike] at h
  · have hnone : Visit.fault? σ.stored (.expr (.binary ⟨⟨id, span⟩, type⟩ .add l r)) = none := by
      rw [hnode]
      simp only [Expr.unsupported?, hlt]
      cases type with
      | list a => cases hnl
      | _ => rfl
    rw [hnone]
    rw [hlt] at hl
    unfold BinaryOp.checkLeft at hleft
    rw [hlt] at hleft
    cases type with
    | int => exact .build (.binary _ _ _) fun _ => hl
    | str => exact .build (.callValue _ _) fun _ => rfl
    | list a => cases hnl
    | _ => cases hleft

theorem binaryOp_decides {t : TypedTag} {op : BinaryOp} {l r : Expr TypedTag} {lv rv : Value}
    (hleft : op.checkLeft l.type l.span = .ok ()) (ht : op.result l r = .ok t.type)
    (hl : l.type.StoredAs lv.ty) (hr : r.type.StoredAs rv.ty) :
    Decides σ (binaryOp t op l r lv rv) (Visit.fault? σ.stored (.expr (.binary t op l r))).toList
      fun v => t.type.StoredAs v.ty := by
  have htypes : ∀ {s u : ValueType}, checkType s l.type l.span = .ok () →
      (do checkType s r.type r.span; return u : Check ValueType) = .ok t.type →
        s.StoredAs lv.ty ∧ s.StoredAs rv.ty ∧ t.type = u := by
    intro s u hls hrs
    obtain ⟨_, hr', hu⟩ := bind_eq_ok.1 hrs
    rw [checkType_ok.1 hls] at hl
    rw [checkType_ok.1 hr'] at hr
    injection hu with hu
    exact ⟨hl, hr, hu.symm⟩
  cases op with
  | add => exact sum_decides hleft ht hl
  | sub | mul =>
    obtain ⟨hl, -, htt⟩ := htypes hleft ht
    rw [htt]
    exact .build (.binary _ _ _) fun _ => hl
  | floorDiv =>
    obtain ⟨-, -, htt⟩ := htypes hleft ht
    rw [htt]
    exact .build (.callValue _ _) fun _ => rfl
  | mod =>
    obtain ⟨hl, -, htt⟩ := htypes hleft ht
    rw [htt]
    exact .andThen (.act (.callValue _ _)) fun q _ => .andThen (.act (.binary _ _ _)) fun p _ =>
      .build (.binary _ _ _) fun _ => hl
  | less | lessEq | greater | greaterEq =>
    obtain ⟨-, -, htt⟩ := htypes hleft ht
    rw [htt]
    exact .build (.icmp _ _ _) fun _ => rfl
  | is =>
    dsimp only [BinaryOp.result] at ht
    split_ifs at ht
    injection ht with ht
    rw [← ht]
    exact .build (.icmp _ _ _) fun _ => rfl
  | eq =>
    dsimp only [BinaryOp.result] at ht
    split_ifs at ht
    injection ht with ht
    rw [← ht]
    dsimp only [binaryOp]
    split_ifs
    · exact .build (.callValue _ _) fun _ => rfl
    · exact .build (.icmp _ _ _) fun _ => rfl
  | notEq =>
    dsimp only [BinaryOp.result] at ht
    split_ifs at ht
    injection ht with ht
    rw [← ht]
    dsimp only [binaryOp]
    split_ifs
    · exact .andThen (.build (Q := fun v : Value => v.ty = .i1) (.callValue _ _) fun _ => rfl)
        fun eq heq => .build (.binary _ _ _) fun _ => heq
    · exact .build (.icmp _ _ _) fun _ => rfl
  | and | or =>
    obtain ⟨hl, -, htt⟩ := htypes hleft ht
    rw [htt]
    exact .build (.binary _ _ _) fun _ => hl

theorem unaryOp_decides {op : UnaryOp} {v : Value} (hv : op.type.StoredAs v.ty) :
    Decides σ (liftM (unaryOp op v)) [] fun v => op.type.StoredAs v.ty := by
  cases op with
  | neg => exact .build (.binary _ _ _) fun _ => rfl
  | not => exact .build (.binary _ _ _) fun _ => hv

/-! ## Expressions with blocks -/

theorem shortCircuit_decides {isAnd : Bool} {lhs rhs : Lower Value}
    (hl : Decides σ lhs F fun v => ValueType.bool.StoredAs v.ty)
    (hr : Decides σ rhs G fun v => ValueType.bool.StoredAs v.ty) :
    Decides σ (shortCircuit isAnd lhs rhs) (F ++ G) fun v => ValueType.bool.StoredAs v.ty := by
  unfold shortCircuit
  refine .andThen (.build (Q := fun p => p.ty = .i1) (.alloca _ _) fun _ => rfl) fun slot hslot => ?_
  refine .andThen (.act .labelId) fun id _ => .andThen (.act (.appendBlock _)) fun rhsBlock _ =>
    .andThen (.act (.appendBlock _)) fun exit _ => .bind hl fun l _ =>
    .andThen (.act (.store _ _)) fun _ _ => ?_
  have hrest : Decides σ (do
      Build.moveTo rhsBlock
      let r ← rhs
      Build.store r slot.ptr
      Build.br exit
      Build.moveTo exit
      Build.load slot) G fun v => ValueType.bool.StoredAs v.ty :=
    .andThen (.act (.moveTo _)) fun _ _ => .before hr fun r _ => .andThen (.act (.store _ _))
      fun _ _ => .andThen (.act (.br _)) fun _ _ => .andThen (.act (.moveTo _)) fun _ _ =>
      .build (.load _) fun _ => hslot
  split_ifs
  · exact .andThen (.act (.condBr _ _ _)) fun _ _ => hrest
  · exact .andThen (.act (.condBr _ _ _)) fun _ _ => hrest

theorem arm_decides {block exit : BlockRef} {slot : Place} {value : Lower Value}
    (hs : u.StoredAs slot.ty) (h : t.Fits u) (hv : Decides σ value F fun v => t.StoredAs v.ty) :
    Decides σ (arm block exit slot value span) F fun _ => True :=
  .andThen (.act (.moveTo _)) fun _ _ => .before hv fun _ hv => .andThen (.coerce hv hs h) fun _ _ =>
    .andThen (.act (.store _ _)) fun _ _ => .act (.br _)

theorem conditional_decides {test a b : Lower Value} {H : List (Located LoweringError)}
    {ta tb : ValueType} {sa sb : Span} (hc : Decides σ test F fun _ => True)
    (ha : Decides σ a G fun v => ta.StoredAs v.ty) (hb : Decides σ b H fun v => tb.StoredAs v.ty)
    (hta : ta.Fits t) (htb : tb.Fits t) :
    Decides σ (conditional t test a b sa sb) (F ++ G ++ H) fun v => t.StoredAs v.ty := by
  rw [List.append_assoc]
  refine .andThen (.shapesTy t) fun ty hty => ?_
  refine .andThen (.build (Q := fun p => t.StoredAs p.ty) (.alloca _ _) fun _ => hty)
    fun slot hslot => ?_
  refine .andThen (.act .labelId) fun id _ => .andThen (.act (.appendBlock _)) fun thenBlock _ =>
    .andThen (.act (.appendBlock _)) fun elseBlock _ => .andThen (.act (.appendBlock _))
    fun exit _ => .bind hc fun c _ => .andThen (.act (.condBr _ _ _)) fun _ _ => ?_
  refine .bind (arm_decides hslot hta ha) fun _ _ => .before (arm_decides hslot htb hb) fun _ _ => ?_
  exact .andThen (.act (.moveTo _)) fun _ _ => .build (.load _) fun _ => hslot

/-! ## List displays and calls -/

theorem displayShape_storedAs {es : List (Expr TypedTag)} (sh : Shapes) :
    ∀ e ∈ es, ∃ u, e.type.Fits u ∧ u.StoredAs (displayShape (displayType es) sh).1.elem := by
  intro e he
  cases hd : displayType es with
  | list elem => exact ⟨elem, fits_displayType hd e he, Shapes.shape_storedAs elem sh⟩
  | _ =>
    cases es with
    | nil => cases he
    | cons _ _ => cases hd

theorem display_decides {tag : TypedTag} {es : List (Expr TypedTag)} (ht : tag.type = displayType es)
    {fill : ListShape → Value → Lower Unit}
    (hfill : ∀ shape content, (∀ e ∈ es, ∃ u, e.type.Fits u ∧ u.StoredAs shape.elem) →
      Decides σ (fill shape content) F fun _ => True) :
    Decides σ (display tag es.length fill)
      ((Visit.fault? σ.stored (.expr (.list tag es))).toList ++ F) fun v => v.ty.isPtr = true := by
  unfold display
  refine .andThen (.shapes (Q := fun shape => ∀ e ∈ es, ∃ u, e.type.Fits u ∧ u.StoredAs shape.elem)
    fun sh => by rw [ht]; exact displayShape_storedAs sh) fun shape hshape => ?_
  have hnode : Visit.fault? σ.stored (.expr (.list tag es)) =
      if maxDisplay < es.length then some ⟨tag.span, .unsupported .longList⟩ else none := by
    simp only [Visit.fault?, Expr.unsupported?]
    split_ifs <;> rfl
  rw [hnode]
  split_ifs with hlong
  · exact fun s _ => ⟨s, rfl⟩
  · refine .andThen (.act (.sizeOf _)) fun size _ => .andThen (.act (.binary _ _ _)) fun bytes _ =>
      .andThen (.act (.callValue _ _)) fun memory _ => .before (hfill shape _ hshape) fun _ _ => ?_
    exact .build (.newList _ _ _) (.newList _ _ _)

theorem storeItem_decides {shape : ListShape} {content v : Value} {i : Nat} (hv : t.StoredAs v.ty)
    (hu : u.StoredAs shape.elem) (h : t.Fits u) :
    Decides σ (storeItem shape content i v span) [] fun _ => True :=
  .andThen (.coerce hv hu h) fun _ _ => .andThen (.act (.gep _ _ _ _)) fun _ _ => .act (.store _ _)

theorem print_decides {v : Value} (hb : t ≠ .bottom) :
    Decides σ (Lower.print v t span)
      (if t.isUnprintable then [⟨span, .unsupported .printing⟩] else []) fun v => v.ty.isPtr = true := by
  cases t with
  | int => exact .andThen (.act (.callValue _ _)) fun _ _ => .pure rfl
  | bool => exact .andThen (.act (.callValue _ _)) fun _ _ => .pure rfl
  | str => exact .andThen (.act (.callValue _ _)) fun _ _ => .pure rfl
  | none =>
    exact .andThen (.text "None") fun _ _ => .andThen (.act (.callValue _ _)) fun _ _ => .pure rfl
  | bottom => exact absurd rfl hb
  | _ => exact fun s _ => ⟨s, rfl⟩

end Lower

open Lower

/-! ## Expressions -/

section Expressions

variable {σ : Setting}

/-- What a checked expression becomes is stored as its type says, and a target is a place. -/
def Expr.Becomes (e : Expr TypedTag) (lo : Lowered) : Prop :=
  e.type.StoredAs lo.ty ∧ (e.isTarget = true → lo.isPlace = true)

/-- Lowering the expression fails at its first fault. -/
def Expr.Decided (σ : Setting) (e : Expr TypedTag) : Prop :=
  Decides σ e.lower (faults σ.stored e.visits) e.Becomes

theorem Expr.Decided.value {e : Expr TypedTag} (h : e.Decided σ) :
    Decides σ (e.lower >>= rvalue) (faults σ.stored e.visits) fun v => e.type.StoredAs v.ty :=
  .before h fun _ hlo => rvalue_decides hlo.1

theorem ofValue_decides {e : Expr TypedTag} {x : Lower Value} {F : List (Located LoweringError)}
    (hn : e.isTarget = false) (h : Decides σ x F fun v => e.type.StoredAs v.ty) :
    Decides σ (x >>= fun v => Pure.pure (.value v)) F e.Becomes :=
  .before h fun _ hv => .pure ⟨hv, fun ht => by rw [hn] at ht; cases ht⟩

theorem Expr.lowerItems_decides {shape : ListShape} {content : Value} :
    ∀ (es : List (Expr TypedTag)) (i : Nat), (∀ e ∈ es, e.Decided σ) →
      (∀ e ∈ es, ∃ u, e.type.Fits u ∧ u.StoredAs shape.elem) →
      Decides σ (Expr.lowerItems shape content i es) (faults σ.stored (Expr.allVisits es))
        fun _ => True
  | [], _, _, _ => .pure trivial
  | e :: es, i, hes, hfit => by
    obtain ⟨he, hes⟩ := List.forall_mem_cons.1 hes
    obtain ⟨⟨u, hu, hstored⟩, hfit⟩ := List.forall_mem_cons.1 hfit
    rw [Expr.allVisits, faults_append]
    exact .bind he fun lo hlo => .andThen (rvalue_decides hlo.1) fun v hv =>
      .andThen (storeItem_decides hv hstored hu) fun _ _ =>
      Expr.lowerItems_decides es (i + 1) hes hfit

theorem Expr.lowerArgs_decides : ∀ {es : List (Expr TypedTag)} {ts : List ValueType} {tys : List Ty},
    (∀ e ∈ es, e.Decided σ) → List.Forall₂ (fun e t => e.type.Fits t) es ts →
      List.Forall₂ ValueType.StoredAs ts tys →
      Decides σ (Expr.lowerArgs es tys) (faults σ.stored (Expr.allVisits es)) fun _ => True
  | [], _, _, _, .nil, .nil => .pure trivial
  | e :: es, _, _, hes, .cons hfit hfits, .cons hty htys => by
    obtain ⟨he, hes⟩ := List.forall_mem_cons.1 hes
    rw [Expr.allVisits, faults_append]
    exact .bind he fun lo hlo => .andThen (rvalue_decides hlo.1) fun v hv =>
      .andThen (.coerce hv hty hfit) fun _ _ =>
      .before (Expr.lowerArgs_decides hes hfits htys) fun _ _ => .pure trivial

theorem fault?_call {t : TypedTag} {f : Ident} {args : List (Expr TypedTag)} {stored : List String}
    (h : f.name ≠ "print") : Visit.fault? stored (.expr (.call t f args)) = none := by
  match args with
  | [] => rfl
  | [_] => simp [Visit.fault?, Expr.unsupported?, h]
  | _ :: _ :: _ => rfl

/-- A call of a built-in function or one of the program, each of whose arguments is decided. -/
theorem Expr.lowerCall_decides (henv : σ.env.KeepsBuiltins) {t : TypedTag} {f : Ident}
    {args : List (Expr TypedTag)} {ft : FuncType} (hargs : ∀ e ∈ args, e.Decided σ)
    (hf : σ.env.lookup f.name = some (.func ft))
    (hsuit : List.Forall₂ (fun arg param => checkArgument f.name arg param = .ok ()) args ft.params)
    (ht : t.type = ft.ret) : (Expr.call t f args).Decided σ := by
  unfold Expr.Decided
  rw [Expr.visits, faults_append, faults_cons, faults_nil, List.append_nil]
  by_cases hprint : f.name = "print"
  · have hft := henv (by decide) (hprint ▸ hf)
    obtain rfl : ft = ⟨[.object], .none⟩ := by simpa [TypeEnv.builtins] using hft
    cases hsuit with
    | @cons arg _ args _ harg hnil =>
    cases hnil
    have harg' : arg.type.isAssignable .object = true := by
      unfold checkArgument at harg
      rw [if_neg (by simp [hprint])] at harg
      exact checkAssignable_ok.1 harg
    have hbottom : arg.type ≠ .bottom := by
      intro hb
      rw [hb] at harg'
      exact absurd harg' (by decide)
    have hnode : (Visit.fault? σ.stored (.expr (.call t f [arg]))).toList =
        if arg.type.isUnprintable then [⟨arg.span, .unsupported .printing⟩] else [] := by
      simp only [Visit.fault?, Expr.unsupported?, hprint, true_and]
      split_ifs <;> rfl
    rw [Expr.lower_print hprint, hnode, Expr.allVisits, Expr.allVisits, List.append_nil]
    refine .bind (hargs arg (List.mem_singleton_self _)) fun lo hlo => ?_
    refine .andThen (rvalue_decides hlo.1) fun v hv => ?_
    exact ofValue_decides rfl (.mono (print_decides hbottom) fun w hw => by
      show t.type.StoredAs w.ty
      rw [ht]
      exact hw)
  rw [fault?_call hprint, Option.toList_none, List.append_nil]
  by_cases hlength : f.name = "len"
  · have hft := henv (by decide) (hlength ▸ hf)
    obtain rfl : ft = ⟨[.object], .int⟩ := by simpa [TypeEnv.builtins] using hft
    cases hsuit with
    | @cons arg _ args _ harg hnil =>
    cases hnil
    have harg' : arg.type = .str ∨ arg.type.isList = true ∨ arg.type = .empty := by
      unfold checkArgument at harg
      rw [if_pos hlength] at harg
      split_ifs at harg with h
      simpa [or_assoc] using h
    rw [Expr.lower_len hlength, Expr.allVisits, Expr.allVisits, List.append_nil]
    refine .before (hargs arg (List.mem_singleton_self _)) fun lo hlo => ?_
    refine .andThen (rvalue_decides hlo.1) fun v hv => ?_
    exact ofValue_decides rfl (.mono (length_decides harg') fun w hw => by
      show t.type.StoredAs w.ty
      rw [ht]
      exact hw)
  by_cases hinput : f.name = "input"
  · have hft := henv (by decide) (hinput ▸ hf)
    obtain rfl : ft = ⟨[], .str⟩ := by simpa [TypeEnv.builtins] using hft
    cases hsuit
    rw [Expr.lower_input hinput]
    refine ofValue_decides rfl (.build (.callValue _ _) fun b => ?_)
    show t.type.StoredAs _
    rw [ht]
    rfl
  · have hbuiltin : f.name ∉ builtinNames := by simp [builtinNames, hprint, hlength, hinput]
    have hfits : List.Forall₂ (fun (e : Expr TypedTag) u => e.type.Fits u) args ft.params :=
      hsuit.imp fun arg param harg => by
        unfold checkArgument at harg
        rw [if_neg hlength] at harg
        exact .of_isAssignable (checkAssignable_ok.1 harg)
    rw [Expr.lower_call hprint hlength hinput]
    refine .andThen (.functionCallee hf hbuiltin) fun c hc => ?_
    refine .before (Expr.lowerArgs_decides hargs hfits hc.2) fun values _ => ?_
    refine ofValue_decides rfl (.build (.callValue _ _) fun b => ?_)
    show t.type.StoredAs c.ret
    rw [ht]
    exact hc.1

mutual

/-- A checked expression is lowered unless it has a fault. -/
theorem Expr.lower_decides (henv : σ.env.KeepsBuiltins) :
    ∀ e : Expr TypedTag, e.WellTyped σ.env → e.Decided σ
  | .literal t v, h => by
    refine ofValue_decides rfl (.mono (literal_decides v) fun w hw => ?_)
    show t.type.StoredAs w.ty
    rw [show t.type = _ from h]
    exact hw
  | .ident t x, h => by
    unfold Expr.Decided
    rw [Expr.visits, faults_cons, faults_nil, List.append_nil]
    exact .before (.variablePlace h) fun p hp => .pure ⟨hp, fun _ => rfl⟩
  | .unary t op e, ⟨he, hte, ht⟩ => by
    have hnode : faults σ.stored [.expr (.unary t op e)] = [] := rfl
    unfold Expr.Decided
    rw [Expr.visits, faults_append, hnode, List.append_nil]
    refine .before (Expr.lower_decides henv e he) fun lo hlo => ?_
    refine .andThen (rvalue_decides hlo.1) fun v hv => ?_
    rw [hte] at hv
    refine ofValue_decides rfl (.mono (unaryOp_decides hv) fun w hw => ?_)
    show t.type.StoredAs w.ty
    rw [ht]
    exact hw
  | .binary t op l r, ⟨hl, hr, hleft, ht⟩ => by
    have hlv := Expr.lower_decides henv l hl
    have hrv := Expr.lower_decides henv r hr
    unfold Expr.Decided
    rw [Expr.visits, faults_append, faults_append]
    by_cases hop : op = .and ∨ op = .or
    · obtain ⟨hlt, hrt, htt⟩ := andOr_types hop hleft ht
      have hnode : faults σ.stored [.expr (.binary t op l r)] = [] := by
        rcases hop with rfl | rfl <;> rfl
      rw [hnode, List.append_nil]
      have hl' := hlv.value
      have hr' := hrv.value
      rw [hlt] at hl'
      rw [hrt] at hr'
      have hgive : ∀ {isAnd}, Decides σ
          (shortCircuit isAnd (do rvalue (← l.lower)) (do rvalue (← r.lower)))
          (faults σ.stored l.visits ++ faults σ.stored r.visits) fun v => t.type.StoredAs v.ty := by
        intro isAnd
        rw [htt]
        exact shortCircuit_decides hl' hr'
      rcases hop with rfl | rfl
      · exact ofValue_decides rfl hgive
      · exact ofValue_decides rfl hgive
    · rw [Expr.lower_binary (fun h => hop (.inl h)) (fun h => hop (.inr h)), faults_cons, faults_nil,
        List.append_nil, List.append_assoc]
      refine .bind hlv fun lo hlo => .andThen (rvalue_decides hlo.1) fun lv hlv => ?_
      refine .bind hrv fun lo hlo => .andThen (rvalue_decides hlo.1) fun rv hrv => ?_
      exact ofValue_decides rfl (binaryOp_decides hleft ht hlv hrv)
  | .cond t c a b, ⟨hc, ha, hb, htc, ht⟩ => by
    have hnode : faults σ.stored [.expr (.cond t c a b)] = [] := rfl
    unfold Expr.Decided
    rw [Expr.visits, faults_append, hnode, List.append_nil, faults_append, faults_append]
    refine ofValue_decides rfl (conditional_decides (t := t.type)
      (.mono (Expr.lower_decides henv c hc).value fun _ _ => trivial)
      (Expr.lower_decides henv a ha).value (Expr.lower_decides henv b hb).value ?_ ?_)
    · rw [ht]
      exact .join_left _ _
    · rw [ht]
      exact .join_right _ _
  | .list t es, ⟨hes, ht⟩ => by
    unfold Expr.Decided
    rw [Expr.visits, faults_cons]
    refine ofValue_decides rfl (.mono (display_decides ht fun shape content hfit =>
      Expr.lowerItems_decides es 0 (Expr.allLower_decides henv es hes) hfit) fun v hv => ?_)
    show t.type.StoredAs v.ty
    rw [ht]
    exact displayType_isPtr es hv
  | .call t f args, ⟨hargs, ft, hf, hsuit, ht⟩ =>
    Expr.lowerCall_decides henv (Expr.allLower_decides henv args hargs) hf hsuit ht
  | .index t e i, ⟨he, hi, hti, ht⟩ => by
    have hnode : faults σ.stored [.expr (.index t e i)] = [] := rfl
    unfold Expr.Decided
    rw [Expr.visits, faults_append, hnode, List.append_nil, faults_append]
    refine .bind (Expr.lower_decides henv e he) fun lo hlo => ?_
    refine .andThen (rvalue_decides hlo.1) fun seq hseq => ?_
    refine .before (Expr.lower_decides henv i hi) fun lo hlo => ?_
    refine .andThen (rvalue_decides hlo.1) fun index hindex => ?_
    refine .mono (item_decides ht) fun lo hlo => ⟨hlo.1, fun htarget => hlo.2 ?_⟩
    simpa [Expr.isTarget] using htarget
termination_by structural e => e

theorem Expr.allLower_decides (henv : σ.env.KeepsBuiltins) :
    ∀ es : List (Expr TypedTag), Expr.AllWellTyped σ.env es → ∀ e ∈ es, e.Decided σ
  | [], _ => nofun
  | e :: es, ⟨he, hes⟩ =>
    List.forall_mem_cons.2 ⟨Expr.lower_decides henv e he, Expr.allLower_decides henv es hes⟩
termination_by structural es => es

end

end Expressions

/-! ## Statements -/

namespace Lower

variable {σ : Setting} {F G H : List (Located LoweringError)}

theorem ifElse_decides {test : Lower Value} {body orElse : Lower Unit}
    (ht : Decides σ test F fun _ => True) (hb : Decides σ body G fun _ => True)
    (he : Decides σ orElse H fun _ => True) :
    Decides σ (ifElse test body orElse) (F ++ G ++ H) fun _ => True := by
  rw [List.append_assoc]
  refine .andThen (.act .labelId) fun _ _ => .andThen (.act (.appendBlock _)) fun _ _ =>
    .andThen (.act (.appendBlock _)) fun _ _ => .andThen (.act (.appendBlock _)) fun _ _ =>
    .bind ht fun _ _ => .andThen (.act (.condBr _ _ _)) fun _ _ => ?_
  refine .andThen (.act (.moveTo _)) fun _ _ => .bind hb fun _ _ =>
    .andThen (.act (.brIfOpen _)) fun _ _ => ?_
  exact .andThen (.act (.moveTo _)) fun _ _ => .before he fun _ _ =>
    .andThen (.act (.brIfOpen _)) fun _ _ => .act (.moveTo _)

theorem whileLoop_decides {test : Lower Value} {body : Lower Unit}
    (ht : Decides σ test F fun _ => True) (hb : Decides σ body G fun _ => True) :
    Decides σ (whileLoop test body) (F ++ G) fun _ => True := by
  refine .andThen (.act .labelId) fun _ _ => .andThen (.act (.appendBlock _)) fun _ _ =>
    .andThen (.act (.appendBlock _)) fun _ _ => .andThen (.act (.appendBlock _)) fun _ _ =>
    .andThen (.act (.br _)) fun _ _ => .andThen (.act (.moveTo _)) fun _ _ => ?_
  exact .bind ht fun _ _ => .andThen (.act (.condBr _ _ _)) fun _ _ =>
    .andThen (.act (.moveTo _)) fun _ _ => .before hb fun _ _ =>
    .andThen (.act (.brIfOpen _)) fun _ _ => .act (.moveTo _)

theorem forLoop_decides {target : Ident} {iter : Lower Value} {type t u : ValueType} {span : Span}
    {body : Lower Unit} (hx : σ.env.lookup target.name = some (.var t)) (hu : type.item? = some u)
    (hfit : u.Fits t) (hi : Decides σ iter F fun _ => True) (hb : Decides σ body G fun _ => True) :
    Decides σ (forLoop target iter type span body)
      (F ++ ((target.fault? σ.stored).toList ++ G)) fun _ => True := by
  have hlength : type = .str ∨ type.isList = true ∨ type = .empty := by
    cases type with
    | str => exact .inl rfl
    | list _ => exact .inr (.inl rfl)
    | _ => cases hu
  refine .bind hi fun seq _ => .bind (.variablePlace hx) fun slot hslot => ?_
  refine .andThen (.act (.alloca _ _)) fun index _ => .andThen (.act (.store _ _)) fun _ _ =>
    .andThen (.act .labelId) fun _ _ => .andThen (.act (.appendBlock _)) fun _ _ =>
    .andThen (.act (.appendBlock _)) fun _ _ => .andThen (.act (.appendBlock _)) fun _ _ =>
    .andThen (.act (.appendBlock _)) fun _ _ => .andThen (.act (.br _)) fun _ _ =>
    .andThen (.act (.moveTo _)) fun _ _ => ?_
  refine .andThen (.act (.load _)) fun i _ => .andThen (length_decides hlength) fun n _ =>
    .andThen (.act (.icmp _ _ _)) fun more _ => .andThen (.act (.condBr _ _ _)) fun _ _ =>
    .andThen (.act (.moveTo _)) fun _ _ => ?_
  refine .andThen (.act (.load _)) fun i _ => .andThen (item_decides hu) fun lo hlo =>
    .andThen (rvalue_decides hlo.1) fun v hv => .andThen (.coerce hv hslot hfit) fun w _ =>
    .andThen (.act (.store _ _)) fun _ _ => ?_
  exact .before hb fun _ _ => .andThen (.act (.brIfOpen _)) fun _ _ =>
    .andThen (.act (.moveTo _)) fun _ _ => .andThen (.act (.load _)) fun _ _ =>
    .andThen (.act (.binary _ _ _)) fun _ _ => .andThen (.act (.store _ _)) fun _ _ =>
    .andThen (.act (.br _)) fun _ _ => .act (.moveTo _)

theorem assignTo_decides {v : Value} {t : ValueType} {target : Expr TypedTag}
    (h : target.Decided σ) (htarget : target.isTarget = true) (hv : t.StoredAs v.ty)
    (hfit : t.Fits target.type) :
    Decides σ (assignTo v target) (faults σ.stored target.visits) fun _ => True := by
  refine .before h fun lo hlo => ?_
  cases lo with
  | value w => cases hlo.2 htarget
  | place p => exact .andThen (.coerce hv hlo.1 hfit) fun _ _ => .act (.store _ _)

theorem assignAll_decides {v : Value} {t : ValueType} (hv : t.StoredAs v.ty) :
    ∀ {targets : List (Expr TypedTag)}, (∀ target ∈ targets, target.Decided σ ∧
      target.isTarget = true ∧ t.Fits target.type) →
      Decides σ (targets.forM (assignTo v)) (faults σ.stored (Expr.allVisits targets)) fun _ => True
  | [], _ => .pure trivial
  | target :: targets, h => by
    obtain ⟨⟨hd, htarget, hfit⟩, h⟩ := List.forall_mem_cons.1 h
    rw [Expr.allVisits, faults_append]
    exact .bind (assignTo_decides hd htarget hv hfit) fun _ _ => assignAll_decides hv h

end Lower

section Statements

variable {σ : Setting}

theorem ret_decides (hr : σ.returns = true) {value : Ty → Lower Value} {t : ValueType}
    {F : List (Located LoweringError)} {span : Span} (hfit : t.Fits σ.env.returnType)
    (hv : ∀ ty, σ.env.returnType.StoredAs ty → Decides σ (value ty) F fun v => t.StoredAs v.ty) :
    Decides σ (do
      let ty ← returnTy
      let v ← value ty
      let v ← coerce v ty span
      Build.ret (some v)) F fun _ => True :=
  .andThen (.returnTy hr) fun ty hty => .before (hv ty hty) fun _ hv =>
    .andThen (.coerce hv hty hfit) fun _ _ => .act (.ret _)

mutual

/-- A checked statement is lowered unless it has a fault. -/
theorem Stmt.lower_decides (henv : σ.env.KeepsBuiltins) : ∀ s : Stmt TypedTag, s.WellTyped σ.env →
    (s.hasReturn = true → σ.returns = true) →
      Decides σ s.lower (faults σ.stored s.visits) fun _ => True
  | .ifElse s c a b, ⟨hc, _, ha, hb⟩, hr => by
    have hr' := fun h => hr (Bool.or_eq_true_iff.2 h)
    show Decides σ _ (faults σ.stored (c.visits ++ Stmt.allVisits a ++ Stmt.allVisits b)) _
    rw [faults_append, faults_append]
    exact ifElse_decides (.mono (Expr.lower_decides henv c hc).value fun _ _ => trivial)
      (Stmt.lowerAll_decides henv a ha fun h => hr' (.inl h))
      (Stmt.lowerAll_decides henv b hb fun h => hr' (.inr h))
  | .whileLoop s c a, ⟨hc, _, ha⟩, hr => by
    show Decides σ _ (faults σ.stored (c.visits ++ Stmt.allVisits a)) _
    rw [faults_append]
    exact whileLoop_decides (.mono (Expr.lower_decides henv c hc).value fun _ _ => trivial)
      (Stmt.lowerAll_decides henv a ha hr)
  | .forLoop s x e a, ⟨he, ha, t, u, hx, hu, hassign⟩, hr => by
    rw [Stmt.visits, faults_append, faults_cons]
    exact forLoop_decides hx hu (.of_isAssignable hassign)
      (.mono (Expr.lower_decides henv e he).value fun _ _ => trivial)
      (Stmt.lowerAll_decides henv a ha hr)
  | .pass _, _, _ => .pure trivial
  | .ret s none, h, hr => by
    show Decides σ (Lower.ret none s) [] _
    exact ret_decides (hr rfl) (.refl _) fun ty hty => .pure hty
  | .ret s (some e), h, hr => by
    show Decides σ (Lower.ret (some e) s) (faults σ.stored e.visits) _
    exact ret_decides (hr rfl) (.of_isAssignable h.2) fun _ _ => (Expr.lower_decides henv e h.1).value
  | .assign s targets e, ⟨he, hts⟩, _ => by
    show Decides σ _ (faults σ.stored (e.visits ++ Expr.allVisits targets)) _
    rw [faults_append]
    refine .bind (Expr.lower_decides henv e he).value fun v hv => assignAll_decides hv fun target hm => ?_
    obtain ⟨hw, hassign, htarget⟩ := hts target hm
    exact ⟨Expr.lower_decides henv target hw, htarget, .of_isAssignable hassign⟩
  | .expr s e, he, _ => by
    show Decides σ _ (faults σ.stored e.visits) _
    exact .before (Expr.lower_decides henv e he) fun _ _ => .pure trivial
termination_by structural s => s

theorem Stmt.lowerAll_decides (henv : σ.env.KeepsBuiltins) : ∀ ss : List (Stmt TypedTag),
    Stmt.AllWellTyped σ.env ss → (Stmt.anyReturn ss = true → σ.returns = true) →
      Decides σ (Stmt.lowerAll ss) (faults σ.stored (Stmt.allVisits ss)) fun _ => True
  | [], _, _ => .pure trivial
  | s :: ss, ⟨hs, hss⟩, hr => by
    have hr' := fun h => hr (Bool.or_eq_true_iff.2 h)
    rw [Stmt.allVisits, faults_append]
    exact .bind (Stmt.lower_decides henv s hs fun h => hr' (.inl h))
      fun _ _ => Stmt.lowerAll_decides henv ss hss fun h => hr' (.inr h)
termination_by structural ss => ss

end

end Statements

end ChocoCompiler
