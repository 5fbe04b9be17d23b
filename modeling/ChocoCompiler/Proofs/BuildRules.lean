import ChocoCompiler.Proofs.Emission

/-!
# Rules for building functions

A point of a function under construction is described by what may be relied on there: the names that are
known, the blocks that can be gone to and the names each of them asks for, and the labels that are still free.
`Build.Safe C x Q` says that wherever `C` may be relied on, `x` does nothing but steps and leads to a point
described by `Q`.
-/

namespace ChocoCompiler.Ir

/-- What may be relied on at a point of a function under construction. -/
structure Context where
  names : Set String
  /-- The blocks that can be gone to, each with the names that must be known on the way. -/
  targets : Set (BlockRef × Set String)
  fresh : Set String
  vars : List String
  ret : Ty

namespace Context

variable {C C' : Context} {d d' : Draft}

/-- Everything that may be relied on for good in one context also may in the other. -/
instance : Preorder Context where
  le C C' := C.names ⊆ C'.names ∧ C.targets ⊆ C'.targets ∧ C.vars = C'.vars ∧ C.ret = C'.ret
  le_refl _ := ⟨subset_rfl, subset_rfl, rfl, rfl⟩
  le_trans _ _ _ h h' :=
    ⟨h.1.trans h'.1, h.2.1.trans h'.2.1, h.2.2.1.trans h'.2.2.1, h.2.2.2.trans h'.2.2.2⟩

def Knows (C : Context) (v : Value) : Prop := ∀ x, v.operand = .local x → x ∈ C.names

/-- The block can be gone to where the names are known. -/
def Target (C : Context) (r : BlockRef) (names : Set String) : Prop := (r, names) ∈ C.targets

theorem Knows.mono {v : Value} (h : C.Knows v) (hC : C ≤ C') : C'.Knows v :=
  fun x hx => hC.1 (h x hx)

theorem Target.mono {r : BlockRef} {S : Set String} (h : C.Target r S) (hC : C ≤ C') :
    C'.Target r S :=
  hC.2.1 h

theorem Knows.of_operand {v w : Value} (h : C.Knows v) (he : w.operand = v.operand) : C.Knows w :=
  fun x hx => h x (he ▸ hx)

theorem knows_int (C : Context) (ty : Ty) (n : Int) : C.Knows ⟨ty, .int n⟩ := nofun

theorem knows_null (C : Context) (ty : Ty) : C.Knows (.null ty) := nofun

theorem knows_global (C : Context) (name : String) (ty : Ty) : C.Knows (.global name ty) := nofun

/-- The labels with these stems and this number are still free. -/
def Free (C : Context) (id : Nat) (stems : List String) : Prop :=
  ∀ stem ∈ stems, stem ∈ labelStems ∧ stem ++ toString id ∈ C.fresh

/-- The context without free labels. -/
def settled (C : Context) : Context := { C with fresh := ∅ }

/-- The context in a block that has just been gone to. -/
def atStart (C : Context) (S : Set String) : Context := { C with names := S, fresh := ∅ }

def know (C : Context) (x : String) : Context :=
  { C with names := insert x C.names, fresh := ∅ }

def addVar (C : Context) (x : String) : Context := { C with vars := C.vars ++ [x] }

def start (ret : Ty) (params : List (String × Ty)) : Context :=
  ⟨{x | x ∈ params.map Prod.fst}, ∅, {l | l ∈ libraryLabels}, [], ret⟩

theorem le_settled (C : Context) : C ≤ C.settled := ⟨subset_rfl, subset_rfl, rfl, rfl⟩

theorem le_know (C : Context) (x : String) : C ≤ C.know x :=
  ⟨Set.subset_insert _ _, subset_rfl, rfl, rfl⟩

theorem le_atStart {S : Set String} (hC : C ≤ C') (hS : C.names ⊆ S) : C ≤ C'.atStart S :=
  ⟨hS, hC.2⟩

/-- The draft is at a point where the context may be relied on. -/
structure Holds (C : Context) (d : Draft) : Prop where
  names : C.names ⊆ d.scope
  targets : ∀ {r S}, C.Target r S → 0 < r.position ∧ IsLabel d.builder.nextLabel r.label ∧
    d.builder.function.labels[r.position]? = some r.label ∧ d.known[r.position]? = some S
  fresh : ∀ l ∈ C.fresh, IsLabel d.builder.nextLabel l ∧ l ∉ d.builder.function.labels
  vars : d.vars = C.vars
  ret : d.builder.function.ret = C.ret

theorem Holds.knows (h : C.Holds d) {v : Value} (hv : C.Knows v) : d.Knows v :=
  fun x hx => h.names (hv x hx)

/-- A step that stays in its block keeps all but the free labels. -/
theorem Holds.step (h : C.Holds d) (hs : d.Step d') (hcur : d'.builder.current = d.builder.current)
    (hvars : d'.vars = d.vars) : C.settled.Holds d' where
  names := by
    intro x hx
    unfold Draft.scope
    rw [hcur]
    exact hs.namesAt _ (h.names hx)
  targets ht := by
    obtain ⟨hpos, hlabel, hl, hK⟩ := h.targets ht
    exact ⟨hpos, hlabel.mono hs.nextLabel_le, hs.grows.label hl,
      Draft.known_getElem? hs.known_prefix hK⟩
  fresh := nofun
  vars := hvars.trans h.vars
  ret := hs.grows.ret.trans h.ret

theorem Holds.move (h : C.Holds d) (hs : d.Step d') {S : Set String}
    (hK : d'.known[d'.builder.current]? = some S) (hvars : d'.vars = d.vars) :
    (C.atStart S).Holds d' where
  names x hx := .inr (.inl ⟨S, hK, hx⟩)
  targets ht := by
    obtain ⟨hpos, hlabel, hl, hK⟩ := h.targets ht
    exact ⟨hpos, hlabel.mono hs.nextLabel_le, hs.grows.label hl,
      Draft.known_getElem? hs.known_prefix hK⟩
  fresh := nofun
  vars := hvars.trans h.vars
  ret := hs.grows.ret.trans h.ret

theorem Holds.weaken (h : C.Holds d) {S : Set String} (hS : S ⊆ C.names) :
    Holds { C with names := S, fresh := ∅ } d where
  names := hS.trans h.names
  targets := h.targets
  fresh := nofun
  vars := h.vars
  ret := h.ret

theorem start_holds (name : String) (ret : Ty) (params : List (String × Ty)) :
    (start ret params).Holds (.start name ret params) where
  names x hx := .inl (List.mem_append_left _ hx)
  targets ht := ht.elim
  fresh l hl := by
    refine ⟨.inr hl, fun hm => ?_⟩
    have hne : "entry" ∉ libraryLabels := by decide
    rw [show (Draft.start name ret params).builder.function.labels = ["entry"] from rfl,
      List.mem_singleton] at hm
    exact hne (hm ▸ hl)
  vars := rfl
  ret := rfl

end Context

/-! ## Builders as state transformers -/

section Builder

variable (b : Builder)

theorem reopen_of_open (h : b.isTerminated = false) : (Build.reopen b).2 = b := by
  simp [Build.reopen, Build.isTerminated, bind, StateT.bind, h]
  rfl

theorem reopen_of_closed (h : b.isTerminated = true) : (Build.reopen b).2 = b.openDead := by
  simp [Build.reopen, Build.isTerminated, bind, StateT.bind, h]
  rfl

theorem push_eq (i : Instr) : (Build.push i b).2 = (Build.reopen b).2.append i := rfl

theorem terminate_eq (t : Terminator) : (Build.terminate t b).2 = (Build.reopen b).2.close t := rfl

theorem reopen_drawTemp : (Build.reopen b.drawTemp).2 = (Build.reopen b).2.drawTemp := by
  have hd : b.drawTemp.isTerminated = b.isTerminated := rfl
  cases h : b.isTerminated with
  | true =>
    rw [reopen_of_closed b h, reopen_of_closed _ (hd.trans h)]
    rfl
  | false => rw [reopen_of_open b h, reopen_of_open _ (hd.trans h)]

theorem openDead_open : b.openDead.isTerminated = false := by
  simp [Builder.isTerminated, Builder.openDead]

theorem mem_defs_append {i : Instr} {x : String} (hcur : b.current < b.function.labels.length)
    (hx : i.dst? = some x) : ∃ blk, (b.append i).function.blocks[b.current]? = some blk ∧
      x ∈ blk.defs := by
  unfold Function.labels at hcur
  rw [List.length_map] at hcur
  unfold Builder.append
  rw [modifyBlock_blocks_getElem?, List.getElem?_eq_getElem hcur]
  exact ⟨_, rfl, by simp [Block.defs, hx]⟩

end Builder

/-! ## The rules -/

namespace Build

variable {α β : Type} {C C' : Context} {d : Draft}

/-- Where the context may be relied on, the action only takes steps, and `Q` describes the point it
leads to. -/
def Safe (C : Context) (x : Build α) (Q : α → Context → Prop) : Prop :=
  ∀ d : Draft, d.Valid → C.Holds d →
    ∃ d' C', d'.builder = (x d.builder).2 ∧ d.Emits d' ∧ C'.Holds d' ∧ Q (x d.builder).1 C'

/-- Nothing is lost, and a value of type `ty` is known. -/
def Gives (C : Context) (ty : Ty) (v : Value) (C' : Context) : Prop :=
  C ≤ C' ∧ C'.Knows v ∧ v.ty = ty

namespace Safe

theorem pure {a : α} {Q : α → Context → Prop} (h : Q a C) : Safe C (Pure.pure a : Build α) Q :=
  fun d _ hC => ⟨d, C, rfl, .refl d, hC, h⟩

theorem bind {x : Build α} {f : α → Build β} {R : α → Context → Prop} {Q : β → Context → Prop}
    (hx : Safe C x R) (hf : ∀ a C', R a C' → Safe C' (f a) Q) : Safe C (x >>= f) Q := by
  intro d hd hC
  obtain ⟨d₁, C₁, hb₁, he₁, hC₁, hR⟩ := hx d hd hC
  obtain ⟨d₂, C₂, hb₂, he₂, hC₂, hQ⟩ := hf _ _ hR d₁ (he₁.valid hd) hC₁
  rw [hb₁] at hb₂ hQ
  exact ⟨d₂, C₂, hb₂, he₁.trans he₂, hC₂, hQ⟩

theorem mono {x : Build α} {Q R : α → Context → Prop} (hx : Safe C x R)
    (h : ∀ a C', R a C' → Q a C') : Safe C x Q := by
  intro d hd hC
  obtain ⟨d', C', hb, he, hC', hR⟩ := hx d hd hC
  exact ⟨d', C', hb, he, hC', h _ _ hR⟩

/-- Standing at a closed block, a builder first goes to a fresh one. -/
theorem reopen_emits (hd : d.Valid) (hC : C.Holds d) :
    ∃ d', d'.builder = (reopen d.builder).2 ∧ d.Emits d' ∧
      C.settled.Holds d' ∧ d'.builder.isTerminated = false ∧
      d'.builder.nextTemp = d.builder.nextTemp := by
  cases h : d.builder.isTerminated with
  | false =>
    exact ⟨d, (reopen_of_open _ h).symm, .refl d, hC.weaken subset_rfl, h, rfl⟩
  | true =>
    have hs := Draft.Step.dead d h
    refine ⟨_, (reopen_of_closed _ h).symm, hs.emits, ?_, openDead_open _, rfl⟩
    have hm := hC.move hs (S := Set.univ) (by
      have hl := hd.known_length
      unfold Function.labels at hl
      rw [List.length_map] at hl
      simp [Builder.openDead, ← hl]) rfl
    exact hm.weaken (Set.subset_univ _)

theorem define {ty : Ty} {mk : String → Instr} (hdst : ∀ t, (mk t).dst? = some t)
    (htyped : ∀ t, (mk t).isWellTyped = true) (hknown : ∀ t, ∀ v ∈ (mk t).operands, C.Knows v) :
    Safe C (define ty mk) (Gives C ty) := by
  intro d hd hC
  obtain ⟨d₁, hb₁, he₁, hC₁, hopen, htemp⟩ := reopen_emits hd hC
  have hs := Draft.Step.define d₁ (mk (tempName d.builder.nextTemp)) hopen
    (by rw [hdst, htemp]) (htyped _) fun v hv => hC₁.knows (hknown _ v hv)
  have hC₂ := hC₁.step hs rfl rfl
  refine ⟨_, C.know (tempName d.builder.nextTemp), ?_, he₁.trans hs.emits, ?_, C.le_know _, ?_, rfl⟩
  · rw [hb₁]
    change _ = (push (mk (tempName d.builder.nextTemp)) d.builder.drawTemp).2
    rw [push_eq, reopen_drawTemp]
    rfl
  · refine ⟨?_, hC₂.targets, nofun, hC₂.vars, hC₂.ret⟩
    rintro x (rfl | hx)
    · exact .inr (.inr (mem_defs_append d₁.builder (he₁.valid hd).current_lt (hdst _)))
    · exact hC₂.names hx
  · intro x hx
    cases hx
    exact Set.mem_insert _ _

theorem push {i : Instr} (hdst : i.dst? = none) (htyped : i.isWellTyped = true)
    (hknown : ∀ v ∈ i.operands, C.Knows v) : Safe C (push i) fun _ C' => C ≤ C' := by
  intro d hd hC
  obtain ⟨d₁, hb₁, he₁, hC₁, hopen, -⟩ := reopen_emits hd hC
  have hs := Draft.Step.effect d₁ i hopen hdst htyped fun v hv => hC₁.knows (hknown v hv)
  refine ⟨_, _, ?_, he₁.trans hs.emits, hC₁.step hs rfl rfl, C.le_settled⟩
  rw [push_eq, hb₁]

theorem terminate {t : Terminator} (htyped : t.isWellTyped C.ret = true)
    (hknown : ∀ v ∈ t.operands, C.Knows v)
    (hleads : ∀ l ∈ t.successors, ∃ r S, C.Target r S ∧ r.label = l ∧ S ⊆ C.names) :
    Safe C (terminate t) fun _ C' => C ≤ C' := by
  intro d hd hC
  obtain ⟨d₁, hb₁, he₁, hC₁, hopen, -⟩ := reopen_emits hd hC
  have hs := Draft.Step.close d₁ t hopen (by rw [hC₁.ret]; exact htyped)
    (fun v hv => hC₁.knows (hknown v hv)) (by
      intro l hl
      obtain ⟨r, S, hr, rfl, hS⟩ := hleads l hl
      obtain ⟨hpos, hlabel, hl, hK⟩ := hC₁.targets hr
      exact ⟨hlabel, _, S, hpos, hl, hK, hS.trans hC₁.names⟩)
  refine ⟨_, _, ?_, he₁.trans hs.emits, hC₁.step hs rfl rfl, C.le_settled⟩
  rw [terminate_eq, hb₁]

theorem labelId : Safe C labelId fun id C' =>
    C ≤ C' ∧ C'.names = C.names ∧ ∀ stems, stems ⊆ labelStems → C'.Free id stems := by
  intro d hd hC
  have hs := Draft.Step.number d
  have hC₁ := hC.step hs rfl rfl
  refine ⟨_, { C with fresh := {l | ∃ stem ∈ labelStems, l = stem ++ toString d.builder.nextLabel} },
    rfl, hs.emits, ⟨hC₁.names, hC₁.targets, ?_, hC₁.vars, hC₁.ret⟩, C.le_settled, rfl,
    fun _ hstems stem hstem => ⟨hstems hstem, stem, hstems hstem, rfl⟩⟩
  rintro l ⟨stem, hstem, rfl⟩
  exact ⟨.inl ⟨stem, hstem, _, Nat.lt_succ_self _, rfl⟩,
    hd.numbered_fresh (List.mem_cons_of_mem _ hstem)⟩

theorem appendBlock {label : String} (hlabel : label ∈ C.fresh) :
    Safe C (appendBlock label) fun r C' =>
      C ≤ C' ∧ C'.names = C.names ∧ C'.Target r C.names ∧ C'.fresh = C.fresh \ {label} := by
  intro d hd hC
  obtain ⟨hshape, hnew⟩ := hC.fresh label hlabel
  have hs := Draft.Step.block d label C.names hshape hnew
  have hC₁ := hC.step hs rfl rfl
  let r : BlockRef := ⟨d.builder.function.blocks.length, label⟩
  have hlen : d.builder.function.labels.length = d.builder.function.blocks.length := by
    simp [Function.labels]
  refine ⟨_, { C with targets := insert (r, C.names) C.targets, fresh := C.fresh \ {label} }, rfl,
    hs.emits, ⟨hC₁.names, ?_, ?_, hC₁.vars, hC₁.ret⟩,
    ⟨subset_rfl, Set.subset_insert _ _, rfl, rfl⟩, rfl, Set.mem_insert _ _, rfl⟩
  · rintro r' S (h | h)
    · obtain ⟨rfl, rfl⟩ := Prod.mk.inj h
      refine ⟨?_, hshape, ?_, ?_⟩
      · show 0 < d.builder.function.blocks.length
        rw [← hlen]
        exact Nat.zero_lt_of_lt hd.current_lt
      · show (Build.appendBlock label d.builder).2.function.labels[
          d.builder.function.blocks.length]? = some label
        rw [appendBlock_labels, ← hlen]
        simp
      · show (d.known ++ [C.names])[d.builder.function.blocks.length]? = _
        rw [← hlen, ← hd.known_length]
        simp
    · exact hC₁.targets h
  · rintro l ⟨hl, hne⟩
    obtain ⟨hl, hnl⟩ := hC.fresh l hl
    refine ⟨hl, ?_⟩
    rw [appendBlock_labels, List.mem_append, List.mem_singleton]
    rintro (h | h)
    · exact hnl h
    · exact hne h

theorem newBlock {stem : String} {stems : List String} {id : Nat} (hf : C.Free id (stem :: stems))
    (hn : stem ∉ stems) :
    Safe C (Build.appendBlock (stem ++ toString id)) fun r C' =>
      C ≤ C' ∧ C'.names = C.names ∧ C'.Target r C.names ∧ C'.Free id stems := by
  obtain ⟨hstem, hfresh⟩ := hf stem (List.mem_cons_self ..)
  refine (appendBlock hfresh).mono ?_
  rintro r C' ⟨hC', hnames, ht, hfree⟩
  refine ⟨hC', hnames, ht, ?_⟩
  intro s hs
  obtain ⟨hsl, hsf⟩ := hf s (List.mem_cons_of_mem _ hs)
  refine ⟨hsl, hfree ▸ ⟨hsf, fun he => hn ?_⟩⟩
  have hdot := endsInDot_of_mem_labelStems _ (List.mem_cons_of_mem _ hsl)
  have hdot' := endsInDot_of_mem_labelStems _ (List.mem_cons_of_mem _ hstem)
  exact (numbered_inj hdot hdot' he).1 ▸ hs

/-- What was known where the block was made is known in it, and no block gets lost. -/
theorem moveTo {C₀ : Context} {r : BlockRef} {S : Set String} (hr : C.Target r S) (hC₀ : C₀ ≤ C)
    (hS : C₀.names ⊆ S) :
    Safe C (moveTo r) fun _ C' => C₀ ≤ C' ∧ ∀ {r S}, C.Target r S → C'.Target r S := by
  intro d hd hC
  obtain ⟨-, -, hl, hK⟩ := hC.targets hr
  have hs := Draft.Step.move d r.position (by
    have := (List.getElem?_eq_some_iff.1 hl).1
    simpa [Function.labels] using this)
  exact ⟨_, _, rfl, hs.emits, hC.move hs hK rfl, Context.le_atStart hC₀ hS, fun h => h⟩

theorem alloca_holds {hint : String} {ty : Ty} {vs : List String} (hC : C.Holds d)
    (hs : d.Step ⟨(Build.alloca hint ty d.builder).2, d.known, vs⟩) :
    ∃ C', C'.Holds ⟨(Build.alloca hint ty d.builder).2, d.known, vs⟩ ∧
      { C with vars := vs } ≤ C' ∧ C'.Knows (Build.alloca hint ty d.builder).1.ptr := by
  let x := if d.builder.slotHints.count hint = 0 then hint
    else hint ++ "." ++ toString (d.builder.slotHints.count hint)
  refine ⟨Context.know { C with vars := vs } x, ⟨?_, ?_, nofun, rfl, hC.ret⟩, Context.le_know _ x, ?_⟩
  · rintro y (rfl | hy)
    · exact .inl (List.mem_append_right _ (by simp [Build.alloca, x]))
    · exact hs.namesAt _ (hC.names hy)
  · exact hC.targets
  · intro y hy
    cases hy
    exact Set.mem_insert _ _

/-- Nothing is lost, and the address of something of type `ty` is known. -/
def GivesPlace (C : Context) (ty : Ty) (p : Place) (C' : Context) : Prop :=
  C ≤ C' ∧ C'.Knows p.ptr ∧ p.ty = ty

theorem alloca {hint : String} (hhint : hint ∈ slotHints) (ty : Ty) :
    Safe C (alloca hint ty) (GivesPlace C ty) := by
  intro d hd hC
  have hs := Draft.Step.slot d hint ty hhint
  obtain ⟨C', hC', hle, hp⟩ := alloca_holds hC hs
  refine ⟨_, C', rfl, hs.emits, hC', ?_, hp, rfl⟩
  rw [hC.vars] at hle
  exact hle

theorem allocaVar (x : String) (ty : Ty) :
    Safe C (Build.alloca (x ++ ".addr") ty) (GivesPlace (C.addVar x) ty) := by
  intro d hd hC
  have hs := Draft.Step.varSlot d x ty
  obtain ⟨C', hC', hle, hp⟩ := alloca_holds hC hs
  refine ⟨_, C', rfl, hs.emits, hC', ?_, hp, rfl⟩
  rw [hC.vars] at hle
  exact hle

theorem load {p : Place} (hp : C.Knows p.ptr) : Safe C (load p) (Gives C p.ty) :=
  define (fun _ => rfl) (fun _ => by simp [Instr.isWellTyped, Place.ptr])
    (fun _ v hv => by rw [List.mem_singleton.1 hv]; exact hp)

theorem store {v p : Value} {t : Ty} (hv : C.Knows v) (hp : C.Knows p) (hpt : p.ty = .ptr t)
    (hvt : v.ty.sameRepr t = true) : Safe C (store v p) fun _ C' => C ≤ C' :=
  push rfl (by simp [Instr.isWellTyped, hpt, Ty.pointee?, hvt])
    (by simp [Instr.operands, hv, hp])

theorem binary {op : ArithOp} {l r : Value} {t : Ty} (hl : C.Knows l) (hr : C.Knows r)
    (hlt : l.ty = t) (hrt : r.ty = t) (ht : t.isInt = true) :
    Safe C (binary op l r) (Gives C t) := by
  subst hlt
  exact define (fun _ => rfl) (fun _ => by simp [Instr.isWellTyped, hrt, ht])
    (fun _ => by simp [Instr.operands, hl, hr])

theorem icmp {pred : Pred} {l r : Value} (hl : C.Knows l) (hr : C.Knows r)
    (ht : l.ty.sameRepr r.ty = true) : Safe C (icmp pred l r) (Gives C .i1) :=
  define (fun _ => rfl) (fun _ => ht) (fun _ => by simp [Instr.operands, hl, hr])

theorem select {c l r : Value} (hc : C.Knows c) (hl : C.Knows l) (hr : C.Knows r)
    (hct : c.ty = .i1) (ht : l.ty.sameRepr r.ty = true) :
    Safe C (select c l r) (Gives C l.ty) :=
  define (fun _ => rfl) (fun _ => by simp [Instr.isWellTyped, hct, ht])
    (fun _ => by simp [Instr.operands, hc, hl, hr])

theorem callValue {c : Callee} {args : List Value} (hargs : ∀ v ∈ args, C.Knows v)
    (hacc : c.accepts args = true) (hret : c.ret ≠ .void) :
    Safe C (callValue c args) (Gives C c.ret) :=
  define (fun _ => rfl) (fun _ => by simp [Instr.isWellTyped, hacc, hret]) fun _ => hargs

theorem callVoid {c : Callee} {args : List Value} (hargs : ∀ v ∈ args, C.Knows v)
    (hacc : c.accepts args = true) (hret : c.ret = .void) :
    Safe C (call c args) fun _ C' => C ≤ C' := by
  unfold call
  rw [if_pos hret]
  refine bind (push rfl (by simp [Instr.isWellTyped, hacc, hret]) hargs) fun _ C' hC' => ?_
  exact pure hC'

theorem gep {base result : Ty} {ptr : Value} {is : List Value} (hp : C.Knows ptr)
    (his : ∀ v ∈ is, C.Knows v) (hpt : ptr.ty.isPtr = true) (hit : ∀ v ∈ is, v.ty.isInt = true) :
    Safe C (gep base ptr is result) (GivesPlace C result) := by
  refine bind (define (fun _ => rfl) ?_ ?_) fun v C' hv => ?_
  · intro _
    simpa [Instr.isWellTyped, hpt] using hit
  · intro _ u hu
    rcases List.mem_cons.1 hu with rfl | hu
    · exact hp
    · exact his u hu
  · exact pure ⟨hv.1, hv.2.1, rfl⟩

theorem field {struct ty : Ty} {ptr : Value} {index : Int} (hp : C.Knows ptr)
    (hpt : ptr.ty.isPtr = true) : Safe C (field struct ptr index ty) (GivesPlace C ty) :=
  gep hp (by simp [Value.i32, Context.knows_int]) hpt (by simp [Value.i32, Ty.isInt, Ty.bits?])

theorem cast {op : CastOp} {v : Value} {ty : Ty} (hv : C.Knows v)
    (ht : op.allows v.ty ty = true) : Safe C (cast op v ty) (Gives C ty) :=
  define (fun _ => rfl) (fun _ => ht) (fun _ u hu => by rw [List.mem_singleton.1 hu]; exact hv)

theorem sizeOf (ty : Ty) : Safe C (Build.sizeOf ty) (Gives C .i64) := by
  refine bind (gep (C.knows_null _) (by simp [Value.i32, Context.knows_int]) rfl
    (by simp [Value.i32, Ty.isInt, Ty.bits?])) ?_
  rintro p C₁ ⟨hC₁, hp, _⟩
  exact (cast hp rfl).mono fun v C₂ hv => ⟨hC₁.trans hv.1, hv.2⟩

theorem br {r : BlockRef} {S : Set String} (hr : C.Target r S) (hS : S ⊆ C.names) :
    Safe C (br r) fun _ C' => C ≤ C' := by
  refine terminate rfl nofun fun l hl => ⟨r, S, hr, ?_, hS⟩
  exact (List.mem_singleton.1 hl).symm

theorem brIfOpen {r : BlockRef} {S : Set String} (hr : C.Target r S) (hS : S ⊆ C.names) :
    Safe C (brIfOpen r) fun _ C' => C ≤ C' := by
  intro d hd hC
  cases h : d.builder.isTerminated with
  | true =>
    have he : Build.brIfOpen r d.builder = ((), d.builder) := by
      simp [Build.brIfOpen, Build.isTerminated, Bind.bind, StateT.bind, h]
      rfl
    rw [he]
    exact ⟨d, C, rfl, .refl d, hC, le_rfl⟩
  | false =>
    have he : Build.brIfOpen r d.builder = Build.br r d.builder := by
      simp [Build.brIfOpen, Build.isTerminated, Bind.bind, StateT.bind, h]
    rw [he]
    exact br hr hS d hd hC

theorem condBr {c : Value} {r r' : BlockRef} {S S' : Set String} (hc : C.Knows c)
    (hct : c.ty = .i1) (hr : C.Target r S) (hr' : C.Target r' S') (hS : S ⊆ C.names)
    (hS' : S' ⊆ C.names) : Safe C (condBr c r r') fun _ C' => C ≤ C' := by
  refine terminate (by simp [Terminator.isWellTyped, hct]) (fun v hv => ?_) fun l hl => ?_
  · rw [List.mem_singleton.1 hv]
    exact hc
  · simp only [Terminator.successors, List.mem_cons, List.not_mem_nil, or_false] at hl
    rcases hl with rfl | rfl
    · exact ⟨r, S, hr, rfl, hS⟩
    · exact ⟨r', S', hr', rfl, hS'⟩

theorem ret {v : Value} (hv : C.Knows v) (hret : C.ret ≠ .void)
    (hvt : v.ty.sameRepr C.ret = true) : Safe C (ret (some v)) fun _ C' => C ≤ C' := by
  refine terminate (by simp [Terminator.isWellTyped, hret, hvt]) (fun u hu => ?_) nofun
  rw [List.mem_singleton.1 hu]
  exact hv

theorem unreachable : Safe C unreachable fun _ C' => C ≤ C' := terminate rfl nofun nofun

end Safe

end Build

end ChocoCompiler.Ir
