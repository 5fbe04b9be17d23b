import ChocoCompiler.Proofs.NumberOrder
import Mathlib.Data.List.Induction

/-!
# The nodes that a walk visits

The nodes of a program are a tree: below each node are its parts in the order of its fields, and below a
function, behind all its parts, is the stop where it is left (`Visit.children`). A path of child numbers leads
to each node, and pre-order is the lexicographic order of these paths (`Visit.PreOrder`).

A walk calls the hook at the nodes in pre-order, once at each, whatever the hook does as long as it accepts. A
call that is refused is the last one (`Program.Calls`, `parseProgram_calls`).
-/

namespace ChocoCompiler

variable {τ : Type}

/-! ## Nodes and paths -/

def Definition.visit : Definition τ → Visit τ
  | .var d => .varDef d
  | .func f => .funcDef f

namespace Visit

/-- What comes directly below a node. -/
def children : Visit τ → List (Visit τ)
  | program p => p.definitions.map Definition.visit ++ p.statements.map stmt
  | varDef d => [type d.var.type, expr d.initial]
  | funcDef f =>
    f.params.map (type ·.type) ++ (f.returnType.toList.map type ++
      (f.declarations.map declaration ++ (f.body.map stmt ++ [leaveFuncDef f])))
  | leaveFuncDef _ => []
  | declaration (.var d) => [varDef d]
  | declaration (.global _) => []
  | declaration (.nonlocal _) => []
  | stmt s => s.operands.map expr ++ s.children.map stmt
  | expr e => e.children.map expr
  | type (.named _ _) => []
  | type (.list t _) => [type t]

/-- The node to which a path leads, if it leads anywhere. -/
def at? (v : Visit τ) : List Nat → Option (Visit τ)
  | [] => some v
  | i :: path => v.children[i]?.bind (·.at? path)

/-- Where a path leads whose first number tells the tree. -/
def below (vs : List (Visit τ)) : List Nat → Option (Visit τ)
  | [] => none
  | i :: path => vs[i]?.bind (·.at? path)

/-- The nodes are all that paths lead to, in the order of the paths and one for each. -/
def Enumerates (look : List Nat → Option (Visit τ)) (vs : List (Visit τ)) : Prop :=
  ∃ paths : List (List Nat), paths.Pairwise (List.Lex (· < ·)) ∧
    (∀ path, path ∈ paths ↔ (look path).isSome = true) ∧ vs.map some = paths.map look

/-- The nodes are those of the tree in pre-order. -/
abbrev PreOrder (v : Visit τ) (vs : List (Visit τ)) : Prop := Enumerates v.at? vs

theorem below_isSome {cs : List (Visit τ)} {path : List Nat} (h : (below cs path).isSome = true) :
    ∃ i rest, path = i :: rest ∧ i < cs.length := by
  cases path with
  | nil => cases h
  | cons i rest =>
    refine ⟨i, rest, rfl, ?_⟩
    by_contra hi
    rw [below, List.getElem?_eq_none (Nat.le_of_not_lt hi)] at h
    cases h

theorem enumerates_below_nil : Enumerates (below ([] : List (Visit τ))) [] := by
  refine ⟨[], .nil, fun path => ?_, rfl⟩
  cases path <;> simp [below]

theorem Enumerates.concat {cs vs us : List (Visit τ)} {c : Visit τ} (h : Enumerates (below cs) vs)
    (hc : c.PreOrder us) : Enumerates (below (cs ++ [c])) (vs ++ us) := by
  obtain ⟨paths, hsorted, hmem, hnodes⟩ := h
  obtain ⟨paths', hsorted', hmem', hnodes'⟩ := hc
  have hfirst : ∀ i rest, i < cs.length → below (cs ++ [c]) (i :: rest) = below cs (i :: rest) := by
    intro i rest hi
    rw [below, below, List.getElem?_append_left hi]
  have hlast : ∀ rest, below (cs ++ [c]) (cs.length :: rest) = c.at? rest := by
    intro rest
    rw [below, List.getElem?_concat_length]
    rfl
  have hbefore : ∀ path ∈ paths, ∃ i rest, path = i :: rest ∧ i < cs.length := fun path hpath =>
    below_isSome ((hmem path).1 hpath)
  refine ⟨paths ++ paths'.map (cs.length :: ·), ?_, fun path => ⟨fun hpath => ?_, fun hpath => ?_⟩, ?_⟩
  · refine List.pairwise_append.2 ⟨hsorted, hsorted'.map _ fun _ _ => .cons, fun path hpath path' hpath' => ?_⟩
    obtain ⟨i, rest, rfl, hi⟩ := hbefore path hpath
    obtain ⟨rest', -, rfl⟩ := List.mem_map.1 hpath'
    exact .rel hi
  · rcases List.mem_append.1 hpath with hpath | hpath
    · obtain ⟨i, rest, rfl, hi⟩ := hbefore path hpath
      rw [hfirst i rest hi]
      exact (hmem _).1 hpath
    · obtain ⟨rest, hrest, rfl⟩ := List.mem_map.1 hpath
      rw [hlast]
      exact (hmem' rest).1 hrest
  · obtain ⟨i, rest, rfl, hi⟩ := below_isSome hpath
    rw [List.length_append, List.length_singleton] at hi
    rcases Nat.lt_or_eq_of_le (Nat.le_of_lt_succ hi) with hi | rfl
    · rw [hfirst i rest hi] at hpath
      exact List.mem_append_left _ ((hmem _).2 hpath)
    · rw [hlast] at hpath
      exact List.mem_append_right _ (List.mem_map_of_mem ((hmem' rest).2 hpath))
  · have hmap : paths.map (below (cs ++ [c])) = paths.map (below cs) := by
      refine List.map_congr_left fun path hpath => ?_
      obtain ⟨i, rest, rfl, hi⟩ := hbefore path hpath
      exact hfirst i rest hi
    rw [List.map_append, List.map_append, List.map_map, hnodes, hnodes', hmap]
    exact congrArg _ (List.map_congr_left fun rest _ => (hlast rest).symm)

theorem enumerates_below {f : Visit τ → List (Visit τ)} (cs : List (Visit τ))
    (h : ∀ c ∈ cs, c.PreOrder (f c)) : Enumerates (below cs) (cs.flatMap f) := by
  induction cs using List.reverseRecOn with
  | nil => exact enumerates_below_nil
  | append_singleton cs c ih =>
    obtain ⟨hcs, hc⟩ := List.forall_mem_append.1 h
    rw [List.flatMap_append, List.flatMap_singleton]
    exact (ih hcs).concat (hc c (List.mem_singleton_self c))

theorem Enumerates.node {v : Visit τ} {vs : List (Visit τ)} (h : Enumerates (below v.children) vs) :
    v.PreOrder (v :: vs) := by
  obtain ⟨paths, hsorted, hmem, hnodes⟩ := h
  have hcons : ∀ path ∈ paths, ∃ i rest, path = i :: rest := fun path hpath =>
    have ⟨i, rest, he, _⟩ := below_isSome ((hmem path).1 hpath)
    ⟨i, rest, he⟩
  refine ⟨[] :: paths, .cons (fun path hpath => ?_) hsorted, fun path => ?_, ?_⟩
  · obtain ⟨i, rest, rfl⟩ := hcons path hpath
    exact .nil
  · cases path with
    | nil => simp [at?]
    | cons i rest =>
      rw [List.mem_cons, hmem]
      simp [at?, below]
  · rw [List.map_cons, List.map_cons, hnodes]
    refine congrArg _ (List.map_congr_left fun path hpath => ?_)
    obtain ⟨i, rest, rfl⟩ := hcons path hpath
    rfl

/-! ## Stops -/

def stops : Visit τ → List (Visit τ)
  | program p => p.stops
  | varDef d => d.stops
  | funcDef f => f.stops
  | leaveFuncDef f => [leaveFuncDef f]
  | declaration d => d.stops
  | stmt s => s.stops
  | expr e => e.stops
  | type t => t.stops

@[simp] theorem stops_visit (d : Definition τ) : d.visit.stops = d.stops := by cases d <;> rfl

/-- A walk stops at a node and then at all that is below it. -/
theorem stops_eq (v : Visit τ) : v.stops = v :: v.children.flatMap stops := by
  cases v with
  | program p =>
    rw [children, List.flatMap_append, List.flatMap_map, List.flatMap_map]
    simp only [stops_visit]
    exact congrArg (fun ss => _ :: (_ ++ ss)) (Stmt.allStops_eq_flatMap p.statements)
  | varDef d => simp [stops, children, VarDef.stops]
  | funcDef f =>
    cases hf : f.returnType <;>
      simp [stops, children, FuncDef.stops, Stmt.allStops_eq_flatMap, List.flatMap_map, hf]
  | leaveFuncDef f => rfl
  | declaration d => cases d <;> simp [stops, children, Declaration.stops]
  | stmt s =>
    rw [children, List.flatMap_append, List.flatMap_map, List.flatMap_map]
    exact Stmt.stops_eq s
  | expr e =>
    rw [children, List.flatMap_map, stops, Expr.stops, Expr.parts_eq, List.map_cons, List.map_flatMap]
    rfl
  | type t => cases t <;> simp [stops, children, TypeExpr.stops]

theorem length_stops_lt {v c : Visit τ} (h : c ∈ v.children) : c.stops.length < v.stops.length := by
  obtain ⟨before, behind, hv⟩ := List.append_of_mem h
  rw [v.stops_eq, hv, List.flatMap_append, List.flatMap_cons]
  simp only [List.length_cons, List.length_append]
  omega

/-- A walk makes its stops in pre-order. -/
theorem preOrder_stops (v : Visit τ) : v.PreOrder v.stops := by
  rw [v.stops_eq]
  refine (enumerates_below v.children fun c hc => ?_).node
  have hlt := length_stops_lt hc
  exact preOrder_stops c
termination_by v.stops.length

/-! ## Expressions seen -/

/-- The expression at a stop, if it is one. -/
def expr? : Visit τ → Option (Expr τ)
  | expr e => some e
  | _ => none

end Visit

section Exprs

theorem TypeExpr.exprs_stops (t : TypeExpr) : (t.stops : List (Visit τ)).filterMap Visit.expr? = [] := by
  induction t with
  | named t s => rfl
  | list t s ih => exact ih

@[simp] theorem Expr.exprs_stops (e : Expr τ) : e.stops.filterMap Visit.expr? = e.parts := by
  rw [Expr.stops, List.filterMap_map]
  exact List.filterMap_some

theorem Stmt.exprs_stops (s : Stmt τ) : s.stops.filterMap Visit.expr? = s.exprs := by
  induction s using Stmt.children_induction with
  | step s ih =>
    rw [s.stops_eq, s.exprs_eq_children, List.filterMap_cons_none rfl, List.filterMap_append,
      List.filterMap_flatMap, List.filterMap_flatMap]
    simp only [Expr.exprs_stops]
    exact congrArg _ (List.flatMap_congr ih)

theorem Stmt.exprs_allStops (ss : List (Stmt τ)) : (Stmt.allStops ss).filterMap Visit.expr? = Stmt.allExprs ss := by
  rw [Stmt.allStops_eq_flatMap, Stmt.allExprs_eq_flatMap, List.filterMap_flatMap]
  exact List.flatMap_congr fun s _ => s.exprs_stops

theorem VarDef.exprs_stops (d : VarDef τ) : d.stops.filterMap Visit.expr? = [d.initial] := by
  rw [VarDef.stops, List.filterMap_cons_none rfl, List.filterMap_append, TypeExpr.exprs_stops, Expr.exprs_stops]
  rfl

theorem Declaration.exprs_stops (d : Declaration τ) : d.stops.filterMap Visit.expr? = d.exprs := by
  cases d with
  | var d => exact d.exprs_stops
  | global x | nonlocal x => rfl

theorem FuncDef.exprs_stops (f : FuncDef τ) : f.stops.filterMap Visit.expr? = f.exprs := by
  have hparams : (f.params.flatMap (·.type.stops) : List (Visit τ)).filterMap Visit.expr? = [] := by
    simp [List.filterMap_flatMap, TypeExpr.exprs_stops]
  have hreturn : (f.returnType.elim [] TypeExpr.stops : List (Visit τ)).filterMap Visit.expr? = [] := by
    cases f.returnType with
    | none => rfl
    | some t => exact t.exprs_stops
  rw [FuncDef.stops, List.filterMap_cons_none rfl, List.filterMap_append, List.filterMap_append,
    List.filterMap_append, List.filterMap_append, hparams, hreturn, Stmt.exprs_allStops, List.filterMap_flatMap]
  simp only [Declaration.exprs_stops, List.nil_append, FuncDef.exprs]
  exact congrArg _ (List.append_nil _)

theorem Definition.exprs_stops (d : Definition τ) : d.stops.filterMap Visit.expr? = d.exprs := by
  cases d with
  | var d => exact d.exprs_stops
  | func f => exact f.exprs_stops

theorem Program.exprs_stops (p : Program τ) : p.stops.filterMap Visit.expr? = p.exprs := by
  rw [Program.stops, List.filterMap_cons_none rfl, List.filterMap_append, Stmt.exprs_allStops,
    List.filterMap_flatMap]
  simp only [Definition.exprs_stops]
  rfl

end Exprs

/-! ## Calls -/

/-- A visitor that answers a call by what it is and by the calls before it, and takes down every call, even one
it refuses. -/
def Visit.answered {ε : Type} (answer : List (Visit τ) → Visit τ → Except ε Unit) (v : Visit τ) :
    EStateM ε (List (Visit τ)) Unit := fun calls =>
  match answer calls v with
  | .ok _ => .ok () (calls ++ [v])
  | .error e => .error e (calls ++ [v])

/-- These are the calls of a walk through a program. -/
structure Program.Calls (p : Program τ) (calls : List (Visit τ)) : Prop where
  /-- A visitor that accepts all calls gets these. -/
  all : ∀ {ε : Type} {answer : List (Visit τ) → Visit τ → Except ε Unit}, (∀ before v, answer before v = .ok ()) →
    p.walk (Visit.answered answer) [] = .ok () calls
  /-- A visitor that refuses from some call on gets those before and the one it refuses, if there are so many. -/
  refused : ∀ {ε : Type} {answer : List (Visit τ) → Visit τ → Except ε Unit} {k : Nat},
    (∀ before v, answer before v = .ok () ↔ before.length < k) →
    (calls.length ≤ k → p.walk (Visit.answered answer) [] = .ok () calls) ∧
      ∀ v, calls[k]? = some v → ∃ e, answer (calls.take k) v = .error e ∧
        p.walk (Visit.answered answer) [] = .error e (calls.take k ++ [v])
  recorded : Recording.run (p.walk (Recording.record none)) = (calls, none)
  limited : ∀ k, Recording.run (p.walk (Recording.record (some k))) = (calls.take k, calls[k]?)

section Calls

variable {α ε σ : Type} {hook : α → EStateM ε σ Unit} {s s' s'' : σ} {v : α} {front : List α}

theorem forM_cons_of_ok {rest : List α} (h : hook v s = .ok () s') :
    forM (v :: rest) hook s = forM rest hook s' := by
  rw [List.forM_cons]
  show EStateM.bind _ _ s = _
  unfold EStateM.bind
  rw [h]

theorem forM_of_error {e : ε} (h : forM front hook s = .ok () s') (hv : hook v s' = .error e s'')
    (rest : List α) : forM (front ++ v :: rest) hook s = .error e s'' := by
  rw [List.forM_append, List.forM_cons]
  show EStateM.bind _ (fun _ => EStateM.bind _ _) s = _
  unfold EStateM.bind
  simp only [h, hv]

theorem forM_answered {answer : List (Visit τ) → Visit τ → Except ε Unit} {before vs : List (Visit τ)}
    (h : ∀ calls v, calls.length < before.length + vs.length → answer calls v = .ok ()) :
    forM vs (Visit.answered answer) before = .ok () (before ++ vs) := by
  induction vs generalizing before with
  | nil => exact congrArg (EStateM.Result.ok ()) (List.append_nil before).symm
  | cons v vs ih =>
    have hcall : Visit.answered answer v before = .ok () (before ++ [v]) := by
      rw [Visit.answered, h before v (by simp)]
    rw [forM_cons_of_ok hcall, ih, List.append_assoc, List.singleton_append]
    intro calls w hlt
    refine h calls w ?_
    simp only [List.length_append, List.length_cons, List.length_nil] at hlt ⊢
    omega

theorem forM_record {limit : Option Nat} {seen vs : List (Visit τ)}
    (h : ∀ k ∈ limit, seen.length + vs.length ≤ k) :
    forM vs (Recording.record limit) seen = .ok () (vs.reverse ++ seen) := by
  induction vs generalizing seen with
  | nil => rfl
  | cons v vs ih =>
    have hcall : Recording.record limit v seen = .ok () (v :: seen) := by
      refine if_pos ((Option.all_eq_true _ _).2 fun k hk => decide_eq_true ?_)
      have hle := h k hk
      rw [List.length_cons] at hle
      omega
    rw [forM_cons_of_ok hcall, ih, List.reverse_cons, List.append_assoc, List.singleton_append]
    intro k hk
    have hle := h k hk
    simp only [List.length_cons] at hle ⊢
    omega

theorem split_at {vs : List α} {k : Nat} (h : vs[k]? = some v) :
    vs = vs.take k ++ v :: vs.drop (k + 1) ∧ (vs.take k).length = k := by
  obtain ⟨hk, rfl⟩ := List.getElem?_eq_some_iff.1 h
  rw [← List.drop_eq_getElem_cons, List.take_append_drop, List.length_take]
  exact ⟨rfl, Nat.min_eq_left (Nat.le_of_lt hk)⟩

theorem Program.calls_stops (p : Program τ) : p.Calls p.stops := by
  constructor
  case all =>
    intro ε answer h
    rw [p.walk_eq_forM]
    exact forM_answered fun calls v _ => h calls v
  case refused =>
    intro ε answer k h
    rw [p.walk_eq_forM]
    have haccepted : ∀ {vs : List (Visit τ)}, vs.length ≤ k → forM vs (Visit.answered answer) [] = .ok () vs := by
      intro vs hle
      refine forM_answered fun calls v hlt => (h calls v).2 ?_
      rw [List.length_nil] at hlt
      omega
    refine ⟨haccepted, fun v hv => ?_⟩
    obtain ⟨hstops, hlen⟩ := split_at hv
    cases he : answer (p.stops.take k) v with
    | ok u => exact absurd ((h _ v).1 he) (by rw [hlen]; omega)
    | error e =>
      refine ⟨e, rfl, ?_⟩
      have hcall : Visit.answered answer v (p.stops.take k) = .error e (p.stops.take k ++ [v]) := by
        rw [Visit.answered, he]
      have hrun := forM_of_error (haccepted (Nat.le_of_eq hlen)) hcall (p.stops.drop (k + 1))
      rwa [← hstops] at hrun
  case recorded =>
    rw [p.walk_eq_forM, Recording.run, forM_record (by simp), List.append_nil]
    simp
  case limited =>
    intro k
    rw [p.walk_eq_forM, Recording.run]
    cases hv : p.stops[k]? with
    | none =>
      have hk := List.getElem?_eq_none_iff.1 hv
      rw [forM_record (by simpa using hk), List.append_nil, List.take_of_length_le hk]
      simp
    | some v =>
      obtain ⟨hstops, hlen⟩ := split_at hv
      have hfront : forM (p.stops.take k) (Recording.record (some k)) [] = .ok () (p.stops.take k).reverse := by
        rw [forM_record (by simp), List.append_nil]
      have hcall : Recording.record (some k) v (p.stops.take k).reverse = .error v (p.stops.take k).reverse :=
        if_neg (by simp [hlen])
      have hrun := forM_of_error hfront hcall (p.stops.drop (k + 1))
      rw [← hstops] at hrun
      rw [hrun]
      simp

end Calls

/-- A walk through a parsed program calls the hook once at every node in pre-order. The expressions seen have each
number once, and a call that is refused is the last. -/
theorem parseProgram_calls {names : NameTable} {source : String} {p : Program Tag}
    (h : (parseProgram names source).1 = .ok p) :
    ∃ calls, (Visit.program p).PreOrder calls ∧ p.Calls calls ∧
      ((calls.filterMap Visit.expr?).map (·.tag.id)).Perm (List.range p.exprCount) := by
  refine ⟨p.stops, Visit.preOrder_stops (.program p), p.calls_stops, ?_⟩
  rw [p.exprs_stops]
  exact parseProgram_ids h

/-- A local variable, which is a declaration and a definition, a list type and a loop. -/
def walkedProgram : String := "def f(a: [int]):\n  y: int = 1\n  while y > 0:\n    pass\nf([-1])\n"

theorem walkedProgram_calls : ∃ p, (parseProgram .initial walkedProgram).1 = .ok p ∧
    ∃ calls, calls.length = 19 ∧ (Visit.program p).PreOrder calls ∧ p.Calls calls ∧
      ((calls.filterMap Visit.expr?).map (·.tag.id)).Perm (List.range p.exprCount) := by
  have h : ((parseProgram .initial walkedProgram).1.toOption.map fun p =>
      (Recording.run (p.walk (Recording.record none))).1.length) = some 19 := by decide +kernel
  obtain ⟨p, hp, hlength⟩ := Option.map_eq_some_iff.1 h
  have hp := toOption_eq_some.1 hp
  obtain ⟨calls, horder, hcalls, hids⟩ := parseProgram_calls hp
  rw [hcalls.recorded] at hlength
  exact ⟨p, hp, calls, hlength, horder, hcalls, hids⟩

end ChocoCompiler
