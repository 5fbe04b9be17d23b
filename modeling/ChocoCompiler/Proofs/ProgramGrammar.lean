import ChocoCompiler.Proofs.ExpressionGrammar
import ChocoCompiler.Proofs.IdentifierWords

/-!
# What the program parser accepts

The grammar of programs, as a relation between trees and the terminals they are made of. For expressions it is
ambiguous: any expression can be an operand, and any can stand in parentheses. The parser reads every token of
a text that it accepts, once and in order, as the tree that it returns (`parseProgram_derives`).
-/

namespace ChocoCompiler

variable {τ : Type}

/-! ## The grammar -/

def NamedType.keyword : NamedType → TokenKind
  | .int => .kwInt
  | .bool => .kwBool
  | .str => .kwStr
  | .object => .kwObject

def TypeExpr.terminals : TypeExpr → List Terminal
  | .named n _ => [.kind n.keyword]
  | .list elem _ => .kind .lbracket :: (elem.terminals ++ [.kind .rbracket])

def TypedVar.terminals (v : TypedVar) : List Terminal :=
  .name v.name.name :: .kind .colon :: v.type.terminals

def VarDef.terminals (d : VarDef τ) : List Terminal :=
  d.var.terminals ++ [.kind .assign, .literal d.value, .kind .newline]

def Declaration.terminals : Declaration τ → List Terminal
  | .var d => d.terminals
  | .global x => [.kind .kwGlobal, .name x.name, .kind .newline]
  | .nonlocal x => [.kind .kwNonlocal, .name x.name, .kind .newline]

/-- The declared type of what a function returns. -/
def returnTerminals : Option TypeExpr → List Terminal
  | none => []
  | some t => .kind .arrow :: t.terminals

/-- A function up to its first line. -/
def FuncDef.headTerminals (f : FuncDef τ) : List Terminal :=
  .kind .kwDef :: .name f.name.name :: .kind .lparen ::
    (Parse.commas (f.params.map TypedVar.terminals) ++ .kind .rparen :: returnTerminals f.returnType)

/-- The lines of a block and what surrounds them. -/
def inBlock (ts : List Terminal) : List Terminal :=
  .kind .colon :: .kind .newline :: .kind .indent :: (ts ++ [.kind .dedent])

/-- The terminals are those of an expression. -/
inductive Expr.Derives : Expr τ → List Terminal → Prop where
  | literal (t : τ) (v : Literal) : Derives (.literal t v) [.literal v]
  | ident (t : τ) (x : Ident) : Derives (.ident t x) [.name x.name]
  | list (t : τ) (items : List (Expr τ × List Terminal)) (h : ∀ i ∈ items, Derives i.1 i.2) :
      Derives (.list t (items.map Prod.fst))
        (.kind .lbracket :: (Parse.commas (items.map Prod.snd) ++ [.kind .rbracket]))
  | call (t : τ) (f : Ident) (items : List (Expr τ × List Terminal)) (h : ∀ i ∈ items, Derives i.1 i.2) :
      Derives (.call t f (items.map Prod.fst))
        (.name f.name :: .kind .lparen :: (Parse.commas (items.map Prod.snd) ++ [.kind .rparen]))
  | index (t : τ) {e i : Expr τ} {ts us : List Terminal} (he : Derives e ts) (hi : Derives i us) :
      Derives (.index t e i) (ts ++ .kind .lbracket :: (us ++ [.kind .rbracket]))
  | unary (t : τ) (op : UnaryOp) {e : Expr τ} {ts : List Terminal} (he : Derives e ts) :
      Derives (.unary t op e) (.kind op.sign :: ts)
  | binary (t : τ) (op : BinaryOp) {l r : Expr τ} {ts us : List Terminal} (hl : Derives l ts)
      (hr : Derives r us) : Derives (.binary t op l r) (ts ++ .kind op.sign :: us)
  | cond (t : τ) {c a b : Expr τ} {ts us vs : List Terminal} (ha : Derives a ts) (hc : Derives c us)
      (hb : Derives b vs) :
      Derives (.cond t c a b) (ts ++ .kind .kwIf :: (us ++ .kind .kwElse :: vs))
  | group {e : Expr τ} {ts : List Terminal} (he : Derives e ts) :
      Derives e (.kind .lparen :: (ts ++ [.kind .rparen]))

/-- The terminals are those of a statement; `E` is the grammar of expressions. -/
inductive Stmt.Derives (E : Expr τ → List Terminal → Prop) : Stmt τ → List Terminal → Prop where
  | pass (s : Span) : Derives E (.pass s) [.kind .kwPass, .kind .newline]
  | retNone (s : Span) : Derives E (.ret s none) [.kind .kwReturn, .kind .newline]
  | ret (s : Span) {e : Expr τ} {ts : List Terminal} (he : E e ts) :
      Derives E (.ret s (some e)) (.kind .kwReturn :: (ts ++ [.kind .newline]))
  | expr (s : Span) {e : Expr τ} {ts : List Terminal} (he : E e ts) :
      Derives E (.expr s e) (ts ++ [.kind .newline])
  | assign (s : Span) (targets : List (Expr τ × List Terminal)) {e : Expr τ} {ts : List Terminal}
      (hne : targets ≠ []) (h : ∀ i ∈ targets, E i.1 i.2) (he : E e ts) :
      Derives E (.assign s (targets.map Prod.fst) e)
        (targets.flatMap (·.2 ++ [.kind .assign]) ++ (ts ++ [.kind .newline]))
  | whileLoop (s : Span) {test : Expr τ} {ts : List Terminal} (body : List (Stmt τ × List Terminal))
      (ht : E test ts) (hne : body ≠ []) (h : ∀ i ∈ body, Derives E i.1 i.2) :
      Derives E (.whileLoop s test (body.map Prod.fst))
        (.kind .kwWhile :: (ts ++ inBlock (body.flatMap Prod.snd)))
  | forLoop (s : Span) (x : Ident) {iter : Expr τ} {ts : List Terminal}
      (body : List (Stmt τ × List Terminal)) (ht : E iter ts) (hne : body ≠ [])
      (h : ∀ i ∈ body, Derives E i.1 i.2) :
      Derives E (.forLoop s x iter (body.map Prod.fst))
        (.kind .kwFor :: .name x.name :: .kind .kwIn :: (ts ++ inBlock (body.flatMap Prod.snd)))
  | ifThen (s : Span) {test : Expr τ} {ts : List Terminal} (body : List (Stmt τ × List Terminal))
      (ht : E test ts) (hne : body ≠ []) (h : ∀ i ∈ body, Derives E i.1 i.2) :
      Derives E (.ifElse s test (body.map Prod.fst) [])
        (.kind .kwIf :: (ts ++ inBlock (body.flatMap Prod.snd)))
  | ifElse (s : Span) {test : Expr τ} {ts : List Terminal} (body orElse : List (Stmt τ × List Terminal))
      (ht : E test ts) (hne : body ≠ []) (h : ∀ i ∈ body, Derives E i.1 i.2) (hne' : orElse ≠ [])
      (h' : ∀ i ∈ orElse, Derives E i.1 i.2) :
      Derives E (.ifElse s test (body.map Prod.fst) (orElse.map Prod.fst))
        (.kind .kwIf :: (ts ++ (inBlock (body.flatMap Prod.snd) ++
          .kind .kwElse :: inBlock (orElse.flatMap Prod.snd))))
  | ifElif (s : Span) {test : Expr τ} {ts us : List Terminal} (body : List (Stmt τ × List Terminal))
      {inner : Stmt τ} (ht : E test ts) (hne : body ≠ []) (h : ∀ i ∈ body, Derives E i.1 i.2)
      (hi : Derives E inner (.kind .kwIf :: us)) :
      Derives E (.ifElse s test (body.map Prod.fst) [inner])
        (.kind .kwIf :: (ts ++ (inBlock (body.flatMap Prod.snd) ++ .kind .kwElif :: us)))

/-- The terminals are those of the members of a list, one after the other. -/
def AllDerive {α : Type} (D : α → List Terminal → Prop) (as : List α) (ts : List Terminal) : Prop :=
  ∃ items : List (α × List Terminal), as = items.map Prod.fst ∧ ts = items.flatMap Prod.snd ∧
    ∀ i ∈ items, D i.1 i.2

namespace AllDerive

variable {α : Type} {D : α → List Terminal → Prop} {f : α → List Terminal} {a : α} {as : List α}
  {ts us : List Terminal}

theorem nil : AllDerive D [] [] := ⟨[], rfl, rfl, nofun⟩

theorem cons (h : D a ts) (hs : AllDerive D as us) : AllDerive D (a :: as) (ts ++ us) := by
  obtain ⟨items, rfl, rfl, hitems⟩ := hs
  exact ⟨(a, ts) :: items, rfl, rfl, List.forall_mem_cons.2 ⟨h, hitems⟩⟩

theorem of_singleton (h : AllDerive D [a] ts) : D a ts := by
  obtain ⟨items, ha, rfl, hitems⟩ := h
  obtain ⟨i, rfl, rfl⟩ := List.map_eq_singleton_iff.1 ha.symm
  rw [List.flatMap_singleton]
  exact hitems i (List.mem_singleton_self i)

theorem eq_flatMap (h : AllDerive (fun a us => us = f a) as ts) : ts = as.flatMap f := by
  obtain ⟨items, rfl, rfl, hitems⟩ := h
  rw [List.flatMap_map]
  exact List.flatMap_congr hitems

end AllDerive

section Blocks

variable {E : Expr τ → List Terminal → Prop} {span : Span} {test : Expr τ} {body orElse : List (Stmt τ)}
  {ts bs us : List Terminal}

theorem Stmt.derives_whileLoop (ht : E test ts) (hne : body ≠ []) (hb : AllDerive (Stmt.Derives E) body bs) :
    (Stmt.whileLoop span test body).Derives E (.kind .kwWhile :: (ts ++ inBlock bs)) := by
  obtain ⟨items, rfl, rfl, hitems⟩ := hb
  exact .whileLoop span items ht (by simpa using hne) hitems

theorem Stmt.derives_forLoop {x : Ident} (ht : E test ts) (hne : body ≠ [])
    (hb : AllDerive (Stmt.Derives E) body bs) : (Stmt.forLoop span x test body).Derives E
      (.kind .kwFor :: .name x.name :: .kind .kwIn :: (ts ++ inBlock bs)) := by
  obtain ⟨items, rfl, rfl, hitems⟩ := hb
  exact .forLoop span x items ht (by simpa using hne) hitems

theorem Stmt.derives_ifThen (ht : E test ts) (hne : body ≠ []) (hb : AllDerive (Stmt.Derives E) body bs) :
    (Stmt.ifElse span test body []).Derives E (.kind .kwIf :: (ts ++ inBlock bs)) := by
  obtain ⟨items, rfl, rfl, hitems⟩ := hb
  exact .ifThen span items ht (by simpa using hne) hitems

theorem Stmt.derives_ifElse (ht : E test ts) (hne : body ≠ []) (hb : AllDerive (Stmt.Derives E) body bs)
    (hne' : orElse ≠ []) (ho : AllDerive (Stmt.Derives E) orElse us) :
    (Stmt.ifElse span test body orElse).Derives E
      (.kind .kwIf :: (ts ++ (inBlock bs ++ .kind .kwElse :: inBlock us))) := by
  obtain ⟨items, rfl, rfl, hitems⟩ := hb
  obtain ⟨items', rfl, rfl, hitems'⟩ := ho
  exact .ifElse span items items' ht (by simpa using hne) hitems (by simpa using hne') hitems'

theorem Stmt.derives_ifElif {inner : Stmt τ} (ht : E test ts) (hne : body ≠ [])
    (hb : AllDerive (Stmt.Derives E) body bs) (hi : inner.Derives E (.kind .kwIf :: us)) :
    (Stmt.ifElse span test body [inner]).Derives E
      (.kind .kwIf :: (ts ++ (inBlock bs ++ .kind .kwElif :: us))) := by
  obtain ⟨items, rfl, rfl, hitems⟩ := hb
  exact .ifElif span items ht (by simpa using hne) hitems hi

end Blocks

def FuncDef.Derives (E : Expr τ → List Terminal → Prop) (f : FuncDef τ) (ts : List Terminal) : Prop :=
  f.body ≠ [] ∧ ∃ us, AllDerive (Stmt.Derives E) f.body us ∧
    ts = f.headTerminals ++ inBlock (f.declarations.flatMap Declaration.terminals ++ us)

def Definition.Derives (E : Expr τ → List Terminal → Prop) : Definition τ → List Terminal → Prop
  | .var d, ts => ts = d.terminals
  | .func f, ts => f.Derives E ts

def Program.Derives (E : Expr τ → List Terminal → Prop) (p : Program τ) (ts : List Terminal) : Prop :=
  ∃ us vs, AllDerive (Definition.Derives E) p.definitions us ∧ AllDerive (Stmt.Derives E) p.statements vs ∧
    ts = us ++ vs ++ [.kind .eof]

/-- The statement has the bodies and the targets it must have; those of the statements in it are not
looked at. -/
def Stmt.isFormed : Stmt τ → Bool
  | .ifElse _ _ body _ | .whileLoop _ _ body | .forLoop _ _ _ body => !body.isEmpty
  | .assign _ targets _ => !targets.isEmpty
  | .pass _ | .ret _ _ | .expr _ _ => true

/-- What a program must be to be written at all. That the first value of a variable is a literal is part
of its type. -/
structure Program.IsFormed (p : Program τ) : Prop where
  body : ∀ f ∈ p.functions, f.body ≠ []
  inner : ∀ f ∈ p.functions, ∀ s ∈ Stmt.allParts f.body, s.isFormed = true
  top : ∀ s ∈ Stmt.allParts p.statements, s.isFormed = true
  returns : Stmt.anyReturn p.statements = false

section Formed

variable {E : Expr τ → List Terminal → Prop}

theorem Stmt.Derives.ne_nil {s : Stmt τ} {ts : List Terminal} (h : s.Derives E ts) : ts ≠ [] := by
  cases h with
  | expr => exact List.concat_ne_nil _ _
  | assign => exact List.append_ne_nil_of_right_ne_nil _ (List.concat_ne_nil _ _)
  | _ => exact List.cons_ne_nil _ _

theorem isFormed_of_items {items : List (Stmt τ × List Terminal)}
    (h : ∀ i ∈ items, ∀ s ∈ i.1.parts, s.isFormed = true) :
    ∀ s ∈ Stmt.allParts (items.map Prod.fst), s.isFormed = true := by
  intro s hs
  rw [Stmt.allParts_eq_flatMap, List.flatMap_map] at hs
  obtain ⟨i, hi, hs⟩ := List.mem_flatMap.1 hs
  exact h i hi s hs

theorem Stmt.Derives.isFormed {s : Stmt τ} {ts : List Terminal} (h : s.Derives E ts) :
    ∀ s' ∈ s.parts, s'.isFormed = true := by
  have hmap : ∀ {α : Type} {items : List (α × List Terminal)}, items ≠ [] →
      (!(items.map Prod.fst).isEmpty) = true := fun hne => by simpa using hne
  induction h with
  | pass | retNone | ret | expr => exact List.forall_mem_singleton.2 rfl
  | assign s targets hne => exact List.forall_mem_singleton.2 (hmap hne)
  | whileLoop s body _ hne _ ih | forLoop s x body _ hne _ ih =>
    exact List.forall_mem_cons.2 ⟨hmap hne, isFormed_of_items ih⟩
  | ifThen s body _ hne _ ih =>
    exact List.forall_mem_cons.2 ⟨hmap hne, List.forall_mem_append.2 ⟨isFormed_of_items ih, nofun⟩⟩
  | ifElse s body orElse _ hne _ _ _ ih ih' =>
    exact List.forall_mem_cons.2
      ⟨hmap hne, List.forall_mem_append.2 ⟨isFormed_of_items ih, isFormed_of_items ih'⟩⟩
  | ifElif s body _ hne _ _ ih ih' =>
    refine List.forall_mem_cons.2 ⟨hmap hne, List.forall_mem_append.2 ⟨isFormed_of_items ih, ?_⟩⟩
    rwa [Stmt.allParts, Stmt.allParts, List.append_nil]

theorem AllDerive.isFormed {ss : List (Stmt τ)} {ts : List Terminal} (h : AllDerive (Stmt.Derives E) ss ts) :
    ∀ s ∈ Stmt.allParts ss, s.isFormed = true := by
  obtain ⟨items, rfl, -, hitems⟩ := h
  exact isFormed_of_items fun i hi => (hitems i hi).isFormed

theorem Program.Derives.isFormed {p : Program τ} {ts : List Terminal} (h : p.Derives E ts)
    (hr : Stmt.anyReturn p.statements = false) : p.IsFormed := by
  obtain ⟨us, vs, ⟨items, hds, -, hitems⟩, hss, -⟩ := h
  have hfun : ∀ f ∈ p.functions, ∃ ts, f.Derives E ts := by
    intro f hf
    obtain ⟨d, hd, hf⟩ := List.mem_filterMap.1 hf
    rw [hds] at hd
    obtain ⟨i, hi, rfl⟩ := List.mem_map.1 hd
    have hi := hitems i hi
    cases hi' : i.1 with
    | var d =>
      rw [hi'] at hf
      cases hf
    | func g =>
      rw [hi'] at hf hi
      cases hf
      exact ⟨i.2, hi⟩
  exact {
    body f hf := by
      obtain ⟨_, hne, -⟩ := hfun f hf
      exact hne
    inner f hf := by
      obtain ⟨_, -, us, hus, -⟩ := hfun f hf
      exact hus.isFormed
    top := hss.isFormed
    returns := hr }

end Formed

/-- Levels restrict the grammar of expressions. -/
theorem Expr.Written.derives {loose : Bool} {q : Nat} {e : Expr τ} {ts : List Terminal}
    (h : e.Written loose q ts) : e.Derives ts := by
  induction h with
  | literal t v => exact .literal t v
  | ident t x => exact .ident t x
  | list t items _ ih => exact .list t items ih
  | call t f items _ ih => exact .call t f items ih
  | index t _ _ _ ihe ihi => exact .index t ihe ihi
  | unary t _ _ _ ih => exact .unary t _ ih
  | binary t _ _ _ _ ihl ihr => exact .binary t _ ihl ihr
  | cond t _ _ _ _ iha ihc ihb => exact .cond t iha ihc ihb
  | group _ ih => exact .group ih

/-! ## Expressions and declarations -/

namespace Parse

theorem expression_derives : Yields expression fun e ts => e.Derives ts :=
  expression_yields.mono fun _ _ h => h.derives

theorem typeAt_yields : ∀ depth, Yields (typeAt depth) fun t ts => ts = t.terminals
  | 0 => .fail
  | depth + 1 => by
    refine .first (fun t _ hk => ?_) fun t _ => ?_
    · simp only [hk]
      exact .failAt
    · cases hk : t.kind with
      | kwInt | kwBool | kwStr | kwObject =>
        rw [(Token.terminal_eq_kind rfl).2 hk]
        exact .pure rfl
      | lbracket =>
        rw [(Token.terminal_eq_kind rfl).2 hk]
        refine .bind (typeAt_yields depth) fun elem ts hts => .bind (.expect rfl (by decide)) fun _ us hus =>
          .pure ?_
        rw [hts, hus]
        simp [TypeExpr.terminals]
      | identifier => exact .bind .enterName fun _ _ _ => .failAt
      | _ => exact .failAt

theorem type_yields : Yields type fun t ts => ts = t.terminals :=
  .bind .looks_remaining fun n ts hts => by
    subst hts
    exact typeAt_yields n

theorem typedVar_yields : Yields typedVar fun v ts => ts = v.terminals :=
  .bind .ident fun x ts hts => .bind (.expect rfl (by decide)) fun _ us hus =>
    .bind type_yields fun t vs hvs => .pure (by rw [hts, hus, hvs]; simp [TypedVar.terminals])

theorem literalValue_yields {t : Token} :
    ∀ {r : Except SyntaxError Literal}, Yields (literalValue t r) fun v ts => r = .ok v ∧ ts = []
  | .ok _ => .pure ⟨rfl, rfl⟩
  | .error _ => .failAt

theorem varDef_yields : Yields varDef fun d ts => ts = d.terminals := by
  refine .bind typedVar_yields fun v ts hts => .bind (.expect rfl (by decide)) fun _ us hus => ?_
  refine .peek fun t _ => ?_
  cases hl : t.literal? with
  | none => exact .fail
  | some r =>
    have hne : t.terminal ≠ .kind .eof := by
      intro he
      rw [Token.literal?_of_terminal he rfl] at hl
      cases hl
    refine .advance (fun _ hu => hu ▸ hne) fun t' ht' => ?_
    refine .bind literalValue_yields fun w vs hw => .bind .node fun e ws he =>
      .bind (.expect rfl (by decide)) fun _ xs hxs => .pure ?_
    obtain ⟨rfl, rfl⟩ := hw
    obtain ⟨-, rfl⟩ := he
    rw [hts, hus, hxs, ht', Token.terminal_eq_literal.2 hl]
    simp [VarDef.terminals]

/-! ## Statements -/

theorem repeatWhile_yields {α : Type} {D : α → List Terminal → Prop} {more : Parse Bool} {item : Parse α}
    (hm : Looks more) (hi : Yields item D) (n : Nat) : Yields (repeatWhile more item n) (AllDerive D) :=
  (YieldsAt.repeatWhile [] (hm.mono fun b _ h => by rw [h, ite_self]) hi n).mono fun _ _ h => h

theorem looks_inBody : Looks inBody :=
  .bind .looks_peek fun _ _ hts => .pure (by rw [hts]; rfl)

theorem indent_yields : Yields indent fun _ ts => ts = [.kind .indent] :=
  .take rfl (by decide) (.pure rfl) .fail

theorem lastSpan_yields {body : List (Stmt Tag)} :
    Yields (lastSpan body) fun _ ts => ts = [] ∧ body ≠ [] := by
  unfold lastSpan
  cases hb : body.getLast? with
  | none => exact .fail
  | some s =>
    refine .pure ⟨rfl, ?_⟩
    rintro rfl
    cases hb

section Statements

variable {stmt : Parse (Stmt Tag)}

theorem block_yields (hs : Yields stmt fun s ts => s.Derives Expr.Derives ts) :
    Yields (block stmt) fun b ts => b.1 ≠ [] ∧
      ∃ us, AllDerive (Stmt.Derives Expr.Derives) b.1 us ∧ ts = inBlock us := by
  refine .bind (.expect rfl (by decide)) fun _ ts hts => .bind (.expect rfl (by decide)) fun _ us hus => ?_
  refine .bind indent_yields fun _ vs hvs => .bind .looks_remaining fun n ws hws => ?_
  refine .bind (repeatWhile_yields looks_inBody hs n) fun body xs hxs => ?_
  refine .bind lastSpan_yields fun _ ys hys => .bind (.expect rfl (by decide)) fun _ zs hzs => .pure ?_
  obtain ⟨rfl, hne⟩ := hys
  refine ⟨hne, xs, hxs, ?_⟩
  rw [hts, hus, hvs, hws, hzs]
  simp [inBlock]

theorem ifRest_yields (hs : Yields stmt fun s ts => s.Derives Expr.Derives ts) :
    ∀ n keyword, Yields (ifRest stmt n keyword) fun s ts => s.Derives Expr.Derives (.kind .kwIf :: ts)
  | 0, _ => .fail
  | n + 1, keyword => by
    refine .bind expression_derives fun test ts ht => .bind (block_yields hs) fun b us hb => ?_
    obtain ⟨hne, bs, hb, rfl⟩ := hb
    refine .isAt rfl (.advance (by rintro _ rfl; simp) fun elif helif => ?_) (.take rfl (by decide) ?_ ?_)
    · rw [helif]
      refine .bind (ifRest_yields hs n elif) fun inner us hi => .pure ?_
      simpa using Stmt.derives_ifElif ht hne hb hi
    · refine .bind (block_yields hs) fun b' us hb' => .pure ?_
      obtain ⟨hne', cs, hb', rfl⟩ := hb'
      simpa using Stmt.derives_ifElse ht hne hb hne' hb'
    · exact .pure (by simpa using Stmt.derives_ifThen ht hne hb)

theorem flatMap_signs {α : Type} (t : Terminal) (f : α → List Terminal) (items : List α) :
    items.flatMap (fun i => t :: f i) ++ [t] = t :: items.flatMap fun i => f i ++ [t] := by
  induction items with
  | nil => rfl
  | cons i items ih => simp [ih]

theorem assigned_yields : Yields assigned fun e ts => e.Derives ts :=
  .isAt rfl .fail expression_derives

theorem exprStmt_yields : Yields exprStmt fun s ts => s.Derives Expr.Derives ts := by
  refine .isAt rfl .fail ?_
  refine .bind expression_derives fun first ts hf => .bind .looks_remaining fun n us hus => ?_
  refine .bind (.repeatWhile [.kind .assign] (.taken rfl (by decide)) assigned_yields n) fun values vs hvs => ?_
  refine .bind (.expect rfl (by decide)) fun _ ws hws => ?_
  obtain ⟨items, rfl, rfl, hitems⟩ := hvs
  subst hus hws
  -- the last value is the one that is assigned, all before it are targets
  rcases List.eq_nil_or_concat items with rfl | ⟨items, last, rfl⟩
  · exact .pure (by simpa using Stmt.Derives.expr first.tag.span hf)
  · rw [List.concat_eq_append] at hitems ⊢
    rw [List.map_append, List.map_singleton, List.getLast?_concat, List.dropLast_concat]
    refine .pure ?_
    obtain ⟨hitems, hlast⟩ := List.forall_mem_append.1 hitems
    have hassign := Stmt.Derives.assign (first.tag.span.cover last.1.tag.span) ((first, ts) :: items)
      (List.cons_ne_nil _ _) (List.forall_mem_cons.2 ⟨hf, hitems⟩) (hlast _ (List.mem_singleton_self _))
    have hsigns := flatMap_signs (.kind .assign) Prod.snd items
    rw [List.map_cons, List.flatMap_cons, List.append_assoc, List.append_assoc, List.singleton_append,
      ← List.cons_append, ← hsigns] at hassign
    simpa using hassign

theorem returnValue_yields : Yields returnValue fun e ts =>
    e = none ∧ ts = [] ∨ ∃ e', e = some e' ∧ e'.Derives ts :=
  .isAt rfl (.pure (.inl ⟨rfl, rfl⟩)) (.bind expression_derives fun e ts he =>
    .pure (.inr ⟨e, rfl, by simpa using he⟩))

end Statements

theorem stmtAt_yields {inFunction : Bool} :
    ∀ depth, Yields (stmtAt inFunction depth) fun s ts => s.Derives Expr.Derives ts
  | 0 => .fail
  | depth + 1 => by
    have hs := @stmtAt_yields inFunction depth
    refine .peek fun t _ => ?_
    cases hk : t.kind with
    | kwPass =>
      rw [(Token.terminal_eq_kind rfl).2 hk]
      refine .advance (by rintro _ rfl; simp) fun u hu => .bind (.expect rfl (by decide)) fun _ ts hts =>
        .pure ?_
      rw [hu, hts]
      exact .pass _
    | kwReturn =>
      rw [(Token.terminal_eq_kind rfl).2 hk]
      refine .ite (.advance (by rintro _ rfl; simp) fun u hu => ?_) .fail
      refine .bind returnValue_yields fun e ts he => .bind (.expect rfl (by decide)) fun _ us hus => .pure ?_
      rw [hu, hus]
      rcases he with ⟨rfl, rfl⟩ | ⟨e, rfl, he⟩
      · exact .retNone _
      · simpa using Stmt.Derives.ret _ he
    | kwIf =>
      rw [(Token.terminal_eq_kind rfl).2 hk]
      refine .advance (by rintro _ rfl; simp) fun u hu => .bind .looks_remaining fun n ts hts => ?_
      rw [hu, hts]
      exact ifRest_yields hs n u
    | kwWhile =>
      rw [(Token.terminal_eq_kind rfl).2 hk]
      refine .advance (by rintro _ rfl; simp) fun u hu => ?_
      refine .bind expression_derives fun test ts ht => .bind (block_yields hs) fun b us hb => .pure ?_
      obtain ⟨hne, bs, hb, rfl⟩ := hb
      rw [hu]
      simpa using Stmt.derives_whileLoop ht hne hb
    | kwFor =>
      rw [(Token.terminal_eq_kind rfl).2 hk]
      refine .advance (by rintro _ rfl; simp) fun u hu => .bind .ident fun x ts hts => ?_
      refine .bind (.expect rfl (by decide)) fun _ us hus => ?_
      refine .bind expression_derives fun iter vs hi => .bind (block_yields hs) fun b ws hb => .pure ?_
      obtain ⟨hne, bs, hb, rfl⟩ := hb
      rw [hu, hts, hus]
      simpa using Stmt.derives_forLoop hi hne hb
    | indent => exact .fail
    | _ => exact exprStmt_yields.any

theorem stmt_yields {inFunction : Bool} : Yields (stmt inFunction) fun s ts => s.Derives Expr.Derives ts :=
  .bind .looks_remaining fun n ts hts => by
    subst hts
    exact stmtAt_yields n

/-! ## Definitions -/

theorem looks_isAtDeclaration : Looks isAtDeclaration :=
  .bind .looks_peek fun _ _ hts => .bind .looks_isAtVarDef fun _ _ hus => .pure (by rw [hts, hus]; rfl)

theorem declaration_yields : Yields declaration fun d ts => ts = d.terminals := by
  refine .take rfl (by decide) ?_ (.take rfl (by decide) ?_ ?_)
  · exact .bind .ident fun x ts hts => .bind (.expect rfl (by decide)) fun _ us hus => .pure (by
      rw [hts, hus]; rfl)
  · exact .bind .ident fun x ts hts => .bind (.expect rfl (by decide)) fun _ us hus => .pure (by
      rw [hts, hus]; rfl)
  · exact .bind varDef_yields fun d ts hts => .pure (by rw [hts, List.append_nil]; rfl)

theorem bodyStmt_yields : Yields bodyStmt fun s ts => s.Derives Expr.Derives ts :=
  .bind looks_isAtDeclaration fun _ ts hts => by
    subst hts
    exact .ite .fail stmt_yields

theorem returnType_yields : Yields returnType fun t ts => ts = returnTerminals t :=
  .take rfl (by decide) (.bind type_yields fun t ts hts => .pure (by rw [hts, List.append_nil]; rfl))
    (.pure rfl)

theorem funcDef_yields : Yields funcDef fun f ts => f.Derives Expr.Derives ts := by
  refine .bind (.expect rfl (by decide)) fun _ t₁ h₁ => .bind .ident fun name t₂ h₂ => ?_
  refine .bind (.expect rfl (by decide)) fun paren t₃ h₃ => ?_
  refine .bind (.commaList typedVar_yields) fun params t₄ h₄ => ?_
  refine .bind (.expect rfl (by decide)) fun _ t₅ h₅ => .bind returnType_yields fun ret t₆ h₆ => ?_
  refine .bind (.expect rfl (by decide)) fun _ t₇ h₇ => .bind (.expect rfl (by decide)) fun _ t₈ h₈ => ?_
  refine .bind indent_yields fun _ t₉ h₉ => .bind .looks_remaining fun n t₀ h₀ => ?_
  refine .bind (repeatWhile_yields looks_isAtDeclaration declaration_yields n) fun declarations ds hds => ?_
  refine .bind .looks_remaining fun m us hus => ?_
  refine .bind (repeatWhile_yields looks_inBody bodyStmt_yields m) fun body bs hbs => ?_
  refine .bind lastSpan_yields fun _ ls hls => .bind (.expect rfl (by decide)) fun _ es hes => .pure ?_
  obtain ⟨items, rfl, rfl, hitems⟩ := h₄
  obtain ⟨rfl, hne⟩ := hls
  refine ⟨hne, bs, hbs, ?_⟩
  have hparams : items.map Prod.snd = (items.map Prod.fst).map TypedVar.terminals := by
    rw [List.map_map]
    exact List.map_congr_left hitems
  rw [h₁, h₂, h₃, h₅, h₆, h₇, h₈, h₉, h₀, hds.eq_flatMap, hus, hes, hparams]
  simp [FuncDef.headTerminals, inBlock]

theorem looks_isAtDefinition : Looks isAtDefinition :=
  .bind .looks_isAtVarDef fun _ _ hts => .bind .looks_isAt fun _ _ hus => .pure (by rw [hts, hus]; rfl)

theorem definition_yields : Yields definition fun d ts => d.Derives Expr.Derives ts :=
  .bind .looks_isAtVarDef fun _ ts hts => by
    subst hts
    exact .ite (.bind varDef_yields fun _ _ h => .pure (by rw [List.append_nil]; exact h))
      (.bind funcDef_yields fun _ _ h => .pure (by rw [List.append_nil]; exact h))

theorem topStmt_yields : Yields topStmt fun s ts => s.Derives Expr.Derives ts :=
  .bind looks_isAtDefinition fun _ ts hts => by
    subst hts
    exact .ite .fail stmt_yields

theorem statements_reads : ∀ {n : Nat} {ts : List Terminal}, ts.length ≤ n + 1 →
    Reads (repeatWhile beforeEnd topStmt n) ts fun ss read rest =>
      AllDerive (Stmt.Derives Expr.Derives) ss read ∧ rest = [.kind .eof]
  | 0, ts, hn => by
    intro c ss c' hc h
    cases h
    exact ⟨[], ts, rfl, hc, .nil, hc.eq_eof hn⟩
  | n + 1, ts, hn => by
    intro c ss c' hc h
    obtain ⟨t, us, rfl⟩ := hc.exists_cons
    obtain ⟨b, c₁, hb, h⟩ := run_bind_eq_ok.1 h
    cases hb
    split_ifs at h with hk
    · obtain ⟨s, c₁, hs, h⟩ := run_bind_eq_ok.1 h
      obtain ⟨ss', c₂, hss, h⟩ := run_bind_eq_ok.1 h
      cases h
      obtain ⟨read, rest, he, hc₁, hs⟩ := topStmt_yields hc trivial hs
      have hlen := congrArg List.length he
      have hpos := List.length_pos_of_ne_nil hs.ne_nil
      rw [List.length_append] at hlen
      obtain ⟨more, _, rfl, hc₂, hss, rfl⟩ := statements_reads (by omega) hc₁ hss
      exact ⟨read ++ more, _, by rw [he, List.append_assoc], hc₂, .cons hs hss, rfl⟩
    · cases h
      have ht := (hc.kind_iff rfl).1 (by simpa using hk)
      rw [ht] at hc ⊢
      obtain rfl := hc.eq_nil
      exact ⟨[], _, rfl, hc, .nil, rfl⟩

/-- A program is all there is up to the end. -/
theorem program_reads {ts : List Terminal} :
    Reads program ts fun p _ rest => p.Derives Expr.Derives ts ∧ rest = [.kind .eof] := by
  intro c p c' hc h
  obtain ⟨_, _, hn, h⟩ := run_bind_eq_ok.1 h
  cases hn
  obtain ⟨ds, c₁, hds, h⟩ := run_bind_eq_ok.1 h
  obtain ⟨us, rest, rfl, hc₁, hds⟩ :=
    Reads.ofYields (repeatWhile_yields looks_isAtDefinition definition_yields _) hc hds
  obtain ⟨_, _, hn, h⟩ := run_bind_eq_ok.1 h
  cases hn
  obtain ⟨ss, c₂, hss, h⟩ := run_bind_eq_ok.1 h
  cases h
  obtain ⟨vs, rest, rfl, hc₂, hss, rfl⟩ := statements_reads (Nat.le_of_eq hc₁.length) hc₁ hss
  have hts := (List.append_assoc us vs [.kind .eof]).symm
  exact ⟨us ++ vs, _, hts, hc₂, ⟨us, vs, hds, hss, hts⟩, rfl⟩

theorem program_derives {c c' : Cursor} {p : Program Tag} {ts : List Terminal} (hc : c.At ts)
    (h : program c = .ok p c') : p.Derives Expr.Derives ts := by
  obtain ⟨_, _, -, -, hp, -⟩ := program_reads hc h
  exact hp

end Parse

/-! ## Programs -/

/-- A text that is parsed consists of exactly the tokens of the tree that comes out. -/
theorem parseProgram_derives {names : NameTable} {source : String} {p : Program Tag}
    (h : (parseProgram names source).1 = .ok p) :
    ∃ tokens, readTokens source = .ok tokens ∧
      p.Derives Expr.Derives (tokens.map Token.terminal) ∧ p.IsFormed := by
  obtain ⟨tokens, c, htokens, hstart, hrun⟩ := parseWith_eq_ok h
  have hp := Parse.program_derives hstart hrun
  exact ⟨tokens, htokens, hp, hp.isFormed (parseProgram_gives h)⟩

def signProgram : String :=
  "def f(x: int) -> int:\n  if x < 0:\n    return -1\n  elif (x) != 0:\n    return 1\n" ++
    "  return 0\na = b = f((2))\n"

theorem signProgram_derives : ∃ p, (parseProgram .initial signProgram).1 = .ok p ∧
    ∃ tokens, readTokens signProgram = .ok tokens ∧
      p.Derives Expr.Derives (tokens.map Token.terminal) ∧ p.IsFormed := by
  have h : (parseProgram .initial signProgram).1.toOption.isSome = true := by decide +kernel
  obtain ⟨p, hp⟩ := Option.isSome_iff_exists.1 h
  have hp := toOption_eq_some.1 hp
  exact ⟨p, hp, parseProgram_derives hp⟩

/-! ## The names of a program -/

theorem Declaration.name_mem {d : Declaration τ} {x : String} (h : d.varName? = some x) : .name x ∈ d.terminals := by
  cases d with
  | var d =>
    cases h
    exact List.mem_cons_self ..
  | global | nonlocal => cases h

theorem Definition.Derives.name_mem {E : Expr τ → List Terminal → Prop} {d : Definition τ} {ts : List Terminal}
    (h : d.Derives E ts) : ∀ x ∈ d.names, .name x ∈ ts := by
  intro x hx
  cases d with
  | var d =>
    obtain rfl := h
    rw [List.mem_singleton.1 hx]
    exact List.mem_cons_self ..
  | func f =>
    obtain ⟨-, us, -, rfl⟩ := h
    rcases List.mem_cons.1 hx with rfl | hx
    · simp [FuncDef.headTerminals]
    rcases List.mem_append.1 hx with hx | hx
    · obtain ⟨v, hv, rfl⟩ := List.mem_map.1 hx
      have hname : .name v.name.name ∈ v.terminals := List.mem_cons_self ..
      have hparams := Parse.mem_commas_of_mem hname (List.mem_map_of_mem hv)
      simp [FuncDef.headTerminals, hparams]
    · obtain ⟨d, hd, hx⟩ := List.mem_filterMap.1 hx
      have hdecls := List.mem_flatMap.2 ⟨d, hd, Declaration.name_mem hx⟩
      simp [inBlock, List.mem_flatMap.1 hdecls]

/-- The names that a program defines are spelled by tokens of its source. -/
theorem parseProgram_spelled {names : NameTable} {source : String} {p : Program Tag}
    (h : (parseProgram names source).1 = .ok p) : ∃ tokens, readTokens source = .ok tokens ∧
      ∀ x ∈ p.names, ∃ t ∈ tokens, t.kind = .identifier ∧ t.name = x := by
  obtain ⟨tokens, c, htokens, hstart, hrun⟩ := parseWith_eq_ok h
  obtain ⟨us, vs, ⟨items, hds, rfl, hitems⟩, -, hts⟩ := Parse.program_derives hstart hrun
  refine ⟨tokens, htokens, fun x hx => ?_⟩
  obtain ⟨d, hd, hx⟩ := List.mem_flatMap.1 hx
  rw [hds] at hd
  obtain ⟨i, hi, rfl⟩ := List.mem_map.1 hd
  have hmem : .name x ∈ tokens.map Token.terminal := by
    rw [hts]
    exact List.mem_append_left _ (List.mem_append_left _ (List.mem_flatMap.2 ⟨i, hi, (hitems i hi).name_mem x hx⟩))
  obtain ⟨t, ht, hname⟩ := List.mem_map.1 hmem
  exact ⟨t, ht, Token.terminal_eq_name.1 hname⟩

theorem parseProgram_names {names : NameTable} {source : String} {p : Program Tag}
    (h : (parseProgram names source).1 = .ok p) : ∀ x ∈ p.names, IsWord x := by
  obtain ⟨tokens, htokens, hnames⟩ := parseProgram_spelled h
  intro x hx
  obtain ⟨t, ht, hk, rfl⟩ := hnames x hx
  exact readTokens_spelled htokens t ht hk

end ChocoCompiler
